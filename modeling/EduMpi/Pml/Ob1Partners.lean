import EduMpi.Trace.CopyRow

/-! The partner bitmap that the sends of a collective leave in its entry. -/

namespace EduMpi.Ob1

open Bytes
open List (all_eq_true mem_of_getElem? getElem?_set foldl_cons forall_mem_cons
  getElem?_replicate)

/-- A send to a peer that has an endpoint. -/
structure Send where
  count : UInt64
  typeSize : Int32
  /-- The data are packed bytes. -/
  packed : Bool
  vpid : UInt32

/-- An entry, and the memory behind its bitmap: its own later fields and what follows them. -/
structure Slot where
  item : QEntry
  behind : Memory

/-- What a send adds to the sizes of its entry. -/
def addSizes (send : Send) (item : QEntry) : QEntry :=
  { item with
    sendcount := item.sendcount + Int32.ofNat send.count.toNat
    sendDatasize := item.sendDatasize
      + (if send.packed then send.count else send.count * send.typeSize.toInt64.toUInt64).toInt64 }

/-- The bit of a peer is set at its place in the bitmap; nothing keeps the place inside. -/
def setPartner (vpid : UInt32) (slot : Slot) : Slot :=
  let index := vpid.toNat / 8
  let bit := UInt8.ofNat (1 <<< (vpid.toNat % 8))
  let ranks := slot.item.collPartnerranks
  if inside : index < 50 then
    { slot with
      item := { slot.item with collPartnerranks := ranks.set index (ranks[index] ||| bit) } }
  else { slot with behind := slot.behind.assign (index - 50) (slot.behind (index - 50) ||| bit) }

/-- What a send, blocking or not, stores into the sizes and the partners of its entry. Its mode, its eager flag and its times are stored elsewhere. -/
def recordSend (slot : Slot) (send : Send) : Slot :=
  let slot := { slot with item := addSizes send slot.item }
  if textOf slot.item.communicationType = cText "collective" then setPartner send.vpid slot
  else slot

/-- The entry of a collective, as its wrapper fills it. -/
def collectiveEntry (process : Process) (args : EntryArgs) (slot : QEntry) (ticket : Nat) :
    QEntry :=
  initQentry process { args with commType := "collective", commTypeLen := 10 }
    (edumpiEntryReset slot ticket)

/-- The bit of a rank in an array of bytes; there is none behind its end. -/
def bitAt (bytes : List UInt8) (rank : Nat) : Bool :=
  bytes[rank / 8]?.any (·.toNat.testBit (rank % 8))

theorem bitAt_bitmapOf {item : QEntry}
    (collective : textOf item.communicationType = cText "collective") (rank : Nat) :
    bitAt (bitmapOf item) rank = bitAt item.collPartnerranks.toList rank := by
  unfold bitmapOf
  split
  · next empty =>
    -- An empty column stands for a bitmap of zeros.
    have zeros := empty.resolve_left (not_not_intro collective)
    rw [all_eq_true] at zeros
    cases found : item.collPartnerranks.toList[rank / 8]? with
    | none => simp [bitAt, found]
    | some byte =>
      have zero := of_decide_eq_true (zeros byte (mem_of_getElem? found))
      simp [bitAt, found, zero]
  · rfl

theorem bitAt_lt {ranks : Vector UInt8 50} {rank : Nat} (set : bitAt ranks.toList rank = true) :
    rank < 400 := by
  obtain ⟨byte, found, -⟩ := (Option.any_eq_true _ _).mp set
  have inside := (List.getElem?_eq_some_iff.mp found).1
  rw [Vector.length_toList] at inside
  omega

private theorem testBit_shifted : ∀ k < 8, ∀ j < 8, (1 <<< k % 256).testBit j = decide (k = j) := by
  decide

section Sends

variable {slot : Slot} {send : Send} {sends : List Send}
  (collective : textOf slot.item.communicationType = cText "collective")

include collective

theorem recordSend_eq : recordSend slot send
    = setPartner send.vpid { slot with item := addSizes send slot.item } :=
  if_pos collective

theorem recordSend_collective :
    textOf (recordSend slot send).item.communicationType = cText "collective" := by
  rw [recordSend_eq collective, setPartner]
  dsimp only
  split <;> exact collective

/-- A send sets the bit of its peer and no other, if the peer has one. -/
theorem bitAt_recordSend {rank : Nat} (small : rank < 400) :
    bitAt (recordSend slot send).item.collPartnerranks.toList rank
      = (bitAt slot.item.collPartnerranks.toList rank || decide (send.vpid.toNat = rank)) := by
  rw [recordSend_eq collective, setPartner]
  dsimp only [addSizes]
  split
  · next inside =>
    rw [Vector.toList_set, bitAt, bitAt, getElem?_set]
    by_cases same : send.vpid.toNat / 8 = rank / 8
    · -- Within one byte the ranks differ in the place of their bit.
      have place : send.vpid.toNat % 8 = rank % 8 ↔ send.vpid.toNat = rank := by omega
      have set := testBit_shifted (send.vpid.toNat % 8) (by omega) (rank % 8) (by omega)
      rw [same] at inside
      simp [same, place, set, inside]
    · have differ : send.vpid.toNat ≠ rank := fun equal => same (equal ▸ rfl)
      simp [same, differ]
  · have differ : send.vpid.toNat ≠ rank := by omega
    simp [differ]

/-- A send to a peer with a bit changes nothing but the sizes and the bitmap. -/
theorem recordSend_frame (small : send.vpid.toNat < 400) (ranks : Vector UInt8 50) :
    { (recordSend slot send).item with collPartnerranks := ranks }
        = addSizes send { slot.item with collPartnerranks := ranks }
      ∧ (recordSend slot send).behind = slot.behind := by
  rw [recordSend_eq collective, setPartner]
  dsimp only
  rw [dif_pos (by omega)]
  exact ⟨rfl, rfl⟩

theorem foldl_collective :
    textOf (sends.foldl recordSend slot).item.communicationType = cText "collective" := by
  induction sends generalizing slot with
  | nil => exact collective
  | cons send rest ih => exact ih (recordSend_collective collective)

theorem bitAt_foldl {rank : Nat} (small : rank < 400) :
    bitAt (sends.foldl recordSend slot).item.collPartnerranks.toList rank = true
      ↔ bitAt slot.item.collPartnerranks.toList rank = true
        ∨ ∃ send ∈ sends, send.vpid.toNat = rank := by
  induction sends generalizing slot with
  | nil => simp
  | cons send rest ih =>
    rw [foldl_cons, ih (recordSend_collective collective), bitAt_recordSend collective small]
    simp [or_assoc]

theorem foldl_frame (small : ∀ send ∈ sends, send.vpid.toNat < 400) (ranks : Vector UInt8 50) :
    { (sends.foldl recordSend slot).item with collPartnerranks := ranks }
        = sends.foldl (fun item send => addSizes send item)
            { slot.item with collPartnerranks := ranks }
      ∧ (sends.foldl recordSend slot).behind = slot.behind := by
  induction sends generalizing slot with
  | nil => exact ⟨rfl, rfl⟩
  | cons send rest ih =>
    rw [forall_mem_cons] at small
    obtain ⟨item, behind⟩ := recordSend_frame collective small.1 ranks
    rw [foldl_cons, foldl_cons, ← item, ← behind]
    exact ih (recordSend_collective collective) small.2

end Sends

/-- The bitmap of a collective shows exactly the peers it sent to, and nothing else in memory is
touched for it, exactly when all of them have world ranks below four hundred. -/
theorem partner_bitmap_exact_iff (process : Process) (args : EntryArgs) (slot : QEntry)
    (ticket : Nat) (behind : Memory) (sends : List Send) :
    let item := collectiveEntry process args slot ticket
    let after := sends.foldl recordSend ⟨item, behind⟩
    let plain := sends.foldl (fun item send => addSizes send item) item
    ((∀ rank, bitAt (bitmapOf after.item) rank = true ↔ ∃ send ∈ sends, send.vpid.toNat = rank)
        ∧ { after.item with collPartnerranks := item.collPartnerranks } = plain
        ∧ after.behind = behind)
      ↔ ∀ send ∈ sends, send.vpid.toNat < 400 := by
  intro item
  have collective : textOf item.communicationType = cText "collective" := by
    change textOf (memcpy (Vector.replicate 30 0) (cText "collective") 10) = _
    decide +kernel
  have clear : item.collPartnerranks = Vector.replicate 50 0 := rfl
  clear_value item
  intro after plain
  have column : ∀ rank, bitAt (bitmapOf after.item) rank
      = bitAt after.item.collPartnerranks.toList rank :=
    bitAt_bitmapOf (foldl_collective collective)
  constructor
  · rintro ⟨shows, -⟩ send sent
    -- The column ends at the rank four hundred, so a peer behind it has no bit.
    have set := (shows _).mpr ⟨send, sent, rfl⟩
    rw [column] at set
    exact bitAt_lt set
  · intro small
    refine ⟨fun rank => ?_, foldl_frame collective small item.collPartnerranks⟩
    rw [column]
    have before : bitAt item.collPartnerranks.toList rank = false := by
      rw [clear, bitAt, Vector.toList_replicate, getElem?_replicate]
      split <;> simp
    constructor
    · intro set
      have sent := (bitAt_foldl collective (bitAt_lt set)).mp set
      simpa [before] using sent
    · rintro ⟨send, sent, rfl⟩
      exact (bitAt_foldl collective (small send sent)).mpr (.inr ⟨send, sent, rfl⟩)

/-- A send to the rank four hundred leaves the column empty and writes behind the bitmap. -/
theorem partner_behind_bitmap :
    let args : EntryArgs := ⟨0, "MPI_Bcast", 9, 0, 0, "", 0, none, none, .world, 1, none⟩
    let item := collectiveEntry ⟨0, [], 500⟩ args QEntry.zero 0
    let after := [Send.mk 1 4 false 400].foldl recordSend ⟨item, fun _ => 0⟩
    bitmapOf after.item = [] ∧ after.behind 0 = 1 := by
  decide +kernel

end EduMpi.Ob1
