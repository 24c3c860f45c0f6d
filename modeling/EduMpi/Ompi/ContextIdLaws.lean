import EduMpi.Ompi.ContextId
import EduMpi.Opal.PointerArrayLaws

/-! What one process of the negotiation has reserved at each point, and what the processes know of
each other through the reductions. -/

namespace EduMpi.Ompi

open Allreduce Ints Opal Option
open Function (update update_eq_self update_eq_self_iff update_idem update_of_ne update_self)

/-- The slots of a table, before and after. -/
abbrev Slots := Nat → Option CommPtr

section Tables

variable {cfg : CidConfig} {table : PointerArray CommPtr} {p : CidProc} {index : Nat}

/-- A table whose records agree and that has room for all context ids. -/
structure Ready (cfg : CidConfig) (table : PointerArray CommPtr) : Prop where
  inv : table.Inv
  room : (cfg.maxContextid : Int) < table.maxSize
  counts : (cfg.maxContextid : Int) + 1 + table.blockSize ≤ intMax

theorem Ready.of_limits {after : PointerArray CommPtr} (ready : Ready cfg table)
    (inv : after.Inv) (same : after.bounds = table.bounds) : Ready cfg after := by
  obtain ⟨sizes, blocks⟩ := Prod.ext_iff.mp (congrArg Prod.fst same)
  exact ⟨inv, (show after.maxSize = _ from sizes) ▸ ready.room,
    (show after.blockSize = _ from blocks) ▸ ready.counts⟩

/-- The growth of the table to a context id stays in `int`. -/
theorem Ready.fits (ready : Ready cfg table) (below : index ≤ cfg.maxContextid) :
    table.size ≤ index → (index : Int) + 1 + table.blockSize ≤ intMax :=
  fun _ => le_trans (by omega) ready.counts

theorem Ready.testAndSet (ready : Ready cfg table) (below : index ≤ cfg.maxContextid)
    (c : CommPtr) :
    (table.value index = none → ∃ after, table.testAndSetItem index (some c) = some (true, after) ∧
        Ready cfg after ∧ after.value = update table.value index (some c)) ∧
      (table.value index ≠ none → table.testAndSetItem index (some c) = some (false, table)) := by
  obtain ⟨taken, after, ran, records, limits, free, stored, kept⟩ :=
    ready.inv.testAndSetItem (some c) (ready.fits below) ready.inv.used_eq_false
  have room := ready.room
  cases taken with
  | true =>
    obtain ⟨value, used⟩ := stored rfl
    exact ⟨fun _ => ⟨after, ran, ready.of_limits (ready.inv.updated records value used) limits, value⟩,
      fun used => absurd (free.mp rfl).1 used⟩
  | false =>
    rw [kept rfl] at ran
    refine ⟨fun none => ?_, fun _ => ran⟩
    exact absurd (free.mpr ⟨none, .inr (by omega)⟩) Bool.false_ne_true

theorem Ready.setSlot (ready : Ready cfg p.table) (below : index ≤ cfg.maxContextid)
    (v : Option CommPtr) :
    ∃ after, p.setSlot index v = some { p with table := after } ∧ Ready cfg after ∧
      after.value = update p.table.value index v := by
  obtain ⟨rc, after, ran, records, limits, succeeds, stored, -⟩ := ready.inv.setItem (index : Int) v
    (fun _ => le_trans (by omega) ready.counts) (ready.inv.filled _)
  have room := ready.room
  obtain ⟨value, used⟩ := stored (succeeds.mpr ⟨by omega, .inr (by omega)⟩)
  exact ⟨after, by simp [CidProc.setSlot, ran],
    ready.of_limits (ready.inv.updated records value used) limits, value⟩

theorem Ready.testAndClear (ready : Ready cfg p.table) (below : index ≤ cfg.maxContextid) :
    ∃ after, p.testAndClear index = some { p with table := after } ∧
      after.value = p.table.value := by
  obtain ⟨taken, after, ran, -, -, free, stored, kept⟩ :=
    ready.inv.testAndSetItem none (ready.fits below) ready.inv.used_eq_false
  refine ⟨after, by simp [CidProc.testAndClear, ran], ?_⟩
  cases taken with
  | false => rw [kept rfl]
  | true => rw [(stored rfl).1, update_eq_self_iff, (free.mp rfl).1]

/-- The search reserves a free slot if there is one. -/
theorem Ready.reserve (ready : Ready cfg table) {list : List Nat}
    (below : ∀ i ∈ list, i ≤ cfg.maxContextid) :
    (∃ i ∈ list, table.value i = none ∧
        ∃ after, reserve table list = some (some i, after) ∧ Ready cfg after ∧
          after.value = update table.value i (some .sentinel)) ∨
      (∀ i ∈ list, table.value i ≠ none) ∧ reserve table list = some (none, table) := by
  induction list with
  | nil => exact .inr ⟨by simp, rfl⟩
  | cons i list ih =>
    obtain ⟨takes, passes⟩ := ready.testAndSet (below i List.mem_cons_self) .sentinel
    by_cases free : table.value i = none
    · obtain ⟨after, ran, next, stored⟩ := takes free
      refine .inl ⟨i, List.mem_cons_self, free, after, ?_, next, stored⟩
      simp [Ompi.reserve, ran]
    -- A slot in use changes nothing, and the search goes on.
    have onward : Ompi.reserve table (i :: list) = Ompi.reserve table list := by
      simp [Ompi.reserve, passes free]
    rw [onward]
    rcases ih fun j later => below j (List.mem_cons_of_mem i later) with found | missing
    · obtain ⟨k, later, here, rest⟩ := found
      exact .inl ⟨k, List.mem_cons_of_mem i later, here, rest⟩
    · exact .inr ⟨List.forall_mem_cons.mpr ⟨free, missing.1⟩, missing.2⟩

end Tables

section Process

variable {cfg : CidConfig} {f : Slots} {p q : CidProc} {starts : Bool} {slot : Nat}

/-- What a process brings into the negotiation and keeps. -/
def CidProc.role (p : CidProc) : Bool × Nat × Int := (p.participate, p.newcomm, p.myId)

/-- A process whose table and counters are in order. -/
structure Able (cfg : CidConfig) (p : CidProc) : Prop where
  table : Ready cfg p.table
  start : 0 ≤ p.start
  epoch : 1 ≤ p.cidEpoch

/-- A slot that can be proposed is free. -/
def CanPropose (cfg : CidConfig) (p : CidProc) : Prop :=
  ∃ i : Nat, p.start ≤ i ∧ i < cfg.maxContextid ∧ p.table.value i = none

/-- No epoch is left for another communicator. -/
def EpochsSpent (cfg : CidConfig) (p : CidProc) : Prop := cfg.ft = true ∧ p.cidEpoch - 1 = 0

instance (cfg : CidConfig) (p : CidProc) : Decidable (EpochsSpent cfg p) :=
  inferInstanceAs (Decidable (_ ∧ _))

theorem Able.reserve (able : Able cfg p) :
    (CanPropose cfg p ∧ ∃ (i : Nat) (after : PointerArray CommPtr),
        i < cfg.maxContextid ∧ p.table.value i = none ∧
          reserve p.table (p.slots cfg) = some (some i, after) ∧ Ready cfg after ∧
          after.value = update p.table.value i (some .sentinel)) ∨
      ¬ CanPropose cfg p ∧ reserve p.table (p.slots cfg) = some (none, p.table) := by
  have tried (i : Nat) : i ∈ p.slots cfg ↔ p.start ≤ i ∧ i < cfg.maxContextid := by
    rw [CidProc.slots, List.mem_range'_1]
    omega
  rcases able.table.reserve fun i listed => ((tried i).mp listed).2.le with found | missing
  · obtain ⟨i, listed, free, after, rest⟩ := found
    obtain ⟨low, high⟩ := (tried i).mp listed
    exact .inl ⟨⟨i, low, high, free⟩, i, after, high, free, rest⟩
  · refine .inr ⟨?_, missing.2⟩
    rintro ⟨i, low, high, free⟩
    exact missing.1 i ((tried i).mpr ⟨low, high⟩) free

/-- Before a proposal the table is as it was when the negotiation began. -/
structure Idle (cfg : CidConfig) (f : Slots) (p : CidProc) : Prop where
  able : Able cfg p
  contents : p.table.value = f
  unlocked : p.myId ≤ p.lowestId

/-- Behind a proposal a participant has reserved the slot that it proposed. -/
structure Reserved (cfg : CidConfig) (f : Slots) (p : CidProc) : Prop where
  able : Able cfg p
  locked : p.lowestId = p.myId
  epoch : cfg.ft = true → 0 < p.nextcidEpoch
  bounds : 0 ≤ p.nextlocalCid ∧ p.nextlocalCid < cfg.maxContextid
  outside : p.participate = false → p.table.value = f
  own : p.participate = true → ∃ slot : Nat, p.nextlocalCid = slot ∧ f slot = none ∧
    p.table.value = update f slot (some .sentinel)

theorem update_ne_self {c : CommPtr} (free : f slot = none) : update f slot (some c) ≠ f := by
  intro same
  have here := congrFun same slot
  rw [update_self, free] at here
  cases here

/-- What a process has proposed. -/
structure Proposal (cfg : CidConfig) (p : CidProc) (flag : Bool) (q : CidProc) : Prop where
  role : q.role = p.role
  able : Able cfg q
  lowestId : q.lowestId = p.lowestId
  epoch : cfg.ft = true → ¬ (p.participate = true ∧ EpochsSpent cfg p) → 0 < q.nextcidEpoch
  outside : p.participate = false →
    flag = false ∧ q.table.value = p.table.value ∧ q.nextlocalCid = 0
  found : p.participate = true → CanPropose cfg p → flag = true ∧ ∃ slot : Nat,
    slot < cfg.maxContextid ∧ p.table.value slot = none ∧
    q.table.value = update p.table.value slot (some .sentinel) ∧
    q.nextlocalCid = if EpochsSpent cfg p then (cfg.maxContextid : Int) else (slot : Int)
  missing : p.participate = true → ¬ CanPropose cfg p →
    flag = false ∧ q.table.value = p.table.value ∧ q.nextlocalCid = cfg.maxContextid

theorem Able.propose (able : Able cfg p) :
    ∃ flag q, p.propose cfg = some (flag, q) ∧ Proposal cfg p flag q := by
  have epoch := able.epoch
  unfold CidProc.propose
  by_cases part : p.participate = true
  · rw [if_pos part]
    -- The epoch counts down, so it is positive until it is spent.
    have positive (unspent : ¬ EpochsSpent cfg p) (ft : cfg.ft = true) : 0 < p.cidEpoch - 1 := by
      have : ¬ p.cidEpoch - 1 = 0 := fun zero => unspent ⟨ft, zero⟩
      omega
    rcases able.reserve with ⟨can, i, after, high, free, ran, ready, stored⟩ | ⟨cannot, ran⟩
    · simp only [ran]
      refine ⟨_, _, rfl, rfl, ⟨ready, able.start, epoch⟩, rfl, ?_, ?_, ?_, ?_⟩
      · exact fun ft unspent => positive (fun spent => unspent ⟨part, spent⟩) ft
      · exact fun not => absurd (part.symm.trans not) Bool.true_eq_false.mp
      · exact fun _ _ => ⟨rfl, i, high, free, stored, rfl⟩
      · exact fun _ cannot => absurd can cannot
    · simp only [ran, bind_eq_bind, bind_some, ite_self]
      refine ⟨_, _, rfl, rfl, { able with epoch := epoch }, rfl, ?_, ?_, ?_, ?_⟩
      · exact fun ft unspent => positive (fun spent => unspent ⟨part, spent⟩) ft
      · exact fun not => absurd (part.symm.trans not) Bool.true_eq_false.mp
      · exact fun _ can => absurd can cannot
      · exact fun _ _ => ⟨rfl, rfl, rfl⟩
  · -- Others contribute the smallest value.
    rw [if_neg part]
    refine ⟨_, _, rfl, rfl, { able with epoch := epoch }, rfl, fun _ _ => by simp [intMax],
      fun _ => ⟨rfl, rfl, rfl⟩, fun yes => absurd yes part, fun yes => absurd yes part⟩

/-- The exit on an error resets the lock and changes no slot. -/
theorem Able.errExit (able : Able cfg p) (place : p.nextlocalCid = slot)
    (below : slot ≤ cfg.maxContextid) (flag : Bool) :
    ∃ q, p.errExit flag = some (.failed, q) ∧ q.role = p.role ∧ q.lowestId = int64Max ∧
      q.table.value = p.table.value ∧ q.nextlocalCid = p.nextlocalCid := by
  obtain ⟨after, clears, same⟩ := able.table.testAndClear (p := p) below
  rw [← place] at clears
  unfold CidProc.errExit
  by_cases back : p.participate = true ∧ flag = true
  · rw [if_pos back, clears]
    exact ⟨_, rfl, rfl, rfl, same, rfl⟩
  · rw [if_neg back]
    exact ⟨_, rfl, rfl, rfl, rfl, rfl⟩

/-- What becomes of a process that proposes: it waits, or it leaves the negotiation. -/
inductive Proposes (cfg : CidConfig) (f : Slots) (p : CidProc) (starts : Bool) :
    CidOutcome → CidProc → Prop where
  | waits {q : CidProc} : starts = true → Reserved cfg f q →
      (p.participate = true → CanPropose cfg p ∧ ¬ EpochsSpent cfg p) →
      Proposes cfg f p starts .waits q
  | leaves {q : CidProc} : q.lowestId = int64Max →
      (q.table.value = f ↔ p.participate = false ∨ ¬ CanPropose cfg p) →
      (starts = true → q.nextlocalCid = cfg.maxContextid ∧
        (p.participate = true → ¬ CanPropose cfg p ∨ EpochsSpent cfg p) ∧
        (p.participate = false → cfg.maxContextid = 0)) →
      Proposes cfg f p starts .failed q

/-- A proposal reserves a slot, or ends the negotiation for the process; then a slot that was
found stays reserved. -/
theorem Idle.getnextcid (idle : Idle cfg f p) (starts : Bool) :
    ∃ outcome q, p.getnextcid cfg starts = some (outcome, q) ∧ q.role = p.role ∧
      Proposes cfg f p starts outcome q := by
  have able : Able cfg { p with lowestId := p.myId } :=
    { idle.able with }
  obtain ⟨flag, q, ran, proposal⟩ := able.propose
  have role : q.role = p.role := proposal.role
  have part : q.participate = p.participate := congrArg Prod.fst role
  have contents : ({ p with lowestId := p.myId } : CidProc).table.value = f := idle.contents
  have locked : q.lowestId = q.myId := by
    rw [proposal.lowestId]
    exact (congrArg (fun r => r.2.2) role).symm
  have unlocked : ¬ p.lowestId < p.myId := not_lt.mpr idle.unlocked
  unfold CidProc.getnextcid
  simp only [if_neg unlocked, ran, bind_eq_bind, bind_some]
  -- Whatever was reserved stays so if the process leaves.
  have leaves {slot : Nat} (place : q.nextlocalCid = slot) (below : slot ≤ cfg.maxContextid)
      (stays : q.table.value = f ↔ p.participate = false ∨ ¬ CanPropose cfg p)
      (why : starts = true → q.nextlocalCid = cfg.maxContextid ∧
        (p.participate = true → ¬ CanPropose cfg p ∨ EpochsSpent cfg p) ∧
        (p.participate = false → cfg.maxContextid = 0)) :
      ∃ outcome q', q.errExit flag = some (outcome, q') ∧ q'.role = p.role ∧
        Proposes cfg f p starts outcome q' := by
    obtain ⟨q', exits, role', reset, kept, number⟩ := proposal.able.errExit place below flag
    exact ⟨_, _, exits, role'.trans role, .leaves reset (kept ▸ stays) (number ▸ why)⟩
  by_cases takes : p.participate = true
  · -- By whether the process takes part, and whether it can still propose.
    by_cases can : CanPropose cfg p
    · obtain ⟨-, slot, high, free, stored, number⟩ := proposal.found takes can
      rw [contents] at free stored
      have changed : q.table.value ≠ f := stored ▸ update_ne_self free
      have stays : q.table.value = f ↔ p.participate = false ∨ ¬ CanPropose cfg p := by
        simp [changed, takes, can]
      by_cases spent : EpochsSpent cfg p
      · replace number := number.trans (if_pos spent)
        rw [if_neg fun joins => joins.2 number]
        exact leaves number le_rfl stays fun _ => ⟨number, fun _ => .inr spent, by simp [takes]⟩
      replace number := number.trans (if_neg spent)
      cases starts with
      | false =>
        exact leaves number high.le stays nofun
      | true =>
        rw [if_pos ⟨rfl, by omega⟩]
        refine ⟨_, _, rfl, role, .waits rfl ?_ fun _ => ⟨can, spent⟩⟩
        exact ⟨proposal.able, locked, fun ft => proposal.epoch ft fun both => spent both.2,
          by omega, fun not => by simp [part, takes] at not, fun _ => ⟨slot, number, free, stored⟩⟩
    · -- Nothing was found, and nothing is to be given back.
      obtain ⟨-, kept, number⟩ := proposal.missing takes can
      rw [contents] at kept
      rw [if_neg fun joins => joins.2 number]
      exact leaves number le_rfl (by simp [kept, can]) fun _ =>
        ⟨number, fun _ => .inl can, by simp [takes]⟩
  · have not : p.participate = false := by simpa using takes
    obtain ⟨-, kept, number⟩ := proposal.outside not
    rw [contents] at kept
    by_cases joins : starts = true ∧ q.nextlocalCid ≠ cfg.maxContextid
    · rw [if_pos joins]
      refine ⟨_, _, rfl, role, .waits joins.1 ?_ fun yes => absurd yes takes⟩
      exact ⟨proposal.able, locked, fun ft => proposal.epoch ft fun both => takes both.1,
        by omega, fun _ => kept, fun yes => absurd (part ▸ yes) takes⟩
    · rw [if_neg joins]
      refine @leaves 0 number (Nat.zero_le _) (by simp [kept, not]) fun started => ?_
      have full : q.nextlocalCid = cfg.maxContextid := by simpa [started] using joins
      exact ⟨full, fun yes => absurd yes takes, fun _ => by omega⟩

/-- Behind its flag a participant has reserved the slot of the largest proposal, or none. -/
structure Flagged (cfg : CidConfig) (f : Slots) (p : CidProc) : Prop where
  able : Able cfg p
  locked : p.lowestId = p.myId
  flags : 0 ≤ p.flag
  place : ∃ slot : Nat, p.nextcid = slot ∧ slot ≤ cfg.maxContextid ∧
    (p.participate = true → p.flag ≠ 0 →
      f slot = none ∧ p.table.value = update f slot (some .sentinel))
  kept : p.participate = false ∨ p.flag = 0 → p.table.value = f

/-- An epoch in the place of a flag does not change what the flag says. -/
theorem withEpoch_flag (epoch : cfg.ft = true → 0 < p.nextcidEpoch) (low : 0 ≤ p.flag) :
    ((p.withEpoch cfg).flag = 0 ↔ p.flag = 0) ∧ 0 ≤ (p.withEpoch cfg).flag := by
  unfold CidProc.withEpoch
  simp only
  split
  · rename_i both
    have := epoch both.1
    omega
  · omega

/-- A participant moves its reservation to the largest proposal if it can. -/
theorem Reserved.tryNextcid (reserved : Reserved cfg f p) (below : slot ≤ cfg.maxContextid) :
    ∃ q, CidProc.tryNextcid { p with nextcid := slot } = some q ∧ q.role = p.role ∧
      q.nextlocalCid = p.nextlocalCid ∧ q.nextcidEpoch = p.nextcidEpoch ∧ Flagged cfg f q ∧
      q.nextcid = slot ∧
      (q.flag = 0 ↔ p.participate = true ∧ (slot : Int) ≠ p.nextlocalCid ∧
        p.table.value slot ≠ none) := by
  have able := reserved.able
  unfold CidProc.tryNextcid
  by_cases part : p.participate = true
  · obtain ⟨own, number, free, contents⟩ := reserved.own part
    have bound := reserved.bounds
    rw [if_neg (by simp [part])]
    by_cases same : (slot : Int) = p.nextlocalCid
    · -- The own proposal was the largest one.
      rw [if_pos same]
      refine ⟨_, rfl, rfl, rfl, rfl, ⟨{ able with }, reserved.locked,
        by simp, ⟨slot, rfl, below, fun _ _ => ?_⟩, ?_⟩, rfl, by simp [same]⟩
      · obtain rfl : slot = own := by omega
        exact ⟨free, contents⟩
      · simp [part]
    · -- Another proposal was larger: the own slot is given back.
      rw [if_neg same]
      have other : slot ≠ own := by omega
      obtain ⟨released, releases, ready, back⟩ :=
        able.table.setSlot (p := { p with nextcid := (slot : Int) })
          (show own ≤ cfg.maxContextid by omega) none
      have emptied : released.value = f := by
        rw [back]
        rw [contents, update_idem, ← free, update_eq_self]
      have unchanged : p.table.value slot = f slot := by
        rw [contents, update_of_ne other]
      rw [← number] at releases
      simp only [releases, bind_eq_bind]
      obtain ⟨takes, refuses⟩ := ready.testAndSet below .sentinel
      rw [unchanged]
      by_cases open_ : f slot = none
      · obtain ⟨after, ran, ready', stored⟩ := takes (emptied ▸ open_)
        simp only [ran, bind_some]
        refine ⟨_, rfl, rfl, rfl, rfl, ⟨{ able with table := ready' }, reserved.locked, by simp,
          ⟨slot, rfl, below, fun _ _ => ⟨open_, emptied ▸ stored⟩⟩, ?_⟩, rfl, by simp [open_]⟩
        simp [part]
      · simp only [refuses (emptied ▸ open_), bind_some]
        refine ⟨_, rfl, rfl, rfl, rfl, ⟨{ able with table := ready }, reserved.locked, by simp,
          ⟨slot, rfl, below, ?_⟩, fun _ => emptied⟩, rfl, by simp [open_, part, same]⟩
        simp
  · -- A process that does not take part reserves nothing.
    have not : p.participate = false := by simpa using part
    rw [if_pos (by simp [not])]
    exact ⟨_, rfl, rfl, rfl, rfl, ⟨{ able with }, reserved.locked, by simp,
      ⟨slot, rfl, below, fun yes => absurd yes part⟩, fun _ => reserved.outside not⟩, rfl,
      by simp [not]⟩

theorem Flagged.withEpoch (flagged : Flagged cfg f p)
    (epoch : cfg.ft = true → 0 < p.nextcidEpoch) : Flagged cfg f (p.withEpoch cfg) := by
  obtain ⟨zero, low⟩ := withEpoch_flag epoch flagged.flags
  obtain ⟨slot, number, below, held⟩ := flagged.place
  refine ⟨{ flagged.able with }, flagged.locked, low,
    ⟨slot, number, below, fun part set => held part (mt zero.mpr set)⟩, fun either => ?_⟩
  exact flagged.kept (either.imp_right zero.mp)

/-- A process that knows the largest proposal flags it; if it cannot say so it leaves, and a slot
that it holds stays reserved. -/
theorem Reserved.checkcid (reserved : Reserved cfg f p) (below : slot ≤ cfg.maxContextid) :
    ∃ q, p.checkcid cfg (some slot) true = some (.waits, q) ∧ q.role = p.role ∧
      Flagged cfg f q ∧ q.nextcid = slot ∧
      (q.flag = 0 ↔ p.participate = true ∧ (slot : Int) ≠ p.nextlocalCid ∧
        p.table.value slot ≠ none) ∧
      ∃ q', p.checkcid cfg (some slot) false = some (.failed, q') ∧ q'.role = p.role ∧
        q'.lowestId = int64Max ∧ (q'.table.value = f ↔ p.participate = false ∨ q.flag = 0) := by
  obtain ⟨q, ran, role, number, epochs, flagged, agreed, refused⟩ := reserved.tryNextcid below
  have epoch : cfg.ft = true → 0 < q.nextcidEpoch := epochs ▸ reserved.epoch
  have zero := (withEpoch_flag epoch flagged.flags).1
  have final := flagged.withEpoch epoch
  have part : q.participate = p.participate := congrArg Prod.fst role
  obtain ⟨own, place⟩ := Int.eq_ofNat_of_zero_le reserved.bounds.1
  have high := reserved.bounds.2
  obtain ⟨q', exits, role', reset, kept, -⟩ := final.able.errExit
    (show (q.withEpoch cfg).nextlocalCid = own from number.trans place) (by omega)
    ((q.withEpoch cfg).flag ≠ 0)
  unfold CidProc.checkcid
  simp only [ran, if_true, Bool.false_eq_true, if_false]
  refine ⟨_, rfl, role, final, agreed, zero.trans refused, q', exits, role'.trans role, reset, ?_⟩
  rw [kept]
  constructor
  · intro same
    -- Otherwise the slot that was reserved would be left in the table.
    by_contra neither
    obtain ⟨takes, set⟩ := not_or.mp neither
    obtain ⟨s, -, -, held⟩ := final.place
    have held := held (part.trans (by simpa using takes)) set
    exact update_ne_self held.1 (held.2 ▸ same)
  · exact fun either => final.kept (either.imp_left fun not => part.trans not)

/-- An error of the first reduction gives the slot back and keeps the lock. -/
theorem Reserved.checkcid_error (reserved : Reserved cfg f p) (starts : Bool) :
    ∃ q, p.checkcid cfg none starts = some (.failed, q) ∧ q.role = p.role ∧
      q.lowestId = p.lowestId := by
  obtain ⟨own, place⟩ := Int.eq_ofNat_of_zero_le reserved.bounds.1
  have high := reserved.bounds.2
  obtain ⟨after, releases, -⟩ := reserved.able.table.setSlot (show own ≤ cfg.maxContextid by omega) none
  rw [← place] at releases
  unfold CidProc.checkcid
  by_cases part : p.participate = true
  · simp only [if_pos part, releases]
    exact ⟨_, rfl, rfl, rfl⟩
  · simp only [if_neg part]
    exact ⟨_, rfl, rfl, rfl⟩

/-- The slot of a process without a part is one that it finds free, or the limit. -/
theorem Flagged.ownSlot (flagged : Flagged cfg f p) (not : p.participate = false) :
    ∃ (q : CidProc) (slot : Nat), p.ownSlot cfg = some q ∧ q.role = p.role ∧ Ready cfg q.table ∧
      q.nextcid = slot ∧ slot ≤ cfg.maxContextid ∧
      (CanPropose cfg p → f slot = none ∧ slot < cfg.maxContextid ∧
        q.table.value = update f slot (some .sentinel)) ∧
      (¬ CanPropose cfg p → slot = cfg.maxContextid ∧ q.table.value = f) := by
  have contents := flagged.kept (.inl not)
  unfold CidProc.ownSlot
  rw [if_neg (by simp [not])]
  rcases flagged.able.reserve with ⟨can, i, after, high, free, ran, ready, stored⟩ | ⟨cannot, ran⟩
  · simp only [ran]
    rw [contents] at free stored
    exact ⟨_, i, rfl, rfl, ready, rfl, high.le, fun _ => ⟨free, high, stored⟩,
      fun cannot => absurd can cannot⟩
  · simp only [ran]
    exact ⟨_, cfg.maxContextid, rfl, rfl, flagged.able.table, rfl, le_rfl,
      fun can => absurd can cannot, fun _ => ⟨rfl, contents⟩⟩

/-- The new communicator has the slot that was agreed on, or the one that its process found. -/
structure Adopted (cfg : CidConfig) (f : Slots) (p q : CidProc) (slot : Nat) : Prop where
  role : q.role = p.role
  index : q.cIndex = some (slot : Int)
  contents : q.table.value = update f slot (some (.comm p.newcomm))
  agreed : p.participate = true → p.nextcid = slot ∧ f slot = none
  found : p.participate = false → CanPropose cfg p → f slot = none ∧ slot < cfg.maxContextid
  last : p.participate = false → ¬ CanPropose cfg p →
    slot = cfg.maxContextid ∧ p.table.value = f

theorem Flagged.adopts (flagged : Flagged cfg f p) {rflag : Int} (agreed : rflag ≠ 0)
    (mine : p.participate = true → p.flag ≠ 0) :
    ∃ (q : CidProc) (slot : Nat), p.nextcidCheckFlag cfg (some rflag) = some (.done, q) ∧
      Adopted cfg f p q slot := by
  unfold CidProc.nextcidCheckFlag
  simp only [if_pos agreed]
  by_cases part : p.participate = true
  · -- The reserved slot becomes the communicator's.
    obtain ⟨slot, number, below, held⟩ := flagged.place
    obtain ⟨free, contents⟩ := held part (mine part)
    have own : p.ownSlot cfg = some p := if_pos part
    obtain ⟨after, stores, -, stored⟩ :=
      flagged.able.table.setSlot below (some (.comm p.newcomm))
    rw [← number] at stores
    simp only [own, bind_eq_bind, bind_some, CidProc.adopt, stores]
    refine ⟨_, slot, rfl, rfl, congrArg some number, ?_, fun _ => ⟨number, free⟩, ?_, ?_⟩
    · rw [stored, contents, update_idem]
    · simp [part]
    · simp [part]
  · -- Without a free slot below it the limit itself is used, whatever it holds.
    have not : p.participate = false := by simpa using part
    obtain ⟨q, slot, own, role, ready, number, below, can, cannot⟩ := flagged.ownSlot not
    have name : q.newcomm = p.newcomm := congrArg (fun r => r.2.1) role
    obtain ⟨after, stores, -, stored⟩ := ready.setSlot below (some (.comm q.newcomm))
    rw [← number] at stores
    simp only [own, bind_eq_bind, bind_some, CidProc.adopt, stores]
    refine ⟨_, slot, rfl, role, congrArg some number, ?_, fun yes => absurd yes part,
      fun _ free => ⟨(can free).1, (can free).2.1⟩,
      fun _ full => ⟨(cannot full).1, flagged.kept (.inl not)⟩⟩
    rw [stored, name]
    by_cases free : CanPropose cfg p
    · rw [(can free).2.2, update_idem]
    · rw [(cannot free).2]

/-- Without agreement the table is again as it was. -/
theorem Flagged.givesBack (flagged : Flagged cfg f p) :
    ∃ q, p.nextcidCheckFlag cfg (some 0) = some (.again, q) ∧ q.role = p.role ∧ Idle cfg f q := by
  have able := flagged.able
  unfold CidProc.nextcidCheckFlag CidProc.giveBack
  by_cases held : p.participate = true ∧ ¬ p.flag = 0
  · obtain ⟨slot, number, below, holds⟩ := flagged.place
    obtain ⟨free, contents⟩ := holds held.1 held.2
    obtain ⟨after, releases, ready, back⟩ := able.table.setSlot below none
    rw [← number] at releases
    simp only [if_pos held, releases]
    refine ⟨_, rfl, rfl, ⟨ready, ?_, able.epoch⟩, ?_, flagged.locked.ge⟩
    · simp only
      omega
    · rw [back, contents, update_idem, ← free, update_eq_self]
  · rw [if_neg held]
    refine ⟨_, rfl, rfl, able, flagged.kept ?_, flagged.locked.ge⟩
    by_cases part : p.participate = true
    · exact .inr (by simpa [part] using held)
    · exact .inl (by simpa using part)

/-- An error of the second reduction keeps the lock. -/
theorem Flagged.checkFlag_error (flagged : Flagged cfg f p) :
    ∃ q, p.nextcidCheckFlag cfg none = some (.failed, q) ∧ q.role = p.role ∧
      q.lowestId = p.lowestId := by
  obtain ⟨slot, number, below, -⟩ := flagged.place
  obtain ⟨after, releases, -⟩ := flagged.able.table.setSlot below none
  rw [← number] at releases
  unfold CidProc.nextcidCheckFlag
  by_cases part : p.participate = true
  · simp only [if_pos part, releases]
    exact ⟨_, rfl, rfl, rfl⟩
  · simp only [if_neg part]
    exact ⟨_, rfl, rfl, rfl⟩

end Process

end EduMpi.Ompi
