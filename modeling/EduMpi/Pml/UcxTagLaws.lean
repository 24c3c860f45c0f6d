import EduMpi.Lib.Fields
import EduMpi.Pml.UcxTag

/-! The matching of UCX on these tags is the matching of MPI. -/

namespace EduMpi.Ucx

open Fields
open BitVec (ofInt toNat_ofInt)

/-- A message that is sent, within the widths of the fields. -/
structure Send where
  tag : Int
  rank : Nat
  context : Nat
  tag_mem : -2 ^ 23 ≤ tag ∧ tag < 2 ^ 23
  rank_lt : rank < 2 ^ 20
  context_lt : context < 2 ^ 20

/-- A receive, within the widths of the fields. -/
structure Recv where
  tag : Int
  source : Int
  context : Nat
  tag_mem : -2 ^ 23 ≤ tag ∧ tag < 2 ^ 23
  source_mem : source = anySource ∨ 0 ≤ source ∧ source < 2 ^ 20
  context_lt : context < 2 ^ 20

def Send.word (send : Send) : BitVec 64 := makeSendTag send.tag send.rank send.context

def Recv.pattern (recv : Recv) : RecvTag := makeRecvTag recv.tag recv.source recv.context

/-- The matching rule of MPI; an open tag takes no message with a negative one. -/
def Recv.Accepts (recv : Recv) (send : Send) : Prop :=
  send.context = recv.context ∧ (recv.source = anySource ∨ send.rank = recv.source) ∧
    (recv.tag ≠ anyTag ∧ send.tag = recv.tag ∨ recv.tag = anyTag ∧ 0 ≤ send.tag)

/-- What a status says of the sender. -/
def Status.Names (status : Status) (send : Send) : Prop :=
  status.source = send.rank ∧ status.tag = send.tag

/-- UCX takes the messages that MPI asks for, and both functions read off the sender. -/
structure TagRight (send : Send) (recv : Recv) : Prop where
  matches_iff : recv.pattern.Matches send.word ↔ recv.Accepts send
  decodes : recv.pattern.Matches send.word → ∀ status ucpStatus length,
    ucpStatus = .ok ∨ ucpStatus = .messageTruncated →
      (setRecvStatus status ucpStatus ⟨send.word, length⟩).Names send ∧
        (setRecvStatusPublic status ucpStatus ⟨send.word, length⟩).1.Names send

section Word

variable {tag : Int} {rank context : Nat}

/-- The fields of a tag side by side. -/
theorem toNat_makeSendTag (rank_lt : rank < 2 ^ 20) (context_lt : context < 2 ^ 20) :
    (makeSendTag tag rank context).toNat
      = (tag % 2 ^ 24).toNat * 2 ^ 40 + rank * 2 ^ 20 + context := by
  have low : (ofInt 64 (context : Int)).toNat = context := by
    rw [toNat_ofInt]
    omega
  have middle : (ofInt 64 (rank : Int)).toNat = rank := by
    rw [toNat_ofInt]
    omega
  have lower : (ofInt 64 (rank : Int) <<< 20 ||| ofInt 64 (context : Int)).toNat
      = rank * 2 ^ 20 + context := by
    rw [toNat_shiftLeft_or (by omega), middle]
    omega
  rw [makeSendTag, BitVec.or_assoc, toNat_shiftLeft_or (by omega), toNat_ofInt]
  omega

/-- A receive names the source in the same place, and the tag unless it is open. -/
theorem toNat_makeRecvTag {src : Int} (context_lt : context < 2 ^ 20) :
    (makeRecvTag tag src context).tag.toNat
      = (if tag = anyTag then 0 else (tag % 2 ^ 24).toNat) * 2 ^ 40 + (src % 2 ^ 20).toNat * 2 ^ 20
        + context := by
  have low : (ofInt 64 (context : Int)).toNat = context := by
    rw [toNat_ofInt]
    omega
  have middle : (ofInt 64 src &&& rankMask).toNat = (src % 2 ^ 20).toNat := by
    rw [BitVec.toNat_and, toNat_ofInt]
    exact (Nat.and_two_pow_sub_one_eq_mod _ 20).trans (by omega)
  have lower : ((ofInt 64 src &&& rankMask) <<< 20 ||| ofInt 64 (context : Int)).toNat
      = (src % 2 ^ 20).toNat * 2 ^ 20 + context := by
    rw [toNat_shiftLeft_or (by omega), middle]
    omega
  unfold makeRecvTag
  by_cases open_ : tag = anyTag
  · simp only [open_, ne_eq, not_true_eq_false, if_false, if_true, lower, Nat.zero_mul,
      Nat.zero_add]
  · simp only [open_, ne_eq, not_false_eq_true, if_true, if_false]
    rw [BitVec.or_comm, toNat_shiftLeft_or (by omega), toNat_ofInt]
    omega

/-- The mask compares the tag or its sign, and the source or not. -/
theorem mask_makeRecvTag {src index : Int} :
    (makeRecvTag tag src index).mask
      = outer 64 (if tag = anyTag then 63 else 40) (if src = anySource then 20 else 40) := by
  unfold makeRecvTag
  by_cases open_ : tag = anyTag
  · by_cases anyone : src = anySource
    · simp only [open_, anyone, ne_eq, not_true_eq_false, if_false]
      decide
    · simp only [open_, anyone, ne_eq, not_true_eq_false, if_false]
      decide
  · by_cases anyone : src = anySource
    · simp only [open_, anyone, ne_eq, not_false_eq_true, if_true]
      decide
    · simp only [open_, anyone, ne_eq, not_false_eq_true, if_true]
      decide

end Word

section Matching

/-- The parts of a word that the masks compare. -/
theorem parts {t r c : Nat} (r_lt : r < 2 ^ 20) (c_lt : c < 2 ^ 20) :
    (t * 2 ^ 40 + r * 2 ^ 20 + c) / 2 ^ 63 = t / 2 ^ 23 ∧
      (t * 2 ^ 40 + r * 2 ^ 20 + c) / 2 ^ 40 = t ∧
      (t * 2 ^ 40 + r * 2 ^ 20 + c) % 2 ^ 40 = r * 2 ^ 20 + c ∧
      (t * 2 ^ 40 + r * 2 ^ 20 + c) % 2 ^ 20 = c := by
  omega

/-- Tags within their width are the same if their fields are. -/
theorem tag_field {a b : Int} (low : -2 ^ 23 ≤ a) (high : a < 2 ^ 23) (low' : -2 ^ 23 ≤ b)
    (high' : b < 2 ^ 23) : (a % 2 ^ 24).toNat = (b % 2 ^ 24).toNat ↔ a = b := by
  omega

/-- The first bit of the field is the sign. -/
theorem tag_sign {a : Int} (low : -2 ^ 23 ≤ a) (high : a < 2 ^ 23) :
    (a % 2 ^ 24).toNat / 2 ^ 23 = 0 ↔ 0 ≤ a := by
  omega

/-- A message is taken exactly when the matching rule says so. -/
theorem matches_iff_accepts (send : Send) (recv : Recv) :
    recv.pattern.Matches send.word ↔ recv.Accepts send := by
  have ⟨tagLow, tagHigh⟩ := send.tag_mem
  have ⟨openLow, openHigh⟩ := recv.tag_mem
  have rank_lt := send.rank_lt
  have source_mem := recv.source_mem
  have context_lt := send.context_lt
  have context_lt' := recv.context_lt
  have source_lt : (recv.source % 2 ^ 20).toNat < 2 ^ 20 := by omega
  have sign := tag_sign tagLow tagHigh
  have field := tag_field tagLow tagHigh openLow openHigh
  have sent : send.word.toNat = _ := toNat_makeSendTag send.rank_lt send.context_lt
  have asked : recv.pattern.tag.toNat = _ := toNat_makeRecvTag recv.context_lt
  rw [RecvTag.Matches, show recv.pattern.mask = _ from mask_makeRecvTag,
    and_outer_eq_iff (by split <;> decide), sent, asked, Recv.Accepts]
  unfold anySource anyTag at *
  -- An open tag is compared by its sign, an open source not at all.
  by_cases open_ : recv.tag = -1
  · by_cases anyone : recv.source = -1
    · simp only [open_, anyone, if_true, true_or, true_and, ne_eq, not_true_eq_false, false_and,
        false_or]
      omega
    · simp only [open_, anyone, if_true, if_false, true_and, ne_eq, not_true_eq_false, false_and,
        false_or]
      omega
  · by_cases anyone : recv.source = -1
    · simp only [open_, anyone, if_true, if_false, true_or, true_and,
        false_and, or_false]
      rw [(parts rank_lt context_lt).2.1, (parts rank_lt context_lt).2.2.2,
        (parts (by decide) context_lt').2.1, (parts (by decide) context_lt').2.2.2, field]
      omega
    · simp only [open_, anyone, if_false, true_and, ne_eq, not_false_eq_true, false_and, false_or,
        or_false]
      rw [(parts rank_lt context_lt).2.1, (parts rank_lt context_lt).2.2.1,
        (parts source_lt context_lt').2.1, (parts source_lt context_lt').2.2.1, field]
      omega

end Matching

section Decode

variable (send : Send) {ucpStatus : UcsStatus}

theorem toCInt_eq (word : BitVec 64) :
    toCInt word = ((word.toNat : Int) + 2 ^ 31) % 2 ^ 32 - 2 ^ 31 := by
  rw [toCInt, BitVec.toInt_setWidth, Int.bmod_def]
  split <;> omega

theorem toNat_rankMask (word : BitVec 64) : (word &&& rankMask).toNat = word.toNat % 2 ^ 20 := by
  exact Nat.and_two_pow_sub_one_eq_mod _ 20

theorem toNat_shiftUnsigned (word : BitVec 64) (n : Nat) :
    (shiftUnsigned word n).toNat = word.toNat / 2 ^ n := by
  rw [shiftUnsigned, BitVec.toNat_ushiftRight, Nat.shiftRight_eq_div_pow]

/-- The sign is shifted in. -/
theorem toNat_shiftSigned (word : BitVec 64) (n : Nat) :
    (shiftSigned word n).toNat = if 2 ^ 63 ≤ word.toNat then
      2 ^ 64 - 1 - (2 ^ 64 - 1 - word.toNat) / 2 ^ n else word.toNat / 2 ^ n := by
  rw [shiftSigned, BitVec.toNat_sshiftRight, BitVec.msb_eq_decide]
  simp only [decide_eq_true_eq, Nat.shiftRight_eq_div_pow]

theorem tagGetSource_signed : tagGetSource shiftSigned send.word = send.rank := by
  have rank_lt := send.rank_lt
  have context_lt := send.context_lt
  have sent : send.word.toNat = _ := toNat_makeSendTag send.rank_lt send.context_lt
  rw [tagGetSource, toCInt_eq, toNat_rankMask, toNat_shiftSigned]
  split <;> omega

/-- A signed word gives the tag back. -/
theorem tagGetMpiTag_signed : tagGetMpiTag shiftSigned send.word = send.tag := by
  have ⟨low, high⟩ := send.tag_mem
  have rank_lt := send.rank_lt
  have context_lt := send.context_lt
  have sent : send.word.toNat = _ := toNat_makeSendTag send.rank_lt send.context_lt
  rw [tagGetMpiTag, toCInt_eq, toNat_shiftSigned]
  split <;> omega

theorem tagGetSource_unsigned : tagGetSource shiftUnsigned send.word = send.rank := by
  have rank_lt := send.rank_lt
  have context_lt := send.context_lt
  have sent : send.word.toNat = _ := toNat_makeSendTag send.rank_lt send.context_lt
  rw [tagGetSource, toCInt_eq, toNat_rankMask, toNat_shiftUnsigned]
  omega

/-- An unsigned word gives the field back. -/
theorem tagGetMpiTag_unsigned : tagGetMpiTag shiftUnsigned send.word = send.tag % 2 ^ 24 := by
  have sent : send.word.toNat = _ := toNat_makeSendTag send.rank_lt send.context_lt
  rw [tagGetMpiTag, toCInt_eq, toNat_shiftUnsigned, sent, (parts send.rank_lt send.context_lt).2.1]
  omega

/-- The function for requests always names the sender. -/
theorem setRecvStatus_names (status : Status) (length : Nat)
    (received : ucpStatus = .ok ∨ ucpStatus = .messageTruncated) :
    (setRecvStatus status ucpStatus ⟨send.word, length⟩).Names send := by
  rcases received with rfl | rfl
  · exact ⟨tagGetSource_signed send, tagGetMpiTag_signed send⟩
  · exact ⟨tagGetSource_signed send, tagGetMpiTag_signed send⟩

/-- The function for public statuses names the sender of a tag that is not negative. -/
theorem setRecvStatusPublic_names_iff (status : Status) (length : Nat)
    (received : ucpStatus = .ok ∨ ucpStatus = .messageTruncated) :
    (setRecvStatusPublic status ucpStatus ⟨send.word, length⟩).1.Names send ↔ 0 ≤ send.tag := by
  have ⟨low, high⟩ := send.tag_mem
  have field : send.tag % 2 ^ 24 = send.tag ↔ 0 ≤ send.tag := by omega
  rw [← field, ← tagGetMpiTag_unsigned]
  rcases received with rfl | rfl
  · exact and_iff_right (tagGetSource_unsigned send)
  · exact and_iff_right (tagGetSource_unsigned send)

end Decode

/-- The tags of UCX serve the matching of MPI, and both functions decode the sender, exactly when
the receive does not take the message or its tag is not negative. -/
theorem ucx_tag_iff (send : Send) (recv : Recv) :
    TagRight send recv ↔ ¬ recv.Accepts send ∨ 0 ≤ send.tag := by
  have rule := matches_iff_accepts send recv
  constructor
  · intro right
    by_cases taken : recv.Accepts send
    · right
      have both := right.decodes (rule.mpr taken) ⟨0, 0, .success, 0, false⟩ .ok 0 (.inl rfl)
      exact (setRecvStatusPublic_names_iff send _ 0 (.inl rfl)).mp both.2
    · exact .inl taken
  · intro either
    refine ⟨rule, fun taken status ucpStatus length received => ?_⟩
    have natural := either.resolve_left (not_not.mpr (rule.mp taken))
    exact ⟨setRecvStatus_names send status length received,
      (setRecvStatusPublic_names_iff send status length received).mpr natural⟩

/-- A message of a collective operation: its negative tag is decoded as a large one. -/
theorem negativeTag_misread :
    (makeRecvTag (-5) 3 1).Matches (makeSendTag (-5) 3 1) ∧
      (setRecvStatus ⟨0, 0, .success, 0, false⟩ .ok ⟨makeSendTag (-5) 3 1, 0⟩).tag = -5 ∧
      (setRecvStatusPublic ⟨0, 0, .success, 0, false⟩ .ok ⟨makeSendTag (-5) 3 1, 0⟩).1.tag
        = 16777211 := by
  decide

end EduMpi.Ucx
