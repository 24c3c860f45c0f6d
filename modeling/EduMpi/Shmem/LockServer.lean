import EduMpi.Lib.Ints

/-! The PE that keeps a lock, found from the offset of the lock in its segment. -/

namespace EduMpi.Shmem

open Ints

/-- A segment of the symmetric heap. -/
structure Segment where
  vaBase : Nat
  vaEnd : Nat
deriving DecidableEq

def Segment.isVaIn (s : Segment) (va : Nat) : Bool := s.vaBase ≤ va ∧ va < s.vaEnd

/-- `memheap_find_va`. -/
def memheapFindVa (memSegs : List Segment) (va : Nat) : Option Segment :=
  memSegs.find? (·.isVaIn va)

/-- `shmem_lock_get_server`; for a lock that is in no segment the program is aborted. -/
def shmemLockGetServer (memSegs : List Segment) (nPes : Int) (lock : Nat) : Option Int :=
  (memheapFindVa memSegs lock).map fun s =>
    -- The cast to `int` comes before the division.
    ((int32 (sizeT (lock - s.vaBase))).tdiv 8).tmod nPes

/-- The truncated remainder of a negative number is a PE only if it is zero. -/
theorem neg_tmod_mem_iff {m n : Int} (nonneg : 0 ≤ m) (positive : 1 ≤ n) :
    0 ≤ (-m).tmod n ∧ (-m).tmod n < n ↔ n ∣ m := by
  rw [Int.neg_tmod, Int.tmod_eq_emod_of_nonneg nonneg, Int.dvd_iff_emod_eq_zero]
  have := Int.emod_nonneg m (show n ≠ 0 by omega)
  omega

/-- Whether the server is a PE is decided by the lower half of the offset alone. -/
theorem server_mem_iff {offset n : Int} (positive : 1 ≤ n) :
    0 ≤ ((int32 (sizeT offset)).tdiv 8).tmod n ∧ ((int32 (sizeT offset)).tdiv 8).tmod n < n ↔
      offset % 2 ^ 32 < 2 ^ 31 ∨ n ∣ (2 ^ 32 - offset % 2 ^ 32) / 8 := by
  by_cases low : offset % 2 ^ 32 < 2 ^ 31
  · have value : int32 (sizeT offset) = offset % 2 ^ 32 := by
      unfold int32 sizeT
      omega
    rw [value, Int.tdiv_eq_ediv_of_nonneg (by omega), Int.tmod_eq_emod_of_nonneg (by omega)]
    exact iff_of_true ⟨Int.emod_nonneg _ (by omega), Int.emod_lt_of_pos _ (by omega)⟩ (.inl low)
  · -- The upper half is negative as an `int`, and so are its quotients.
    have value : int32 (sizeT offset) = -(2 ^ 32 - offset % 2 ^ 32) := by
      unfold int32 sizeT
      omega
    rw [value, Int.neg_tdiv, Int.tdiv_eq_ediv_of_nonneg (by omega), or_iff_right low]
    exact neg_tmod_mem_iff (Int.ediv_nonneg (by omega) (by decide)) positive

/-- The server of a lock is a PE exactly if the offset is not negative as an `int` or its negative
quotient is a multiple of the number of PEs; and every PE finds the same one. -/
theorem lock_server_valid_iff (memSegs : List Segment) (nPes : Int) (lock : Nat) (s : Segment)
    (positive : 1 ≤ nPes) (found : memheapFindVa memSegs lock = some s) :
    ∃ pe, shmemLockGetServer memSegs nPes lock = some pe ∧
      (0 ≤ pe ∧ pe < nPes ↔ ((lock : Int) - s.vaBase) % 2 ^ 32 < 2 ^ 31 ∨
        nPes ∣ (2 ^ 32 - ((lock : Int) - s.vaBase) % 2 ^ 32) / 8) ∧
      ∀ memSegs' lock' s', memheapFindVa memSegs' lock' = some s' →
        (lock' : Int) - s'.vaBase = lock - s.vaBase →
        shmemLockGetServer memSegs' nPes lock' = some pe := by
  refine ⟨_, by rw [shmemLockGetServer, found]; rfl, server_mem_iff positive, ?_⟩
  intro memSegs' lock' s' found' same
  rw [shmemLockGetServer, found', ← same]
  rfl

/-- A lock in the first page of a segment is kept by a PE. -/
theorem near_lock_server :
    ∃ pe, shmemLockGetServer [⟨4096, 8192⟩] 3 4104 = some pe ∧ 0 ≤ pe ∧ pe < 3 := by
  obtain ⟨pe, server, valid, -⟩ := lock_server_valid_iff [⟨4096, 8192⟩] 3 4104 ⟨4096, 8192⟩
    (by decide) (by decide)
  exact ⟨pe, server, valid.mpr (.inl (by decide))⟩

/-- A lock two gibibytes behind the base of its segment is kept by no PE. -/
theorem far_lock_server :
    shmemLockGetServer [⟨4096, 4096 + 2 ^ 32⟩] 3 (4096 + 2 ^ 31) = some (-1) := by
  decide

end EduMpi.Shmem
