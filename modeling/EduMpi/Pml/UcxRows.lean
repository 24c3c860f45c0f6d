import EduMpi.Pml.UcxRecvLaws

/-! The rows handed over for one call, counted over a whole run. -/

namespace EduMpi.Ucx

open AmtRing (ClaimPc Leaving)

variable {C T : Type} [DecidableEq C]

/-- What was handed over for a call, be it its own entry or a late one. -/
def State.rows (s : State C T) (c : C) : List (Leaving (Claimant C)) :=
  s.ring.left.filter fun r => r.emitted && decide (r.owner = some (.call c) ∨ r.owner = some (.late c))

/-- How often an event of a call was counted as dropped. -/
def State.drops (s : State C T) (c : C) : Nat :=
  (if (s.ring.claims (.call c)).dropped then 1 else 0)
    + if (s.ring.claims (.late c)).dropped then 1 else 0

/-- The call has returned, and whatever its receive had to write is written. -/
def State.resolved (s : State C T) (c : C) : Prop :=
  s.settled (.call c) ∧ (s.phase c = .lost → s.settled (.late c))

omit [DecidableEq C] in
instance (s : State C T) : DecidablePred s.resolved := fun c =>
  inferInstanceAs (Decidable (s.settled (.call c) ∧ (s.phase c = .lost → s.settled (.late c))))

section Rows

variable {cfg : Config C T} {s : State C T} {c : C} {r : Leaving (Claimant C)}

/-- The rows of a call are the records of its tickets that were handed over. -/
theorem Inv.mem_rows (inv : Inv cfg s) :
    r ∈ s.rows c ↔ r.emitted = true
      ∧ (s.ring.leavingOf (.call c) = some r ∨ s.ring.leavingOf (.late c) = some r) := by
  simp only [State.rows, List.mem_filter, Bool.and_eq_true, decide_eq_true_eq]
  constructor
  · rintro ⟨among, emitted, owner⟩
    exact ⟨emitted, owner.imp (inv.ring.inv.leavingOf_eq among) (inv.ring.inv.leavingOf_eq among)⟩
  · rintro ⟨emitted, gone⟩
    rcases gone with gone | gone
    · have found := inv.ring.inv.mem_of_leavingOf gone
      exact ⟨found.1, emitted, .inl found.2⟩
    · have found := inv.ring.inv.mem_of_leavingOf gone
      exact ⟨found.1, emitted, .inr found.2⟩

omit [DecidableEq C] in
/-- A late ticket is claimed only for an entry that was lost. -/
theorem Inv.lost_of_late (inv : Inv cfg s) (born : s.ring.claims (.late c) ≠ .unborn) :
    s.phase c = .lost := by
  have ok := inv.views c
  have lost : (s.completes c).phase = .lost := by
    by_contra other
    exact born (ok.lateUnborn other)
  have begun : s.completes c ≠ .none := by
    intro none
    simp [none] at lost
  have armed := ok.armed_of_begun begun
  exact (if_pos armed).trans lost

omit [DecidableEq C] in
theorem late_born_of_leavingOf (gone : s.ring.leavingOf (.late c) = some r) :
    s.ring.claims (.late c) ≠ .unborn := by
  intro unborn
  rw [AmtRing.leavingOf_of_none (by rw [unborn]; rfl)] at gone
  cases gone

/-- A call has at most one row. -/
theorem Inv.rows_le_one (inv : Inv cfg s) (c : C) : (s.rows c).length ≤ 1 := by
  refine inv.ring.inv.log.filter_le_one ?_
  intro r among r' among'
  -- An entry and a late entry are not both handed over.
  have apart : ∀ {r r' : Leaving (Claimant C)}, r.emitted = true →
      s.ring.leavingOf (.call c) = some r → s.ring.leavingOf (.late c) = some r' → False := by
    intro r r' emitted own late
    have lost := inv.lost_of_late (late_born_of_leavingOf late)
    have kept := ((inv.views c).left r own).1
    rw [show (s.view cfg c).phase = .lost from lost, emitted] at kept
    cases kept
  obtain ⟨emitted, gone⟩ := inv.mem_rows.mp among
  obtain ⟨emitted', gone'⟩ := inv.mem_rows.mp among'
  rcases gone with own | late <;> rcases gone' with own' | late'
  · exact Option.some.inj (own.symm.trans own')
  · exact (apart emitted own late').elim
  · exact (apart emitted' own' late).elim
  · exact Option.some.inj (late.symm.trans late')

omit [DecidableEq C] in
/-- A claim that was answered gave a slot or the scratch entry. -/
theorem ticket_or_scratch {pc : ClaimPc} (answered : pc.answered = true) :
    (∃ h, pc.ticket = some h) ∨ pc = .scratch := by
  cases pc <;> simp_all [ClaimPc.ticket]

/-- After everything is resolved and drained, a call that was not dropped has a row. -/
theorem Inv.rows_of_resolved (inv : Inv cfg s) (resolved : s.resolved c)
    (drained : s.ring.left.length = s.ring.head)
    (kept : s.ring.claims (.call c) ≠ .scratch) (lateKept : s.ring.claims (.late c) ≠ .scratch) :
    ∃ r, r ∈ s.rows c := by
  have ok := inv.views c
  obtain ⟨⟨returned, notWaiting, notFilling⟩, late⟩ := resolved
  have answered := ok.answered (by simp [returned]) (by simp [returned])
  obtain ⟨h, ticket⟩ := (ticket_or_scratch answered).resolve_right kept
  obtain ⟨r, gone⟩ := inv.ring.inv.leavingOf_of_drained drained ticket
  have emitted := (ok.left r gone).1
  rw [show (s.view cfg c).phase = s.phase c from rfl] at emitted
  cases phase : s.phase c with
  | unarmed | filled => exact ⟨r, inv.mem_rows.mpr ⟨by rw [emitted, phase]; rfl, .inl gone⟩⟩
  | waiting => exact absurd phase notWaiting
  | filling => exact absurd phase notFilling
  | lost =>
    have wrote : s.completes c = .wrote := late phase
    have lateAnswered := ok.lateAnswered (by rw [show (s.view cfg c).complete = .wrote from wrote]; rfl)
    obtain ⟨h', ticket'⟩ := (ticket_or_scratch lateAnswered).resolve_right lateKept
    obtain ⟨r', gone'⟩ := inv.ring.inv.leavingOf_of_drained drained ticket'
    exact ⟨r', inv.mem_rows.mpr ⟨ok.lateLeft r' gone', .inr gone'⟩⟩

end Rows

end EduMpi.Ucx
