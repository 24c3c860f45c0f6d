import EduMpi.Trace.AmtHolding

/-! As long as claimants store only into entries they hold, an entry has no other writer. -/

namespace EduMpi.AmtRing

open Machine
open Function (update_of_ne update_self)

variable {K T : Type} [DecidableEq K] [DecidableEq T]

/-- Whoever stores was given the entry, and its ticket has not left. -/
def OwnStores (cfg : Config) (thread : K → T) (s : State K T) : Action K T → Prop
  | .store w p _ | .storeLifecycle w p _ =>
    p = s.given cfg thread w ∧ (s.claims w).answered = true ∧ s.leavingOf w = none
  | _ => True

/-- Since the last reset of a slot, only the claimant of its ticket has stored into it. -/
structure OnlyOwner (cfg : Config) (s : State K T) : Prop where
  slots : ∀ k h, (s.claims k).ticket = some h → s.left.length ≤ h → s.claims k ≠ .resetBody h →
    ∀ w ∈ s.writers (h % cfg.size), w = k
  left : ∀ r ∈ s.left, ∀ w ∈ r.writers, r.owner = some w

section Steps

variable {cfg : Config} {thread : K → T} {s t : State K T}

omit [DecidableEq K] [DecidableEq T] in
/-- A claimant signs the entry it holds. -/
theorem OnlyOwner.sign (only : OnlyOwner cfg s) (inv : Inv cfg s) {w : K}
    (answered : (s.claims w).answered = true) (here : s.leavingOf w = none) :
    OnlyOwner cfg (s.sign w (s.given cfg thread w)) := by
  refine ⟨?_, only.left⟩
  intro k h ticket live prepared writer among
  rcases ticket_of_answered cfg thread answered with ⟨h', mine, pointer⟩ | ⟨_, pointer⟩
  · rw [pointer] at among
    by_cases same : h % cfg.size = h' % cfg.size
    · have equal : k = w := by
        by_contra other
        exact inv.slot_ne mine ((leavingOf_eq_none_iff mine).mp here) ticket live other same
      simp only [State.sign, same, update_self, List.mem_cons] at among
      rcases among with rfl | before
      · exact equal.symm
      · exact only.slots k h ticket live prepared writer (same ▸ before)
    · simp only [State.sign, update_of_ne same] at among
      exact only.slots k h ticket live prepared writer among
  · rw [pointer] at among
    exact only.slots k h ticket live prepared writer among

omit [DecidableEq K] in
theorem OnlyOwner.assign (only : OnlyOwner cfg s) (p : Pointer T) (entry : QEntry) :
    OnlyOwner cfg (s.assign p entry) :=
  { only with }

/-- A claim starts the list of writers anew. -/
theorem OnlyOwner.claim (only : OnlyOwner cfg s) (inv : Inv cfg s) {k : K}
    (taken : edumpiAmtRingClaim cfg thread k s = some t) : OnlyOwner cfg t := by
  have gone := (claim_beside taken).left
  refine ⟨?_, gone ▸ only.left⟩
  intro k' h ticket live prepared writer among
  rw [gone] at live
  by_cases own : k' = k
  · subst own
    cases claim_cases taken with
    | take =>
      simp only [State.claimAt, update_self] at ticket prepared
      cases ticket
      exact absurd rfl prepared
    | resetBody =>
      simp only [State.claimAt, update_self] at ticket
      cases ticket
      simp at among
    | resetLifecycle standing | activate standing =>
      simp only [State.claimAt, update_self] at ticket
      cases ticket
      exact only.slots k' h (by rw [standing]; rfl) live (by rw [standing]; simp) writer among
    | _ =>
      simp only [State.claimAt, update_self] at ticket
      cases ticket
  · obtain ⟨claims, _, _⟩ := inv.claim_others taken own
    rw [claims] at ticket prepared
    refine only.slots k' h ticket live prepared writer ?_
    cases claim_cases taken with
    | resetBody standing =>
      have busy := congrArg ClaimPc.preparing standing
      have apart := inv.slot_ne (ClaimPc.ticket_of_preparing busy)
        (inv.slots.preparing k _ busy).1 ticket live own
      simpa [update_of_ne apart] using among
    | _ => exact among

omit [DecidableEq K] [DecidableEq T] in
/-- The oldest ticket leaves with the writers of its slot. -/
theorem OnlyOwner.leave (only : OnlyOwner cfg s) (inv : Inv cfg s)
    (looking : s.drain.looking = true) (emitted : Bool) : OnlyOwner cfg (s.leave cfg emitted) := by
  obtain ⟨k, owner, claim, held⟩ := inv.tail_owner looking
  constructor
  · intro k' h ticket live prepared writer among
    refine only.slots k' h ticket ?_ prepared writer among
    simp only [State.leave, List.length_append] at live
    omega
  · intro r among writer signed
    simp only [State.leave, List.mem_append, List.mem_singleton] at among
    rcases among with before | rfl
    · exact only.left r before writer signed
    obtain ⟨h, ticket, live, _⟩ := live_of_entryOf held
    rw [claim] at ticket
    cases ticket
    have own := only.slots k s.tail (by rw [claim]; rfl) live (by rw [claim]; simp) writer signed
    rw [own]
    exact owner

/-- Every access keeps the writers apart, if the stores are into entries that are held. -/
theorem onlyOwner_step (s : State K T) (a : Action K T) (t : State K T)
    (holds : Inv cfg s ∧ OnlyOwner cfg s) (own : OwnStores cfg thread s a)
    (taken : step cfg thread s a = some t) : Inv cfg t ∧ OnlyOwner cfg t := by
  obtain ⟨inv, only⟩ := holds
  refine ⟨inv_step s a t inv taken, ?_⟩
  cases a with
  | claim k => exact only.claim inv taken
  | store w p change | storeLifecycle w p word =>
    obtain ⟨rfl, answered, here⟩ := own
    cases taken
    exact OnlyOwner.sign (only.assign _ _) (inv.assign _ _) answered here
  | drainCall force max =>
    obtain ⟨-, rfl⟩ := step_drainCall_eq_some.mp taken
    exact { only with }
  | drain clock =>
    obtain same | ⟨standing, rfl⟩ | ⟨lc, standing, _, rfl⟩ := drain_cases taken
    · refine ⟨?_, same.left ▸ only.left⟩
      rw [same.claims, same.left, same.writers]
      exact only.slots
    · have left := only.leave inv (by rw [standing]; rfl) true
      exact { left with }
    · have looking : s.drain.looking = true := by rw [standing]; rfl
      have left := OnlyOwner.leave (only.assign (.slot (s.tailSlot cfg)) ((s.tailEntry cfg).withLifecycle
        (edumpiLc (lcTicket lc) .abandoned))) (inv.assign _ _) looking false
      exact { left with }

end Steps

end EduMpi.AmtRing
