import EduMpi.Trace.AmtRingLaws

/-! What a claimant of the ring holds: its entry while its ticket is in the ring, a record afterwards. -/

namespace EduMpi.AmtRing

open Function (update update_of_ne update_self)

variable {K T : Type}

/-- The entry of a claimant whose ticket has not left the ring. -/
def State.entryOf (cfg : Config) (s : State K T) (k : K) : Option QEntry :=
  match (s.claims k).ticket with
  | some h => if s.left.length ≤ h then some (s.slots (h % cfg.size)) else none
  | none => none

/-- How the ticket of a claimant left the ring. -/
def State.leavingOf (s : State K T) (k : K) : Option (Leaving K) :=
  match (s.claims k).ticket with
  | some h => s.left[h]?
  | none => none

/-- The call of the claim function has returned. -/
@[simp] def ClaimPc.answered : ClaimPc → Bool
  | .slot _ | .scratch => true
  | _ => false

/-- The number an entry's lifecycle word carries; a scratch entry has none. -/
def ClaimPc.number : ClaimPc → Nat
  | .slot h => h + 1
  | _ => 0

/-- What is left of an entry while it is being prepared, and what its claimant is given. -/
def ClaimPc.Fresh : ClaimPc → QEntry → Prop
  | .resetLifecycle _, e => e = e.clearBody
  | .activate h, e | .slot h, e => e = QEntry.zero.withLifecycle (edumpiLc (h + 1) .none)
  | _, _ => True

/-- No lifecycle word says that the receive of a ticket that has left is waiting. -/
def NoneWaiting (cfg : Config) (s : State K T) : Prop :=
  ∀ h < s.left.length, (s.slots (h % cfg.size)).lifecycle ≠ edumpiLc (h + 1) .pending

/-- The consumer exchanges a lifecycle word only after it read that a receive waits. -/
def ReadWaiting (s : State K T) : Prop :=
  ∀ lc, s.drain = .abandonExchange lc → lcState lc = .pending

/-- Nothing a claimant could hold is different. -/
structure SameHoldings (s t : State K T) : Prop where
  claims : t.claims = s.claims
  slots : t.slots = s.slots
  scratch : t.scratch = s.scratch
  left : t.left = s.left
  writers : t.writers = s.writers
  head : t.head = s.head

/-- What no producer touches is the same. -/
structure Beside (s t : State K T) : Prop where
  drain : t.drain = s.drain
  left : t.left = s.left
  tail : t.tail = s.tail
  force : t.force = s.force
  stalled : t.stalled = s.stalled
  stallSince : t.stallSince = s.stallSince
  owner : ∀ h < s.head, t.owner h = s.owner h

section Facts

variable {cfg : Config} {s t : State K T} {k : K} {h : Nat} {r : Leaving K}

theorem entryOf_of_none (ticket : (s.claims k).ticket = none) : s.entryOf cfg k = none := by
  rw [State.entryOf, ticket]

theorem leavingOf_of_none (ticket : (s.claims k).ticket = none) : s.leavingOf k = none := by
  rw [State.leavingOf, ticket]

section

variable (ticket : (s.claims k).ticket = some h)

include ticket

theorem entryOf_of_ticket :
    s.entryOf cfg k = if s.left.length ≤ h then some (s.slots (h % cfg.size)) else none := by
  rw [State.entryOf, ticket]

theorem leavingOf_of_ticket : s.leavingOf k = s.left[h]? := by
  rw [State.leavingOf, ticket]

/-- A claimant with a ticket holds its entry or its ticket has left. -/
theorem leavingOf_eq_none_iff : s.leavingOf k = none ↔ s.left.length ≤ h := by
  rw [leavingOf_of_ticket ticket, List.getElem?_eq_none_iff]

theorem entryOf_of_live (live : s.left.length ≤ h) :
    s.entryOf cfg k = some (s.slots (h % cfg.size)) := by
  rw [entryOf_of_ticket ticket, if_pos live]

end

/-- An entry that is held has a ticket in the ring. -/
theorem live_of_entryOf {e : QEntry} (held : s.entryOf cfg k = some e) :
    ∃ h, (s.claims k).ticket = some h ∧ s.left.length ≤ h ∧ s.slots (h % cfg.size) = e := by
  cases ticket : (s.claims k).ticket with
  | none => simp [entryOf_of_none ticket] at held
  | some h =>
    rw [entryOf_of_ticket ticket] at held
    split at held
    · exact ⟨h, rfl, by assumption, Option.some.inj held⟩
    · cases held

theorem leavingOf_eq_none_of_entryOf {e : QEntry} (held : s.entryOf cfg k = some e) :
    s.leavingOf k = none := by
  obtain ⟨h, ticket, live, _⟩ := live_of_entryOf held
  exact (leavingOf_eq_none_iff ticket).mpr live

/-- A ticket that left is in the list of what has left. -/
theorem left_of_leavingOf (gone : s.leavingOf k = some r) :
    ∃ h, (s.claims k).ticket = some h ∧ s.left[h]? = some r := by
  cases ticket : (s.claims k).ticket with
  | none => simp [leavingOf_of_none ticket] at gone
  | some h => exact ⟨h, rfl, (leavingOf_of_ticket ticket).symm.trans gone⟩

/-- The records under a claimant's name are the one of its ticket. -/
theorem Inv.leavingOf_eq (inv : Inv cfg s) (among : r ∈ s.left) (owner : r.owner = some k) :
    s.leavingOf k = some r := by
  obtain ⟨i, found⟩ := List.getElem?_of_mem among
  have below : i < s.head := by
    have gone := (List.getElem?_eq_some_iff.mp found).1
    have bound := inv.left_le_head
    omega
  obtain ⟨k', owned, ticket⟩ := inv.tickets.owned i below
  -- The record carries the owner of its ticket.
  rw [inv.log.owner i r found, owned, Option.some.injEq] at owner
  subst owner
  rw [leavingOf_of_ticket ticket, found]

theorem Inv.mem_of_leavingOf (inv : Inv cfg s) (gone : s.leavingOf k = some r) :
    r ∈ s.left ∧ r.owner = some k := by
  obtain ⟨h, ticket, found⟩ := left_of_leavingOf gone
  refine ⟨List.mem_of_getElem? found, ?_⟩
  rw [inv.log.owner h r found, (inv.tickets.ticket k h ticket).2]

/-- Once the ring is drained, every ticket has left. -/
theorem Inv.leavingOf_of_drained (inv : Inv cfg s) (drained : s.left.length = s.head)
    (ticket : (s.claims k).ticket = some h) : ∃ r, s.leavingOf k = some r := by
  have below := (inv.tickets.ticket k h ticket).1
  rw [leavingOf_of_ticket ticket]
  exact ⟨_, List.getElem?_eq_getElem (drained ▸ below)⟩

/-- Two claimants that hold entries hold different ones. -/
theorem Inv.slot_ne (inv : Inv cfg s) {k' : K} {h' : Nat} (ticket : (s.claims k).ticket = some h)
    (live : s.left.length ≤ h) (ticket' : (s.claims k').ticket = some h')
    (live' : s.left.length ≤ h') (other : k' ≠ k) : h' % cfg.size ≠ h % cfg.size := by
  intro same
  have first := inv.tail_le_left
  have equal : h' = h := inv.slots.slot_inj (Nat.le_trans first live')
    (inv.tickets.ticket k' h' ticket').1 (Nat.le_trans first live)
    (inv.tickets.ticket k h ticket).1 same
  subst equal
  exact other (inv.tickets.claim_inj ticket' ticket)

theorem entryOf_congr (claims : t.claims k = s.claims k) (slots : t.slots = s.slots)
    (left : t.left = s.left) : t.entryOf cfg k = s.entryOf cfg k := by
  rw [State.entryOf, State.entryOf, claims, slots, left]

theorem leavingOf_congr (claims : t.claims k = s.claims k) (left : t.left = s.left) :
    t.leavingOf k = s.leavingOf k := by
  rw [State.leavingOf, State.leavingOf, claims, left]

end Facts

section Stores

variable {cfg : Config} {thread : K → T} {s : State K T} {k : K} {h : Nat}

/-- A claimant that is given something holds its entry in the ring, unless it was dropped. -/
theorem ticket_of_answered (cfg : Config) (thread : K → T)
    (answered : (s.claims k).answered = true) :
    (∃ h, (s.claims k).ticket = some h ∧ s.given cfg thread k = .slot (h % cfg.size))
    ∨ ((s.claims k).ticket = none ∧ s.given cfg thread k = .scratch (thread k)) := by
  cases standing : s.claims k <;> simp_all [ClaimPc.ticket, State.given]

/-- What a claimant was given is the entry it holds. -/
theorem deref_given (answered : (s.claims k).answered = true) {e : QEntry}
    (held : s.entryOf cfg k = some e) : s.deref (s.given cfg thread k) = e := by
  obtain ⟨h, ticket, _, here⟩ := live_of_entryOf held
  rcases ticket_of_answered cfg thread answered with ⟨h', ticket', pointer⟩ | ⟨ticket', _⟩
  · rw [ticket, Option.some.injEq] at ticket'
    rw [pointer, ← ticket']
    exact here
  · rw [ticket] at ticket'
    cases ticket'

variable [DecidableEq K] [DecidableEq T]

/-- A change of the slot of a ticket in the ring is seen by its claimant only. -/
theorem Inv.entryOf_assign_slot (inv : Inv cfg s) (ticket : (s.claims k).ticket = some h)
    (live : s.left.length ≤ h) (entry : QEntry) (k' : K) :
    (s.assign (.slot (h % cfg.size)) entry).entryOf cfg k'
      = if k' = k then some entry else s.entryOf cfg k' := by
  unfold State.entryOf
  by_cases same : k' = k
  · subst same
    simp [State.assign, ticket, live]
  cases ticket' : (s.claims k').ticket with
  | none => simp [State.assign, ticket', same]
  | some h' =>
    by_cases live' : s.left.length ≤ h'
    · have apart := inv.slot_ne ticket live ticket' live' same
      simp [State.assign, ticket', same, update_of_ne apart]
    · simp [State.assign, ticket', same, live']

omit [DecidableEq K] in
/-- A lifecycle word is kept or names the ticket of the slot, so it does not call back a ticket that left. -/
theorem NoneWaiting.assign_slot (none : NoneWaiting cfg s) (live : s.left.length ≤ h)
    {entry : QEntry} (word : entry.lifecycle = (s.slots (h % cfg.size)).lifecycle
      ∨ lcTicket entry.lifecycle = h + 1) :
    NoneWaiting cfg (s.assign (.slot (h % cfg.size)) entry) := by
  intro g gone
  have gone : g < s.left.length := gone
  by_cases same : g % cfg.size = h % cfg.size
  · have before := none g gone
    simp only [State.assign, same, update_self]
    rcases word with kept | own
    · rwa [kept, ← same]
    · intro waiting
      rw [waiting, lcTicket_edumpiLc] at own
      omega
  · simpa [State.assign, update_of_ne same] using none g gone

section

variable (answered : (s.claims k).answered = true) (here : s.leavingOf k = none)

include answered here

omit [DecidableEq K] in
/-- The same for the entry a claimant was given, be it a slot or the scratch entry. -/
theorem NoneWaiting.assign_given (none : NoneWaiting cfg s) {entry : QEntry}
    (word : entry.lifecycle = (s.deref (s.given cfg thread k)).lifecycle
      ∨ ∀ h, (s.claims k).ticket = some h → lcTicket entry.lifecycle = h + 1) :
    NoneWaiting cfg (s.assign (s.given cfg thread k) entry) := by
  rcases ticket_of_answered cfg thread answered with ⟨h, ticket, pointer⟩ | ⟨ticket, pointer⟩
  · rw [pointer] at word ⊢
    refine none.assign_slot ((leavingOf_eq_none_iff ticket).mp here) ?_
    exact word.imp id fun own => own h ticket
  · rw [pointer]
    exact none

/-- A change of what a claimant was given is seen by this claimant only. -/
theorem Inv.entryOf_assign (inv : Inv cfg s) (change : QEntry → QEntry) (k' : K) :
    (s.assign (s.given cfg thread k) (change (s.deref (s.given cfg thread k)))).entryOf cfg k'
      = if k' = k then (s.entryOf cfg k).map change else s.entryOf cfg k' := by
  rcases ticket_of_answered cfg thread answered with ⟨h, ticket, pointer⟩ | ⟨ticket, pointer⟩
  · have live := (leavingOf_eq_none_iff ticket).mp here
    rw [pointer, inv.entryOf_assign_slot ticket live, entryOf_of_live ticket live]
    rfl
  -- The scratch entry is nobody's slot.
  rw [pointer, show (s.assign (.scratch (thread k)) _).entryOf cfg k' = s.entryOf cfg k' from rfl]
  split
  · rename_i same
    subst same
    rw [entryOf_of_none ticket]
    rfl
  · rfl

/-- Plain stores of a claimant into what it was given are seen by this claimant only. -/
theorem Inv.entryOf_store (inv : Inv cfg s) (thread : K → T) (change : QEntry → QEntry) (k' : K) :
    (s.store k (s.given cfg thread k) change).entryOf cfg k'
      = if k' = k then (s.entryOf cfg k).map fun e => (change e).withLifecycle e.lifecycle
        else s.entryOf cfg k' :=
  inv.entryOf_assign answered here (fun e => (change e).withLifecycle e.lifecycle) k'

/-- A store of a claimant into its lifecycle word is seen by this claimant only. -/
theorem Inv.entryOf_storeLifecycle (inv : Inv cfg s) (thread : K → T) (word : Nat) (k' : K) :
    (s.storeLifecycle k (s.given cfg thread k) word).entryOf cfg k'
      = if k' = k then (s.entryOf cfg k).map fun e => e.withLifecycle word
        else s.entryOf cfg k' :=
  inv.entryOf_assign answered here (fun e => e.withLifecycle word) k'

end

end Stores

section Claims

variable [DecidableEq K] [DecidableEq T] {cfg : Config} {thread : K → T} {s t : State K T} {k : K}

/-- A memory access of a claim leaves what the others hold alone. -/
theorem Inv.claim_others (inv : Inv cfg s) (taken : edumpiAmtRingClaim cfg thread k s = some t)
    {k' : K} (other : k' ≠ k) :
    t.claims k' = s.claims k' ∧ t.entryOf cfg k' = s.entryOf cfg k'
    ∧ t.leavingOf k' = s.leavingOf k' := by
  have moved : ∀ pc, update s.claims k pc k' = s.claims k' := fun pc =>
    update_of_ne other pc s.claims
  -- The slot that a claim prepares is the slot of its own ticket.
  have prepared : ∀ h entry, (s.claims k).preparing = some h → t.claims k' = s.claims k' →
      t.slots = update s.slots (h % cfg.size) entry → t.left = s.left →
      t.entryOf cfg k' = s.entryOf cfg k' := by
    intro h entry busy claims slots left
    have live := (inv.slots.preparing k h busy).1
    rw [entryOf_congr (s := s.assign (.slot (h % cfg.size)) entry) claims slots left,
      inv.entryOf_assign_slot (ClaimPc.ticket_of_preparing busy) live, if_neg other]
  cases claim_cases taken with
  | resetBody standing | resetLifecycle standing =>
    exact ⟨moved _, prepared _ _ (by rw [standing]; rfl) (moved _) rfl rfl,
      leavingOf_congr (moved _) rfl⟩
  | _ => exact ⟨moved _, entryOf_congr (moved _) rfl rfl, leavingOf_congr (moved _) rfl⟩

/-- A claim leaves the consumer and the owners of the tickets alone. -/
theorem claim_beside (taken : edumpiAmtRingClaim cfg thread k s = some t) : Beside s t := by
  cases claim_cases taken with
  | take =>
    refine ⟨rfl, rfl, rfl, rfl, rfl, rfl, fun ticket below => ?_⟩
    -- The ticket that is taken is the one at the head.
    exact update_of_ne (by omega) _ _
  | _ => exact ⟨rfl, rfl, rfl, rfl, rfl, rfl, fun _ _ => rfl⟩

/-- A claim ends in an answer and does not start over. -/
theorem claim_answers : edumpiAmtRingClaim cfg thread k s = none ↔ (s.claims k).answered = true := by
  unfold edumpiAmtRingClaim
  split
  case h_3 =>
    rename_i standing
    rw [standing]
    split <;> simp
  all_goals
    rename_i standing
    rw [standing]
    simp

section

variable (inv : Inv cfg s) (taken : edumpiAmtRingClaim cfg thread k s = some t)

include inv taken

/-- The ticket of a claim in progress has not left. -/
theorem Inv.claim_leavingOf : t.leavingOf k = none := by
  have next := inv.claim taken
  cases ticket : (t.claims k).ticket with
  | none => exact leavingOf_of_none ticket
  | some h =>
    rw [leavingOf_eq_none_iff ticket]
    cases busy : (t.claims k).preparing with
    | some h' =>
      have same := ClaimPc.ticket_of_preparing busy
      rw [ticket, Option.some.injEq] at same
      exact same ▸ (next.slots.preparing k h' busy).1
    | none =>
      -- Only the activation leads from a ticket in preparation to one that is not.
      cases claim_cases taken with
      | activate standing =>
        have same := inv.slots.preparing k _ (by rw [standing]; rfl)
        simp only [State.claimAt, update_self, ClaimPc.ticket, Option.some.injEq] at ticket
        exact ticket ▸ same.1
      | _ => simp [ClaimPc.ticket] at ticket busy

/-- A claim leaves an entry behind that only holds its ticket. -/
theorem Inv.claim_fresh (fresh : ∀ e, s.entryOf cfg k = some e → (s.claims k).Fresh e) :
    ∀ e, t.entryOf cfg k = some e → (t.claims k).Fresh e := by
  intro e held
  have here : ∀ {h}, (t.claims k).ticket = some h → t.slots (h % cfg.size) = e := by
    intro h ticket
    obtain ⟨h', ticket', _, here⟩ := live_of_entryOf held
    rw [ticket, Option.some.injEq] at ticket'
    exact ticket' ▸ here
  have prepared : ∀ {h}, (s.claims k).preparing = some h →
      (s.claims k).Fresh (s.slots (h % cfg.size)) := fun busy =>
    fresh _ (entryOf_of_live (ClaimPc.ticket_of_preparing busy) (inv.slots.preparing k _ busy).1)
  -- The claim prepares its slot in three stores, each of them after the one before.
  cases claim_cases taken with
  | @resetBody h standing =>
    have here := here (h := h) (by simp [ClaimPc.ticket])
    simp only [State.claimAt, State.assign, update_self] at here ⊢
    exact here ▸ rfl
  | @resetLifecycle h standing =>
    have before := prepared (h := h) (by rw [standing]; rfl)
    rw [standing] at before
    have here := here (h := h) (by simp [ClaimPc.ticket])
    simp only [State.claimAt, State.assign, update_self] at here ⊢
    rw [← here, show s.slots (h % cfg.size) = (s.slots (h % cfg.size)).clearBody from before]
    rfl
  | @activate h standing =>
    have before := prepared (h := h) (by rw [standing]; rfl)
    rw [standing] at before
    have here := here (h := h) (by simp [ClaimPc.ticket])
    simp only [State.claimAt, update_self] at here ⊢
    exact here ▸ before
  | _ =>
    simp only [State.claimAt, update_self]
    trivial

/-- A claim calls back no ticket that has left. -/
theorem Inv.claim_noneWaiting (none : NoneWaiting cfg s) : NoneWaiting cfg t := by
  cases claim_cases taken with
  | @resetBody h standing =>
    exact none.assign_slot (inv.slots.preparing k h (by rw [standing]; rfl)).1 (.inl rfl)
  | @resetLifecycle h standing =>
    exact none.assign_slot (inv.slots.preparing k h (by rw [standing]; rfl)).1
      (.inr (lcTicket_edumpiLc _ _))
  | _ => exact none

end

/-- A claim writes to a scratch entry only when its event is dropped. -/
theorem claim_scratch (taken : edumpiAmtRingClaim cfg thread k s = some t) :
    t.scratch = if s.claims k = .zeroScratch
      then update s.scratch (thread k) QEntry.zero else s.scratch := by
  cases claim_cases taken with
  | load before =>
    rcases before with standing | ⟨_, -, standing⟩ <;> simp [standing, State.claimAt]
  | full standing | room standing | take standing | drop standing | zeroScratch standing
    | resetBody standing | resetLifecycle standing | activate standing =>
    simp [standing, State.claimAt, State.assign]

end Claims

section Drain

variable {cfg : Config} {s t : State K T} {k : K}

section

variable (inv : Inv cfg s) (looking : s.drain.looking = true)

include inv looking

/-- While the consumer looks at an entry, it is the entry of the oldest ticket's owner. -/
theorem Inv.tail_owner :
    ∃ k, s.owner s.tail = some k ∧ s.claims k = .slot s.tail
      ∧ s.entryOf cfg k = some (s.tailEntry cfg) := by
  obtain ⟨k, owner, ticket⟩ := inv.tickets.owned s.tail (inv.slots.occupied_of_looking looking)
  have length := inv.left_of_looking looking
  refine ⟨k, owner, ?_, entryOf_of_live ticket (Nat.le_of_eq length)⟩
  -- The slot is active, so its claim is not preparing it any more.
  cases busy : (s.claims k).preparing with
  | some h =>
    have same := ClaimPc.ticket_of_preparing busy
    rw [ticket, Option.some.injEq] at same
    have free := (inv.slots.preparing k h busy).2
    rw [← same, show s.states (s.tail % cfg.size) = .active from inv.slots.looking (.inl looking)]
      at free
    cases free
  | none =>
    cases standing : s.claims k <;> simp_all [ClaimPc.ticket]

/-- What the oldest ticket's owner holds becomes a record, and nobody else notices. -/
theorem Inv.leave_holdings (owner : s.owner s.tail = some k) (emitted : Bool) [DecidableEq K]
    (k' : K) :
    (s.leave cfg emitted).entryOf cfg k' = (if k' = k then none else s.entryOf cfg k')
    ∧ (s.leave cfg emitted).leavingOf k' = if k' = k then
        some ⟨s.tail, some k, s.writers (s.tailSlot cfg), s.tailEntry cfg, emitted⟩
      else s.leavingOf k' := by
  have length := inv.left_of_looking looking
  obtain ⟨k'', owner'', standing, _⟩ := inv.tail_owner looking
  have mine : (s.claims k).ticket = some s.tail := by
    rw [owner, Option.some.injEq] at owner''
    rw [owner'', standing]
    rfl
  by_cases same : k' = k
  · subst same
    simp [State.entryOf, State.leavingOf, State.leave, mine, length, owner]
  cases ticket : (s.claims k').ticket with
  | none => simp [State.entryOf, State.leavingOf, State.leave, ticket, same]
  | some h =>
    -- No two claims have the same ticket.
    have apart : h ≠ s.tail := by
      rintro rfl
      exact same (inv.tickets.claim_inj ticket mine)
    have live : s.left.length + 1 ≤ h ↔ s.left.length ≤ h := by omega
    have found : (s.left ++ [⟨s.tail, s.owner s.tail, s.writers (s.tailSlot cfg),
        s.tailEntry cfg, emitted⟩])[h]? = s.left[h]? := by
      rw [List.getElem?_append]
      split
      · rfl
      · rw [List.getElem?_eq_none (by simp; omega), List.getElem?_eq_none (by omega)]
    simp [State.entryOf, State.leavingOf, State.leave, ticket, same, live, found]

end

/-- What one memory access of the consumer does to the entries. -/
theorem drain_cases [DecidableEq T] {clock : Int}
    (taken : edumpiAmtRingDrain cfg clock s = some t) :
    SameHoldings s t
    ∨ (s.drain = .emit ∧ t = (s.leave cfg true).drainAt .free)
    ∨ (∃ lc, s.drain = .abandonExchange lc ∧ (s.tailEntry cfg).lifecycle = lc
        ∧ t = ((s.assign (.slot (s.tailSlot cfg)) ((s.tailEntry cfg).withLifecycle
          (edumpiLc (lcTicket lc) .abandoned))).leave cfg false).drainAt .free) := by
  unfold edumpiAmtRingDrain at taken
  dsimp only at taken
  split at taken
  case h_1 => cases taken
  -- The entry is given up only if its word is still the one that was read.
  case h_13 lc standing =>
    split at taken
    · rename_i equal
      cases taken
      exact .inr (.inr ⟨lc, standing, equal, rfl⟩)
    · cases taken
      exact .inl ⟨rfl, rfl, rfl, rfl, rfl, rfl⟩
  case h_14 =>
    split at taken
    all_goals
      cases taken
      exact .inl ⟨rfl, rfl, rfl, rfl, rfl, rfl⟩
  case h_15 standing =>
    cases taken
    exact .inr (.inl ⟨standing, rfl⟩)
  all_goals
    cases taken
    exact .inl ⟨rfl, rfl, rfl, rfl, rfl, rfl⟩

theorem ReadWaiting.drain [DecidableEq T] {clock : Int}
    (taken : edumpiAmtRingDrain cfg clock s = some t) : ReadWaiting t := by
  intro lc standing
  unfold edumpiAmtRingDrain at taken
  dsimp only at taken
  split at taken
  case h_1 => cases taken
  case h_12 =>
    cases taken
    split at standing
    · cases standing
      assumption
    · cases standing
  case h_13 =>
    split at taken
    all_goals
      cases taken
      cases standing
  case h_14 =>
    split at taken
    all_goals
      cases taken
      (repeat' split at standing) <;> cases standing
  all_goals
    cases taken
    (repeat' split at standing) <;> cases standing

/-- After a ticket left, no word says that it waits if its own does not. -/
theorem NoneWaiting.leave (none : NoneWaiting cfg s) (length : s.left.length = s.tail)
    (word : (s.tailEntry cfg).lifecycle ≠ edumpiLc (s.tail + 1) .pending) (emitted : Bool) :
    NoneWaiting cfg (s.leave cfg emitted) := by
  intro h below
  simp only [State.leave, List.length_append, List.length_singleton] at below
  by_cases last : h = s.tail
  · subst last
    exact word
  · exact none h (by omega)

end Drain

end EduMpi.AmtRing
