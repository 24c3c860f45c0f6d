import EduMpi.Lib.Window
import EduMpi.Trace.AmtRing
import Mathlib.Data.Set.Card

/-! No ticket of the ring for many producers is lost, doubled or overtaken. -/

namespace EduMpi.AmtRing

open Machine
open Function (update update_of_ne)

variable {K T : Type}

/-- Every ticket below the head belongs to one call, and every call is counted once. -/
structure Tickets (s : State K T) : Prop where
  ticket : ∀ k h, (s.claims k).ticket = some h → h < s.head ∧ s.owner h = some k
  owned : ∀ h < s.head, ∃ k, s.owner h = some k ∧ (s.claims k).ticket = some h
  counted : {k | (s.claims k).passed = true}.encard = (s.head + s.dropped : Nat)
  lost : {k | (s.claims k).dropped = true}.encard = (s.dropped : Nat)

/-- The window of tickets and the states of the slots in it. -/
structure Slots (cfg : Config) (s : State K T) : Prop where
  tail_le : s.tail ≤ s.head
  head_le : s.head ≤ s.tail + cfg.size
  /-- A call about to take a ticket has seen room for it, and room never shrinks. -/
  room : ∀ k h, s.claims k = .compareExchange h → h < s.tail + cfg.size
  preparing : ∀ k h, (s.claims k).preparing = some h →
    s.left.length ≤ h ∧ s.states (h % cfg.size) = .free
  /-- An active slot belongs to a ticket of the window that is not being given back. -/
  active : ∀ idx, s.states idx = .active →
    ∃ h, s.tail ≤ h ∧ h < s.head ∧ h % cfg.size = idx ∧ (h = s.tail → s.drain ≠ .advance)
  looking : s.drain.looking = true ∨ s.drain = .free → s.states (s.tailSlot cfg) = .active
  occupied : s.drain ≠ .idle → s.drain ≠ .top → s.tail < s.head

/-- The tickets that have left, in order, are those below the tail. -/
structure Log (s : State K T) : Prop where
  length : s.left.length = s.tail + if s.drain.leaving then 1 else 0
  ticket : ∀ (i : Nat) (r : Leaving K), s.left[i]? = some r → r.ticket = i
  owner : ∀ (i : Nat) (r : Leaving K), s.left[i]? = some r → r.owner = s.owner i

/-- What holds in every state of the ring. -/
structure Inv (cfg : Config) (s : State K T) : Prop where
  tickets : Tickets s
  slots : Slots cfg s
  log : Log s

section Facts

variable {cfg : Config} {s : State K T} {h : Nat}

/-- Two tickets in the window have different slots. -/
theorem Slots.slot_inj (slots : Slots cfg s) {a b : Nat} (first : s.tail ≤ a) (below : a < s.head)
    (second : s.tail ≤ b) (under : b < s.head) (same : a % cfg.size = b % cfg.size) : a = b := by
  -- The window is no longer than the ring.
  have fits := slots.head_le
  rcases Nat.le_total a b with le | le
  · exact Window.eq_of_mod_eq same le (by omega)
  · exact (Window.eq_of_mod_eq same.symm le (by omega)).symm

/-- A ticket belongs to one call. -/
theorem Tickets.claim_inj (tickets : Tickets s) {k k' : K} (mine : (s.claims k).ticket = some h)
    (other : (s.claims k').ticket = some h) : k = k' := by
  have owner := (tickets.ticket k h mine).2
  rw [(tickets.ticket k' h other).2] at owner
  exact (Option.some.inj owner).symm

/-- A slot outside the window is free. -/
theorem Slots.free_of_outside (slots : Slots cfg s) (outside : s.head ≤ h)
    (near : h < s.tail + cfg.size) : s.states (h % cfg.size) = .free := by
  cases state : s.states (h % cfg.size) with
  | free => rfl
  | active =>
    obtain ⟨h', first, below, same, _⟩ := slots.active _ state
    exact absurd same (Window.mod_ne (by omega) (by omega))

theorem ClaimPc.ticket_of_preparing {pc : ClaimPc} (busy : pc.preparing = some h) :
    pc.ticket = some h := by
  cases pc <;> simp_all [preparing, ticket]

/-- Nothing leaves before it was claimed. -/
theorem Inv.left_le_head (inv : Inv cfg s) : s.left.length ≤ s.head := by
  have length := inv.log.length
  have window := inv.slots.tail_le
  split at length
  · -- A ticket that has just left is the oldest of a window that is not empty.
    rename_i leaving
    have occupied := inv.slots.occupied (by rintro idle; simp [idle] at leaving)
      (by rintro top; simp [top] at leaving)
    omega
  · omega

theorem Inv.tail_le_left (inv : Inv cfg s) : s.tail ≤ s.left.length := by
  rw [inv.log.length]
  omega

end Facts

section Steps

variable {cfg : Config} {s : State K T} {thread : K → T} {t : State K T}

section

variable (inv : Inv cfg s)

include inv

/-- The entries, their writers and the consumer's clock are not part of what is kept. -/
theorem Inv.congr {t : State K T} (head : t.head = s.head) (tail : t.tail = s.tail)
    (dropped : t.dropped = s.dropped) (states : t.states = s.states) (claims : t.claims = s.claims)
    (drain : t.drain = s.drain) (owner : t.owner = s.owner) (left : t.left = s.left) :
    Inv cfg t := by
  cases t
  subst head tail dropped states claims drain owner left
  exact ⟨{ inv.tickets with }, { inv.slots with }, { inv.log with }⟩

theorem Inv.assign [DecidableEq T] (p : Pointer T) (entry : QEntry) : Inv cfg (s.assign p entry) :=
  inv.congr rfl rfl rfl rfl rfl rfl rfl rfl

theorem Inv.sign (w : K) (p : Pointer T) : Inv cfg (s.sign w p) :=
  inv.congr rfl rfl rfl rfl rfl rfl rfl rfl

theorem Inv.store [DecidableEq T] (w : K) (p : Pointer T) (change : QEntry → QEntry) :
    Inv cfg (s.store w p change) :=
  (inv.assign p _).sign w p

theorem Inv.storeLifecycle [DecidableEq T] (w : K) (p : Pointer T) (word : Nat) :
    Inv cfg (s.storeLifecycle w p word) :=
  (inv.assign p _).sign w p

end

section Claim

variable [DecidableEq K] {claims : K → ClaimPc} {k : K} {pc : ClaimPc} {f : ClaimPc → Bool}

private theorem count_update_same (same : f pc = f (claims k)) :
    {k' | f (update claims k pc k') = true} = {k' | f (claims k') = true} := by
  ext k'
  by_cases here : k' = k
  · subst here
    simp [same]
  · simp [here]

private theorem count_update_insert (later : f pc = true) :
    {k' | f (update claims k pc k') = true} = insert k {k' | f (claims k') = true} := by
  ext k'
  by_cases here : k' = k
  · subst here
    simp [later]
  · simp [here]

/-- A call that comes to a point adds one to those that have. -/
private theorem encard_update (later : f pc = true) (before : f (claims k) = false) {n : Nat}
    (count : {k' | f (claims k') = true}.encard = n) :
    {k' | f (update claims k pc k') = true}.encard = (n + 1 : Nat) := by
  rw [count_update_insert later, Set.encard_insert_of_notMem (by simp [before]), count]
  rfl

/-- A call moves on without passing its decision or changing its ticket. -/
theorem Inv.claimAt (inv : Inv cfg s) {old : ClaimPc} (standing : s.claims k = old)
    (pc : ClaimPc) (ticket : pc.ticket = old.ticket)
    (preparing : ∀ h, pc.preparing = some h → old.preparing = some h)
    (dropped : pc.dropped = old.dropped)
    (room : ∀ h, pc = .compareExchange h → h < s.tail + cfg.size) :
    Inv cfg (s.claimAt k pc) := by
  subst standing
  have passed : pc.passed = (s.claims k).passed := by
    rw [ClaimPc.passed, ClaimPc.passed, ticket, dropped]
  -- Ticket by ticket, the calls hold what they held.
  have tickets : ∀ k', ((s.claimAt k pc).claims k').ticket = (s.claims k').ticket := by
    intro k'
    by_cases here : k' = k
    · subst here
      simpa using ticket
    · simp [here]
  have prepared : ∀ k' h, ((s.claimAt k pc).claims k').preparing = some h →
      (s.claims k').preparing = some h := by
    intro k' h busy
    by_cases here : k' = k
    · subst here
      exact preparing h (by simpa using busy)
    · simpa [here] using busy
  refine ⟨⟨?_, ?_, ?_, ?_⟩, { inv.slots with room := ?_, preparing := ?_ }, { inv.log with }⟩
  · intro k' h taken
    exact inv.tickets.ticket k' h (tickets k' ▸ taken)
  · intro h below
    obtain ⟨k', owner, taken⟩ := inv.tickets.owned h below
    exact ⟨k', owner, (tickets k').trans taken⟩
  · exact (congrArg Set.encard (count_update_same passed)).trans inv.tickets.counted
  · exact (congrArg Set.encard (count_update_same dropped)).trans inv.tickets.lost
  · intro k' h standing
    by_cases here : k' = k
    · subst here
      exact room h (by simpa using standing)
    · exact inv.slots.room k' h (by simpa [here] using standing)
  · intro k' h busy
    exact inv.slots.preparing k' h (prepared k' h busy)

/-- A call takes the next ticket. -/
theorem Inv.take (inv : Inv cfg s) (standing : s.claims k = .compareExchange s.head) :
    Inv cfg { s.claimAt k (.resetBody s.head) with
      head := s.head + 1
      owner := update s.owner s.head (some k) } := by
  have near := inv.slots.room k s.head standing
  -- No ticket has been given out before its number was reached.
  have earlier : ∀ k' h, (s.claims k').ticket = some h → h ≠ s.head := by
    intro k' h taken same
    have below := (inv.tickets.ticket k' h taken).1
    omega
  have window := inv.slots.tail_le
  have gone := inv.left_le_head
  refine ⟨⟨?_, ?_, ?_, ?_⟩, ⟨?_, ?_, ?_, ?_, ?_, inv.slots.looking, ?_⟩,
    { inv.log with owner := ?_ }⟩
  · intro k' h taken
    by_cases here : k' = k
    · subst here
      have same : s.head = h := by simpa [ClaimPc.ticket] using taken
      subst same
      simp
    · -- The other calls keep theirs.
      have before : (s.claims k').ticket = some h := by simpa [here] using taken
      have was := inv.tickets.ticket k' h before
      refine ⟨Nat.lt_succ_of_lt was.1, ?_⟩
      simpa [update_of_ne (earlier k' h before)] using was.2
  · intro h below
    by_cases newest : h = s.head
    · subst newest
      exact ⟨k, by simp, by simp [ClaimPc.ticket]⟩
    · obtain ⟨k', owner, taken⟩ := inv.tickets.owned h (by dsimp only at below; omega)
      have other : k' ≠ k := by
        rintro rfl
        simp [standing, ClaimPc.ticket] at taken
      exact ⟨k', by simpa [newest] using owner, by simpa [other] using taken⟩
  · -- One more call has passed, and the head counts it.
    refine (encard_update rfl ?_ inv.tickets.counted).trans ?_
    · rw [standing]
      rfl
    · congr 1
      simp only [State.claimAt]
      omega
  · refine (congrArg Set.encard (count_update_same ?_)).trans inv.tickets.lost
    rw [standing]
    rfl
  · simp only [State.claimAt]
    omega
  · simp only [State.claimAt]
    omega
  · intro k' h at_
    by_cases here : k' = k
    · subst here
      simp at at_
    · exact inv.slots.room k' h (by simpa [here] using at_)
  · -- The new ticket's slot is free: the tickets in use are less than the ring apart.
    intro k' h busy
    by_cases here : k' = k
    · subst here
      have same : s.head = h := by simpa using busy
      subst same
      exact ⟨gone, inv.slots.free_of_outside (Nat.le_refl _) near⟩
    · exact inv.slots.preparing k' h (by simpa [here] using busy)
  · intro idx state
    obtain ⟨h, first, below, same, standing⟩ := inv.slots.active idx state
    exact ⟨h, first, Nat.lt_succ_of_lt below, same, standing⟩
  · intro notIdle notTop
    exact Nat.lt_succ_of_lt (inv.slots.occupied notIdle notTop)
  · intro i r found
    -- What has left was claimed before the new ticket.
    have below : i < s.left.length := (List.getElem?_eq_some_iff.mp found).1
    exact (inv.log.owner i r found).trans (update_of_ne (by omega) _ _).symm

/-- A call that found the ring full is counted. -/
theorem Inv.drop (inv : Inv cfg s) (standing : s.claims k = .drop) :
    Inv cfg { s.claimAt k .zeroScratch with dropped := s.dropped + 1 } := by
  -- A call that drops has no ticket.
  have other : ∀ k' h, ((s.claimAt k .zeroScratch).claims k').ticket = some h → k' ≠ k := by
    rintro k' h taken rfl
    simp [ClaimPc.ticket] at taken
  refine ⟨⟨?_, ?_, ?_, ?_⟩, { inv.slots with room := ?_, preparing := ?_ }, { inv.log with }⟩
  · intro k' h taken
    exact inv.tickets.ticket k' h (by simpa [other k' h taken] using taken)
  · intro h below
    obtain ⟨k', owner, taken⟩ := inv.tickets.owned h below
    have apart : k' ≠ k := by
      rintro rfl
      simp [standing, ClaimPc.ticket] at taken
    exact ⟨k', owner, by simpa [apart] using taken⟩
  · -- The call passes without a ticket, and is counted as lost.
    refine (encard_update rfl ?_ inv.tickets.counted).trans rfl
    rw [standing]
    rfl
  · refine (encard_update rfl ?_ inv.tickets.lost).trans rfl
    rw [standing]
    rfl
  · intro k' h here
    by_cases same : k' = k
    · subst same
      simp at here
    · exact inv.slots.room k' h (by simpa [same] using here)
  · intro k' h busy
    have apart := other k' h (ClaimPc.ticket_of_preparing busy)
    exact inv.slots.preparing k' h (by simpa [apart] using busy)

/-- A call shows its prepared slot to the consumer. -/
theorem Inv.activate (inv : Inv cfg s) {h : Nat} (standing : s.claims k = .activate h) :
    Inv cfg { s.claimAt k (.slot h) with
      states := update s.states (h % cfg.size) .active } := by
  have mine : (s.claims k).ticket = some h := by rw [standing]; rfl
  have below := (inv.tickets.ticket k h mine).1
  have fresh := (inv.slots.preparing k h (by rw [standing]; rfl)).1
  have first := inv.tail_le_left
  have moved : Inv cfg (s.claimAt k (.slot h)) :=
    inv.claimAt standing (.slot h) rfl (by simp) rfl (by simp)
  refine ⟨{ moved.tickets with },
    { moved.slots with preparing := ?_, active := ?_, looking := ?_ }, { moved.log with }⟩
  · -- The slot of another call that still prepares is another one.
    intro k' h' busy
    obtain ⟨later, free⟩ := moved.slots.preparing k' h' busy
    refine ⟨later, ?_⟩
    have taken := moved.tickets.ticket k' h' (ClaimPc.ticket_of_preparing busy)
    -- Another call preparing the same slot would hold the same ticket.
    have apart : h' % cfg.size ≠ h % cfg.size := by
      intro same
      have equal : h' = h := inv.slots.slot_inj (Nat.le_trans first later) taken.1
        (Nat.le_trans first fresh) below same
      subst equal
      have owner : k' = k := moved.tickets.claim_inj (ClaimPc.ticket_of_preparing busy)
        (by simp [ClaimPc.ticket])
      subst owner
      simp at busy
    exact (update_of_ne apart _ _).trans free
  · intro idx state
    by_cases here : idx = h % cfg.size
    · subst here
      refine ⟨h, Nat.le_trans first fresh, below, rfl, ?_⟩
      -- While the oldest ticket is given back it has left, and this one has not.
      intro oldest giving
      have length := inv.log.length
      rw [show s.drain = .advance from giving] at length
      have oldest : h = s.tail := oldest
      simp only [DrainPc.leaving, if_true] at length
      omega
    · exact moved.slots.active idx ((update_of_ne here _ _).symm.trans state)
  · intro standing
    have state := moved.slots.looking standing
    change update s.states (h % cfg.size) .active (s.tailSlot cfg) = .active
    by_cases here : s.tailSlot cfg = h % cfg.size
    · simp [here]
    · exact (update_of_ne here _ _).trans state

end Claim

section Drain

/-- The consumer moves on between two tickets that leave. -/
theorem Inv.drainAt (inv : Inv cfg s) (staying : s.drain.leaving = false) {pc : DrainPc}
    (next : pc.leaving = false)
    (state : pc.looking = true → s.states (s.tailSlot cfg) = .active)
    (occupied : pc ≠ .idle → pc ≠ .top → s.tail < s.head) : Inv cfg (s.drainAt pc) := by
  have held : pc ≠ .free ∧ pc ≠ .advance := by
    constructor <;> rintro rfl <;> simp at next
  refine ⟨{ inv.tickets with },
    { inv.slots with active := ?_, looking := ?_, occupied := occupied },
    { inv.log with length := ?_ }⟩
  · intro idx active
    obtain ⟨h, first, below, same, _⟩ := inv.slots.active idx active
    exact ⟨h, first, below, same, fun _ => held.2⟩
  · rintro (looking | free)
    · exact state looking
    · exact absurd free held.1
  · simpa only [State.drainAt, staying, next] using inv.log.length

theorem DrainPc.not_leaving_of_looking {pc : DrainPc} (looking : pc.looking = true) :
    pc.leaving = false := by
  cases pc <;> first | rfl | cases looking

/-- While the consumer looks at an entry, the window is not empty. -/
theorem Slots.occupied_of_looking (slots : Slots cfg s) (looking : s.drain.looking = true) :
    s.tail < s.head := by
  refine slots.occupied ?_ ?_
  · intro idle
    simp [idle] at looking
  · intro top
    simp [top] at looking

/-- The consumer goes on looking at the oldest entry, or stops. -/
theorem Inv.look (inv : Inv cfg s) (looking : s.drain.looking = true) {pc : DrainPc}
    (next : pc.looking = true ∨ pc = .idle) : Inv cfg (s.drainAt pc) := by
  refine inv.drainAt (DrainPc.not_leaving_of_looking looking) ?_
    (fun _ => inv.slots.looking (.inl looking))
    (fun _ _ => inv.slots.occupied_of_looking looking)
  rcases next with looking | rfl
  · exact DrainPc.not_leaving_of_looking looking
  · rfl

/-- What is in the list after a ticket left: what was there, and the ticket at the end. -/
theorem leave_left {emitted : Bool} {i : Nat} {r : Leaving K}
    (found : (s.leave cfg emitted).left[i]? = some r) :
    (s.left[i]? = some r ∧ i < s.left.length) ∨ (i = s.left.length ∧ r =
      ⟨s.tail, s.owner s.tail, s.writers (s.tailSlot cfg), s.tailEntry cfg, emitted⟩) := by
  rw [State.leave, List.getElem?_append] at found
  split at found
  · exact .inl ⟨found, by assumption⟩
  · rw [List.getElem?_singleton] at found
    split at found
    · cases found
      exact .inr ⟨by omega, rfl⟩
    · cases found

theorem Inv.left_of_looking (inv : Inv cfg s) (looking : s.drain.looking = true) :
    s.left.length = s.tail := by
  rw [inv.log.length, DrainPc.not_leaving_of_looking looking]
  rfl

/-- The oldest ticket leaves. -/
theorem Inv.leave (inv : Inv cfg s) (here : s.drain.looking = true) (emitted : Bool) :
    Inv cfg ((s.leave cfg emitted).drainAt .free) := by
  have length := inv.left_of_looking here
  have state := inv.slots.looking (.inl here)
  have occupied := inv.slots.occupied_of_looking here
  refine ⟨{ inv.tickets with },
    ⟨inv.slots.tail_le, inv.slots.head_le, inv.slots.room, ?_, ?_, fun _ => state,
      fun _ _ => occupied⟩, ⟨?_, ?_, ?_⟩⟩
  · intro k h busy
    obtain ⟨later, free⟩ := inv.slots.preparing k h busy
    refine ⟨?_, free⟩
    -- The consumer looks only at an active slot, so the leaving ticket is not being prepared.
    have apart : h ≠ s.tail := by
      rintro rfl
      rw [show s.states (s.tail % cfg.size) = .active from state] at free
      cases free
    simp only [State.leave, State.drainAt, List.length_append, List.length_singleton]
    omega
  · intro idx active
    obtain ⟨h, first, below, same, _⟩ := inv.slots.active idx active
    exact ⟨h, first, below, same, by simp⟩
  · simp [State.leave, length]
  · -- The leaving ticket is the oldest, whose number is the length of the log.
    intro i r found
    rcases leave_left found with ⟨before, _⟩ | ⟨rfl, rfl⟩
    · exact inv.log.ticket i r before
    · exact length.symm
  · intro i r found
    rcases leave_left found with ⟨before, _⟩ | ⟨rfl, rfl⟩
    · exact inv.log.owner i r before
    · exact congrArg s.owner length.symm

/-- The slot of the ticket that has left is marked free. -/
theorem Inv.free (inv : Inv cfg s) (here : s.drain = .free) :
    Inv cfg { s.drainAt .advance with
      stalled := false
      states := update s.states (s.tailSlot cfg) .free } := by
  refine ⟨{ inv.tickets with },
    ⟨inv.slots.tail_le, inv.slots.head_le, inv.slots.room, ?_, ?_, ?_, ?_⟩, { inv.log with length :=
      ?_ }⟩
  · intro k h busy
    obtain ⟨later, free⟩ := inv.slots.preparing k h busy
    refine ⟨later, ?_⟩
    by_cases same : h % cfg.size = s.tailSlot cfg
    · simp [same]
    · simpa [update_of_ne same] using free
  · -- The freed slot is no longer active, and every other one stays as it is.
    intro idx state
    have apart : idx ≠ s.tailSlot cfg := by
      rintro rfl
      simp at state
    obtain ⟨h, first, below, same, _⟩ := inv.slots.active idx (by simpa [apart] using state)
    refine ⟨h, first, below, same, ?_⟩
    rintro rfl
    exact absurd same.symm apart
  · simp
  · intro _ _
    exact inv.slots.occupied (by simp [here]) (by simp [here])
  · simpa [here] using inv.log.length

/-- The tail goes past the ticket that has left. -/
theorem Inv.advance (inv : Inv cfg s) (here : s.drain = .advance) :
    Inv cfg { s.drainAt .top with tail := s.tail + 1, handed := s.handed + 1 } := by
  have occupied := inv.slots.occupied (by simp [here]) (by simp [here])
  have fits := inv.slots.head_le
  have length : s.left.length = s.tail + 1 := by simpa [here] using inv.log.length
  refine ⟨{ inv.tickets with },
    ⟨?_, ?_, ?_, inv.slots.preparing, ?_, ?_, ?_⟩, { inv.log with length := ?_ }⟩
  · change s.tail + 1 ≤ s.head
    omega
  · change s.head ≤ s.tail + 1 + cfg.size
    omega
  · intro k h standing
    have near := inv.slots.room k h standing
    dsimp only
    omega
  · -- The oldest ticket is given back, so that no slot stands for it any more.
    intro idx state
    obtain ⟨h, first, below, same, moved⟩ := inv.slots.active idx state
    have apart : h ≠ s.tail := fun same => moved same here
    refine ⟨h, ?_, below, same, by simp⟩
    dsimp only
    omega
  · simp
  · simp
  · simpa using length

end Drain

/-- What one memory access of a claim does. -/
inductive ClaimStep [DecidableEq K] [DecidableEq T] (cfg : Config) (thread : K → T) (k : K)
    (s : State K T) : State K T → Prop
  | load (before : s.claims k = .unborn ∨ ∃ h ≠ s.head, s.claims k = .compareExchange h) :
      ClaimStep cfg thread k s (s.claimAt k (.loadTail s.head))
  | full {h : Nat} (standing : s.claims k = .loadTail h) (full : s.tail + cfg.size ≤ h) :
      ClaimStep cfg thread k s (s.claimAt k .drop)
  | room {h : Nat} (standing : s.claims k = .loadTail h) (room : h < s.tail + cfg.size) :
      ClaimStep cfg thread k s (s.claimAt k (.compareExchange h))
  | take (standing : s.claims k = .compareExchange s.head) :
      ClaimStep cfg thread k s { s.claimAt k (.resetBody s.head) with
        head := s.head + 1
        owner := update s.owner s.head (some k) }
  | drop (standing : s.claims k = .drop) :
      ClaimStep cfg thread k s { s.claimAt k .zeroScratch with dropped := s.dropped + 1 }
  | zeroScratch (standing : s.claims k = .zeroScratch) :
      ClaimStep cfg thread k s ((s.assign (.scratch (thread k)) QEntry.zero).claimAt k .scratch)
  | resetBody {h : Nat} (standing : s.claims k = .resetBody h) :
      ClaimStep cfg thread k s
        { (s.assign (.slot (h % cfg.size)) (s.slots (h % cfg.size)).clearBody).claimAt k
            (.resetLifecycle h) with writers := update s.writers (h % cfg.size) [] }
  | resetLifecycle {h : Nat} (standing : s.claims k = .resetLifecycle h) :
      ClaimStep cfg thread k s ((s.assign (.slot (h % cfg.size)) ((s.slots (h % cfg.size)).withLifecycle
        (edumpiLc (h + 1) .none))).claimAt k (.activate h))
  | activate {h : Nat} (standing : s.claims k = .activate h) :
      ClaimStep cfg thread k s
        { s.claimAt k (.slot h) with states := update s.states (h % cfg.size) .active }

theorem claim_cases [DecidableEq K] [DecidableEq T] {k : K}
    (taken : edumpiAmtRingClaim cfg thread k s = some t) : ClaimStep cfg thread k s t := by
  unfold edumpiAmtRingClaim at taken
  split at taken
  -- One case for each access of the claim, in the order of the source.
  all_goals rename_i standing
  case h_2 =>
    cases taken
    split
    · exact .full standing ‹_›
    · exact .room standing (by omega)
  case h_3 =>
    split at taken
    · rename_i newest
      cases taken
      subst newest
      exact .take standing
    · rename_i older
      cases taken
      exact .load (.inr ⟨_, Ne.symm older, standing⟩)
  all_goals cases taken
  · exact .load (.inl standing)
  · exact .drop standing
  · exact .zeroScratch standing
  · exact .resetBody standing
  · exact .resetLifecycle standing
  · exact .activate standing

/-- One memory access of a claim keeps everything. -/
theorem Inv.claim [DecidableEq K] [DecidableEq T] (inv : Inv cfg s) {k : K}
    (taken : edumpiAmtRingClaim cfg thread k s = some t) : Inv cfg t := by
  cases claim_cases taken with
  | load before =>
    rcases before with standing | ⟨h, -, standing⟩
    all_goals exact inv.claimAt standing _ rfl (by simp) rfl (by simp)
  | full standing => exact inv.claimAt standing _ rfl (by simp) rfl (by simp)
  | room standing room =>
    refine inv.claimAt standing _ rfl (by simp) rfl ?_
    rintro h' ⟨⟩
    exact room
  | take standing => exact inv.take standing
  | drop standing => exact inv.drop standing
  | zeroScratch standing | resetLifecycle standing =>
    exact (inv.assign _ _).claimAt standing _ rfl (by simp) rfl (by simp)
  | @resetBody h standing =>
    refine Inv.congr ((inv.assign _ _).claimAt standing (.resetLifecycle h) rfl ?_ rfl ?_)
      rfl rfl rfl rfl rfl rfl rfl rfl
    · simp
    · simp
  | activate standing => exact inv.activate standing

/-- One memory access of the consumer keeps everything. -/
theorem Inv.drain [DecidableEq T] (inv : Inv cfg s) {clock : Int}
    (taken : edumpiAmtRingDrain cfg clock s = some t) : Inv cfg t := by
  unfold edumpiAmtRingDrain at taken
  dsimp only at taken
  split at taken
  -- The accesses that change the ring are handled first.
  all_goals rename_i standing
  case h_1 => cases taken
  case h_2 =>
    cases taken
    split
    · rename_i more
      exact inv.drainAt (by simp [standing]) rfl (by simp) fun _ _ => more.2
    · exact inv.drainAt (by simp [standing]) rfl (by simp) (by simp)
  case h_3 =>
    have occupied := inv.slots.occupied (by simp [standing]) (by simp [standing])
    cases taken
    split
    · rename_i active
      exact inv.drainAt (by simp [standing]) rfl (fun _ => active) fun _ _ => occupied
    · exact inv.drainAt (by simp [standing]) rfl (by simp) (by simp)
  case h_16 =>
    cases taken
    exact inv.free standing
  case h_17 =>
    cases taken
    exact inv.advance standing
  all_goals have looking : s.drain.looking = true := by rw [standing]; rfl
  case h_13 =>
    split at taken
    · cases taken
      exact (inv.assign _ _).leave looking false
    · cases taken
      exact inv.look looking (.inl rfl)
  case h_14 =>
    split at taken
    · cases taken
      refine inv.look looking ?_
      split <;> simp
    · cases taken
      exact (inv.look looking (.inr rfl)).congr rfl rfl rfl rfl rfl rfl rfl rfl
  case h_15 =>
    cases taken
    exact inv.leave looking true
  -- All the other accesses only choose which one comes next.
  all_goals
    cases taken
    refine inv.look looking ?_
    first
      | exact .inl rfl
      | (repeat' split) <;> simp

/-- The drain function is called by an idle consumer only. -/
theorem step_drainCall_eq_some [DecidableEq K] [DecidableEq T] {force : Bool} {max : Int} :
    step cfg thread s (.drainCall force max) = some t ↔
      s.drain = .idle ∧ { s.drainAt .top with force := force, max := max, handed := 0 } = t := by
  simp only [step, Option.ite_none_right_eq_some, Option.some.injEq]

/-- Every memory access keeps what holds in every state. -/
theorem inv_step [DecidableEq K] [DecidableEq T] (s : State K T) (a : Action K T) (t : State K T)
    (inv : Inv cfg s) (taken : step cfg thread s a = some t) :
    Inv cfg t := by
  cases a with
  | claim k => exact inv.claim taken
  | store w p change =>
    cases taken
    exact inv.store w p change
  | storeLifecycle w p word =>
    cases taken
    exact inv.storeLifecycle w p word
  | drainCall force max =>
    obtain ⟨idle, rfl⟩ := step_drainCall_eq_some.mp taken
    have called : Inv cfg (s.drainAt .top) :=
      inv.drainAt (by simp [idle]) rfl (by simp) (by simp)
    exact called.congr rfl rfl rfl rfl rfl rfl rfl rfl
  | drain clock => exact inv.drain taken

theorem inv_initial (scratch : T → QEntry) : Inv cfg (initial scratch : State K T) where
  tickets := ⟨by simp [initial, ClaimPc.ticket], by simp [initial],
    by simp [initial, ClaimPc.passed, ClaimPc.ticket],
    by simp [initial]⟩
  slots := ⟨Nat.le_refl 0, Nat.zero_le _, by simp [initial], by simp [initial],
    by simp [initial], by simp [initial], by simp [initial]⟩
  log := ⟨rfl, by simp [initial], by simp [initial]⟩

/-- What has left is numbered in the order it left. -/
theorem Log.map_ticket (log : Log s) : s.left.map Leaving.ticket = List.range s.left.length := by
  refine List.ext_getElem (by simp) fun i below _ => ?_
  rw [List.length_map] at below
  rw [List.getElem_map, List.getElem_range]
  exact log.ticket i _ (List.getElem?_eq_getElem below)

/-- Records are told apart by their tickets, so a choice of them that are all equal is at most one. -/
theorem Log.filter_le_one (log : Log s) {p : Leaving K → Bool}
    (unique : ∀ r ∈ s.left.filter p, ∀ r' ∈ s.left.filter p, r = r') :
    (s.left.filter p).length ≤ 1 := by
  have nodup : (s.left.filter p).Nodup := by
    refine List.Nodup.filter _ (List.Nodup.of_map Leaving.ticket ?_)
    rw [log.map_ticket]
    exact List.nodup_range
  let rows : Finset (Leaving K) := ⟨Multiset.ofList (s.left.filter p), Multiset.coe_nodup.mpr nodup⟩
  exact Finset.card_le_one.mpr (show ∀ r ∈ rows, ∀ r' ∈ rows, r = r' from unique)

end Steps

/--
The ring loses, doubles and reorders nothing.

This is a statement about every run of any number of calls against one consumer: the window fits the ring, its tickets have different slots, a call prepares a slot only while no other ticket of the window has it, the tickets leave in order and once each, and every call that took a ticket or was dropped is counted.
-/
theorem ring_keeps_every_ticket [DecidableEq K] [DecidableEq T] (cfg : Config) (thread : K → T)
    (scratch : T → QEntry) (actions : List (Action K T)) (s : State K T)
    (ran : exec (step cfg thread) (initial scratch) actions = some s) :
    (s.tail ≤ s.head ∧ s.head ≤ s.tail + cfg.size)
    ∧ (∀ a b, s.tail ≤ a → a < b → b < s.head → a % cfg.size ≠ b % cfg.size)
    ∧ (∀ k h, (s.claims k).preparing = some h →
        s.states (h % cfg.size) = .free ∧ s.tail ≤ h ∧ h < s.head
        ∧ ∀ a, s.tail ≤ a → a < s.head → a % cfg.size = h % cfg.size → a = h)
    ∧ s.left.map Leaving.ticket = List.range s.left.length
    ∧ s.left.length = s.tail + (if s.drain.leaving then 1 else 0)
    ∧ {k | (s.claims k).passed = true}.encard = (s.head + s.dropped : Nat) := by
  have inv : Inv cfg s := exec_keeps inv_step (inv_initial scratch) ran
  refine ⟨⟨inv.slots.tail_le, inv.slots.head_le⟩, ?_, ?_, inv.log.map_ticket, inv.log.length,
    inv.tickets.counted⟩
  · -- Two tickets less than the ring apart have different slots.
    intro a b first lt last same
    have equal := inv.slots.slot_inj first (Nat.lt_trans lt last)
      (Nat.le_trans first (Nat.le_of_lt lt)) last same
    omega
  · intro k h busy
    obtain ⟨later, free⟩ := inv.slots.preparing k h busy
    have first := Nat.le_trans inv.tail_le_left later
    have below := (inv.tickets.ticket k h (ClaimPc.ticket_of_preparing busy)).1
    exact ⟨free, first, below, fun a start stop same =>
      inv.slots.slot_inj start stop first below same⟩

/-- Two calls on a ring of one slot, which the consumer empties: one ticket and one drop. -/
theorem ring_keeps_every_ticket_two :
    ∃ (actions : List (Action Bool Unit)) (s : State Bool Unit),
      exec (step ⟨1, 0, 0, Nat.one_pos⟩ fun _ => ()) (initial fun _ => QEntry.zero) actions = some s
      ∧ s.left.map Leaving.ticket = [0]
      ∧ {k | (s.claims k).passed = true}.encard = (1 + 1 : Nat) := by
  let actions : List (Action Bool Unit) :=
    List.replicate 6 (.claim false) ++ List.replicate 4 (.claim true)
      ++ .drainCall true 5 :: List.replicate 8 (.drain 0)
  obtain ⟨s, ran, length, head, dropped⟩ :
      ∃ s, exec (step ⟨1, 0, 0, Nat.one_pos⟩ fun _ => ()) (initial fun _ => QEntry.zero) actions
          = some s ∧ s.left.length = 1 ∧ s.head = 1 ∧ s.dropped = 1 :=
    ⟨_, rfl, rfl, rfl, rfl⟩
  obtain ⟨_, _, _, tickets, _, counted⟩ := ring_keeps_every_ticket _ _ _ actions s ran
  rw [length] at tickets
  rw [head, dropped] at counted
  exact ⟨actions, s, ran, tickets, counted⟩

end EduMpi.AmtRing
