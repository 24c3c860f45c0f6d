import EduMpi.Trace.AmtHolding

/-! What must have happened earlier in a run of the ring for an event to be dropped, and for one that is not finished to be handed over. -/

namespace EduMpi.AmtRing

open Machine
open Function (update update_of_ne update_self)

variable {K T : Type} [DecidableEq K] [DecidableEq T]

section Instants

variable {cfg : Config} {thread : K → T} {scratch : T → QEntry} {actions : List (Action K T)}
  {a : Action K T} {s t : State K T} {k : K} {h : Nat}

/-- No access moves the tail back. -/
theorem tail_le_step (taken : step cfg thread s a = some t) : s.tail ≤ t.tail := by
  cases a with
  | claim k => exact Nat.le_of_eq (claim_beside taken).tail.symm
  | store | storeLifecycle =>
    cases taken
    exact Nat.le_refl _
  | drainCall =>
    obtain ⟨-, rfl⟩ := step_drainCall_eq_some.mp taken
    exact Nat.le_refl _
  | drain clock =>
    simp only [step, edumpiAmtRingDrain] at taken
    split at taken
    case h_1 => cases taken
    case h_13 | h_14 => split at taken <;> cases taken <;> exact Nat.le_refl _
    -- The consumer gives the oldest ticket back.
    case h_17 =>
      cases taken
      exact Nat.le_succ _
    all_goals
      cases taken
      exact Nat.le_refl _

/-- Nobody but the caller itself moves a call of the claim function. -/
theorem claims_step (inv : Inv cfg s) (taken : step cfg thread s a = some t) (k : K) :
    t.claims k = s.claims k ∨ ClaimStep cfg thread k s t := by
  cases a with
  | claim k' =>
    by_cases same : k = k'
    · exact .inr (claim_cases (same ▸ taken))
    · exact .inl (inv.claim_others taken same).1
  | store | storeLifecycle =>
    cases taken
    exact .inl rfl
  | drainCall =>
    obtain ⟨-, rfl⟩ := step_drainCall_eq_some.mp taken
    exact .inl rfl
  | drain clock =>
    obtain same | ⟨_, rfl⟩ | ⟨_, _, _, rfl⟩ := drain_cases taken
    · exact .inl (congrFun same.claims k)
    · exact .inl rfl
    · exact .inl rfl

/-- A call that compares a full ring's head with the tail read the head when the ring was full. -/
theorem full_when_loaded (ran : exec (step cfg thread) (initial scratch) actions = some s)
    (standing : s.claims k = .loadTail h) (full : s.tail + cfg.size ≤ h) :
    ∃ early late u, actions = early ++ late ∧ exec (step cfg thread) (initial scratch) early = some u
      ∧ u.claims k = .loadTail h ∧ u.head = u.tail + cfg.size := by
  obtain ⟨early, a, late, u, v, rfl, -, reached, -, taken, before, standing, onward⟩ :=
    exec_begins (P := fun s => s.claims k = .loadTail h) (by simp [initial]) (along_true _ _) ran
      standing
  have inv : Inv cfg u := exec_keeps inv_step (inv_initial scratch) reached
  have head : v.head = h := by
    rcases claims_step inv taken k with same | moved
    · exact absurd (same.symm.trans standing) before
    · cases moved <;> simp_all
  -- Since then the tail can only have moved towards the head.
  have tail : v.tail ≤ s.tail := exec_keeps (P := fun t => v.tail ≤ t.tail)
    (fun _ _ _ le taken => le.trans (tail_le_step taken)) (Nat.le_refl _) onward
  have fits := (inv_step u a v inv taken).slots.head_le
  refine ⟨early ++ [a], late, v, by simp, ?_, standing, by omega⟩
  exact exec_append_eq_some.mpr ⟨u, reached, exec_cons_eq_some.mpr ⟨v, taken, exec_nil⟩⟩

end Instants

/--
An event is dropped only when the ring really was full.

In every run of any number of calls against one consumer, a call that takes the drop branch had read the head at an instant at which every slot was taken, and a call whose exchange fails goes back to compare the head it found with the tail.
So nothing is dropped in a run that never fills the ring.
-/
theorem drops_only_when_full (cfg : Config) (thread : K → T) (scratch : T → QEntry)
    (actions : List (Action K T)) (s : State K T)
    (ran : exec (step cfg thread) (initial scratch) actions = some s) :
    (∀ k t, step cfg thread s (.claim k) = some t → t.claims k = .drop →
      ∃ early late u h, actions = early ++ late
        ∧ exec (step cfg thread) (initial scratch) early = some u
        ∧ u.claims k = .loadTail h ∧ u.head = u.tail + cfg.size)
    ∧ (∀ k h, s.claims k = .compareExchange h → s.head ≠ h →
        step cfg thread s (.claim k) = some (s.claimAt k (.loadTail s.head)))
    ∧ ((∀ early late u, actions = early ++ late →
        exec (step cfg thread) (initial scratch) early = some u → u.head ≠ u.tail + cfg.size) →
      s.dropped = 0) := by
  refine ⟨?_, ?_, ?_⟩
  · -- The drop branch is entered where the full test was passed.
    intro k t taken drops
    cases claim_cases taken with
    | full standing full =>
      obtain ⟨early, late, u, instant⟩ := full_when_loaded ran standing full
      exact ⟨early, late, u, _, instant⟩
    | _ => simp at drops
  · intro k h standing moved
    simp only [step, edumpiAmtRingClaim, standing, if_neg moved]
  · intro room
    by_contra some
    have inv : Inv cfg s := exec_keeps inv_step (inv_initial scratch) ran
    obtain ⟨k, lost : (s.claims k).dropped = true⟩ :
        {k | (s.claims k).dropped = true}.Nonempty := by
      refine Set.encard_ne_zero.mp ?_
      rw [inv.tickets.lost]
      exact_mod_cast some
    -- The call took the drop branch at some point of the run.
    obtain ⟨early, a, late, u, v, rfl, -, reached, -, taken, before, drops, -⟩ :=
      exec_begins (P := fun s => s.claims k = .drop ∨ (s.claims k).dropped = true)
        (by simp [initial]) (along_true _ _) ran (.inr lost)
    rcases claims_step (exec_keeps inv_step (inv_initial scratch) reached) taken k with same | moved
    · exact before (same ▸ drops)
    · cases moved with
      | full standing full =>
        obtain ⟨first, last, w, rfl, instant, -, filled⟩ := full_when_loaded reached standing full
        exact room first (last ++ a :: late) w (by simp) instant filled
      | _ => simp_all

/-- The second of two calls on a ring of one slot reads the head while the slot is taken. -/
theorem second_call_finds_ring_full :
    ∃ (early : List (Action Bool Unit)) (u : State Bool Unit),
      exec (step ⟨1, 0, 0, Nat.one_pos⟩ fun _ => ()) (initial fun _ => QEntry.zero) early = some u
      ∧ u.head = u.tail + 1 := by
  obtain ⟨s, t, ran, taken, drops⟩ :
      ∃ s t, exec (step ⟨1, 0, 0, Nat.one_pos⟩ fun _ => ()) (initial fun _ => QEntry.zero)
          (List.replicate 6 (.claim false) ++ [.claim true]) = some s
        ∧ step ⟨1, 0, 0, Nat.one_pos⟩ (fun _ => ()) s (.claim true) = some t
        ∧ t.claims true = .drop := ⟨_, _, rfl, rfl, rfl⟩
  obtain ⟨early, -, u, -, -, reached, -, full⟩ :=
    (drops_only_when_full _ _ _ _ s ran).1 true t taken drops
  exact ⟨early, u, reached, full⟩

/-- The end stamp of an entry is set. -/
def edumpiAmtEntryComplete (e : QEntry) : Bool :=
  e.endTime.tvSec != 0 || e.endTime.tvNsec != 0

/-- The consumer has read an end stamp that is set. -/
def DrainPc.sawEnd : DrainPc → Bool
  | .idle | .top | .loadState | .endSec | .endNsec | .stall | .emit | .free | .advance => false
  | _ => true

theorem DrainPc.looking_of_sawEnd {pc : DrainPc} (saw : pc.sawEnd = true) : pc.looking = true := by
  cases pc <;> simp_all [DrainPc.sawEnd]

/-- No store takes an end stamp back. -/
def KeepsEnd (s : State K T) : Action K T → Prop
  | .store _ p change =>
    edumpiAmtEntryComplete (s.deref p) = true → edumpiAmtEntryComplete (change (s.deref p)) = true
  | _ => True

instance (s : State K T) : ∀ a, Decidable (KeepsEnd s a)
  | .store _ p change => inferInstanceAs (Decidable (edumpiAmtEntryComplete (s.deref p) = true →
      edumpiAmtEntryComplete (change (s.deref p)) = true))
  | .claim _ | .storeLifecycle .. | .drainCall .. | .drain _ => isTrue trivial

/-- Long enough before an instant, a drain read the end stamp of the ticket at the tail as unset. -/
def Waited (cfg : Config) (thread : K → T) (scratch : T → QEntry) (actions : List (Action K T))
    (ticket : Nat) (now : Int) : Prop :=
  ∃ early since late u, actions = early ++ .drain since :: late
    ∧ exec (step cfg thread) (initial scratch) early = some u
    ∧ u.drain = .stall ∧ u.tail = ticket ∧ cfg.stallNs ≤ now - since

section Timer

variable {cfg : Config} {thread : K → T} {scratch : T → QEntry} {actions : List (Action K T)}
  {a : Action K T} {s t : State K T}

/-- What one access of the consumer does to the timer. -/
inductive TimerStep (cfg : Config) (clock : Int) (s : State K T) : State K T → Prop
  /-- The consumer goes on looking, or gives up for now. -/
  | look {pc : DrainPc} (stays : pc ≠ .advance)
      (saw : pc.sawEnd = true →
        s.drain.sawEnd = true ∨ edumpiAmtEntryComplete (s.tailEntry cfg) = true)
      (emits : pc = .emit → s.force = true ∨ s.drain.sawEnd = true
        ∨ s.drain = .stall ∧ s.stalled = true ∧ cfg.stallNs ≤ clock - s.stallSince) :
      TimerStep cfg clock s (s.drainAt pc)
  | start (standing : s.drain = .stall) :
      TimerStep cfg clock s { s.drainAt .idle with stalled := true, stallSince := clock }
  | leave {slots : Nat → QEntry} {left : List (Leaving K)} :
      TimerStep cfg clock s { s.drainAt .free with slots := slots, left := left }
  | free {states : Nat → SlotState} :
      TimerStep cfg clock s { s.drainAt .advance with stalled := false, states := states }
  | advance (standing : s.drain = .advance) :
      TimerStep cfg clock s { s.drainAt .top with tail := s.tail + 1, handed := s.handed + 1 }

omit [DecidableEq K] in
theorem timer_cases {clock : Int} (taken : edumpiAmtRingDrain cfg clock s = some t) :
    TimerStep cfg clock s t := by
  simp only [edumpiAmtRingDrain] at taken
  split at taken
  all_goals rename_i standing
  case h_1 => cases taken
  case h_2 | h_3 =>
    cases taken
    exact .look (by split <;> simp) (fun saw => by split at saw <;> cases saw)
      fun emits => by split at emits <;> cases emits
  -- The two halves of the end stamp are read.
  case h_4 | h_5 =>
    cases taken
    refine .look (by grind) (fun saw => .inr ?_) (by grind)
    simp only [edumpiAmtEntryComplete]
    grind [DrainPc.sawEnd]
  -- The exchange on a pending entry succeeds, or the entry has ended meanwhile.
  case h_13 =>
    split at taken <;> cases taken
    · exact .leave
    · exact .look (by simp) (fun saw => by cases saw) fun _ => .inr (.inl (by rw [standing]; rfl))
  case h_14 =>
    split at taken <;> cases taken
    · -- The timer runs: the consumer waits on, or its time is over.
      rename_i timed
      refine .look (by split <;> simp) (fun saw => by split at saw <;> cases saw) fun emits => ?_
      split at emits
      · cases emits
      · exact .inr (.inr ⟨standing, timed, by omega⟩)
    · exact .start standing
  case h_15 =>
    cases taken
    exact .leave
  case h_16 =>
    cases taken
    exact .free
  case h_17 =>
    cases taken
    exact .advance standing
  all_goals
    cases taken
    have saw : s.drain.sawEnd = true := by rw [standing]; rfl
    exact .look (by (repeat' split) <;> simp) (fun _ => .inl saw) fun _ => .inr (.inl saw)

/-- The timer is off before the next ticket comes up. -/
theorem off_step (s : State K T) (a : Action K T) (t : State K T)
    (off : s.drain = .advance → s.stalled = false) (taken : step cfg thread s a = some t) :
    t.drain = .advance → t.stalled = false := by
  cases a with
  | claim k =>
    have beside := claim_beside taken
    rwa [beside.drain, beside.stalled]
  | store | storeLifecycle =>
    cases taken
    exact off
  | drainCall =>
    obtain ⟨-, rfl⟩ := step_drainCall_eq_some.mp taken
    exact fun here => by cases here
  | drain clock =>
    cases timer_cases taken with
    | look stays => exact fun here => absurd here stays
    | free => exact fun _ => rfl
    | _ => exact fun here => by cases here

/-- A running timer was started when a drain found the ticket that is still at the tail unfinished. -/
theorem waited_of_stalled (ran : exec (step cfg thread) (initial scratch) actions = some s)
    (running : s.stalled = true) {now : Int} (enough : cfg.stallNs ≤ now - s.stallSince) :
    Waited cfg thread scratch actions s.tail now := by
  obtain ⟨early, a, late, u, v, rfl, -, reached, -, taken, before, ⟨on, since, same⟩, -⟩ :=
    exec_begins (P := fun t => t.stalled = true ∧ t.stallSince = s.stallSince ∧ t.tail = s.tail)
      (by simp [initial]) (along_true _ _) ran ⟨running, rfl, rfl⟩
  -- Only the start of the timer and a new ticket change what is looked at.
  cases a with
  | claim k =>
    have beside := claim_beside taken
    rw [beside.stalled, beside.stallSince, beside.tail] at *
    exact absurd ⟨on, since, same⟩ before
  | store | storeLifecycle =>
    cases taken
    exact absurd ⟨on, since, same⟩ before
  | drainCall =>
    obtain ⟨-, rfl⟩ := step_drainCall_eq_some.mp taken
    exact absurd ⟨on, since, same⟩ before
  | drain clock =>
    cases timer_cases taken with
    | start standing =>
      rw [← since] at enough
      exact ⟨early, clock, late, u, rfl, reached, standing, same, enough⟩
    | free => cases on
    -- The ticket behind finds the timer off.
    | advance standing =>
      have off := exec_keeps (P := fun t => t.drain = .advance → t.stalled = false) off_step
        (fun here => by cases here) reached standing
      exact absurd on (by simp [off])
    | _ => exact absurd ⟨on, since, same⟩ before

/-- While the consumer looks at an entry, its end stamp stays set. -/
theorem Inv.complete_step (inv : Inv cfg s) (keeps : KeepsEnd s a)
    (taken : step cfg thread s a = some t) (looking : s.drain.looking = true)
    (complete : edumpiAmtEntryComplete (s.tailEntry cfg) = true) :
    edumpiAmtEntryComplete (t.tailEntry cfg) = true := by
  -- An assignment is to another slot, or it keeps the stamp.
  have kept : ∀ idx entry, (idx = s.tailSlot cfg → edumpiAmtEntryComplete entry = true) →
      edumpiAmtEntryComplete (update s.slots idx entry (s.tailSlot cfg)) = true := by
    intro idx entry ends
    by_cases same : s.tailSlot cfg = idx
    · rw [same, update_self]
      exact ends same.symm
    · rw [update_of_ne same]
      exact complete
  cases a with
  | claim k =>
    cases claim_cases taken with
    | resetBody standing =>
      refine kept _ _ fun same => ?_
      -- The slot that is zeroed is not active.
      have free := (inv.slots.preparing k _ (by rw [standing]; rfl)).2
      rw [same, inv.slots.looking (.inl looking)] at free
      cases free
    | resetLifecycle => exact kept _ _ fun same => same ▸ complete
    | _ => exact complete
  | store w p change =>
    cases taken
    cases p with
    | slot idx => exact kept idx _ fun same => keeps (same ▸ complete)
    | scratch => exact complete
  | storeLifecycle w p word =>
    cases taken
    cases p with
    | slot idx => exact kept idx _ fun same => same ▸ complete
    | scratch => exact complete
  | drainCall =>
    obtain ⟨-, rfl⟩ := step_drainCall_eq_some.mp taken
    exact complete
  | drain clock =>
    simp only [step, edumpiAmtRingDrain] at taken
    split at taken
    case h_1 => cases taken
    case h_13 =>
      split at taken <;> cases taken
      · exact kept _ _ fun _ => complete
      · exact complete
    case h_14 => split at taken <;> cases taken <;> exact complete
    case h_17 standing => simp [standing] at looking
    all_goals
      cases taken
      exact complete

/-- What the consumer has read of a stamp stays true. -/
theorem sawEnd_step (s : State K T) (a : Action K T) (t : State K T)
    (holds : Inv cfg s ∧ (s.drain.sawEnd = true → edumpiAmtEntryComplete (s.tailEntry cfg) = true))
    (keeps : KeepsEnd s a) (taken : step cfg thread s a = some t) :
    Inv cfg t ∧ (t.drain.sawEnd = true → edumpiAmtEntryComplete (t.tailEntry cfg) = true) := by
  obtain ⟨inv, sawEnd⟩ := holds
  have kept (saw : s.drain.sawEnd = true) : edumpiAmtEntryComplete (t.tailEntry cfg) = true :=
    inv.complete_step keeps taken (DrainPc.looking_of_sawEnd saw) (sawEnd saw)
  refine ⟨inv_step s a t inv taken, ?_⟩
  cases a with
  -- Claims and stores leave the consumer where it is.
  | claim k =>
    rw [(claim_beside taken).drain]
    exact kept
  | store | storeLifecycle =>
    cases taken
    exact kept
  | drainCall =>
    obtain ⟨-, rfl⟩ := step_drainCall_eq_some.mp taken
    exact fun saw => by cases saw
  | drain clock =>
    cases timer_cases taken with
    | look _ saw => exact fun sees => (saw sees).elim kept id
    | _ => exact fun saw => by cases saw

/-- One access takes one ticket or drops one event at most. -/
theorem counted_step (taken : step cfg thread s a = some t) :
    t.head + t.dropped ≤ s.head + s.dropped + 1 := by
  cases a with
  | claim k => cases claim_cases taken <;> simp [AmtRing.State.assign] <;> omega
  | store | storeLifecycle =>
    cases taken
    exact Nat.le_succ _
  | drainCall =>
    obtain ⟨-, rfl⟩ := step_drainCall_eq_some.mp taken
    exact Nat.le_succ _
  | drain => cases timer_cases taken <;> exact Nat.le_succ _

/-- In a run of fewer than 2 ^ 62 accesses the counters and the word of every ticket fit their 64 bits. -/
theorem counters_fit (ran : exec (step cfg thread) (initial scratch) actions = some s)
    (short : actions.length < 2 ^ 62) {ticket : Nat} (taken : ticket ≤ s.head) (state : LcState) :
    s.head < 2 ^ 62 ∧ s.dropped < 2 ^ 62 ∧ edumpiLc ticket state < 2 ^ 64 := by
  have counted : ∀ (actions : List (Action K T)) (u : State K T),
      exec (step cfg thread) u actions = some s →
        s.head + s.dropped ≤ u.head + u.dropped + actions.length := by
    intro actions
    induction actions with
    | nil =>
      intro u ran
      cases ran
      exact Nat.le_refl _
    | cons a rest ih =>
      intro u ran
      obtain ⟨v, first, onward⟩ := exec_cons_eq_some.mp ran
      have one := counted_step first
      have others := ih v onward
      rw [List.length_cons]
      omega
  have bound : s.head + s.dropped ≤ 0 + 0 + actions.length := counted actions _ ran
  have code : state.code < 4 := by cases state <;> decide
  rw [edumpiLc_eq]
  omega

end Timer

/--
An entry that is not finished is handed over only after the wait of its own ticket.

In every run, with clocks that read anything, a consumer that has read the end stamp of the oldest ticket as unset goes on to hand the entry over only if, at least the stall time earlier, a drain read the stamp of that same ticket at the tail as unset.
Where no store takes an end stamp back, this is so for every entry whose end stamp is unset when a call that is not forced hands it over.
So a timer started for one ticket never shortens the wait of another.
-/
theorem unfinished_emitted_after_stall (cfg : Config) (thread : K → T) (scratch : T → QEntry)
    (actions : List (Action K T)) (s : State K T)
    (ran : exec (step cfg thread) (initial scratch) actions = some s) :
    (∀ now t, s.drain = .stall → step cfg thread s (.drain now) = some t → t.drain = .emit →
      Waited cfg thread scratch actions s.tail now)
    ∧ (Along (step cfg thread) KeepsEnd (initial scratch) actions → s.drain = .emit →
      s.force = false → edumpiAmtEntryComplete (s.tailEntry cfg) = false →
      ∃ before now late u, actions = before ++ .drain now :: late
        ∧ exec (step cfg thread) (initial scratch) before = some u
        ∧ u.drain = .stall ∧ u.tail = s.tail ∧ Waited cfg thread scratch before s.tail now) := by
  refine ⟨?_, ?_⟩
  · intro now t stalls taken emits
    simp only [step, edumpiAmtRingDrain, stalls] at taken
    split at taken <;> cases taken
    · rename_i running
      refine waited_of_stalled ran running ?_
      by_contra early
      simp [State.drainAt, if_pos (not_le.mp early)] at emits
    · cases emits
  · intro keeps emits unforced unset
    -- The access with which the consumer decided to hand the entry over.
    obtain ⟨before, a, late, u, v, rfl, along, reached, keep, taken, undecided,
        ⟨decided, same, plain, unended⟩, -⟩ :=
      exec_begins (P := fun t => t.drain = .emit ∧ t.tail = s.tail ∧ t.force = false
          ∧ edumpiAmtEntryComplete (t.tailEntry cfg) = false)
        (by simp [initial]) keeps ran ⟨emits, rfl, unforced, unset⟩
    obtain ⟨inv, sawEnd⟩ := exec_keeps_along sawEnd_step
      ⟨inv_initial scratch, fun saw => by cases saw⟩ along reached
    -- The stamp was unset before that access already.
    have still (looking : u.drain.looking = true) :
        edumpiAmtEntryComplete (u.tailEntry cfg) = false := by
      rw [← Bool.not_eq_true]
      intro complete
      rw [inv.complete_step keep taken looking complete] at unended
      cases unended
    -- Only an access of the consumer decides.
    cases a with
    | claim k =>
      have beside := claim_beside taken
      rw [beside.drain] at decided
      exact absurd ⟨decided, beside.tail ▸ same, beside.force ▸ plain, still (by rw [decided]; rfl)⟩
        undecided
    | store | storeLifecycle =>
      cases taken
      exact absurd ⟨decided, same, plain, still (by rw [show u.drain = .emit from decided]; rfl)⟩
        undecided
    | drainCall =>
      obtain ⟨-, rfl⟩ := step_drainCall_eq_some.mp taken
      cases decided
    | drain now =>
      cases timer_cases taken with
      | look _ _ emits =>
        -- It was forced, or saw the end, or the time was over.
        rcases emits decided with forced | saw | ⟨standing, running, enough⟩
        · rw [show u.force = false from plain] at forced
          cases forced
        · exact absurd (sawEnd saw) (by simp [still (DrainPc.looking_of_sawEnd saw)])
        · have waited := waited_of_stalled reached running enough
          exact ⟨before, now, late, u, rfl, reached, standing, same, same ▸ waited⟩
      | _ => cases decided

/-- The second ticket of a ring waits ten for itself, though a timer ran for the first before. -/
theorem second_ticket_waits_for_itself :
    ∃ (actions : List (Action Bool Unit)) (now : Int),
      Waited ⟨2, 10, 0, by decide⟩ (fun _ => ()) (fun _ => QEntry.zero) actions 1 now := by
  let ended : QEntry → QEntry := fun e => { e with endTime := ⟨1, 0⟩ }
  let look (n : Nat) (clock : Int) : List (Action Bool Unit) :=
    .drainCall false 2 :: List.replicate n (.drain clock)
  obtain ⟨s, ran, emits, unforced, tail, unset⟩ :
      ∃ s, exec (step ⟨2, 10, 0, by decide⟩ fun _ => ()) (initial fun _ => QEntry.zero)
          (List.replicate 6 (.claim false) ++ List.replicate 6 (.claim true) ++ look 5 0
            ++ .store false (.slot 0) ended :: look 12 9 ++ look 5 19) = some s
        ∧ s.drain = .emit ∧ s.force = false ∧ s.tail = 1
        ∧ edumpiAmtEntryComplete (s.tailEntry ⟨2, 10, 0, by decide⟩) = false :=
    ⟨_, rfl, rfl, rfl, rfl, rfl⟩
  obtain ⟨before, now, -, -, -, -, -, -, waited⟩ :=
    (unfinished_emitted_after_stall _ _ _ _ s ran).2 (by decide) emits unforced unset
  exact ⟨before, now, tail ▸ waited⟩

end EduMpi.AmtRing
