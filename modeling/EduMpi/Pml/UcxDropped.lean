import EduMpi.Pml.UcxRows

/-! Receives whose claim found the ring full: they share the scratch entry of their thread. -/

namespace EduMpi.Ucx

open Machine
open AmtRing (ClaimPc Leaving Pointer edumpiAmtRingClaim)
open List (replicate)

variable {C T : Type}

/-- A dropped receive whose completion has yet to come to the scratch entry. -/
def State.shelved (s : State C T) (c : C) : Prop :=
  s.ring.claims (.call c) = .scratch ∧ s.phase c = .waiting

instance (s : State C T) : DecidablePred s.shelved := fun c =>
  inferInstanceAs (Decidable (s.ring.claims (.call c) = .scratch ∧ s.phase c = .waiting))

/-- A thread zeroes its scratch entry only while no receive waits on it. -/
def ScratchFree (cfg : Config C T) (s : State C T) : Action C → Prop
  | .call c _ => s.ring.claims (.call c) = .zeroScratch →
      ∀ c', cfg.thread c' = cfg.thread c → ¬ s.shelved c'
  | .complete c _ => s.ring.claims (.late c) = .zeroScratch →
      ∀ c', cfg.thread c' = cfg.finisher c → ¬ s.shelved c'
  | _ => True

instance [Fintype C] [DecidableEq T] (cfg : Config C T) (s : State C T) :
    DecidablePred (ScratchFree cfg s)
  | .call c _ => inferInstanceAs (Decidable (s.ring.claims (.call c) = .zeroScratch →
      ∀ c', cfg.thread c' = cfg.thread c → ¬ s.shelved c'))
  | .complete c _ => inferInstanceAs (Decidable (s.ring.claims (.late c) = .zeroScratch →
      ∀ c', cfg.thread c' = cfg.finisher c → ¬ s.shelved c'))
  | .callback _ | .drainCall _ _ | .drain _ => isTrue trivial

/-- What the receives on scratch entries keep. -/
structure Shelf (cfg : Config C T) (s : State C T) : Prop where
  word : ∀ c, s.shelved c →
    (s.ring.scratch (cfg.thread c)).lifecycle = edumpiLc 0 .pending
  alone : ∀ c c', s.shelved c → s.shelved c' → cfg.thread c = cfg.thread c' → c = c'
  /-- No receive waits on the scratch entry that a call has just been given. -/
  clear : ∀ c c', s.ring.claims (.call c) = .scratch → (s.calls c).active = true →
    s.phase c = .unarmed → cfg.thread c' = cfg.thread c → ¬ s.shelved c'
  kept : ∀ c, s.ring.claims (.call c) = .scratch → s.phase c ≠ .lost

/-- A step that does not concern the receives on scratch entries. -/
structure Still (s t : State C T) : Prop where
  claims : ∀ c, t.ring.claims (.call c) = s.ring.claims (.call c)
  phase : ∀ c, t.phase c = s.phase c ∨ t.phase c = .filled
  active : ∀ c, t.ring.claims (.call c) = .scratch → (t.calls c).active = true →
    (s.calls c).active = true
  word : ∀ thread, (t.ring.scratch thread).lifecycle = (s.ring.scratch thread).lifecycle

section Still

variable {cfg : Config C T} {s t : State C T} {c : C} {k : Claimant C} {now : Timespec}

theorem Still.shelved (still : Still s t) (shelved : t.shelved c) : s.shelved c := by
  refine ⟨(still.claims c).symm.trans shelved.1, ?_⟩
  rcases still.phase c with same | filled
  · exact same.symm.trans shelved.2
  · rw [shelved.2] at filled
    cases filled

/-- A step after which no other receive waits on a scratch entry. -/
theorem Shelf.fewer (shelf : Shelf cfg s) (before : ∀ c, t.shelved c → s.shelved c)
    (word : ∀ c, s.shelved c → (t.ring.scratch (cfg.thread c)).lifecycle
      = (s.ring.scratch (cfg.thread c)).lifecycle)
    (clear : ∀ c, t.ring.claims (.call c) = .scratch → (t.calls c).active = true →
      t.phase c = .unarmed → ∀ c', cfg.thread c' = cfg.thread c → ¬ s.shelved c')
    (kept : ∀ c, t.ring.claims (.call c) = .scratch → t.phase c ≠ .lost) : Shelf cfg t where
  word := fun c shelved => (word c (before c shelved)).trans (shelf.word c (before c shelved))
  alone := fun c c' shelved shelved' => shelf.alone c c' (before c shelved) (before c' shelved')
  clear := fun c c' claim active unarmed thread shelved =>
    clear c claim active unarmed c' thread (before c' shelved)
  kept := kept

theorem Shelf.still (shelf : Shelf cfg s) (still : Still s t) : Shelf cfg t := by
  have before : ∀ c, t.phase c ≠ .filled → s.phase c = t.phase c := fun c unfilled =>
    ((still.phase c).resolve_right unfilled).symm
  refine shelf.fewer (fun c => still.shelved) (fun c _ => still.word _) ?_ ?_
  · intro c claim active unarmed c' thread
    exact shelf.clear c c' ((still.claims c).symm.trans claim) (still.active c claim active)
      ((before c (by simp [unarmed])).trans unarmed) thread
  · intro c claim lost
    exact shelf.kept c ((still.claims c).symm.trans claim) ((before c (by simp [lost])).trans lost)

theorem store_word [DecidableEq T] (change : QEntry → QEntry) (thread : T) :
    ((s.store cfg k change).ring.scratch thread).lifecycle
      = (s.ring.scratch thread).lifecycle := by
  simp only [State.store, AmtRing.State.store, AmtRing.State.sign]
  cases s.item cfg k with
  | slot idx => rfl
  | scratch thread' =>
    by_cases same : thread = thread'
    · subst same
      simp [AmtRing.State.assign, AmtRing.State.deref]
    · simp [AmtRing.State.assign, same]

/-- A step of a call or its completion, but for its exchanges of lifecycle words and its claims. -/
structure Aside [DecidableEq T] (cfg : Config C T) (s : State C T) (c : C) (t : State C T) :
    Prop where
  ring : t.ring = s.ring ∨ ∃ k change, t.ring = s.ring.store k (s.item cfg k) change
  arm : s.calls c = .arm → t.calls c = .arm
  exchange : s.completes c = .compareExchange → t.completes c = .compareExchange

/-- Such a step leaves the phase alone, or fills the entry. -/
theorem Move.still {v w : View C T} (ok : v.Ok (cfg.place c) (cfg.status c))
    (move : Move cfg c v w) (arm : v.call = .arm → w.call = .arm)
    (exchange : v.complete = .compareExchange → w.complete = .compareExchange) :
    (w.phase = v.phase ∨ w.phase = .filled)
      ∧ (v.claim = .scratch → w.call.active = true → v.call.active = true) := by
  -- Beside arming and the exchange, only filling the entry changes the phase.
  cases move with
  | begin standing _ => simp [View.phase, View.armed, standing, ok.unborn standing]
  | answer standing _ _ next =>
    rcases next with rfl | rfl <;> simp [View.phase, View.armed, standing]
  | post _ standing =>
    have unposted := ok.unposted (by simp [standing])
    simp [View.phase, View.armed, unposted, standing]
  | snapshot standing same _ => simp [View.phase, View.armed, standing]
  | store standing _ | stop standing | fill standing _ | unmarked _ standing _ | mark standing
  | reject standing | accept _ standing _ | fail standing | clearPending standing
  | publish standing | unseen standing _ | seen standing _ | second standing _
  | completed standing _ | stampSec standing _ | stampNsec standing =>
    simp [View.phase, View.armed, standing]
  | first standing free | callbackFirst standing free =>
    simp [View.phase, View.armed, standing, ok.none_of_free free]
  | arm standing => cases arm standing
  | takeOver standing _ | giveUp standing _ _ => cases exchange standing
  | done standing =>
    exact ⟨.inr (if_pos (ok.armed_of_begun (by simp [standing]))), fun _ active => active⟩
  | partner standing | endSec standing _ | endNsec standing | copyStart standing | size standing
  | lateAnswer standing _ _ | lateFill standing _ | lateNsec standing | lateSec standing =>
    simp [View.phase, View.armed, standing]
  | claim | report | announce | unattached | attached | callbackSecond | lateClaim | leave
  | lateLeave => exact ⟨.inl rfl, fun _ active => active⟩

section Local

variable [DecidableEq C] [DecidableEq T]

/-- The calls that did not make the step see what they saw. -/
theorem Local.others (step : Local cfg s c t) {c' : C} (other : c' ≠ c) :
    t.view cfg c' = s.view cfg c' := by
  obtain ⟨v, view, _⟩ := step.move
  rw [view, Function.update_of_ne other]

theorem Local.still (step : Local cfg s c t) (inv : Inv cfg s)
    (aside : Aside cfg s c t) : Still s t := by
  have claims : t.ring.claims = s.ring.claims := by
    rcases aside.ring with same | ⟨_, _, stored⟩
    · rw [same]
    · rw [stored]
      rfl
  have word : ∀ thread, (t.ring.scratch thread).lifecycle = (s.ring.scratch thread).lifecycle := by
    rcases aside.ring with same | ⟨_, change, stored⟩
    · simp [same]
    · rw [stored]
      exact fun thread => store_word change thread
  obtain ⟨v, view, move⟩ := step.move
  have here : v = t.view cfg c := by rw [view, Function.update_self]
  have still := (here ▸ move).still (inv.views c) aside.arm aside.exchange
  refine ⟨fun _ => congrFun claims _, fun c' => ?_, fun c' claim => ?_, word⟩
  · by_cases same : c' = c
    · exact same ▸ still.1
    · exact .inl (congrArg View.phase (step.others same))
  · by_cases same : c' = c
    · subst same
      exact still.2 ((congrFun claims _).symm.trans claim)
    · exact fun active => (congrArg (·.call.active) (step.others same)).symm.trans active

/-- A call concerns a scratch entry only when it arms it or claims one. -/
theorem stepCall_aside (other : s.calls c ≠ .arm) (taken : Ucx.stepCall cfg c now s = some t) :
    Aside cfg s c t ∨ s.calls c = .claiming ∧ ∃ ring,
      edumpiAmtRingClaim cfg.ring cfg.threadOf (.call c) s.ring = some ring
      ∧ t = { s with ring := ring } := by
  unfold Ucx.stepCall Ucx.mpiIrecv Ucx.otherCall at taken
  dsimp only at taken
  repeat' split at taken
  all_goals cases taken
  all_goals first
    | exact absurd ‹s.calls c = .arm› other
    | exact .inr ⟨‹s.calls c = .claiming›, _, ‹_›, rfl⟩
    | refine .inl ⟨?_, fun standing => absurd standing other, ?_⟩
      · first
          | exact .inl rfl
          | dsimp only [State.callAt, State.return, State.setExt, State.store]
            exact .inr ⟨_, _, rfl⟩
      · first | exact id | exact fun _ => Function.update_self ..

/-- A callback concerns no scratch entry before its completion does. -/
theorem recvFinished_aside (taken : edumpiUcxRecvFinished cfg c s = some t) : Aside cfg s c t := by
  unfold edumpiUcxRecvFinished at taken
  dsimp only at taken
  repeat' split at taken
  all_goals cases taken
  all_goals
    refine ⟨.inl rfl, id, ?_⟩
    first | exact id | exact fun _ => Function.update_self ..

/-- A completion concerns one only by its exchange of the word and by its claim. -/
theorem completeEntry_aside (past : s.completes c ≠ .compareExchange)
    (taken : edumpiUcxCompleteEntry cfg c now s = some t) :
    Aside cfg s c t ∨ ∃ ring, edumpiAmtRingClaim cfg.ring cfg.threadOf (.late c) s.ring = some ring
      ∧ t = { s with ring := ring } := by
  unfold edumpiUcxCompleteEntry at taken
  dsimp only at taken
  repeat' split at taken
  all_goals cases taken
  all_goals first
    | exact absurd ‹s.completes c = .compareExchange› past
    | exact .inr ⟨_, ‹_›, rfl⟩
    | refine .inl ⟨?_, id, fun standing => absurd standing past⟩
      first
        | exact .inl rfl
        | dsimp only [State.completeAt, State.setExt, State.store]
          exact .inr ⟨_, _, rfl⟩

end Local

theorem Still.setRing {ring : AmtRing.State (Claimant C) T} (claims : ring.claims = s.ring.claims)
    (scratch : ring.scratch = s.ring.scratch) : Still s { s with ring := ring } :=
  ⟨fun _ => congrFun claims _, fun _ => .inl rfl, fun _ _ active => active,
    fun _ => congrArg QEntry.lifecycle (congrFun scratch _)⟩

end Still

section Exchange

variable {cfg : Config C T} {s t : State C T} {c : C} {now : Timespec}
  {ring : AmtRing.State (Claimant C) T}

/-- A store into the lifecycle word of a call reaches a scratch entry only for a dropped call. -/
theorem storeLifecycle_word [DecidableEq T]
    (answered : (s.ring.claims (.call c)).answered = true) (word : Nat)
    (thread : T) :
    ((s.storeLifecycle (.call c) (s.item cfg (.call c)) word).ring.scratch thread).lifecycle
      = if s.ring.claims (.call c) = .scratch ∧ thread = cfg.thread c then word
        else (s.ring.scratch thread).lifecycle := by
  cases claim : s.ring.claims (.call c) with
  | slot h => simp [State.storeLifecycle, AmtRing.State.storeLifecycle, AmtRing.State.sign,
      AmtRing.State.assign, State.item, AmtRing.State.given, claim]
  | scratch =>
    by_cases same : thread = cfg.thread c <;>
      simp [State.storeLifecycle, AmtRing.State.storeLifecycle, AmtRing.State.sign,
        AmtRing.State.assign, State.item, AmtRing.State.given, claim, Config.threadOf, same]
  | _ =>
    rw [claim] at answered
    cases answered

variable [DecidableEq C] [DecidableEq T]

section

variable (shelf : Shelf cfg s) (inv : Inv cfg s)

include shelf inv

/-- A call arms its entry, or its completion takes it over. -/
theorem Shelf.exchange (made : Local cfg s c t) {word : Nat}
    (claims : t.ring.claims = s.ring.claims)
    (words : ∀ thread, (t.ring.scratch thread).lifecycle
      = if s.ring.claims (.call c) = .scratch ∧ thread = cfg.thread c then word
        else (s.ring.scratch thread).lifecycle)
    (next : t.phase c = .filling
      ∨ t.phase c = .waiting ∧ (s.calls c).active = true
        ∧ (s.ring.claims (.call c) = .scratch → word = edumpiLc 0 .pending))
    (free : s.ring.claims (.call c) = .scratch →
      ∀ c', c' ≠ c → cfg.thread c' = cfg.thread c → ¬ s.shelved c') :
    Shelf cfg t := by
  have others : ∀ c', c' ≠ c → t.phase c' = s.phase c' ∧ t.calls c' = s.calls c' :=
    fun c' other => ⟨congrArg View.phase (made.others other), congrArg View.call (made.others other)⟩
  -- The other receives are as they were.
  have before : ∀ c', c' ≠ c → t.shelved c' → s.shelved c' := fun c' other shelved =>
    ⟨congrFun claims _ ▸ shelved.1, (others c' other).1 ▸ shelved.2⟩
  have armed : t.shelved c → (s.calls c).active = true ∧ word = edumpiLc 0 .pending := by
    intro shelved
    rcases next with filling | ⟨_, active, given⟩
    · rw [shelved.2] at filling
      cases filling
    · exact ⟨active, given (congrFun claims _ ▸ shelved.1)⟩
  have apart : ∀ c', c' ≠ c → t.shelved c' → t.shelved c → cfg.thread c' ≠ cfg.thread c :=
    fun c' other shelved mine thread =>
      free (congrFun claims _ ▸ mine.1) c' other thread (before c' other shelved)
  refine ⟨?_, ?_, ?_, ?_⟩
  · -- The word of a scratch entry is that of the one receive that waits on it.
    intro c' shelved
    rw [words]
    by_cases same : c' = c
    · subst same
      rw [if_pos ⟨congrFun claims _ ▸ shelved.1, rfl⟩]
      exact (armed shelved).2
    · rw [if_neg]
      · exact shelf.word c' (before c' same shelved)
      · rintro ⟨dropped, thread⟩
        exact free dropped c' same thread (before c' same shelved)
  · intro c₁ c₂ shelved₁ shelved₂ thread
    by_cases first : c₁ = c <;> by_cases second : c₂ = c
    · exact first.trans second.symm
    · subst first
      exact absurd thread.symm (apart c₂ second shelved₂ shelved₁)
    · subst second
      exact absurd thread (apart c₁ first shelved₁ shelved₂)
    · exact shelf.alone c₁ c₂ (before c₁ first shelved₁) (before c₂ second shelved₂) thread
  · intro c₁ c₂ claim active unarmed thread shelved
    have other : c₁ ≠ c := by
      rintro rfl
      rcases next with filling | ⟨waiting, _⟩ <;> simp_all
    have begun : (s.calls c₁).active = true := (others c₁ other).2 ▸ active
    by_cases same : c₂ = c
    · -- The call that arms its entry is the one its thread is in.
      subst same
      exact other (inv.same_of_thread begun (armed shelved).1 thread.symm)
    · exact shelf.clear c₁ c₂ (congrFun claims _ ▸ claim) begun ((others c₁ other).1 ▸ unarmed)
        thread (before c₂ same shelved)
  · intro c' claim lost
    by_cases same : c' = c
    · rcases next with filling | ⟨waiting, _⟩ <;> simp_all
    · exact shelf.kept c' (congrFun claims _ ▸ claim) ((others c' same).1 ▸ lost)

/-- A call arms its entry. -/
theorem Shelf.arm (standing : s.calls c = .arm)
    (made : Local cfg s c t) (taken : Ucx.stepCall cfg c now s = some t) : Shelf cfg t := by
  have ok := inv.views c
  have posted : (s.ext c).posted = true :=
    ok.attaching (by simp [standing])
  -- The entry is not armed yet, so nobody completes the receive.
  have complete : s.completes c = .none := by
    by_contra begun
    have armed := ok.armed_of_begun begun
    simp [View.armed, standing] at armed
  have active : (s.calls c).active = true := by simp [standing]
  have answered := ok.answered (by simp [standing]) (by simp [standing])
  simp only [Ucx.stepCall, Ucx.mpiIrecv, Ucx.otherCall, standing] at taken
  split at taken <;> cases taken
  refine shelf.exchange inv made rfl (storeLifecycle_word answered _) ?_ ?_
  · right
    refine ⟨?_, active, fun dropped => ?_⟩
    · simp [State.phase, State.callAt, State.storeLifecycle, posted, complete]
    · have number := ok.ticket posted (by simp [standing])
      rw [show (s.view cfg c).claim = .scratch from dropped] at number
      rw [show (s.ext c).ticket = 0 from number]
  · intro dropped c' _ thread
    exact shelf.clear c c' dropped active (by simp [State.phase, standing]) thread

/-- A completion exchanges the word of an entry, and finds a scratch entry as it was armed. -/
theorem Shelf.compareExchange
    (standing : s.completes c = .compareExchange) (made : Local cfg s c t)
    (taken : edumpiUcxCompleteEntry cfg c now s = some t) : Shelf cfg t := by
  obtain ⟨pointer, armed, answered, number⟩ :=
    inv.attached (by simp [standing] : s.completes c ≠ .none)
  have waiting : s.phase c = .waiting :=
    (if_pos armed).trans (show (s.completes c).phase = .waiting by rw [standing]; rfl)
  simp only [edumpiUcxCompleteEntry, standing, pointer] at taken
  split at taken <;> cases taken
  · refine shelf.exchange inv made rfl (storeLifecycle_word answered _) (.inl ?_) ?_
    · exact (if_pos armed).trans (by simp [State.completeAt])
    · intro dropped c' other thread shelved
      exact other (shelf.alone c' c shelved ⟨dropped, waiting⟩ thread)
  rename_i word
  -- A receive that waits on the scratch entry finds its own word there.
  have kept : s.ring.claims (.call c) ≠ .scratch := by
    intro dropped
    refine word ?_
    rw [number, State.item, AmtRing.State.given, dropped]
    exact shelf.word c ⟨dropped, waiting⟩
  have other : ∀ {c'}, s.ring.claims (.call c') = .scratch → c' ≠ c := by
    rintro c' dropped rfl
    exact kept dropped
  have same := fun c' dropped => congrArg View.phase (made.others (@other c' dropped))
  exact shelf.fewer (fun c' shelved => ⟨shelved.1, (same c' shelved.1).symm.trans shelved.2⟩)
    (fun _ _ => rfl)
    (fun c₁ dropped active unarmed c₂ =>
      shelf.clear c₁ c₂ dropped active ((same c₁ dropped).symm.trans unarmed))
    fun c' dropped lost => shelf.kept c' dropped ((same c' dropped).symm.trans lost)

end

/-- A claim that zeroes a scratch entry only while no receive waits on it leaves the word of every
receive alone. -/
theorem claim_word {k : Claimant C}
    (taken : edumpiAmtRingClaim cfg.ring cfg.threadOf k s.ring = some ring)
    (free : s.ring.claims k = .zeroScratch →
      ∀ c', cfg.thread c' = cfg.threadOf k → ¬ s.shelved c') (shelved : s.shelved c) :
    (ring.scratch (cfg.thread c)).lifecycle = (s.ring.scratch (cfg.thread c)).lifecycle := by
  rw [AmtRing.claim_scratch taken]
  split
  · rename_i zeroing
    rw [Function.update_of_ne fun thread => free zeroing c thread shelved]
  · rfl

theorem Shelf.claimLate (shelf : Shelf cfg s) (inv : Inv cfg s)
    (free : ScratchFree cfg s (.complete c now))
    (taken : edumpiAmtRingClaim cfg.ring cfg.threadOf (.late c) s.ring = some ring) :
    Shelf cfg { s with ring := ring } := by
  have claims : ∀ c', ring.claims (.call c') = s.ring.claims (.call c') := fun c' =>
    (inv.ring.inv.claim_others taken (show Claimant.call c' ≠ .late c by simp)).1
  exact shelf.fewer (fun c' shelved => ⟨claims c' ▸ shelved.1, shelved.2⟩)
    (fun c' => claim_word taken free)
    (fun c₁ dropped active unarmed c₂ => shelf.clear c₁ c₂ (claims c₁ ▸ dropped) active unarmed)
    fun c' dropped => shelf.kept c' (claims c' ▸ dropped)

theorem Shelf.claimCall (shelf : Shelf cfg s) (inv : Inv cfg s)
    (standing : s.calls c = .claiming) (free : ScratchFree cfg s (.call c now))
    (taken : edumpiAmtRingClaim cfg.ring cfg.threadOf (.call c) s.ring = some ring) :
    Shelf cfg { s with ring := ring } := by
  have unarmed : s.phase c = .unarmed := by
    have unposted : (s.ext c).posted = false :=
      (inv.views c).unposted (by simp [standing])
    simp [State.phase, unposted]
  have claims : ∀ c', c' ≠ c → ring.claims (.call c') = s.ring.claims (.call c') := fun c' other =>
    (inv.ring.inv.claim_others taken (show Claimant.call c' ≠ .call c by simp [other])).1
  have others : ∀ {c' : C}, s.phase c' ≠ .unarmed → c' ≠ c := by
    rintro c' armed rfl
    exact armed unarmed
  -- Only the step that zeroes the scratch entry gives it to the call.
  have zeroing : ring.claims (.call c) = .scratch → s.ring.claims (.call c) = .zeroScratch := by
    intro dropped
    cases AmtRing.claim_cases taken with
    | zeroScratch standing => exact standing
    | _ => simp at dropped
  refine shelf.fewer (fun c' shelved => ?_) (fun c' => claim_word taken free)
    (fun c₁ dropped active fresh c₂ thread => ?_) fun c' dropped lost => ?_
  · have waiting : s.phase c' = .waiting := shelved.2
    exact ⟨claims c' (others (by simp [waiting])) ▸ shelved.1, waiting⟩
  · by_cases same : c₁ = c
    · subst same
      exact free (zeroing dropped) c₂ thread
    · exact shelf.clear c₁ c₂ (claims c₁ same ▸ dropped) active fresh thread
  · have lost : s.phase c' = .lost := lost
    exact shelf.kept c' (claims c' (others (by simp [lost])) ▸ dropped) lost

end Exchange

section Run

variable {cfg : Config C T} {s : State C T}

/-- Every memory access keeps what the receives on scratch entries rely on. -/
theorem shelf_step [DecidableEq C] [DecidableEq T] (s : State C T) (a : Action C) (t : State C T)
    (inv : Inv cfg s)
    (shelf : Shelf cfg s) (free : ScratchFree cfg s a) (taken : step cfg s a = some t) :
    Shelf cfg t := by
  -- Arming, the exchange and the claim are the steps that touch a scratch entry.
  cases a with
  | call c now =>
    have made := inv.stepCall taken
    by_cases standing : s.calls c = .arm
    · exact shelf.arm inv standing made taken
    · rcases stepCall_aside standing taken with aside | ⟨claiming, ring, claimed, rfl⟩
      · exact shelf.still (made.still inv aside)
      · exact shelf.claimCall inv claiming free claimed
  | callback c => exact shelf.still ((inv.recvFinished taken).still inv (recvFinished_aside taken))
  | complete c now =>
    have made := inv.completeEntry taken
    by_cases standing : s.completes c = .compareExchange
    · exact shelf.compareExchange inv standing made taken
    · rcases completeEntry_aside standing taken with aside | ⟨ring, claimed, rfl⟩
      · exact shelf.still (made.still inv aside)
      · exact shelf.claimLate inv free claimed
  | drainCall force max =>
    obtain ⟨ring, moved, rfl⟩ := Option.map_eq_some_iff.mp taken
    obtain ⟨-, rfl⟩ := AmtRing.step_drainCall_eq_some.mp moved
    exact shelf.still (.setRing rfl rfl)
  | drain clock =>
    obtain ⟨ring, moved, rfl⟩ := Option.map_eq_some_iff.mp taken
    obtain same | ⟨_, rfl⟩ | ⟨lc, _, _, rfl⟩ := AmtRing.drain_cases moved
    · exact shelf.still (.setRing same.claims same.scratch)
    · exact shelf.still (.setRing rfl rfl)
    · exact shelf.still (.setRing rfl rfl)

theorem shelf_initial : Shelf cfg (initial : State C T) where
  word := by simp [State.shelved, initial, AmtRing.initial]
  alone := by simp [State.shelved, initial, AmtRing.initial]
  clear := by simp [initial, AmtRing.initial]
  kept := by simp [initial, AmtRing.initial]

theorem ticket_of_dropped {pc : ClaimPc} (dropped : pc.dropped = true) : pc.ticket = none := by
  cases pc <;> first | rfl | cases dropped

variable [DecidableEq C]

/-- A call that was counted as dropped has no late entry, and no row. -/
theorem Shelf.rows_of_dropped (shelf : Shelf cfg s) (inv : Inv cfg s) {c : C}
    (dropped : (s.ring.claims (.call c)).dropped = true) :
    s.ring.claims (.late c) = .unborn ∧ s.rows c = [] := by
  have ok := inv.views c
  have kept : s.phase c ≠ .lost := by
    cases claim : s.ring.claims (.call c) with
    | scratch => exact shelf.kept c claim
    | zeroScratch =>
      -- The claim is not answered yet, so there is no receive.
      have early : (s.calls c).afterPost = false := by
        by_contra after
        have answered := ok.answered
          (by intro idle; simp [show s.calls c = .idle from idle] at after)
          (by intro busy; simp [show s.calls c = .claiming from busy] at after)
        rw [show (s.view cfg c).claim = .zeroScratch from claim] at answered
        cases answered
      have unposted : (s.ext c).posted = false := ok.unposted early
      simp [State.phase, unposted]
    | _ =>
      rw [claim] at dropped
      cases dropped
  have unborn : s.ring.claims (.late c) = .unborn := by
    by_contra born
    exact kept (inv.lost_of_late born)
  refine ⟨unborn, List.eq_nil_iff_forall_not_mem.mpr ?_⟩
  intro r among
  rcases (inv.mem_rows.mp among).2 with own | late
  · rw [AmtRing.leavingOf_of_none (ticket_of_dropped dropped)] at own
    cases own
  · exact late_born_of_leavingOf late unborn

/-- A receive whose late entry was dropped has no row. -/
theorem Inv.rows_of_lateDropped (inv : Inv cfg s) {c : C}
    (dropped : (s.ring.claims (.late c)).dropped = true) : s.rows c = [] := by
  have lost : (s.view cfg c).phase = .lost := inv.lost_of_late (c := c) (by
    intro unborn
    rw [unborn] at dropped
    cases dropped)
  refine List.eq_nil_iff_forall_not_mem.mpr ?_
  intro r among
  obtain ⟨emitted, gone⟩ := inv.mem_rows.mp among
  rcases gone with own | late
  · have kept := ((inv.views c).left r own).1
    rw [lost, emitted] at kept
    cases kept
  · rw [AmtRing.leavingOf_of_none (ticket_of_dropped dropped)] at late
    cases late

/-- An event is handed over once or dropped once, and not both. -/
theorem Shelf.accounted (shelf : Shelf cfg s) (inv : Inv cfg s) (c : C) :
    (s.rows c).length + s.drops c ≤ 1 := by
  have rows := inv.rows_le_one c
  by_cases dropped : (s.ring.claims (.call c)).dropped = true
  · obtain ⟨unborn, none⟩ := shelf.rows_of_dropped inv dropped
    have never : (s.ring.claims (.late c)).dropped = false := by rw [unborn]; rfl
    simp [State.drops, dropped, never, none, -ClaimPc.dropped]
  · by_cases late : (s.ring.claims (.late c)).dropped = true
    · simp [State.drops, dropped, late, inv.rows_of_lateDropped late, -ClaimPc.dropped]
    · simpa [State.drops, dropped, late, -ClaimPc.dropped] using rows

/-- An event that is resolved is accounted for. -/
theorem Inv.accounted_of_resolved (inv : Inv cfg s) {c : C}
    (resolved : s.resolved c) (drained : s.ring.left.length = s.ring.head) :
    1 ≤ (s.rows c).length + s.drops c := by
  by_cases dropped : s.ring.claims (.call c) = .scratch
  · simp only [State.drops, dropped, ClaimPc.dropped, if_true]
    omega
  by_cases late : s.ring.claims (.late c) = .scratch
  · simp only [State.drops, late, ClaimPc.dropped, if_true]
    omega
  · obtain ⟨r, among⟩ := inv.rows_of_resolved resolved drained dropped late
    have some := List.length_pos_of_mem among
    omega

end Run

/--
A receive is handed over once or counted as dropped once, and a dropped one is never handed over.

This holds in every run in which the consumer gives no slot back before its claimant is done with it and no thread zeroes its scratch entry while a receive waits on it.
-/
theorem dropped_receive_stays_dropped [DecidableEq C] [DecidableEq T] (cfg : Config C T)
    (actions : List (Action C)) (s : State C T) (ran : exec (step cfg) initial actions = some s)
    (inTime : Along (step cfg) (InTime cfg) initial actions)
    (free : Along (step cfg) (ScratchFree cfg) initial actions) :
    (∀ c, (s.rows c).length + s.drops c ≤ 1
      ∧ ((s.ring.claims (.call c)).dropped = true → s.rows c = [])
      ∧ (s.resolved c → s.ring.left.length = s.ring.head → (s.rows c).length + s.drops c = 1))
    ∧ {k | (s.ring.claims k).dropped = true}.encard = (s.ring.dropped : Nat) := by
  obtain ⟨inv, shelf⟩ : Inv cfg s ∧ Shelf cfg s := by
    refine exec_keeps_along (P := fun s => Inv cfg s ∧ Shelf cfg s) ?_
      ⟨inv_initial, shelf_initial⟩ (inTime.and free) ran
    intro s a t before fair taken
    exact ⟨inv_step s a t before.1 fair.1 taken, shelf_step s a t before.1 before.2 fair.2 taken⟩
  refine ⟨fun c => ⟨shelf.accounted inv c, fun dropped => (shelf.rows_of_dropped inv dropped).2,
    fun resolved drained => ?_⟩, inv.ring.inv.tickets.lost⟩
  exact Nat.le_antisymm (shelf.accounted inv c) (inv.accounted_of_resolved resolved drained)

/-- Two receives on one thread and a ring of one slot: the second one is dropped. -/
def oneDropped : Config Bool Unit where
  ring := ⟨1, 10, 10, Nat.one_pos⟩
  process := ⟨0, [], 1⟩
  call := fun _ => .irecv ⟨1, 1, .int, .world, .posted⟩
  status := fun _ => ⟨false, 4, 1⟩
  thread := fun _ => ()
  finisher := fun _ => ()

/-- Both receives return and complete, and then the consumer comes. -/
def oneDroppedRun : List (Action Bool) :=
  replicate 18 (.call false ⟨1, 1⟩) ++ replicate 16 (.call true ⟨1, 1⟩)
    ++ replicate 4 (.callback true) ++ replicate 7 (.complete true ⟨2, 2⟩)
    ++ replicate 4 (.callback false) ++ replicate 7 (.complete false ⟨2, 2⟩)
    ++ .drainCall false 5 :: replicate 9 (.drain 0)

theorem dropped_receive_stays_dropped_two :
    ∃ s, exec (step oneDropped) initial oneDroppedRun = some s
      ∧ (s.ring.claims (.call true)).dropped = true ∧ s.rows true = []
      ∧ (s.rows false).length + s.drops false = 1 := by
  refine reaches_of_decide (P := fun s => (s.ring.claims (.call true)).dropped = true
      ∧ s.resolved false ∧ s.ring.left.length = s.ring.head) (by decide +kernel)
    fun s ran ⟨dropped, resolved, drained⟩ => ?_
  have once := (dropped_receive_stays_dropped oneDropped oneDroppedRun s ran (by decide +kernel)
    (by decide +kernel)).1
  exact ⟨dropped, (once true).2.1 dropped, (once false).2.2 resolved drained⟩

/-- One thread makes a call that fills the ring, and then two receives. -/
def twoDropped : Config (Fin 3) Unit where
  ring := ⟨1, 10, 10, Nat.one_pos⟩
  process := ⟨0, [], 1⟩
  call := fun c =>
    if c = 0 then .other [({ · with endTime := ⟨1, 1⟩ })]
    else .irecv ⟨1, 1, .int, .world, .posted⟩
  status := fun _ => ⟨false, 4, 1⟩
  thread := fun _ => ()
  finisher := fun _ => ()

/--
Two dropped receives of one thread wait on the same scratch entry.

The first completion takes it over, so the second one finds another word in it, and hands over a row for a receive that was counted as dropped.
-/
theorem dropped_receive_is_handed_over :
    ∃ actions s, exec (step twoDropped) initial actions = some s
      ∧ Along (step twoDropped) (InTime twoDropped) initial actions
      ∧ (s.ring.claims (.call 2)).dropped = true ∧ (s.rows 2).length = 1 ∧ s.ring.dropped = 2 := by
  let actions : List (Action (Fin 3)) :=
    replicate 10 (.call 0 ⟨1, 1⟩) ++ replicate 16 (.call 1 ⟨1, 1⟩)
      ++ replicate 16 (.call 2 ⟨1, 1⟩)
      ++ replicate 4 (.callback 1) ++ replicate 7 (.complete 1 ⟨2, 2⟩)
      ++ .drainCall false 5 :: replicate 8 (.drain 0)
      ++ replicate 4 (.callback 2) ++ replicate 11 (.complete 2 ⟨3, 3⟩)
      ++ .drainCall false 5 :: replicate 8 (.drain 0)
  exact ⟨actions, exec_reaches (by decide +kernel)⟩

end EduMpi.Ucx
