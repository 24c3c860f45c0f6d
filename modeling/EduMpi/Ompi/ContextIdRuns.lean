import EduMpi.Ompi.ContextIdSystem

/-! How a negotiation ends: with one context id for all participants, or with an error. -/

namespace EduMpi.Ompi

open Allreduce Machine Opal Option
open CidState (initial step)

variable {n : Nat} {cfg : CidConfig} {f : Fin n → Slots} {roles : Fin n → Bool × Nat × Int}
  {s t : CidState n} {a : CidAction n} {i j : Fin n} {procs : Fin n → CidProc}
  {actions : List (CidAction n)}

instance (cfg : CidConfig) (p : CidProc) : Decidable (CanPropose cfg p) :=
  decidable_of_iff (∃ i < cfg.maxContextid, p.start ≤ (i : Int) ∧ p.table.value i = none)
    ⟨fun ⟨i, high, low, free⟩ => ⟨i, low, high, free⟩,
      fun ⟨i, low, high, free⟩ => ⟨i, high, low, free⟩⟩

/-- The process that takes a step. -/
def CidAction.actor : CidAction n → Fin n
  | .propose i _ | .check i _ _ | .finish i _ => i

/-- A step leaves the other processes alone. -/
theorem Happens.others (happened : Happens cfg f s a t) (other : j ≠ a.actor) :
    t.nodes j = s.nodes j := by
  cases happened with
  | @leaves i starts => cases starts <;> exact s.setNode_nodes_of_ne _ other
  | _ => exact s.setNode_nodes_of_ne _ other

section Agreement

/-- A process gets an id only when the second reduction says so. -/
theorem Happens.done (happened : Happens cfg f s a t) (now : (t.nodes j).phase = .done) :
    t.nodes j = s.nodes j ∨ ∃ (q : CidProc) (slot : Nat) (v : Int), a = .finish j true ∧
      t.nodes j = ⟨.done, (s.nodes j).round, q⟩ ∧ (s.nodes j).phase = .waitMin ∧
      minimum (s.minPosts (s.nodes j).round) = some v ∧ v ≠ 0 ∧
      Adopted cfg (f j) (s.nodes j).proc q slot := by
  by_cases own : j = a.actor
  · subst own
    cases happened with
    | @leaves i starts q => cases starts <;> simp [CidAction.actor] at now
    | @adopts i q slot v phase agreed set adopted =>
      exact .inr ⟨q, slot, v, rfl, s.moved_nodes i .done q, phase, agreed, set, adopted⟩
    | _ => simp [CidAction.actor] at now
  · exact .inl (happened.others own)

/-- A process without a part that ends the negotiation can still find a free slot, the limit
included. -/
def FindsSlot (cfg : CidConfig) (s : CidState n) : CidAction n → Prop
  | .finish i completes =>
    completes = true ∧ (s.nodes i).proc.participate = false ∧
        minimum (s.minPosts (s.nodes i).round) ≠ some 0 →
      CanPropose cfg (s.nodes i).proc ∨ (s.nodes i).proc.table.value cfg.maxContextid = none
  | _ => True

instance (cfg : CidConfig) (s : CidState n) : ∀ a, Decidable (FindsSlot cfg s a)
  | .propose _ _ | .check _ _ _ => isTrue trivial
  | .finish _ _ => inferInstanceAs (Decidable (_ → _))

/-- Every process with an id has put its communicator into a slot that was free and has changed
no other; the participants have one slot that was free at each of them. -/
def Agreed (procs : Fin n → CidProc) (s : CidState n) : Prop :=
  ∀ i, (s.nodes i).phase = .done → ∃ slot : Nat,
    (s.nodes i).proc.cIndex = some (slot : Int) ∧ (procs i).table.value slot = none ∧
    (s.nodes i).proc.table.value
      = Function.update (procs i).table.value slot (some (.comm (procs i).newcomm)) ∧
    ((procs i).participate = true → ∀ j, (procs j).participate = true →
      (procs j).table.value slot = none ∧
        ((s.nodes j).phase = .done → (s.nodes j).proc.cIndex = some (slot : Int)))

/-- A process without a part has a slot that was free. -/
def OwnFree (f : Fin n → Slots) (s : CidState n) : Prop :=
  ∀ i, (s.nodes i).phase = .done → (s.nodes i).proc.participate = false →
    ∃ slot : Nat, (s.nodes i).proc.cIndex = some (slot : Int) ∧ f i slot = none

theorem OwnFree.step (free : OwnFree f s) (finds : FindsSlot cfg s a)
    (happened : Happens cfg f s a t) : OwnFree f t := by
  intro i now not
  rcases happened.done now with same | ⟨q, slot, v, rfl, node, phase, agreed, set, adopted⟩
  · rw [same] at now not ⊢
    exact free i now not
  rw [node] at not ⊢
  have outside : (s.nodes i).proc.participate = false :=
    (congrArg Prod.fst adopted.role).symm.trans not
  refine ⟨slot, adopted.index, ?_⟩
  by_cases can : CanPropose cfg (s.nodes i).proc
  · exact (adopted.found outside can).1
  -- The limit itself is used, and it is free.
  obtain ⟨rfl, contents⟩ := adopted.last outside can
  have settled : minimum (s.minPosts (s.nodes i).round) ≠ some 0 := by
    simp [agreed, set]
  exact contents ▸ (finds ⟨rfl, outside, settled⟩).resolve_left can

/-- Two processes that end with an id end in the same round. -/
theorem Negotiation.same_round (inv : Negotiation cfg f roles s) {v : Int}
    (agreed : minimum (s.minPosts (s.nodes i).round) = some v) (set : v ≠ 0) :
    (s.nodes j).round ≤ (s.nodes i).round := by
  by_contra ahead
  have refused := inv.earlier j (s.nodes i).round (by omega)
  exact set (some.inj (agreed.symm.trans refused))

/-- What is known of a process that has ended with an id. -/
theorem NodeAt.settled {contents : Slots} {maxPosts minPosts : Fin n → Option Int}
    {node : CidNode} (at_ : NodeAt cfg contents i maxPosts minPosts node)
    (phase : node.phase = .done) :
    ∃ (slot : Nat) (v : Int), minimum minPosts = some v ∧ v ≠ 0 ∧
      node.proc.cIndex = some (slot : Int) ∧
      node.proc.table.value = Function.update contents slot (some (.comm node.proc.newcomm)) ∧
      (node.proc.participate = true →
        maximum maxPosts = some (slot : Int) ∧ contents slot = none) := by
  cases at_ with
  | done agreed set index contents common => exact ⟨_, _, agreed, set, index, contents, common⟩
  | _ => cases phase

/-- In every run in which each process without a part finds a free slot, everyone who ends with an
id has a slot that was free, and all participants have the same one. -/
theorem participants_agree (fresh : ∀ i, Fresh cfg (procs i))
    (finds : Along (step cfg) (FindsSlot cfg) (initial procs) actions)
    (ran : exec (step cfg) (initial procs) actions = some s) :
    Agreed procs s := by
  have inv := Negotiation.run fresh ran
  have free : OwnFree (fun i => (procs i).table.value) s := by
    refine (exec_keeps_along (P := fun s => Negotiation cfg (fun i => (procs i).table.value)
      (fun i => (procs i).role) s ∧ OwnFree (fun i => (procs i).table.value) s) ?_
      ⟨.initial fresh, nofun⟩ finds ran).2
    intro s a t kept here taken
    have happened := kept.1.happens taken
    exact ⟨kept.1.step happened, kept.2.step here happened⟩
  intro i now
  obtain ⟨slot, v, agreed, set, index, contents, common⟩ := (inv.node i).settled now
  have role : (s.nodes i).proc.role = (procs i).role := inv.role i
  have part : (s.nodes i).proc.participate = (procs i).participate := congrArg Prod.fst role
  have name : (s.nodes i).proc.newcomm = (procs i).newcomm := congrArg (fun r => r.2.1) role
  refine ⟨slot, index, ?_, name ▸ contents, fun takes j joins => ⟨?_, fun also => ?_⟩⟩
  · by_cases takes : (s.nodes i).proc.participate = true
    · exact (common takes).2
    · -- A process outside of the new communicator has checked its own table.
      obtain ⟨own, place, unused⟩ := free i now (by simpa using takes)
      obtain rfl : own = slot := by
        have := place.symm.trans index
        simpa using this
      exact unused
  · -- Its flag is set, and so the slot was free there.
    obtain ⟨w, posted, raised⟩ := inv.flag_set agreed set j
    obtain ⟨-, largest, most, unused⟩ := inv.flags _ j w posted
    have same := most.symm.trans (common (part ▸ takes)).1
    obtain rfl : largest = slot := by simpa using same
    exact unused joins raised
  · -- Two processes that have settled did so in the same round, with one maximum.
    obtain ⟨other, w, agreed', set', index', -, common'⟩ := (inv.node j).settled also
    have joint : (s.nodes j).round = (s.nodes i).round :=
      le_antisymm (inv.same_round agreed set) (inv.same_round agreed' set')
    have joins' : (s.nodes j).proc.participate = true :=
      (congrArg Prod.fst (inv.role j)).trans joins
    have largest := (common' joins').1
    rw [joint, (common (part ▸ takes)).1] at largest
    exact index'.trans largest.symm

/-- A process with a table of two slots, before it asks for a context id. -/
def twoSlots (participate : Bool) (lowestFree numberFree : Int) (bits : BitVec 64)
    (addr : List (Option CommPtr)) : CidProc where
  table := ⟨lowestFree, numberFree, 2, 16, 2, [bits], addr⟩
  lowestId := int64Max
  cidEpoch := Ints.intMax
  myId := 0
  participate := participate
  newcomm := 9
  start := 0
  nextcid := 0
  nextlocalCid := 0
  nextcidEpoch := 0
  flag := 0
  cIndex := none
  cEpoch := none

def bothFree (participate : Bool) : CidProc := twoSlots participate 0 2 0 [none, none]

def firstUsed (participate : Bool) : CidProc :=
  twoSlots participate 1 1 1 [some (.comm 3), none]

def secondUsed (participate : Bool) : CidProc :=
  twoSlots participate 0 1 2 [none, some (.comm 4)]

def bothUsed (participate : Bool) : CidProc :=
  twoSlots participate 2 0 3 [some (.comm 3), some (.comm 4)]

theorem Fresh.setSlot {p q : CidProc} {index : Nat} {v : Option CommPtr} (fresh : Fresh cfg p)
    (below : index ≤ cfg.maxContextid) (stores : p.setSlot index v = some q) : Fresh cfg q := by
  obtain ⟨after, ran, ready, -⟩ := fresh.table.setSlot below v
  obtain rfl := some.inj (ran.symm.trans stores)
  exact { fresh with table := ready }

section Small

variable (small : cfg.maxContextid < 16)

include small

theorem fresh_bothFree (participate : Bool) : Fresh cfg (bothFree participate) := by
  have starts : PointerArray.init 2 16 2 = (.success, some (bothFree participate).table) := rfl
  refine ⟨⟨PointerArray.inv_init (by decide) starts, ?_, ?_⟩, rfl, ?_, ?_⟩
  · change (cfg.maxContextid : Int) < 16
    omega
  · change (cfg.maxContextid : Int) + 1 + 2 ≤ 2147483647
    omega
  · change (0 : Int) < int64Max
    decide
  · change (1 : Int) ≤ Ints.intMax
    decide

theorem fresh_firstUsed (participate : Bool) : Fresh cfg (firstUsed participate) :=
  (fresh_bothFree small participate).setSlot (Nat.zero_le _)
    (show (bothFree participate).setSlot 0 (some (.comm 3)) = _ by revert participate; decide +kernel)

theorem fresh_secondUsed (limit : 1 ≤ cfg.maxContextid)
    (participate : Bool) : Fresh cfg (secondUsed participate) :=
  (fresh_bothFree small participate).setSlot limit
    (show (bothFree participate).setSlot 1 (some (.comm 4)) = _ by revert participate; decide +kernel)

theorem fresh_bothUsed (limit : 1 ≤ cfg.maxContextid)
    (participate : Bool) : Fresh cfg (bothUsed participate) :=
  (fresh_firstUsed small participate).setSlot limit
    (show (firstUsed participate).setSlot 1 (some (.comm 4)) = _ by
      revert participate; decide +kernel)

end Small

/-- All processes take one round, in their order. -/
def fullRound (n : Nat) : List (CidAction n) :=
  (List.finRange n).map (.propose · true) ++ (List.finRange n).map (.check · true true) ++
    (List.finRange n).map (.finish · true)

/-- Two participants that cannot use each other's first free slot, and a third process. -/
def crossed : Fin 3 → CidProc
  | 0 => firstUsed true
  | 1 => secondUsed true
  | 2 => bothFree false

theorem fresh_crossed : ∀ i, Fresh ⟨3, true⟩ (crossed i)
  | 0 => fresh_firstUsed (by decide) true
  | 1 => fresh_secondUsed (by decide) (by decide) true
  | 2 => fresh_bothFree (by decide) false

/-- The two participants agree in the second round; the third process takes a slot of its own. -/
theorem crossed_agree :
    ∃ s, exec (step ⟨3, true⟩) (initial crossed) (fullRound 3 ++ fullRound 3)
        = some s ∧
      (∀ i, (s.nodes i).phase = .done) ∧ Agreed crossed s := by
  refine reaches_of_decide (P := fun s => ∀ i, (s.nodes i).phase = .done) (by decide +kernel)
    fun s ran done => ⟨done, ?_⟩
  exact participants_agree fresh_crossed (by decide +kernel) ran

/-- In every run no process is more than one round ahead of another, and nobody goes on to another
round once one has its id. -/
theorem rounds_stay_together (fresh : ∀ i, Fresh cfg (procs i))
    (ran : exec (step cfg) (initial procs) actions = some s) (i j : Fin n) :
    (s.nodes i).round ≤ (s.nodes j).round + 1 ∧
      ((s.nodes j).phase = .done → (s.nodes i).round ≤ (s.nodes j).round) := by
  have inv := Negotiation.run fresh ran
  refine ⟨?_, fun done => ?_⟩
  · by_contra ahead
    -- The round in between would be over without the flag of the second process.
    have refused := inv.earlier i ((s.nodes j).round + 1) (by omega)
    obtain ⟨v, posted, -⟩ := (minimum_eq_some.mp refused).2 j
    rw [(inv.later j _ (Nat.lt_succ_self _)).2] at posted
    cases posted
  · obtain ⟨slot, v, agreed, set, -⟩ := (inv.node j).settled done
    exact inv.same_round agreed set

theorem pair_stays_together : ∃ s, exec (step ⟨1, true⟩) (initial fun _ : Fin 2 => bothFree true)
    (fullRound 2) = some s ∧ (s.nodes 1).round ≤ (s.nodes 0).round :=
  reaches_of_decide (P := fun s => (s.nodes 0).phase = .done) (by decide +kernel) fun s ran done =>
    (rounds_stay_together (fun _ => fresh_bothFree (by decide) true) ran 1 0).2 done

/-- A participant with free slots, and another process with none. -/
def besideFull : Fin 2 → CidProc
  | 0 => bothFree true
  | 1 => bothUsed false

/-- A process without a part whose slots are all used puts its communicator over another one. -/
theorem full_table_overwritten :
    (∀ i, Fresh ⟨1, true⟩ (besideFull i)) ∧
    ∃ s, exec (step ⟨1, true⟩) (initial besideFull) (fullRound 2) = some s ∧
      (besideFull 1).table.value 1 = some (.comm 4) ∧
      (s.nodes 1).proc.table.value 1 = some (.comm 9) ∧ ¬ Agreed besideFull s := by
  refine ⟨?_, ?_⟩
  · intro i
    match i with
    | 0 => exact fresh_bothFree (by decide) true
    | 1 => exact fresh_bothUsed (by decide) (by decide) false
  · refine reaches_of_decide (P := fun s => (s.nodes 1).phase = .done ∧
      (s.nodes 1).proc.cIndex = some 1 ∧ (s.nodes 1).proc.table.value 1 = some (.comm 9))
      (by decide +kernel) fun s _ ⟨done, place, lost⟩ => ⟨by decide, lost, fun agreed => ?_⟩
    obtain ⟨slot, index, free, -⟩ := agreed 1 done
    obtain rfl : slot = 1 := by
      have := place.symm.trans index
      simpa using this.symm
    exact absurd free (by decide)

end Agreement

section Exhaustion

/-- No slot below the limit can be proposed, or no epoch is left. -/
def OutOfIds (cfg : CidConfig) (p : CidProc) : Prop := ¬ CanPropose cfg p ∨ EpochsSpent cfg p

instance (cfg : CidConfig) (p : CidProc) : Decidable (OutOfIds cfg p) :=
  inferInstanceAs (Decidable (_ ∨ _))

/-- The reductions work, a participant runs out of ids in a round in which those before it have,
and a process without a part that ends the negotiation finds a slot below the limit. -/
def Together (cfg : CidConfig) (s : CidState n) : CidAction n → Prop
  | .propose i starts => starts = true ∧ ((s.nodes i).proc.participate = true →
      ∀ j, (s.nodes j).proc.participate = true → ∀ v ∈ s.maxPosts (s.nodes i).round j,
        (v = cfg.maxContextid ↔ OutOfIds cfg (s.nodes i).proc))
  | .check _ completes starts => completes = true ∧ starts = true
  | .finish i completes => completes = true ∧ ((s.nodes i).proc.participate = false ∧
      minimum (s.minPosts (s.nodes i).round) ≠ some 0 → CanPropose cfg (s.nodes i).proc)

instance (cfg : CidConfig) (s : CidState n) : ∀ a, Decidable (Together cfg s a)
  | .propose _ _ | .check _ _ _ | .finish _ _ => inferInstanceAs (Decidable (_ ∧ _))

/-- The round in which a participant leaves is left by every participant that takes part in it,
before the second reduction; who has no slot to propose leaves; and no id reaches the limit. -/
structure Unanimous (cfg : CidConfig) (s : CidState n) : Prop where
  leaves : ∀ i j, (s.nodes i).proc.participate = true → (s.nodes j).proc.participate = true →
    (s.nodes i).phase = .failed →
      s.minPosts (s.nodes i).round j = none ∧ (s.nodes j).round ≤ (s.nodes i).round ∧
      ((s.nodes j).round = (s.nodes i).round →
        (s.nodes j).phase = .proposing ∨ (s.nodes j).phase = .failed)
  stops : ∀ i t, (s.nodes i).proc.participate = true → ¬ CanPropose cfg (s.nodes i).proc →
    s.step cfg (.propose i true) = some t →
      (t.nodes i).phase = .failed ∧ (t.nodes i).round = (s.nodes i).round
  below : ∀ i, (s.nodes i).phase = .done →
    ∃ slot : Nat, (s.nodes i).proc.cIndex = some (slot : Int) ∧ slot < cfg.maxContextid

/-- What the proposals of the participants say about where they are. -/
structure Posted (cfg : CidConfig) (s : CidState n) : Prop where
  here : ∀ i, (s.nodes i).proc.participate = true → (s.nodes i).phase ≠ .proposing →
    ∃ v, s.maxPosts (s.nodes i).round i = some v ∧
      (v = cfg.maxContextid ↔ (s.nodes i).phase = .failed)
  past : ∀ i r, (s.nodes i).proc.participate = true → r < (s.nodes i).round →
    ∃ v, s.maxPosts r i = some v ∧ v ≠ cfg.maxContextid
  same : ∀ r i j v w, (s.nodes i).proc.participate = true → (s.nodes j).proc.participate = true →
    s.maxPosts r i = some v → s.maxPosts r j = some w →
      (v = cfg.maxContextid ↔ w = cfg.maxContextid)
  second : ∀ r i v, (s.nodes i).proc.participate = true → s.minPosts r i = some v →
    ∃ w, s.maxPosts r i = some w ∧ w ≠ cfg.maxContextid
  outside : ∀ r i v, (s.nodes i).proc.participate = false → s.maxPosts r i = some v →
    v < cfg.maxContextid ∨ cfg.maxContextid = 0
  below : ∀ i, (s.nodes i).phase = .done →
    ∃ slot : Nat, (s.nodes i).proc.cIndex = some (slot : Int) ∧ slot < cfg.maxContextid

section Posted

variable (posted : Posted cfg s)

include posted

/-- The records about proposals are kept by a step that is right about its own process. -/
theorem Posted.of_moves {node : CidNode} (moves : Moves s t i node)
    (role : node.proc.role = (s.nodes i).proc.role)
    (here : (s.nodes i).proc.participate = true → node.phase ≠ .proposing →
      ∃ v, t.maxPosts node.round i = some v ∧ (v = cfg.maxContextid ↔ node.phase = .failed))
    (past : (s.nodes i).proc.participate = true → ∀ r, (s.nodes i).round ≤ r →
      r < node.round → ∃ v, s.maxPosts r i = some v ∧ v ≠ cfg.maxContextid)
    (same : (s.nodes i).proc.participate = true → ∀ v, t.maxPosts (s.nodes i).round i = some v →
      ∀ j, (s.nodes j).proc.participate = true → ∀ w, s.maxPosts (s.nodes i).round j = some w →
        (v = cfg.maxContextid ↔ w = cfg.maxContextid))
    (second : (s.nodes i).proc.participate = true → ∀ v,
      t.minPosts (s.nodes i).round i = some v →
        ∃ w, t.maxPosts (s.nodes i).round i = some w ∧ w ≠ cfg.maxContextid)
    (outside : (s.nodes i).proc.participate = false → ∀ v,
      t.maxPosts (s.nodes i).round i = some v → v < cfg.maxContextid ∨ cfg.maxContextid = 0)
    (below : node.phase = .done → ∃ slot : Nat,
      node.proc.cIndex = some (slot : Int) ∧ slot < cfg.maxContextid) :
    Posted cfg t := by
  have self := moves.self
  have part (j : Fin n) : (t.nodes j).proc.participate = (s.nodes j).proc.participate := by
    by_cases own : j = i
    · subst own
      rw [self]
      exact congrArg Prod.fst role
    · rw [moves.others j own]
  -- Each fact is about one process or one round, where only the mover's own entries are new.
  constructor
  · intro j takes left
    rw [part] at takes
    by_cases own : j = i
    · subst own
      rw [self] at left ⊢
      exact here takes left
    · rw [moves.others j own] at left ⊢
      obtain ⟨v, proposal, full⟩ := posted.here j takes left
      exact ⟨v, moves.max.keeps proposal, full⟩
  · intro j r takes before
    rw [part] at takes
    have found : ∃ v, s.maxPosts r j = some v ∧ v ≠ cfg.maxContextid := by
      by_cases own : j = i
      · subst own
        rw [self] at before
        by_cases past' : r < (s.nodes j).round
        · exact posted.past j r takes past'
        · exact past takes r (by omega) before
      · exact posted.past j r takes (moves.others j own ▸ before)
    obtain ⟨v, proposal, open_⟩ := found
    exact ⟨v, moves.max.keeps proposal, open_⟩
  · intro r j k v w takesJ takesK proposalJ proposalK
    rw [part] at takesJ takesK
    -- At most one of two proposals is the new one.
    by_cases ownJ : r = (s.nodes i).round ∧ j = i
    · obtain ⟨rfl, rfl⟩ := ownJ
      by_cases ownK : k = j
      · subst ownK
        obtain rfl := some.inj (proposalJ.symm.trans proposalK)
        rfl
      · rw [moves.max.other _ k fun both => ownK both.2] at proposalK
        exact same takesJ v proposalJ k takesK w proposalK
    · rw [moves.max.other r j ownJ] at proposalJ
      by_cases ownK : r = (s.nodes i).round ∧ k = i
      · obtain ⟨rfl, rfl⟩ := ownK
        exact (same takesK w proposalK j takesJ v proposalJ).symm
      · rw [moves.max.other r k ownK] at proposalK
        exact posted.same r j k v w takesJ takesK proposalJ proposalK
  · intro r j v takes flag
    rw [part] at takes
    by_cases own : r = (s.nodes i).round ∧ j = i
    · obtain ⟨rfl, rfl⟩ := own
      exact second takes v flag
    · rw [moves.min.other r j own] at flag
      obtain ⟨w, proposal, open_⟩ := posted.second r j v takes flag
      exact ⟨w, moves.max.keeps proposal, open_⟩
  · intro r j v not proposal
    rw [part] at not
    by_cases own : r = (s.nodes i).round ∧ j = i
    · obtain ⟨rfl, rfl⟩ := own
      exact outside not v proposal
    · exact posted.outside r j v not (moves.max.other r j own ▸ proposal)
  · intro j now
    by_cases own : j = i
    · subst own
      rw [self] at now ⊢
      exact below now
    · rw [moves.others j own] at now ⊢
      exact posted.below j now

/-- A participant that waits has proposed an id. -/
theorem Posted.waits (takes : (s.nodes i).proc.participate = true)
    (stays : (s.nodes i).phase = .waitMax ∨ (s.nodes i).phase = .waitMin) :
    ∃ v, s.maxPosts (s.nodes i).round i = some v ∧ v ≠ cfg.maxContextid := by
  have begun : (s.nodes i).phase ≠ .proposing := by
    rcases stays with here | here <;> simp [here]
  obtain ⟨v, proposal, full⟩ := posted.here i takes begun
  refine ⟨v, proposal, fun same => ?_⟩
  rcases stays with here | here <;> exact nomatch here.symm.trans (full.mp same)

/-- A participant that ends with an id has one below the limit. -/
theorem Posted.maximum_lt (inv : Negotiation cfg f roles s) {slot : Nat}
    (takes : (s.nodes i).proc.participate = true) (stays : (s.nodes i).phase = .waitMin)
    (agreed : maximum (s.maxPosts (s.nodes i).round) = some (slot : Int)) :
    slot < cfg.maxContextid := by
  obtain ⟨v, proposal, open_⟩ := posted.waits takes (.inr stays)
  obtain ⟨low, high⟩ := inv.bounds _ i v proposal
  obtain ⟨⟨j, attained⟩, all⟩ := maximum_eq_some.mp agreed
  obtain ⟨-, most⟩ := inv.bounds _ j slot attained
  by_cases joins : (s.nodes j).proc.participate = true
  · have := posted.same _ i j v slot takes joins proposal attained
    omega
  · have := posted.outside _ j slot (by simpa using joins) attained
    omega

/-- A proposal that is the limit exactly when those before it are. -/
theorem Posted.proposed (inv : Negotiation cfg f roles s)
    {phase : CidPhase} {q : CidProc} (before : (s.nodes i).phase = .proposing)
    (role : q.role = (s.nodes i).proc.role) (unsettled : phase ≠ .done)
    (full : q.nextlocalCid = cfg.maxContextid ↔ phase = .failed)
    (same : (s.nodes i).proc.participate = true → ∀ j, (s.nodes j).proc.participate = true →
      ∀ w, s.maxPosts (s.nodes i).round j = some w →
        (q.nextlocalCid = cfg.maxContextid ↔ w = cfg.maxContextid))
    (outside : (s.nodes i).proc.participate = false →
      q.nextlocalCid < cfg.maxContextid ∨ cfg.maxContextid = 0) :
    Posted cfg (s.proposed i phase q) := by
  obtain ⟨-, first, second⟩ := (inv.node i).idle before
  have proposal := s.proposed_post i phase q
  refine posted.of_moves (Moves.proposed first phase q) role (fun _ _ => ⟨_, proposal, full⟩)
    (fun _ _ low high => absurd high (not_lt.mpr low)) ?_
    (fun _ v flag => nomatch second.symm.trans flag) ?_ fun now => absurd now unsettled
  · intro takes v own
    obtain rfl := some.inj (proposal.symm.trans own)
    exact same takes
  · intro not v own
    obtain rfl := some.inj (proposal.symm.trans own)
    exact outside not

/-- A process that contributes nothing keeps the records. -/
theorem Posted.setNode {node : CidNode}
    (role : node.proc.role = (s.nodes i).proc.role) (stays : (s.nodes i).phase = .waitMin)
    (moves : node.round = (s.nodes i).round ∧ node.phase = .done ∨
      node.round = (s.nodes i).round + 1 ∧ node.phase = .proposing)
    (below : node.phase = .done → ∃ slot : Nat,
      node.proc.cIndex = some (slot : Int) ∧ slot < cfg.maxContextid) :
    Posted cfg (s.setNode i node) := by
  refine posted.of_moves ⟨rfl, by omega, .refl, .refl⟩ role ?_ ?_
    (fun takes v own j joins w other => posted.same _ i j v w takes joins own other)
    (fun takes v flag => posted.second _ i v takes flag)
    (fun not v own => posted.outside _ i v not own) below
  · intro takes left
    obtain ⟨round, phase⟩ := moves.resolve_right fun again => left again.2
    obtain ⟨v, proposal, open_⟩ := posted.waits takes (.inr stays)
    rw [round, phase]
    exact ⟨v, proposal, iff_of_false open_ (by simp)⟩
  · intro takes r low high
    obtain rfl : r = (s.nodes i).round := by omega
    exact posted.waits takes (.inr stays)

/-- Every step under the condition keeps the records about proposals. -/
theorem Posted.step (inv : Negotiation cfg f roles s)
    (together : Together cfg s a) (happened : Happens cfg f s a t) : Posted cfg t := by
  cases happened with
  -- A process that reserves a slot proposes it.
  | @proposes i q phase role reserved able =>
    have bounds := reserved.bounds
    refine posted.proposed inv phase role nofun (iff_of_false (by omega) nofun) ?_
      fun _ => .inl bounds.2
    -- Those who have proposed before were not out of ids either.
    intro takes j joins w other
    obtain ⟨can, unspent⟩ := able takes
    have out : ¬ OutOfIds cfg (s.nodes i).proc := not_or.mpr ⟨not_not.mpr can, unspent⟩
    exact iff_of_false (by omega) (mt (together.2 takes j joins w other).mp out)
  | @leaves i starts q phase role why =>
    obtain rfl := together.1
    cases why with
    | leaves reset clean spent =>
      obtain ⟨full, out, outside⟩ := spent rfl
      refine posted.proposed inv phase role nofun (iff_of_true full rfl) ?_
        fun not => .inr (outside not)
      -- Those who have proposed before were out of ids as well.
      intro takes j joins w other
      exact iff_of_true full ((together.2 takes j joins w other).mpr (out takes))
  | @flags i q phase role agreed flagged =>
    obtain ⟨-, -, second⟩ := (inv.node i).reserved phase
    refine posted.of_moves (Moves.flagged second q) role ?_
      (fun _ _ low high => absurd high (not_lt.mpr low))
      (fun takes v own j joins w other => posted.same _ i j v w takes joins own other)
      (fun takes _ _ => posted.waits takes (.inl phase))
      (fun not v own => posted.outside _ i v not own) nofun
    intro takes _
    obtain ⟨v, proposal, open_⟩ := posted.waits takes (.inl phase)
    exact ⟨v, proposal, iff_of_false open_ nofun⟩
  | stops => exact nomatch together.2
  | loses | breaks => exact nomatch together.1
  | @adopts i q slot v phase agreed set adopted =>
    obtain ⟨-, largest, -⟩ := (inv.node i).flagged phase
    refine posted.setNode adopted.role phase (.inl ⟨rfl, rfl⟩) fun _ =>
      ⟨slot, adopted.index, ?_⟩
    -- A participant takes the maximum of the round, any other one what its own table has.
    by_cases takes : (s.nodes i).proc.participate = true
    · exact posted.maximum_lt inv takes phase ((adopted.agreed takes).1 ▸ largest)
    · have not : (s.nodes i).proc.participate = false := by simpa using takes
      have settled : minimum (s.minPosts (s.nodes i).round) ≠ some 0 := by
        simp [agreed, set]
      exact (adopted.found not (together.2 ⟨not, settled⟩)).2
  | @returns i q phase role refused idle =>
    exact posted.setNode role phase (.inr ⟨rfl, rfl⟩) nofun

end Posted

theorem Posted.initial (procs : Fin n → CidProc) : Posted cfg (initial procs) where
  here _ _ begun := absurd rfl begun
  past _ _ _ before := absurd before (Nat.not_lt_zero _)
  same _ _ _ _ _ _ _ proposal := nomatch proposal
  second _ _ _ _ flag := nomatch flag
  outside _ _ _ _ proposal := nomatch proposal
  below _ now := nomatch now

/-- A participant that can propose nothing leaves when it proposes. -/
theorem Happens.propose_fails (happened : Happens cfg f s (.propose i true) t)
    (takes : (s.nodes i).proc.participate = true) (cannot : ¬ CanPropose cfg (s.nodes i).proc) :
    (t.nodes i).phase = .failed ∧ (t.nodes i).round = (s.nodes i).round := by
  cases happened with
  | proposes phase role reserved able => exact absurd (able takes).1 cannot
  | leaves phase role why => simp

/-- The records about proposals make leaving unanimous. -/
theorem Posted.unanimous (posted : Posted cfg s) (inv : Negotiation cfg f roles s) :
    Unanimous cfg s where
  leaves i j takes joins left := by
    obtain ⟨v, proposal, full⟩ := posted.here i takes (by simp [left])
    have limit := full.mpr left
    -- Whoever proposed in that round proposed the limit.
    have all {w : Int} (other : s.maxPosts (s.nodes i).round j = some w) :
        w = cfg.maxContextid := (posted.same _ i j v w takes joins proposal other).mp limit
    refine ⟨?_, ?_, fun together => ?_⟩
    · by_contra some_flag
      obtain ⟨flag, raised⟩ := ne_none_iff_exists'.mp some_flag
      obtain ⟨w, other, open_⟩ := posted.second _ j flag joins raised
      exact open_ (all other)
    · by_contra ahead
      obtain ⟨w, other, open_⟩ := posted.past j (s.nodes i).round joins (by omega)
      exact open_ (all other)
    · by_cases begun : (s.nodes j).phase = .proposing
      · exact .inl begun
      · obtain ⟨w, other, failed⟩ := posted.here j joins begun
        rw [together] at other
        exact .inr (failed.mp (all other))
  stops _ _ takes cannot taken := (inv.happens taken).propose_fails takes cannot
  below := posted.below

/-- In every run in which participants run out of ids together, a participant that leaves is
followed by all others of its round. -/
theorem exhaustion_unanimous (fresh : ∀ i, Fresh cfg (procs i))
    (together : Along (step cfg) (Together cfg) (initial procs) actions)
    (ran : exec (step cfg) (initial procs) actions = some s) :
    Unanimous cfg s := by
  obtain ⟨inv, posted⟩ := exec_keeps_along (P := fun s =>
      Negotiation cfg (fun i => (procs i).table.value) (fun i => (procs i).role) s ∧ Posted cfg s)
    (fun s a t kept here taken =>
      have happened := kept.1.happens taken
      ⟨kept.1.step happened, kept.2.step kept.1 here happened⟩)
    ⟨.initial fresh, .initial procs⟩ together ran
  exact posted.unanimous inv

/-- Two participants without a free slot below the limit. -/
def bothOut : Fin 2 → CidProc := fun _ => firstUsed true

/-- Two participants that run out of ids in the same round leave it. -/
theorem bothOut_leave :
    ∃ s, exec (step ⟨1, true⟩) (initial bothOut)
        [.propose 0 true, .propose 1 true] = some s ∧
      (∀ i, (s.nodes i).phase = .failed) ∧ Unanimous ⟨1, true⟩ s := by
  refine reaches_of_decide (P := fun s => ∀ i, (s.nodes i).phase = .failed) (by decide +kernel)
    fun s ran failed => ⟨failed, ?_⟩
  exact exhaustion_unanimous (fun _ => fresh_firstUsed (by decide) true) (by decide +kernel) ran

/-- A participant without a free slot below the limit, and one with a free slot. -/
def oneOut : Fin 2 → CidProc
  | 0 => firstUsed true
  | 1 => bothFree true

/-- The participant with a free slot reserves the limit and starts the second reduction of the
round that the other one has left. -/
theorem oneOut_stays :
    (∀ i, Fresh ⟨1, true⟩ (oneOut i)) ∧
    ∃ s, exec (step ⟨1, true⟩) (initial oneOut)
        [.propose 0 true, .propose 1 true, .check 1 true true] = some s ∧
      (s.nodes 0).phase = .failed ∧ (s.nodes 1).proc.nextcid = 1 ∧
      s.minPosts 0 1 ≠ none ∧ ¬ Unanimous ⟨1, true⟩ s := by
  refine ⟨?_, ?_⟩
  · intro i
    match i with
    | 0 => exact fresh_firstUsed (by decide) true
    | 1 => exact fresh_bothFree (by decide) true
  · refine reaches_of_decide (P := fun s => ((s.nodes 0).phase = .failed ∧
      (s.nodes 1).proc.nextcid = 1 ∧ s.minPosts 0 1 ≠ none) ∧ (s.nodes 0).round = 0 ∧
      (s.nodes 0).proc.participate = true ∧ (s.nodes 1).proc.participate = true)
      (by decide +kernel) fun s _ ⟨⟨left, limit, flag⟩, round, takes, joins⟩ =>
        ⟨left, limit, flag, fun unanimous => flag ?_⟩
    rw [← round]
    exact (unanimous.leaves 0 1 takes joins left).1

end Exhaustion

section Failure

/-- The failures that give back all that the process took: it had reserved nothing, or it had
given its slot back for one that is used. -/
def FailsClean (cfg : CidConfig) (s : CidState n) : CidAction n → Prop
  | .propose i _ =>
    (s.nodes i).proc.participate = false ∨ ¬ CanPropose cfg (s.nodes i).proc
  | .check i completes _ => completes = true ∧ ((s.nodes i).proc.participate = false ∨
      ∃ slot : Nat, maximum (s.maxPosts (s.nodes i).round) = some (slot : Int) ∧
        (slot : Int) ≠ (s.nodes i).proc.nextlocalCid ∧ (s.nodes i).proc.table.value slot ≠ none)
  | .finish _ _ => False

/-- A process keeps its lock unless it resets it. -/
theorem Negotiation.locked_ne {q : CidProc} (inv : Negotiation cfg f roles s)
    (ids : ∀ i, (roles i).2.2 < int64Max) (role : q.role = (s.nodes i).proc.role)
    (locked : q.lowestId = q.myId) : q.lowestId ≠ int64Max := by
  have name : q.myId = (roles i).2.2 := congrArg (fun r => r.2.2) (role.trans (inv.role i))
  rw [locked, name]
  exact (ids i).ne

/-- A step that ends in an error is clean under the condition only. -/
theorem Happens.clean_iff (happened : Happens cfg f s a t) (inv : Negotiation cfg f roles s)
    (ids : ∀ i, (roles i).2.2 < int64Max) (fails : (t.nodes a.actor).phase = .failed) :
    ((t.nodes a.actor).proc.table.value = f a.actor ∧
      (t.nodes a.actor).proc.lowestId = int64Max) ↔ FailsClean cfg s a := by
  cases happened with
  | proposes | flags | adopts | returns => simp [CidAction.actor] at fails
  | @leaves i starts q phase role why =>
    cases why with
    | leaves reset clean spent =>
      cases starts <;> simp [CidAction.actor, FailsClean, reset, clean]
  | @stops i q slot phase role agreed reset clean =>
    simp only [CidAction.actor, CidState.moved_nodes, reset, clean, FailsClean, agreed, true_and,
      and_true, some.injEq, Nat.cast_inj, exists_eq_left']
  | loses phase role locked | breaks phase role locked =>
    have held := inv.locked_ne ids role locked
    simp [CidAction.actor, FailsClean, held]

/-- After any run, a step that ends in an error leaves the table as it was before the negotiation
and resets the lock exactly when the process holds no reservation and was told of no error. -/
theorem failure_leaves_no_trace_iff (fresh : ∀ i, Fresh cfg (procs i))
    (ran : exec (step cfg) (initial procs) actions = some s)
    (taken : s.step cfg a = some t) (fails : (t.nodes a.actor).phase = .failed) :
    ((t.nodes a.actor).proc.table.value = (procs a.actor).table.value ∧
      (t.nodes a.actor).proc.lowestId = int64Max) ↔ FailsClean cfg s a := by
  have inv := Negotiation.run fresh ran
  exact (inv.happens taken).clean_iff inv (fun i => (fresh i).id) fails

/-- After the first reduction, a participant whose slot for the maximum is used gives its own slot back, so a second reduction that cannot be started leaves nothing. -/
theorem crossed_start_clean :
    ∃ s, exec (step ⟨3, true⟩) (initial crossed)
        [.propose 0 true, .propose 1 true, .propose 2 true] = some s ∧
      ∃ t, step ⟨3, true⟩ s (.check 1 true false) = some t ∧
        (t.nodes 1).phase = .failed ∧ (t.nodes 1).proc.table.value = (crossed 1).table.value ∧
        (t.nodes 1).proc.lowestId = int64Max := by
  refine reaches_of_decide (P := fun s =>
    (step ⟨3, true⟩ s (.check 1 true false)).any (fun t => (t.nodes 1).phase = .failed) = true ∧
      maximum (s.maxPosts (s.nodes 1).round) = some 1 ∧ (s.nodes 1).proc.nextlocalCid = 0 ∧
      (s.nodes 1).proc.table.value 1 ≠ none) (by decide +kernel)
    fun s ran ⟨fails, agreed, own, used⟩ => reaches_of_decide fails fun t taken failed => ⟨failed, ?_⟩
  have clean := failure_leaves_no_trace_iff fresh_crossed ran taken failed
  exact clean.mpr ⟨rfl, .inr ⟨1, agreed, by simp [own], used⟩⟩

/-- When the first reduction cannot be started, the sentinel stays in its slot. -/
theorem bothFree_sentinel_left :
    Fresh ⟨1, true⟩ (bothFree true) ∧
    ∃ t, step ⟨1, true⟩ (initial fun _ : Fin 1 => bothFree true)
        (.propose 0 false) = some t ∧
      (t.nodes 0).phase = .failed ∧ (bothFree true).table.value 0 = none ∧
      (t.nodes 0).proc.table.value 0 = some .sentinel := by
  refine ⟨fresh_bothFree (by decide) true, reaches_of_decide (P := fun t =>
    (t.nodes 0).phase = .failed ∧ (t.nodes 0).proc.table.value 0 = some .sentinel)
    (by decide +kernel) fun t _ ⟨failed, left⟩ => ⟨failed, by decide, left⟩⟩

end Failure

end EduMpi.Ompi
