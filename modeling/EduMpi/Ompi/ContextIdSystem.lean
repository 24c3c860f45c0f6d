import EduMpi.Ompi.ContextIdLaws

/-! What the processes of the negotiation know of each other in every state that they reach. -/

namespace EduMpi.Ompi

open Allreduce Opal
open Option hiding guard

variable {n : Nat} {cfg : CidConfig} {f : Fin n → Slots} {roles : Fin n → Bool × Nat × Int}
  {s t : CidState n} {a : CidAction n} {i j : Fin n}

section Steps

/-- A contribution stands at its own round and process only. -/
theorem CidState.post_apply (posts : Nat → Fin n → Option Int) (round : Nat) (i : Fin n) (v : Int)
    (r : Nat) (j : Fin n) :
    CidState.post posts round i v r j = if r = round ∧ j = i then some v else posts r j := by
  unfold CidState.post
  by_cases same : r = round
  · subst same
    simp only [Function.update_self, Function.update_apply, true_and]
  · simp [same]

/-- The state once a process has contributed its proposal. -/
def CidState.proposed (s : CidState n) (i : Fin n) (phase : CidPhase) (q : CidProc) :
    CidState n :=
  { s.setNode i ⟨phase, (s.nodes i).round, q⟩ with
    maxPosts := CidState.post s.maxPosts (s.nodes i).round i q.nextlocalCid }

/-- The state once a process has contributed its flag. -/
def CidState.flagged (s : CidState n) (i : Fin n) (q : CidProc) : CidState n :=
  { s.setNode i ⟨.waitMin, (s.nodes i).round, q⟩ with
    minPosts := CidState.post s.minPosts (s.nodes i).round i q.flag }

/-- The state once a process has ended a phase that it contributes nothing to. -/
def CidState.moved (s : CidState n) (i : Fin n) (phase : CidPhase) (q : CidProc) : CidState n :=
  s.setNode i ⟨phase, (s.nodes i).round, q⟩

/-- Everything that one step can do. -/
inductive Happens (cfg : CidConfig) (f : Fin n → Slots) (s : CidState n) :
    CidAction n → CidState n → Prop where
  | proposes {i : Fin n} {q : CidProc} (phase : (s.nodes i).phase = .proposing)
      (role : q.role = (s.nodes i).proc.role) (reserved : Reserved cfg (f i) q)
      (able : (s.nodes i).proc.participate = true →
        CanPropose cfg (s.nodes i).proc ∧ ¬ EpochsSpent cfg (s.nodes i).proc) :
      Happens cfg f s (.propose i true) (s.proposed i .waitMax q)
  | leaves {i : Fin n} {starts : Bool} {q : CidProc} (phase : (s.nodes i).phase = .proposing)
      (role : q.role = (s.nodes i).proc.role)
      (why : Proposes cfg (f i) (s.nodes i).proc starts .failed q) :
      Happens cfg f s (.propose i starts)
        (if starts then s.proposed i .failed q else s.moved i .failed q)
  | flags {i : Fin n} {q : CidProc} (phase : (s.nodes i).phase = .waitMax)
      (role : q.role = (s.nodes i).proc.role)
      (agreed : maximum (s.maxPosts (s.nodes i).round) = some q.nextcid)
      (flagged : Flagged cfg (f i) q) :
      Happens cfg f s (.check i true true) (s.flagged i q)
  | stops {i : Fin n} {q : CidProc} {slot : Nat} (phase : (s.nodes i).phase = .waitMax)
      (role : q.role = (s.nodes i).proc.role)
      (agreed : maximum (s.maxPosts (s.nodes i).round) = some (slot : Int))
      (reset : q.lowestId = int64Max)
      (clean : q.table.value = f i ↔ (s.nodes i).proc.participate = false ∨
        (slot : Int) ≠ (s.nodes i).proc.nextlocalCid ∧ (s.nodes i).proc.table.value slot ≠ none) :
      Happens cfg f s (.check i true false) (s.moved i .failed q)
  | loses {i : Fin n} {starts : Bool} {q : CidProc} (phase : (s.nodes i).phase = .waitMax)
      (role : q.role = (s.nodes i).proc.role) (locked : q.lowestId = q.myId) :
      Happens cfg f s (.check i false starts) (s.moved i .failed q)
  | adopts {i : Fin n} {q : CidProc} {slot : Nat} {v : Int}
      (phase : (s.nodes i).phase = .waitMin)
      (agreed : minimum (s.minPosts (s.nodes i).round) = some v) (set : v ≠ 0)
      (adopted : Adopted cfg (f i) (s.nodes i).proc q slot) :
      Happens cfg f s (.finish i true) (s.moved i .done q)
  | returns {i : Fin n} {q : CidProc} (phase : (s.nodes i).phase = .waitMin)
      (role : q.role = (s.nodes i).proc.role)
      (refused : minimum (s.minPosts (s.nodes i).round) = some 0) (idle : Idle cfg (f i) q) :
      Happens cfg f s (.finish i true) (s.setNode i ⟨.proposing, (s.nodes i).round + 1, q⟩)
  | breaks {i : Fin n} {q : CidProc} (phase : (s.nodes i).phase = .waitMin)
      (role : q.role = (s.nodes i).proc.role) (locked : q.lowestId = q.myId) :
      Happens cfg f s (.finish i false) (s.moved i .failed q)

end Steps

section Invariant

/-- Where one process is, and what it has contributed to its round. -/
inductive NodeAt (cfg : CidConfig) (f : Slots) (i : Fin n) (maxPosts minPosts : Fin n → Option Int) :
    CidNode → Prop where
  | proposing {r : Nat} {p : CidProc} (idle : Idle cfg f p) (first : maxPosts i = none)
      (second : minPosts i = none) : NodeAt cfg f i maxPosts minPosts ⟨.proposing, r, p⟩
  | waitMax {r : Nat} {p : CidProc} (reserved : Reserved cfg f p)
      (first : maxPosts i = some p.nextlocalCid) (second : minPosts i = none) :
      NodeAt cfg f i maxPosts minPosts ⟨.waitMax, r, p⟩
  | waitMin {r : Nat} {p : CidProc} (flagged : Flagged cfg f p)
      (agreed : maximum maxPosts = some p.nextcid) (second : minPosts i = some p.flag) :
      NodeAt cfg f i maxPosts minPosts ⟨.waitMin, r, p⟩
  | done {r slot : Nat} {p : CidProc} {v : Int} (agreed : minimum minPosts = some v) (set : v ≠ 0)
      (index : p.cIndex = some (slot : Int))
      (contents : p.table.value = Function.update f slot (some (.comm p.newcomm)))
      (common : p.participate = true → maximum maxPosts = some (slot : Int) ∧ f slot = none) :
      NodeAt cfg f i maxPosts minPosts ⟨.done, r, p⟩
  | failed {r : Nat} {p : CidProc} : NodeAt cfg f i maxPosts minPosts ⟨.failed, r, p⟩

section Node

variable {contents : Slots} {maxPosts minPosts : Fin n → Option Int} {node : CidNode}
  (at_ : NodeAt cfg contents i maxPosts minPosts node)

include at_

/-- A process that is about to propose has contributed nothing to its round. -/
theorem NodeAt.idle (phase : node.phase = .proposing) :
    Idle cfg contents node.proc ∧ maxPosts i = none ∧ minPosts i = none := by
  cases at_ <;> first | exact ⟨‹_›, ‹_›, ‹_›⟩ | cases phase

/-- A process that waits for the largest proposal has made its own. -/
theorem NodeAt.reserved (phase : node.phase = .waitMax) :
    Reserved cfg contents node.proc ∧ maxPosts i = some node.proc.nextlocalCid ∧
      minPosts i = none := by
  cases at_ <;> first | exact ⟨‹_›, ‹_›, ‹_›⟩ | cases phase

/-- A process that waits for the flags has given its own. -/
theorem NodeAt.flagged (phase : node.phase = .waitMin) :
    Flagged cfg contents node.proc ∧ maximum maxPosts = some node.proc.nextcid ∧
      minPosts i = some node.proc.flag := by
  cases at_ <;> first | exact ⟨‹_›, ‹_›, ‹_›⟩ | cases phase

/-- The contributions of others change nothing for a process. -/
theorem NodeAt.mono {maxMore minMore : Fin n → Option Int}
    (ownMax : maxMore i = maxPosts i) (ownMin : minMore i = minPosts i)
    (maxKept : ∀ j v, maxPosts j = some v → maxMore j = some v)
    (minKept : ∀ j v, minPosts j = some v → minMore j = some v) :
    NodeAt cfg contents i maxMore minMore node := by
  cases at_ with
  | proposing idle first second =>
    exact .proposing idle (ownMax.trans first) (ownMin.trans second)
  | waitMax reserved first second =>
    exact .waitMax reserved (ownMax.trans first) (ownMin.trans second)
  | waitMin flagged agreed second =>
    exact .waitMin flagged (maximum_mono maxKept agreed) (ownMin.trans second)
  | done agreed set index contents common =>
    exact .done (minimum_mono minKept agreed) set index contents fun part =>
      ⟨maximum_mono maxKept (common part).1, (common part).2⟩
  | failed => exact .failed

end Node

/-- What holds for all processes at once: a round is over for everyone once it is for one, and a
flag says that the largest proposal was free where it was raised. -/
structure Negotiation (cfg : CidConfig) (f : Fin n → Slots) (roles : Fin n → Bool × Nat × Int)
    (s : CidState n) : Prop where
  role : ∀ i, (s.nodes i).proc.role = roles i
  node : ∀ i, NodeAt cfg (f i) i (s.maxPosts (s.nodes i).round) (s.minPosts (s.nodes i).round)
    (s.nodes i)
  later : ∀ i r, (s.nodes i).round < r → s.maxPosts r i = none ∧ s.minPosts r i = none
  earlier : ∀ i r, r < (s.nodes i).round → minimum (s.minPosts r) = some 0
  bounds : ∀ r i v, s.maxPosts r i = some v → 0 ≤ v ∧ v ≤ cfg.maxContextid
  flags : ∀ r i v, s.minPosts r i = some v → 0 ≤ v ∧ ∃ slot : Nat,
    maximum (s.maxPosts r) = some (slot : Int) ∧ ((roles i).1 = true → v ≠ 0 → f i slot = none)

/-- The largest proposal is a context id, or the limit. -/
theorem Negotiation.maximum_slot (inv : Negotiation cfg f roles s) {r : Nat} {m : Int}
    (agreed : maximum (s.maxPosts r) = some m) :
    ∃ slot : Nat, m = slot ∧ slot ≤ cfg.maxContextid := by
  obtain ⟨⟨i, attained⟩, -⟩ := maximum_eq_some.mp agreed
  obtain ⟨low, high⟩ := inv.bounds r i m attained
  exact ⟨m.toNat, by omega, by omega⟩

/-- When nobody refuses, every flag of the round is set. -/
theorem Negotiation.flag_set (inv : Negotiation cfg f roles s) {r : Nat} {v : Int}
    (agreed : minimum (s.minPosts r) = some v) (set : v ≠ 0) (i : Fin n) :
    ∃ w, s.minPosts r i = some w ∧ w ≠ 0 := by
  obtain ⟨⟨j, attained⟩, all⟩ := minimum_eq_some.mp agreed
  obtain ⟨w, posted, above⟩ := all i
  have low := (inv.flags r j v attained).1
  exact ⟨w, posted, by omega⟩

/-- A step needs its process in the phase that the step ends. -/
theorem bind_guard_eq_some {α : Type} {P : Prop} [Decidable P] {rest : Unit → Option α} {result : α} :
    (guard P >>= rest) = some result ↔ P ∧ rest () = some result := by
  by_cases holds : P <;> simp [holds]

section Invs

variable (inv : Negotiation cfg f roles s)

include inv

/-- A process proposes, or leaves the negotiation. -/
theorem Negotiation.happens_propose {starts : Bool}
    (taken : s.step cfg (.propose i starts) = some t) : Happens cfg f s (.propose i starts) t := by
  obtain ⟨phase, taken⟩ := bind_guard_eq_some.mp taken
  obtain ⟨idle, -⟩ := (inv.node i).idle phase
  obtain ⟨outcome, q, ran, role, why⟩ := idle.getnextcid starts
  simp only [ran] at taken
  cases why with
  | waits started reserved able =>
    obtain rfl := started
    obtain rfl := some.inj taken
    exact .proposes phase role reserved able
  | leaves reset clean spent =>
    have left := Happens.leaves phase role (.leaves reset clean spent)
    cases starts <;> exact some.inj taken ▸ left

/-- A process gives its flag, or fails and leaves. -/
theorem Negotiation.happens_check {completes starts : Bool}
    (taken : s.step cfg (.check i completes starts) = some t) :
    Happens cfg f s (.check i completes starts) t := by
  obtain ⟨phase, taken⟩ := bind_guard_eq_some.mp taken
  obtain ⟨reserved, -⟩ := (inv.node i).reserved phase
  cases completes with
  | false =>
    obtain ⟨q, ran, role, locked⟩ := reserved.checkcid_error starts
    have name : q.myId = (s.nodes i).proc.myId := congrArg (fun r => r.2.2) role
    simp only [CidState.result, if_false, ran, bind_eq_bind, bind_some, reduceCtorEq] at taken
    obtain rfl := some.inj taken
    exact .loses phase role (locked.trans (reserved.locked.trans name.symm))
  | true =>
    cases agreed : maximum (s.maxPosts (s.nodes i).round) with
    | none => simp [CidState.result, agreed] at taken
    | some m =>
      obtain ⟨slot, rfl, below⟩ := inv.maximum_slot agreed
      obtain ⟨q, ran, role, flagged, number, refuses, q', stops, role', reset, clean⟩ :=
        reserved.checkcid below
      simp only [CidState.result, if_true, agreed, map_some, bind_eq_bind] at taken
      cases starts with
      | true =>
        simp only [ran, bind_some] at taken
        obtain rfl := some.inj taken
        exact .flags phase role (number ▸ agreed) flagged
      | false =>
        simp only [stops, bind_some] at taken
        obtain rfl := some.inj taken
        refine .stops phase role' agreed reset (clean.trans ?_)
        rw [refuses]
        cases (s.nodes i).proc.participate <;> simp

/-- A process adopts the context id, gives it back for a next round, or fails. -/
theorem Negotiation.happens_finish {completes : Bool}
    (taken : s.step cfg (.finish i completes) = some t) :
    Happens cfg f s (.finish i completes) t := by
  obtain ⟨phase, taken⟩ := bind_guard_eq_some.mp taken
  obtain ⟨flagged, -, posted⟩ := (inv.node i).flagged phase
  cases completes with
  | false =>
    obtain ⟨q, ran, role, locked⟩ := flagged.checkFlag_error
    have name : q.myId = (s.nodes i).proc.myId := congrArg (fun r => r.2.2) role
    simp only [CidState.result, Bool.false_eq_true, if_false, ran, bind_eq_bind, bind_some] at taken
    obtain rfl := some.inj taken
    exact .breaks phase role (locked.trans (flagged.locked.trans name.symm))
  | true =>
    cases agreed : minimum (s.minPosts (s.nodes i).round) with
    | none => simp [CidState.result, agreed] at taken
    | some v =>
      simp only [CidState.result, if_true, agreed, map_some, bind_eq_bind] at taken
      by_cases set : v = 0
      · subst set
        obtain ⟨q, ran, role, idle⟩ := flagged.givesBack
        simp only [ran, bind_some] at taken
        obtain rfl := some.inj taken
        exact .returns phase role agreed idle
      · obtain ⟨w, same, raised⟩ := inv.flag_set agreed set i
        obtain rfl := some.inj (posted.symm.trans same)
        obtain ⟨q, slot, ran, adopted⟩ := flagged.adopts set fun _ => raised
        simp only [ran, bind_some] at taken
        obtain rfl := some.inj taken
        exact .adopts phase agreed set adopted

/-- In a state of the negotiation a step does nothing else. -/
theorem Negotiation.happens (taken : s.step cfg a = some t) : Happens cfg f s a t := by
  cases a with
  | propose i starts => exact inv.happens_propose taken
  | check i completes starts => exact inv.happens_check taken
  | finish i completes => exact inv.happens_finish taken

end Invs

/-- A process has added its own contribution to a round, or nothing. -/
structure Contributes (round : Nat) (i : Fin n) (posts after : Nat → Fin n → Option Int) :
    Prop where
  other : ∀ r j, ¬ (r = round ∧ j = i) → after r j = posts r j
  kept : ∀ v, posts round i = some v → after round i = some v

section Contributes

variable {round r : Nat} {posts after : Nat → Fin n → Option Int} {v : Int}

theorem Contributes.refl : Contributes round i posts posts :=
  ⟨fun _ _ _ => rfl, fun _ same => same⟩

theorem Contributes.post (missing : posts round i = none) :
    Contributes round i posts (CidState.post posts round i v) :=
  ⟨fun _ _ other => (CidState.post_apply ..).trans (if_neg other),
    fun _ posted => nomatch missing.symm.trans posted⟩

/-- Contributions are never withdrawn. -/
theorem Contributes.keeps (adds : Contributes round i posts after) (posted : posts r j = some v) :
    after r j = some v := by
  by_cases here : r = round ∧ j = i
  · obtain ⟨rfl, rfl⟩ := here
    exact adds.kept v posted
  · exact (adds.other r j here).trans posted

end Contributes

/-- One process has moved: the others are as they were, and contributions are never withdrawn. -/
structure Moves (s t : CidState n) (i : Fin n) (node : CidNode) : Prop where
  nodes : t.nodes = Function.update s.nodes i node
  round : (s.nodes i).round ≤ node.round
  max : Contributes (s.nodes i).round i s.maxPosts t.maxPosts
  min : Contributes (s.nodes i).round i s.minPosts t.minPosts

@[simp] theorem CidState.setNode_nodes (s : CidState n) (i : Fin n) (node : CidNode) :
    (s.setNode i node).nodes i = node := Function.update_self ..

theorem CidState.setNode_nodes_of_ne (s : CidState n) (node : CidNode) (other : j ≠ i) :
    (s.setNode i node).nodes j = s.nodes j := Function.update_of_ne other ..

@[simp] theorem CidState.proposed_nodes (s : CidState n) (i : Fin n) (phase : CidPhase)
    (q : CidProc) : (s.proposed i phase q).nodes i = ⟨phase, (s.nodes i).round, q⟩ :=
  s.setNode_nodes i _

@[simp] theorem CidState.flagged_nodes (s : CidState n) (i : Fin n) (q : CidProc) :
    (s.flagged i q).nodes i = ⟨.waitMin, (s.nodes i).round, q⟩ := s.setNode_nodes i _

@[simp] theorem CidState.moved_nodes (s : CidState n) (i : Fin n) (phase : CidPhase)
    (q : CidProc) : (s.moved i phase q).nodes i = ⟨phase, (s.nodes i).round, q⟩ :=
  s.setNode_nodes i _

theorem Moves.proposed (first : s.maxPosts (s.nodes i).round i = none) (phase : CidPhase)
    (q : CidProc) : Moves s (s.proposed i phase q) i ⟨phase, (s.nodes i).round, q⟩ :=
  ⟨rfl, le_rfl, .post first, .refl⟩

theorem Moves.flagged (second : s.minPosts (s.nodes i).round i = none) (q : CidProc) :
    Moves s (s.flagged i q) i ⟨.waitMin, (s.nodes i).round, q⟩ :=
  ⟨rfl, le_rfl, .refl, .post second⟩

section Moves

variable {node : CidNode} (moves : Moves s t i node)

include moves

theorem Moves.self : t.nodes i = node := by
  rw [moves.nodes, Function.update_self]

theorem Moves.others (j : Fin n) (other : j ≠ i) : t.nodes j = s.nodes j := by
  rw [moves.nodes, Function.update_of_ne other]

/-- What the processes share is kept by a step of one of them if it is right about that one. -/
theorem Negotiation.of_moves (inv : Negotiation cfg f roles s)
    (role : node.proc.role = (s.nodes i).proc.role)
    (now : NodeAt cfg (f i) i (t.maxPosts node.round) (t.minPosts node.round) node)
    (passed : ∀ r, (s.nodes i).round ≤ r → r < node.round → minimum (s.minPosts r) = some 0)
    (bound : ∀ v, t.maxPosts (s.nodes i).round i = some v → 0 ≤ v ∧ v ≤ cfg.maxContextid)
    (flag : ∀ v, t.minPosts (s.nodes i).round i = some v → 0 ≤ v ∧ ∃ slot : Nat,
      maximum (t.maxPosts (s.nodes i).round) = some (slot : Int) ∧
        ((roles i).1 = true → v ≠ 0 → f i slot = none)) :
    Negotiation cfg f roles t where
  role j := by
    by_cases here : j = i
    · subst here
      rw [moves.self]
      exact role.trans (inv.role j)
    · rw [moves.others j here]
      exact inv.role j
  node j := by
    by_cases here : j = i
    · subst here
      rw [moves.self]
      exact now
    · rw [moves.others j here]
      exact (inv.node j).mono (moves.max.other _ j fun same => here same.2)
        (moves.min.other _ j fun same => here same.2) (fun _ _ => moves.max.keeps)
        (fun _ _ => moves.min.keeps)
  later j r behind := by
    by_cases here : j = i
    · subst here
      rw [moves.self] at behind
      have before := moves.round
      rw [moves.max.other r j fun same => by omega, moves.min.other r j fun same => by omega]
      exact inv.later j r (by omega)
    · rw [moves.max.other r j fun same => here same.2, moves.min.other r j fun same => here same.2]
      exact inv.later j r (moves.others j here ▸ behind)
  earlier j r before := by
    apply minimum_mono fun _ _ => moves.min.keeps
    by_cases here : j = i
    · subst here
      rw [moves.self] at before
      by_cases past : r < (s.nodes j).round
      · exact inv.earlier j r past
      · exact passed r (by omega) before
    · exact inv.earlier j r (moves.others j here ▸ before)
  bounds r j v posted := by
    by_cases here : r = (s.nodes i).round ∧ j = i
    · obtain ⟨rfl, rfl⟩ := here
      exact bound v posted
    · exact inv.bounds r j v (moves.max.other r j here ▸ posted)
  flags r j v posted := by
    by_cases here : r = (s.nodes i).round ∧ j = i
    · obtain ⟨rfl, rfl⟩ := here
      exact flag v posted
    · obtain ⟨low, slot, agreed, free⟩ := inv.flags r j v (moves.min.other r j here ▸ posted)
      exact ⟨low, slot, maximum_mono (fun _ _ => moves.max.keeps) agreed, free⟩

end Moves

theorem CidState.proposed_post (s : CidState n) (i : Fin n) (phase : CidPhase) (q : CidProc) :
    (s.proposed i phase q).maxPosts (s.nodes i).round i = some q.nextlocalCid :=
  (CidState.post_apply ..).trans (if_pos ⟨rfl, rfl⟩)

theorem CidState.flagged_post (s : CidState n) (i : Fin n) (q : CidProc) :
    (s.flagged i q).minPosts (s.nodes i).round i = some q.flag :=
  (CidState.post_apply ..).trans (if_pos ⟨rfl, rfl⟩)

section Inv

variable (inv : Negotiation cfg f roles s) {phase : CidPhase}

include inv

/-- A process that ends a phase without a contribution has to be right about itself only. -/
theorem Negotiation.setNode {node : CidNode}
    (role : node.proc.role = (s.nodes i).proc.role) (round : (s.nodes i).round ≤ node.round)
    (now : NodeAt cfg (f i) i (s.maxPosts node.round) (s.minPosts node.round) node)
    (passed : ∀ r, (s.nodes i).round ≤ r → r < node.round → minimum (s.minPosts r) = some 0) :
    Negotiation cfg f roles (s.setNode i node) :=
  inv.of_moves ⟨rfl, round, .refl, .refl⟩ role now passed (inv.bounds _ i) (inv.flags _ i)

theorem Negotiation.moved {q : CidProc} (role : q.role = (s.nodes i).proc.role)
    (now : NodeAt cfg (f i) i (s.maxPosts (s.nodes i).round) (s.minPosts (s.nodes i).round)
      ⟨phase, (s.nodes i).round, q⟩) :
    Negotiation cfg f roles (s.moved i phase q) :=
  inv.setNode role le_rfl now fun _ low high => absurd high (not_lt.mpr low)

/-- A process that proposes keeps the range of context ids. -/
theorem Negotiation.proposed {q : CidProc} (before : (s.nodes i).phase = .proposing)
    (role : q.role = (s.nodes i).proc.role)
    (bounds : 0 ≤ q.nextlocalCid ∧ q.nextlocalCid ≤ cfg.maxContextid)
    (now : ∀ posts : Fin n → Option Int, posts i = some q.nextlocalCid →
      NodeAt cfg (f i) i posts (s.minPosts (s.nodes i).round) ⟨phase, (s.nodes i).round, q⟩) :
    Negotiation cfg f roles (s.proposed i phase q) := by
  obtain ⟨-, first, second⟩ := (inv.node i).idle before
  refine inv.of_moves (Moves.proposed first phase q) role (now _ (s.proposed_post i phase q))
    (fun _ low high => absurd high (not_lt.mpr low)) ?_
    fun v posted => nomatch second.symm.trans posted
  intro v posted
  obtain rfl := some.inj ((s.proposed_post i phase q).symm.trans posted)
  exact bounds

/-- Every step keeps what the processes share. -/
theorem Negotiation.step (happened : Happens cfg f s a t) : Negotiation cfg f roles t := by
  cases happened with
  | @proposes i q phase role reserved able =>
    obtain ⟨-, -, second⟩ := (inv.node i).idle phase
    have bounds := reserved.bounds
    exact inv.proposed phase role ⟨bounds.1, bounds.2.le⟩ fun posts posted =>
      .waitMax reserved posted second
  | @leaves i starts q phase role why =>
    cases starts with
    | false => exact inv.moved role .failed
    | true =>
      cases why with
      | leaves reset clean spent =>
        have full := (spent rfl).1
        exact inv.proposed phase role (by omega) fun _ _ => .failed
  | @flags i q phase role agreed flagged =>
    obtain ⟨-, first, second⟩ := (inv.node i).reserved phase
    refine inv.of_moves (Moves.flagged second q) role
      (.waitMin flagged agreed (s.flagged_post i q))
      (fun _ low high => absurd high (not_lt.mpr low)) (inv.bounds _ i) fun v posted => ?_
    -- A participant's flag is set only with the slot reserved.
    obtain rfl := some.inj ((s.flagged_post i q).symm.trans posted)
    obtain ⟨slot, number, below, held⟩ := flagged.place
    refine ⟨flagged.flags, slot, number ▸ agreed, fun part set => (held ?_ set).1⟩
    exact (congrArg Prod.fst (role.trans (inv.role i))).trans part
  | stops phase role agreed reset clean | loses phase role locked | breaks phase role locked =>
    exact inv.moved role .failed
  | @adopts i q slot v phase agreed set adopted =>
    obtain ⟨-, largest, -⟩ := (inv.node i).flagged phase
    have part : q.participate = (s.nodes i).proc.participate := congrArg Prod.fst adopted.role
    have name : q.newcomm = (s.nodes i).proc.newcomm := congrArg (fun r => r.2.1) adopted.role
    refine inv.moved adopted.role (.done agreed set adopted.index (name ▸ adopted.contents) ?_)
    intro takes
    obtain ⟨number, free⟩ := adopted.agreed (part ▸ takes)
    exact ⟨number ▸ largest, free⟩
  | @returns i q phase role refused idle =>
    -- The next round is untouched so far.
    obtain ⟨first, second⟩ := inv.later i ((s.nodes i).round + 1) (Nat.lt_succ_self _)
    refine inv.setNode role (Nat.le_succ _) (.proposing idle first second) fun r low high => ?_
    obtain rfl : r = (s.nodes i).round := by
      have : r < (s.nodes i).round + 1 := high
      omega
    exact refused

end Inv

/-- A process before the negotiation. -/
structure Fresh (cfg : CidConfig) (p : CidProc) : Prop where
  table : Ready cfg p.table
  unlocked : p.lowestId = int64Max
  id : p.myId < int64Max
  epoch : 1 ≤ p.cidEpoch

variable {procs : Fin n → CidProc} {actions : List (CidAction n)}

/-- The processes start with nothing contributed. -/
theorem Negotiation.initial (fresh : ∀ i, Fresh cfg (procs i)) :
    Negotiation cfg (fun i => (procs i).table.value) (fun i => (procs i).role)
      (CidState.initial procs) where
  role _ := rfl
  node i := by
    obtain ⟨lowest, first, -⟩ := (fresh i).table.inv.lowest
    refine .proposing ⟨⟨(fresh i).table, ?_, (fresh i).epoch⟩, rfl, ?_⟩ rfl rfl
    · change 0 ≤ (procs i).table.lowestFree
      omega
    · exact (fresh i).unlocked ▸ (fresh i).id.le
  later _ _ _ := ⟨rfl, rfl⟩
  earlier _ _ before := absurd before (Nat.not_lt_zero _)
  bounds _ _ _ posted := nomatch posted
  flags _ _ _ posted := nomatch posted

/-- Every run keeps what the processes share. -/
theorem Negotiation.run (fresh : ∀ i, Fresh cfg (procs i))
    (ran : Machine.exec (CidState.step cfg) (CidState.initial procs) actions = some s) :
    Negotiation cfg (fun i => (procs i).table.value) (fun i => (procs i).role) s :=
  Machine.exec_keeps (fun _ _ _ inv taken => inv.step (inv.happens taken)) (.initial fresh) ran

end Invariant

end EduMpi.Ompi
