import EduMpi.Opal.Epochs

/-! No node is returned to the free list under a reader, as long as every node that is scheduled
for releasing is at least as new as the readers inside. -/

namespace EduMpi.Opal.Epochs

open List
open Function (forall_update_iff update update_eq_self update_of_ne update_self)

namespace State

variable {s : State}

/-- The reader of a slot has made the number of slots cover its own. -/
def Entered (pc : ReaderPc) : Prop :=
  match pc with
  | .idle | .raising _ => False
  | .loading | .publishing _ | .reading => True

/-- What the readers keep, whatever the writers do. -/
structure Readers (s : State) : Prop where
  few : s.readerCount ≤ maxReaders
  raised : ∀ slot seen, s.readers slot = .raising seen → seen ≤ s.readerCount
  covered : ∀ slot, Entered (s.readers slot) → slot < s.readerCount
  published : ∀ slot, s.readers slot = .reading → s.readerEpochs slot ≤ s.epoch
  loaded : ∀ slot epoch, s.readers slot = .publishing epoch → epoch ≤ s.epoch
  inside : ∀ node slot, s.holders node slot = true → s.readers slot = .reading

/-- A node is in the tree or scheduled for releasing, and not both. -/
structure Nodes (s : State) : Prop where
  linked_lt : ∀ node, s.linked node = true → node < s.fresh
  garbage_lt : ∀ node ∈ s.gcList, node < s.fresh
  apart : ∀ node, s.linked node = true → node ∉ s.gcList

/-- A delete has taken a node out of the tree and not yet its successor. -/
structure Pending (s : State) (node next : Nat) : Prop where
  unlinked : s.linked node = false
  allocated : node < s.fresh
  kept : node ∉ s.gcList
  successor : s.linked next = true

/-- What the holder of the write lock has found out about the readers. -/
def Seen (s : State) : WriterPc → Prop
  | .idle => True
  | .unlinked node next => s.Pending node next
  | .waiting slot epochId node next => s.Pending node next ∧ ∀ other,
    s.holders node other = true → slot ≤ other ∧ s.readerEpochs other < epochId

/-- A reader that holds a node scheduled for releasing is not newer than the node. -/
def Guarded (s : State) : Prop :=
  ∀ node ∈ s.gcList, ∀ slot, s.holders node slot = true →
    s.readerEpochs slot ≤ s.nodeEpoch node

/-- No node was returned under a reader that was inside the tree when the node was unlinked. -/
def NoneEarly (s : State) : Prop := ∀ entry ∈ s.returned, entry.2 = []

/-- The nodes and the readers are in order, wherever the holder of the write lock stands. -/
structure Base (s : State) : Prop extends Readers s, Nodes s where
  guarded : s.Guarded
  none_early : s.NoneEarly

/-- The tree is in order. -/
structure Inv (s : State) : Prop extends Base s where
  seen : s.Seen s.writer

/-- A node is at least as new as the epochs of the readers inside the tree. -/
def Recent (s : State) (node : Nat) : Prop :=
  ∀ slot < maxReaders, s.readers slot = .reading → s.readerEpochs slot ≤ s.nodeEpoch node

instance (s : State) (node : Nat) : Decidable (s.Recent node) :=
  inferInstanceAs (Decidable (∀ _ < _, _ → _))

/-- The delete that goes on does not start the epochs again, and its successor is recent. -/
def TimelyWriter (s : State) : WriterPc → Prop
  | .unlinked _ _ => s.epoch ≠ uintMax
  | .waiting slot _ _ next => s.readerCount ≤ slot → s.Recent next
  | .idle => True

instance (s : State) : DecidablePred s.TimelyWriter
  | .unlinked _ _ => inferInstanceAs (Decidable (¬ _ = _))
  | .waiting _ _ _ _ => inferInstanceAs (Decidable (_ → _))
  | .idle => isTrue trivial

/-- Every node that is scheduled for releasing is recent, and the epochs do not start again. -/
def Timely (s : State) : Action → Prop
  | .deleteLeaf node => s.Recent node
  | .writer => s.TimelyWriter s.writer
  | .reader _ => True
  | .insert => True
  | .deleteInterior _ _ => True

instance (s : State) : DecidablePred s.Timely
  | .deleteLeaf node => inferInstanceAs (Decidable (s.Recent node))
  | .writer => inferInstanceAs (Decidable (s.TimelyWriter s.writer))
  | .reader _ => isTrue trivial
  | .insert => isTrue trivial
  | .deleteInterior _ _ => isTrue trivial

section ReaderSteps

/-- The reader of a slot moves, and holds no node afterwards that it did not hold before. -/
theorem Inv.readerMoves (inv : Inv s) {slot count : Nat} {pc : ReaderPc} (value : UInt32)
    {holders : Nat → Nat → Bool} (few : count ≤ maxReaders) (more : s.readerCount ≤ count)
    (raised : ∀ seen, pc = .raising seen → seen ≤ count)
    (covered : Entered pc → slot < count) (published : pc = .reading → value ≤ s.epoch)
    (loaded : ∀ epoch, pc = .publishing epoch → epoch ≤ s.epoch)
    (others : ∀ node other, holders node other = true →
      s.holders node other = true ∧ other ≠ slot) :
    Inv { s with
      readerCount := count
      readerEpochs := update s.readerEpochs slot value
      readers := update s.readers slot pc
      holders := holders } where
  few := few
  raised := (forall_update_iff s.readers fun _ pc => ∀ seen, pc = .raising seen → seen ≤ count).mpr
    ⟨raised, fun other _ seen raising => Nat.le_trans (inv.raised other seen raising) more⟩
  covered := (forall_update_iff s.readers fun other pc => Entered pc → other < count).mpr
    ⟨covered, fun other _ entered => Nat.lt_of_lt_of_le (inv.covered other entered) more⟩
  -- Only the reader of this slot has moved.
  published other reading := by
    by_cases same : other = slot
    · subst same
      simp only [update_self] at reading ⊢
      exact published reading
    · simp only [update_of_ne same] at reading ⊢
      exact inv.published other reading
  loaded := (forall_update_iff s.readers fun _ pc =>
    ∀ epoch, pc = .publishing epoch → epoch ≤ s.epoch).mpr ⟨loaded, fun other _ => inv.loaded other⟩
  inside node other holds := by
    obtain ⟨held, different⟩ := others node other holds
    simp only [update_of_ne different]
    exact inv.inside node other held
  linked_lt := inv.linked_lt
  garbage_lt := inv.garbage_lt
  apart := inv.apart
  seen := by
    -- What was seen of the other readers is still so.
    have seen := inv.seen
    revert seen
    cases s.writer with
    | idle => exact fun _ => trivial
    | unlinked node next =>
      intro seen
      exact { seen with }
    | waiting scanned epochId node next =>
      intro seen
      refine ⟨⟨seen.1.unlinked, seen.1.allocated, seen.1.kept, seen.1.successor⟩, ?_⟩
      intro other holds
      obtain ⟨held, different⟩ := others node other holds
      simp only [update_of_ne different]
      exact seen.2 other held
  guarded node member other holds := by
    obtain ⟨held, different⟩ := others node other holds
    simp only [update_of_ne different]
    exact inv.guarded node member other held
  none_early := inv.none_early

/-- Only readers inside the tree hold nodes. -/
theorem Inv.holds_elsewhere (inv : Inv s) {slot : Nat} (outside : s.readers slot ≠ .reading)
    (node other : Nat) (holds : s.holders node other = true) :
    s.holders node other = true ∧ other ≠ slot := by
  refine ⟨holds, ?_⟩
  rintro rfl
  exact outside (inv.inside node other holds)

/-- A reader that neither publishes nor returns an epoch leaves the slots as they are. -/
theorem Inv.readerGoes (inv : Inv s) {slot count : Nat} {pc : ReaderPc}
    (outside : s.readers slot ≠ .reading) (notInside : pc ≠ .reading)
    (few : count ≤ maxReaders) (more : s.readerCount ≤ count)
    (raised : ∀ seen, pc = .raising seen → seen ≤ count) (covered : Entered pc → slot < count)
    (loaded : ∀ epoch, pc = .publishing epoch → epoch ≤ s.epoch) :
    Inv { s with readerCount := count, readers := update s.readers slot pc } := by
  have moved := inv.readerMoves (s.readerEpochs slot) few more raised covered (fun reading => absurd reading notInside)
    loaded (inv.holds_elsewhere outside)
  rwa [update_eq_self slot s.readerEpochs] at moved

/-- A step of a reader keeps the tree in order. -/
theorem Inv.reader (inv : Inv s) {slot : Nat} (below : slot < maxReaders) :
    Inv (s.readerStep slot) := by
  unfold readerStep
  cases pc : s.readers slot with
  | idle =>
    refine inv.readerGoes (by rw [pc]; nofun) nofun inv.few (Nat.le_refl _) (fun seen same => ?_) nofun nofun
    cases same
    exact Nat.le_refl _
  | raising seen =>
    have outside : s.readers slot ≠ .reading := by rw [pc]; nofun
    simp only
    split
    · split
      · -- The exchange raises the number of slots.
        exact inv.readerGoes outside nofun below (by omega) nofun (fun _ => Nat.lt_succ_self _) nofun
      · refine inv.readerGoes outside nofun inv.few (Nat.le_refl _) (fun seen same => ?_) nofun nofun
        cases same
        exact Nat.le_refl _
    · -- The number of slots seen covers the slot, and it has not become less.
      have seen_le := inv.raised slot seen pc
      exact inv.readerGoes outside nofun inv.few (Nat.le_refl _) nofun (fun _ => by omega) nofun
  | loading =>
    have covered : slot < s.readerCount := inv.covered slot (by rw [pc]; trivial)
    refine inv.readerGoes (by rw [pc]; nofun) nofun inv.few (Nat.le_refl _) nofun (fun _ => covered)
      fun epoch same => ?_
    cases same
    exact UInt32.le_refl _
  | publishing epoch =>
    have outside : s.readers slot ≠ .reading := by rw [pc]; nofun
    have covered : slot < s.readerCount := inv.covered slot (by rw [pc]; trivial)
    simp only
    split
    · exact inv.readerMoves _ inv.few (Nat.le_refl _) nofun (fun _ => covered)
        (fun _ => inv.loaded slot epoch pc) nofun (inv.holds_elsewhere outside)
    · exact inv.readerGoes outside nofun inv.few (Nat.le_refl _) nofun (fun _ => covered) nofun
  | reading =>
    refine inv.readerMoves _ inv.few (Nat.le_refl _) nofun nofun nofun nofun fun node other holds => ?_
    simpa using holds

end ReaderSteps

section WriterSteps

/-- The oldest epoch is not newer than that of any slot in use. -/
theorem oldestEpoch_le (s : State) {slot : Nat} (covered : slot < s.readerCount) :
    s.oldestEpoch ≤ s.readerEpochs slot := by
  unfold oldestEpoch
  generalize s.readerCount = count at covered ⊢
  -- The loop only lowers what it has found in the slots before.
  induction count with
  | zero => omega
  | succ count ih =>
    rw [range_succ, foldl_append, foldl_cons, foldl_nil]
    rcases Nat.lt_succ_iff_lt_or_eq.mp covered with before | rfl
    · split
      · exact ih before
      · rename_i notLess
        exact UInt32.le_trans (UInt32.not_lt.mp notLess) (ih before)
    · split
      · rename_i less
        exact UInt32.le_of_lt less
      · exact UInt32.le_refl _

section Base

variable (base : Base s) {node : Nat}

include base

theorem Base.withWriter (writer : WriterPc) : Base { s with writer := writer } :=
  ⟨{ base with }, { base with }, base.guarded, base.none_early⟩

/-- A new node is held by nobody and scheduled for nothing. -/
theorem Base.link (epoch : UInt32) : Base (s.link epoch) where
  toReaders := { base with }
  linked_lt node linked := by
    change update s.linked s.fresh true node = true at linked
    change node < s.fresh + 1
    -- The new node was neither linked nor garbage.
    by_cases new : node = s.fresh
    · omega
    · rw [update_of_ne new] at linked
      have below := base.linked_lt node linked
      omega
  garbage_lt node member := Nat.lt_succ_of_lt (base.garbage_lt node member)
  apart node linked := by
    change update s.linked s.fresh true node = true at linked
    by_cases new : node = s.fresh
    · intro member
      have below := base.garbage_lt node member
      omega
    · rw [update_of_ne new] at linked
      exact base.apart node linked
  guarded node member slot holds := by
    have older := base.garbage_lt node member
    change s.readerEpochs slot ≤ update s.nodeEpoch s.fresh epoch node
    rw [update_of_ne (by omega)]
    exact base.guarded node member slot holds
  none_early := base.none_early

/-- Readers inside the tree have one of its slots. -/
theorem Base.lt_of_reading {slot : Nat} (reading : s.readers slot = .reading) :
    slot < s.readerCount := base.covered slot (by rw [reading]; trivial)

/-- A node that is unlinked is held by the readers inside. -/
theorem Base.unlink (linked : s.linked node = true) :
    Base (s.unlink node) ∧ (s.unlink node).linked node = false
      ∧ ∀ slot, (s.unlink node).holders node slot = decide (s.readers slot = .reading) := by
  have still : ∀ other, (s.unlink node).linked other = true → s.linked other = true := by
    intro other linked'
    change update s.linked node false other = true at linked'
    by_cases same : other = node
    · rw [same]
      exact linked
    · rwa [update_of_ne same] at linked'
  refine ⟨⟨{ base with inside := fun other slot holds => ?_ }, ⟨fun other linked' => base.linked_lt
    other (still other linked'),
    base.garbage_lt, fun other linked' => base.apart other (still other linked')⟩,
    fun other member slot holds => ?_, base.none_early⟩, update_self ..,
    fun slot => congrFun (update_self node _ s.holders) slot⟩
  · change update s.holders node _ other slot = true at holds
    by_cases same : other = node
    · subst same
      rw [update_self] at holds
      exact of_decide_eq_true holds
    · rw [update_of_ne same] at holds
      exact base.inside other slot holds
  · -- The garbage there was is held by whom it was held by.
    have different : other ≠ node := by
      rintro rfl
      exact base.apart other linked member
    change update s.holders node _ other slot = true at holds
    rw [update_of_ne different] at holds
    exact base.guarded other member slot holds

/-- An unlinked node whose readers are not newer is scheduled for releasing. -/
theorem Base.rpFree (allocated : node < s.fresh) (unlinked : s.linked node = false)
    (recent : ∀ slot, s.holders node slot = true → s.readerEpochs slot ≤ s.nodeEpoch node) :
    Base (s.rpFree node) where
  toReaders := { base with }
  linked_lt := base.linked_lt
  garbage_lt other member := by
    -- The node joins the list as its newest entry.
    rcases mem_append.mp member with old | new
    · exact base.garbage_lt other old
    · rw [mem_singleton.mp new]
      exact allocated
  apart other linked member := by
    rcases mem_append.mp member with old | new
    · exact base.apart other linked old
    · rw [mem_singleton.mp new] at linked
      change s.linked node = true at linked
      rw [unlinked] at linked
      cases linked
  guarded other member slot holds := by
    rcases mem_append.mp member with old | new
    · exact base.guarded other old slot holds
    · rw [mem_singleton.mp new] at holds ⊢
      exact recent slot holds
  none_early := base.none_early

/-- A recent node is unlinked and scheduled for releasing. -/
theorem Base.release (linked : s.linked node = true) (recent : s.Recent node) :
    Base ((s.unlink node).rpFree node) := by
  obtain ⟨unlinked, gone, holders⟩ := base.unlink linked
  refine unlinked.rpFree (base.linked_lt node linked) gone fun slot holds => ?_
  rw [holders] at holds
  have reading := of_decide_eq_true holds
  exact recent slot (Nat.lt_of_lt_of_le (base.lt_of_reading reading) base.few) reading

/-- A node that no reader holds may be returned. -/
theorem Base.freeListReturn (free : s.holdersOf node = []) :
    Base (s.freeListReturn node) where
  toReaders := { base with }
  toNodes := { base with }
  guarded := base.guarded
  none_early entry member := by
    rcases mem_append.mp member with old | new
    · exact base.none_early entry old
    · rw [mem_singleton.mp new]
      exact free

/-- Garbage that is older than every reader is returned, and no reader holds such garbage. -/
theorem Base.gcClean : Base s.gcClean := by
  unfold State.gcClean
  split
  · exact base
  refine ⟨{ base with }, ⟨base.linked_lt, fun node member => base.garbage_lt node (mem_filter.mp member).1,
    fun node linked member => base.apart node linked (mem_filter.mp member).1⟩,
    fun node member => base.guarded node (mem_filter.mp member).1, fun entry member => ?_⟩
  rcases mem_append.mp member with old | new
  · exact base.none_early entry old
  · obtain ⟨node, chosen, rfl⟩ := mem_map.mp new
    obtain ⟨garbage, older⟩ := mem_filter.mp chosen
    apply filter_eq_nil_iff.mpr
    intro slot _ holds
    -- The reader would be at least as old as the oldest one and not newer than the node.
    have covered := base.lt_of_reading (base.inside node slot holds)
    have bound := UInt32.le_trans (s.oldestEpoch_le covered) (base.guarded node garbage slot holds)
    exact absurd (of_decide_eq_true older) (UInt32.not_lt.mpr bound)

end Base

/-- A step of the holder of the write lock keeps the tree in order. -/
theorem Inv.writer (inv : Inv s) (timely : s.TimelyWriter s.writer) {t : State}
    (taken : s.writerStep = some t) : Inv t := by
  have seen := inv.seen
  have base := inv.toBase
  unfold writerStep at taken
  cases pc : s.writer with
  | idle => rw [pc] at taken; cases taken
  | unlinked node next =>
    rw [pc, Option.some.injEq] at taken
    rw [pc] at seen timely
    subst taken
    -- The epoch is one more than before, and so more than any epoch published.
    have less : s.epoch < s.epoch + 1 := by
      have small := s.epoch.toNat_lt
      have notMax : s.epoch.toNat ≠ uintMax.toNat := fun same => timely (UInt32.toNat_inj.mp same)
      change s.epoch.toNat < (s.epoch.toNat + 1) % 2 ^ 32
      change s.epoch.toNat ≠ 4294967295 at notMax
      omega
    have grows : ∀ {e}, e ≤ s.epoch → e ≤ s.epoch + 1 := fun bound =>
      UInt32.le_trans bound (UInt32.le_of_lt less)
    refine ⟨⟨⟨base.few, base.raised, base.covered,
      fun slot reading => grows (base.published slot reading),
      fun slot epoch loaded => grows (base.loaded slot epoch loaded), base.inside⟩,
      { base with }, base.guarded, base.none_early⟩,
      { seen with }, fun other holds => ?_⟩
    have published := base.published other (base.inside node other holds)
    exact ⟨Nat.zero_le _, UInt32.lt_of_le_of_lt published less⟩
  | waiting slot epochId node next =>
    rw [pc] at taken seen timely
    obtain ⟨pending, holders⟩ := seen
    simp only at taken
    -- Every slot in use is compared once.
    split at taken
    · split at taken
      · cases taken
      · rename_i notOld
        rw [Option.some.injEq] at taken
        subst taken
        refine ⟨base.withWriter _, { pending with }, fun other holds => ?_⟩
        -- The reader of the slot passed is not one of those waited for.
        obtain ⟨low, old⟩ := holders other holds
        refine ⟨?_, old⟩
        rcases Nat.lt_or_eq_of_le low with above | rfl
        · exact above
        · exact absurd old notOld
    · -- The scan is over: no reader of the node is left.
      rw [Option.some.injEq] at taken
      subst taken
      have free : s.holdersOf node = [] := by
        apply filter_eq_nil_iff.mpr
        intro other _ holds
        have below := base.lt_of_reading (base.inside node other holds)
        have low := (holders other holds).1
        omega
      have returned := base.freeListReturn free
      exact ⟨(returned.release pending.successor (timely (by omega))).withWriter .idle, trivial⟩

end WriterSteps

theorem gcClean_writer (s : State) : s.gcClean.writer = s.writer := by
  unfold gcClean
  split <;> rfl

/-- Every timely step keeps the tree in order. -/
theorem Inv.step (inv : Inv s) {action : Action} (timely : s.Timely action) {t : State}
    (taken : s.step action = some t) : Inv t := by
  unfold State.step at taken
  cases action with
  | reader slot =>
    simp only at taken
    split at taken
    · rename_i below
      cases taken
      exact inv.reader below
    · cases taken
  | insert =>
    simp only at taken
    split at taken
    · cases taken
    rename_i idle
    cases taken
    refine ⟨inv.gcClean.link s.epoch, ?_⟩
    rw [show (s.gcClean.link s.epoch).writer = .idle from s.gcClean_writer.trans (not_not.mp idle)]
    trivial
  | deleteLeaf node =>
    simp only at taken
    split at taken
    · cases taken
    rename_i allowed
    push Not at allowed
    obtain ⟨idle, linked⟩ := allowed
    cases taken
    refine ⟨inv.release (by simpa using linked) timely, ?_⟩
    rw [show ((s.unlink node).rpFree node).writer = .idle from idle]
    trivial
  | deleteInterior node next =>
    simp only at taken
    split at taken
    · cases taken
    rename_i allowed
    push Not at allowed
    obtain ⟨-, linked, successor, different⟩ := allowed
    have linked : s.linked node = true := by simpa using linked
    have successor : s.linked next = true := by simpa using successor
    cases taken
    -- The copy is a new node, so the node and its successor are what they were.
    have older := inv.linked_lt node linked
    have olderNext := inv.linked_lt next successor
    have linked' : (s.link (s.nodeEpoch next)).linked node = true :=
      (update_of_ne (by omega) ..).trans linked
    obtain ⟨base, gone, -⟩ := (inv.link (s.nodeEpoch next)).unlink linked'
    refine ⟨base.withWriter _, gone, Nat.lt_succ_of_lt older, inv.apart node linked, ?_⟩
    change update (update s.linked s.fresh true) node false next = true
    rw [update_of_ne (Ne.symm different), update_of_ne (by omega)]
    exact successor
  | writer => exact inv.writer timely taken

theorem inv_initial : Inv initial where
  few := Nat.zero_le _
  raised := nofun
  covered _ entered := entered.elim
  published := nofun
  loaded := nofun
  inside := nofun
  linked_lt := nofun
  garbage_lt := nofun
  apart := nofun
  guarded := nofun
  none_early := nofun
  seen := trivial

/-- As long as every node that is scheduled for releasing is at least as new as the readers inside,
and the epochs do not start again, no node is returned to the free list under a reader that was
inside the tree when the node was unlinked. -/
theorem no_node_returned_under_reader (actions : List Action) (s : State)
    (timely : Machine.Along step Timely initial actions)
    (ran : Machine.exec step initial actions = some s) :
    ∀ node slots, (node, slots) ∈ s.returned → slots = [] := by
  have inv : Inv s := Machine.exec_keeps_along
    (fun _ _ _ inv timely taken => inv.step timely taken) inv_initial timely ran
  exact fun node slots member => inv.none_early (node, slots) member

/-- A node is deleted under a reader, and returned behind it. -/
theorem leaf_returned_behind_reader :
    ∃ s, Machine.exec step initial ([.insert, .insert, .reader 0, .reader 0, .reader 0, .reader 0,
        .deleteLeaf 0, .insert, .reader 0, .insert]) = some s
      ∧ s.returned = [(0, [])] ∧ ∀ node slots, (node, slots) ∈ s.returned → slots = [] := by
  refine Machine.reaches_of_decide (P := fun s => s.returned = [(0, [])]) (by decide +kernel)
    fun s ran returned => ⟨returned, ?_⟩
  exact no_node_returned_under_reader _ s (by decide +kernel) ran

/-- A delete of an inner node has advanced the epoch since a node was inserted; a reader takes its
token, the node is deleted as a leaf, and the next insert returns it under the reader. -/
theorem leaf_returned_under_reader :
    (Machine.exec step initial [.insert, .insert, .insert, .insert, .deleteInterior 0 3, .writer,
        .writer, .reader 0, .reader 0, .reader 0, .reader 0, .deleteLeaf 1, .insert]).map (fun s => s.returned) = some [(0, []), (3, []), (1, [0])] := by
  decide +kernel

end State

end EduMpi.Opal.Epochs
