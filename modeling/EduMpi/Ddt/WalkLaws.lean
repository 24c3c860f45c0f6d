import EduMpi.Ddt.Walk

/-! Wherever a walk over a written description is, the bytes still to come are known. -/

namespace EduMpi.Ddt

open Ints Strided List

section Places

variable {arch : Arch} {e : Elem} {k j : Nat}

/-- The bytes of an element of which `k` basic elements are left. -/
def Elem.left (arch : Arch) (e : Elem) (k : Nat) : List Byte :=
  (e.bytes arch).drop ((e.count * e.blocklen - k) * arch.size e.type)

/-- The bytes between two counters of an element. -/
def Elem.between (arch : Arch) (e : Elem) (k k' : Nat) : List Byte :=
  (e.left arch k).take ((k - k') * arch.size e.type)

/-- The place reached when `k` basic elements are left, seen from the base of the element. -/
def Elem.reached (arch : Arch) (e : Elem) (k : Nat) : Offset :=
  ((e.count * e.blocklen - k) / e.blocklen : Nat) * (e.extent : Offset)
    + ((e.count * e.blocklen - k) % e.blocklen * arch.size e.type : Nat)

theorem Elem.left_all (arch : Arch) (e : Elem) :
    e.left arch (e.count * e.blocklen) = e.bytes arch := by
  simp [left]

theorem Elem.left_zero (arch : Arch) (e : Elem) : e.left arch 0 = [] := by
  rw [left, drop_eq_nil_iff, length_bytes, block, Nat.sub_zero, Nat.mul_assoc]

theorem Elem.reached_all (arch : Arch) (e : Elem) : e.reached arch (e.count * e.blocklen) = 0 := by
  simp [reached]

theorem Elem.left_split {k' : Nat} (fewer : k' ≤ k) (some : k ≤ e.count * e.blocklen) :
    e.left arch k = e.between arch k k' ++ e.left arch k' := by
  have rest : e.left arch k' = (e.left arch k).drop ((k - k') * arch.size e.type) := by
    rw [left, left, drop_drop, ← Nat.add_mul]
    congr 2
    omega
  rw [rest, between, take_append_drop]

/-- Within a block the next bytes are in a row from the place reached. -/
theorem Elem.between_eq (some : k ≤ e.count * e.blocklen) (enough : j ≤ k)
    (within : (e.count * e.blocklen - k) % e.blocklen + j ≤ e.blocklen) :
    e.between arch k (k - j)
      = shift ((e.disp : Offset) + e.reached arch k) (line (j * arch.size e.type)) := by
  rcases Nat.eq_zero_or_pos j with rfl | positive
  · simp [between]
  rw [reached]
  have split := Nat.div_add_mod (e.count * e.blocklen - k) e.blocklen
  have inside : (e.count * e.blocklen - k) / e.blocklen < e.count :=
    Nat.div_lt_of_lt_mul (by rw [Nat.mul_comm e.blocklen]; omega)
  generalize done_def : e.count * e.blocklen - k = done at within split inside ⊢
  generalize done / e.blocklen = blocks at split inside ⊢
  generalize done % e.blocklen = begun at within split ⊢
  -- Blocks behind the begun one, and what is left of this one.
  obtain ⟨later, count⟩ := Nat.exists_eq_add_of_lt inside
  obtain ⟨rest, block⟩ := Nat.exists_eq_add_of_le within
  have place : (e.disp : Offset) + (blocks * (e.extent : Offset) + (begun * arch.size e.type : Nat))
      = (begun * arch.size e.type : Nat) + blocks * (e.extent : Offset) + e.disp := by ring
  -- The begun block is cut at the place reached and behind what is taken.
  rw [between, left, done_def, bytes, count, Nat.add_assoc, copies_add, copies_succ_left,
    Elem.block, block, Nat.add_mul, Nat.add_mul, line_add, line_add]
  simp only [shift_append, shift_shift, append_assoc]
  rw [← append_assoc, drop_left', place, take_left']
  · rw [length_shift, length_line]
    congr 1
    omega
  · simp only [length_append, length_shift, length_copies, length_line, ← split, block]
    ring

/-- The place reached, by the whole blocks and the rest of what was taken. -/
theorem Elem.reached_eq {q r : Nat} (split : e.count * e.blocklen - k = r + e.blocklen * q)
    (less : r < e.blocklen) :
    e.reached arch k = q * (e.extent : Offset) + (r * arch.size e.type : Nat) := by
  rw [reached, split, Nat.add_mul_div_left _ _ (by omega), Nat.div_eq_of_lt less, Nat.zero_add,
    Nat.add_mul_mod_self_left, Nat.mod_eq_of_lt less]

/-- Short of the end of a block the place moves on by what was taken. -/
theorem Elem.reached_within (enough : j ≤ k) (some : k ≤ e.count * e.blocklen)
    (within : (e.count * e.blocklen - k) % e.blocklen + j < e.blocklen) :
    e.reached arch (k - j) = e.reached arch k + (j * arch.size e.type : Nat) := by
  have split := Nat.mod_add_div (e.count * e.blocklen - k) e.blocklen
  rw [reached_eq (q := (e.count * e.blocklen - k) / e.blocklen) (by omega) within, reached]
  push_cast
  ring

/-- At the end of a block the place moves on to the next block. -/
theorem Elem.reached_block (sound : e.Sound) (enough : j ≤ k) (some : k ≤ e.count * e.blocklen)
    (within : (e.count * e.blocklen - k) % e.blocklen + j = e.blocklen) :
    e.reached arch (k - j) = e.reached arch k + (j * arch.size e.type : Nat)
      + ((e.extent : Offset) - (e.block arch : Nat)) := by
  have split := Nat.mod_add_div (e.count * e.blocklen - k) e.blocklen
  have next : e.count * e.blocklen - (k - j)
      = 0 + e.blocklen * ((e.count * e.blocklen - k) / e.blocklen + 1) := by
    rw [Nat.mul_add]
    omega
  have block : ((e.count * e.blocklen - k) % e.blocklen * arch.size e.type : Nat)
      + j * arch.size e.type = e.block arch := by
    rw [← Nat.add_mul, within, Elem.block]
  rw [reached_eq next sound.blocklen_pos, reached, Nat.zero_mul, ← block]
  simp only [Nat.cast_add, Nat.cast_zero]
  ring

/-- Between two counters lies what is between each of them and a third. -/
theorem Elem.between_append {k' k'' : Nat} (some : k ≤ e.count * e.blocklen) (fewer : k' ≤ k)
    (fewest : k'' ≤ k') :
    e.between arch k k'' = e.between arch k k' ++ e.between arch k' k'' := by
  have whole : e.between arch k k'' ++ e.left arch k''
      = e.between arch k k' ++ e.between arch k' k'' ++ e.left arch k'' := by
    rw [← left_split (fewest.trans fewer) some, append_assoc,
      ← left_split fewest (fewer.trans some), ← left_split fewer some]
  exact append_cancel_right whole

/-- A counter at the start of a block, seen from the end and from the start of the element. -/
theorem Elem.aligned_iff (some : k ≤ e.count * e.blocklen) :
    (e.count * e.blocklen - k) % e.blocklen = 0 ↔ k % e.blocklen = 0 := by
  rw [← Nat.dvd_iff_mod_eq_zero, ← Nat.dvd_iff_mod_eq_zero]
  refine ⟨fun divides => ?_, fun divides => Nat.dvd_sub (Nat.dvd_mul_left _ _) divides⟩
  have back := Nat.dvd_sub (Nat.dvd_mul_left e.blocklen e.count) divides
  rwa [Nat.sub_sub_self some] at back

/-- From the start of a block on, whole blocks follow at the distance of the element. -/
theorem Elem.between_blocks (n : Nat) (sound : e.Sound) (some : k ≤ e.count * e.blocklen)
    (aligned : k % e.blocklen = 0) (enough : n * e.blocklen ≤ k) :
    e.between arch k (k - n * e.blocklen)
        = shift ((e.disp : Offset) + e.reached arch k)
          (copies n (e.extent : Offset) (line (e.block arch))) ∧
      e.reached arch (k - n * e.blocklen)
        = e.reached arch k + (n : Offset) * (e.extent : Offset) := by
  have positive := sound.blocklen_pos
  -- Whole blocks only: those taken, those to take and those behind them.
  obtain ⟨left, rfl⟩ := Nat.dvd_of_mod_eq_zero aligned
  rw [Nat.mul_comm e.blocklen] at some enough ⊢
  obtain ⟨taken, count⟩ := Nat.exists_eq_add_of_le (Nat.le_of_mul_le_mul_right some positive)
  obtain ⟨later, rfl⟩ := Nat.exists_eq_add_of_le (Nat.le_of_mul_le_mul_right enough positive)
  have done : e.count * e.blocklen - (n + later) * e.blocklen = taken * e.blocklen := by
    rw [count, Nat.add_mul _ taken, Nat.add_sub_cancel_left]
  have rest : (n + later) * e.blocklen - n * e.blocklen = later * e.blocklen := by
    rw [Nat.add_mul, Nat.add_sub_cancel_left]
  have after : e.count * e.blocklen - later * e.blocklen = (taken + n) * e.blocklen := by
    rw [count, ← Nat.sub_mul]
    congr 1
    omega
  rw [reached, reached, done, rest, after]
  simp only [Nat.mul_div_cancel _ positive, Nat.mul_mod_left]
  constructor
  · rw [between, left, done, Nat.add_mul n, Nat.add_sub_cancel, bytes, count, Nat.add_comm _ taken,
      copies_add, copies_add, shift_append, shift_append, shift_append, drop_left', shift_shift,
      take_left']
    · simp [add_comm]
    all_goals simp [Elem.block, Nat.mul_assoc]
  · push_cast
    ring

end Places

section Visits

variable {desc others : List Entry}

/-- Every loop of a description has its end. -/
inductive Nested : List Entry → Prop where
  | nil : Nested []
  | elem {rest} (e : Elem) : Nested rest → Nested (.elem e :: rest)
  | loop {body rest} (l : Loop) (f : EndLoop) : Nested body → Nested rest →
      Nested (.loop l :: body ++ .endLoop f :: rest)

theorem Written.nested {arch : Arch} {exact : Prop} {m : List Slot}
    (written : Written arch exact desc m) : Nested desc := by
  induction written with
  | nil => exact .nil
  | elem e _ _ ih => exact ih.elem e
  | loop l f _ _ _ body rest => exact body.loop l f rest

/-- Reading a nested part counts its visits before those of what follows. -/
theorem Nested.visits_foldr (nested : Nested desc) (top : Nat) (rest : List Nat) :
    desc.foldr visitEntry (top :: rest) = (visits desc + top) :: rest := by
  have general : ∃ n, ∀ top rest, desc.foldr visitEntry (top :: rest) = (n + top) :: rest := by
    induction nested with
    | nil => exact ⟨0, fun top rest => by simp⟩
    | elem e _ ih =>
      obtain ⟨n, eq⟩ := ih
      exact ⟨n + 1, fun top rest => by simp [eq, visitEntry]; omega⟩
    | loop l f _ _ body after =>
      obtain ⟨n, eq⟩ := body
      obtain ⟨k, eq'⟩ := after
      exact ⟨l.loops * (n + 1) + 1 + k, fun top rest => by
        simp [eq, eq', visitEntry]; omega⟩
  obtain ⟨n, eq⟩ := general
  have zero : visits desc = n := by simp [visits, eq]
  rw [zero, eq]

theorem visits_elem (e : Elem) (nested : Nested desc) :
    visits (.elem e :: desc) = 1 + visits desc := by
  rw [visits, foldr_cons, nested.visits_foldr, visitEntry, headD_cons]
  omega

theorem visits_loop {l : Loop} {f : EndLoop} (inner : Nested others) (nested : Nested desc) :
    visits (.loop l :: others ++ .endLoop f :: desc)
      = l.loops * (visits others + 1) + 1 + visits desc := by
  rw [visits, cons_append, foldr_cons, foldr_append, foldr_cons,
    nested.visits_foldr, visitEntry, inner.visits_foldr, visitEntry, headD_cons]
  simp only [Nat.add_zero]

end Visits

section Walks

variable (arch : Arch) (desc : List Entry) (w : List Slot) (extent : Offset)

/-- The displacement of the innermost of some loops. -/
def baseOf (frames : List Frame) : Offset := (frames.head?.map Frame.disp).getD 0

/-- The loops around a place: where the innermost one ends, the bytes that come behind its present
turn, and how many records are visited for them. -/
inductive Outer : List Frame → Nat → List Byte → Nat → Prop where
  | bottom (type : Option Basic) (c : Nat) (d : Offset) : 0 < c →
      Outer [⟨none, type, c, d⟩] desc.length
        (shift (d + extent) (copies (c - 1) extent (bytesOf arch w)))
        ((c - 1) * (visits desc + 1) + 1)
  | loop {frames : List Frame} {ending : Nat} {later : List Byte} {work : Nat} {l : Loop}
      {f : EndLoop} {body rest : List Entry} {b m : List Slot} {i : Nat} (type : Option Basic)
      (c : Nat) (d : Offset) : Outer frames ending later work →
      LoopWritten arch True l body b f → Written arch True body b → Written arch True rest m →
      desc.drop i = .loop l :: body ++ .endLoop f :: (rest ++ desc.drop ending) → 0 < c →
      Outer (⟨some i, type, c, d⟩ :: frames) (i + body.length + 1)
        (shift (d + l.extent) (copies (c - 1) (l.extent : Offset) (bytesOf arch b)) ++
          (shift (baseOf frames) (bytesOf arch m) ++ later))
        ((c - 1) * (visits body + 1) + 1 + (visits rest + work))

/-- A place in a walk, the bytes still to come and how many records are visited for them. -/
inductive At : Cursor → List Byte → Nat → Prop where
  | elem {frames : List Frame} {ending : Nat} {later : List Byte} {work : Nat} {e : Elem}
      {rest : List Entry} {m : List Slot} {pos k : Nat} : Outer arch desc w extent frames ending
      later work → e.Sound → Written arch True rest m →
      desc.drop pos = .elem e :: (rest ++ desc.drop ending) → 0 < k → k ≤ e.count * e.blocklen →
      At ⟨frames, pos, k, baseOf frames + e.reached arch k⟩
        (shift (baseOf frames) (e.left arch k) ++
          (shift (baseOf frames) (bytesOf arch m) ++ later)) (1 + (visits rest + work))
  | loop {frames : List Frame} {ending : Nat} {later : List Byte} {work : Nat} {l : Loop}
      {f : EndLoop} {body rest : List Entry} {b m : List Slot} {pos : Nat} :
      Outer arch desc w extent frames ending later work →
      LoopWritten arch True l body b f → Written arch True body b → Written arch True rest m →
      desc.drop pos = .loop l :: body ++ .endLoop f :: (rest ++ desc.drop ending) →
      At ⟨frames, pos, l.loops, baseOf frames⟩
        (shift (baseOf frames) (copies l.loops (l.extent : Offset) (bytesOf arch b)) ++
          (shift (baseOf frames) (bytesOf arch m) ++ later))
        (l.loops * (visits body + 1) + 1 + (visits rest + work))
  | ending {frames : List Frame} {ending : Nat} {later : List Byte} {work pos : Nat} :
      Outer arch desc w extent frames ending later work → desc.drop pos = desc.drop ending →
      At ⟨frames, pos, 0, baseOf frames⟩ later work

variable {arch desc w extent} {frames : List Frame} {ending work pos : Nat} {later : List Byte}
  {entry : Entry} {l : Loop} {f : EndLoop} {body rest : List Entry} {b m : List Slot}

theorem entryAt_of_drop (here : desc.drop pos = entry :: rest) : entryAt desc pos = entry := by
  have first : desc[pos]? = some entry := by
    rw [← List.head?_drop, here]
    rfl
  simp [entryAt, first]

theorem entryAt_of_end (here : desc.drop pos = []) : entryAt desc pos = .endLoop ⟨0, 0, 0⟩ := by
  have none : desc[pos]? = none := by
    rw [← List.head?_drop, here]
    rfl
  simp [entryAt, none]

theorem drop_succ_of_drop (here : desc.drop pos = entry :: rest) : desc.drop (pos + 1) = rest := by
  rw [← drop_drop, here]
  rfl

theorem drop_endLoop (here : desc.drop pos = .loop l :: body ++ .endLoop f :: rest) :
    desc.drop (pos + body.length + 1) = .endLoop f :: rest := by
  have inside : desc.drop (pos + 1) = body ++ .endLoop f :: rest := drop_succ_of_drop here
  rw [Nat.add_right_comm, ← drop_drop, inside, drop_left]

section

variable (outer : Outer arch desc w extent frames ending later work)

include outer

/-- The record at which the innermost loop ends. -/
theorem Outer.entryAt_ending (here : desc.drop pos = desc.drop ending) :
    ∃ f, entryAt desc pos = .endLoop f := by
  cases outer with
  | bottom type c d _ => exact ⟨_, entryAt_of_end (by simpa using here)⟩
  | loop type c d _ _ _ _ start _ =>
    exact ⟨_, entryAt_of_drop (here.trans (drop_endLoop start))⟩

/-- Going to the start of what is left of a turn. -/
theorem At.of_rest (written : Written arch True rest m)
    (here : desc.drop pos = rest ++ desc.drop ending) (c : Cursor) (same : c.frames = frames) :
    At arch desc w extent (c.moveTo desc pos)
      (shift (baseOf frames) (bytesOf arch m) ++ later) (visits rest + work) := by
  subst same
  -- By the record that stands at the place.
  cases written with
  | nil =>
    obtain ⟨f, fake⟩ := outer.entryAt_ending here
    have start : c.moveTo desc pos = ⟨c.frames, pos, 0, baseOf c.frames⟩ := by
      simp [Cursor.moveTo, fake, freshCount, Cursor.base, baseOf]
    rw [start, bytesOf_nil, shift_nil, visits, foldr_nil, headD_cons, Nat.zero_add]
    exact .ending outer here
  | @elem others m e sound written =>
    -- An element is begun with all its basic elements left.
    have start : c.moveTo desc pos = ⟨c.frames, pos, e.count * e.blocklen,
        baseOf c.frames + e.reached arch (e.count * e.blocklen)⟩ := by
      simp [Cursor.moveTo, entryAt_of_drop here, freshCount, Cursor.base, baseOf, Elem.reached_all]
    have place := At.elem outer sound written here
      (Nat.mul_pos sound.count_pos sound.blocklen_pos) le_rfl
    rw [start, bytesOf_append, bytesOf_slots, shift_append, append_assoc,
      visits_elem e written.nested, Nat.add_assoc, ← Elem.left_all]
    exact place
  | @loop body others b m l f sound inner written =>
    have here : desc.drop pos = .loop l :: body ++ .endLoop f :: (others ++ desc.drop ending) := by
      rw [here]
      simp
    have start : c.moveTo desc pos = ⟨c.frames, pos, l.loops, baseOf c.frames⟩ := by
      simp [Cursor.moveTo, entryAt_of_drop here, freshCount, Cursor.base, baseOf]
    rw [start, bytesOf_append, bytesOf_copies, shift_append, append_assoc,
      visits_loop inner.nested written.nested, Nat.add_assoc]
    exact .loop outer sound inner written here

/-- Every place has a record to visit. -/
theorem Outer.work_pos : 0 < work := by
  cases outer <;> omega

end

theorem At.work_pos {c : Cursor} (place : At arch desc w extent c later work) : 0 < work := by
  cases place with
  | ending outer _ => exact outer.work_pos
  | elem => omega
  | loop => omega

/-- The first turn of a loop and the turns behind it. -/
theorem shift_copies_succ {d x : Offset} {n : Nat} {m : List Byte} :
    shift d (copies (n + 1) x m) = shift d m ++ shift (d + x) (copies n x m) := by
  rw [copies_succ_left, shift_append, shift_shift, add_comm x d]

/-- A turn of a loop begins. -/
theorem At.of_turn {type : Option Basic} {i n : Nat} {d : Offset}
    (outer : Outer arch desc w extent frames ending later work)
    (sound : LoopWritten arch True l body b f) (inner : Written arch True body b)
    (written : Written arch True rest m)
    (here : desc.drop i = .loop l :: body ++ .endLoop f :: (rest ++ desc.drop ending))
    (c : Cursor) (same : c.frames = ⟨some i, type, n + 1, d⟩ :: frames) :
    At arch desc w extent (c.moveTo desc (i + 1))
      (shift d (copies (n + 1) (l.extent : Offset) (bytesOf arch b)) ++
        (shift (baseOf frames) (bytesOf arch m) ++ later))
      (visits body + (n * (visits body + 1) + 1 + (visits rest + work))) := by
  have inside : desc.drop (i + 1) = body ++ desc.drop (i + body.length + 1) := by
    rw [drop_endLoop here]
    exact drop_succ_of_drop here
  rw [shift_copies_succ, append_assoc]
  exact At.of_rest (.loop type (n + 1) d outer sound inner written here n.succ_pos) inner inside c
    same

/-- The end of a turn: another one begins, or what comes behind the loop. -/
theorem Outer.turn (k : Nat) (ptr : Offset) (whole : Written arch True desc w)
    (outer : Outer arch desc w extent frames ending later work)
    (here : desc.drop pos = desc.drop ending) :
    match Cursor.turn desc extent ⟨frames, pos, k, ptr⟩ with
    | none => later = []
    | some next => ∃ less < work, At arch desc w extent next later less := by
  cases outer with
  | bottom type n d some =>
    by_cases last : n - 1 = 0
    · simp [Cursor.turn, last]
    -- The next copy of the type begins.
    obtain ⟨more, rfl⟩ : ∃ more, n = more + 2 := ⟨n - 2, by omega⟩
    have outer : Outer arch desc w extent [⟨none, type, more + 1, d + extent⟩] desc.length _ _ :=
      .bottom type (more + 1) (d + extent) (Nat.succ_pos more)
    have start : desc.drop 0 = desc ++ desc.drop desc.length := by simp
    have place := At.of_rest outer whole start
      ⟨[⟨none, type, more + 1, d + extent⟩], pos, k, ptr⟩ rfl
    refine ⟨visits desc + (more * (visits desc + 1) + 1), ?_, ?_⟩
    · rw [show more + 2 - 1 = more + 1 from rfl, Nat.succ_mul]
      omega
    · rw [show more + 2 - 1 = more + 1 from rfl, shift_copies_succ]
      exact place
  | @loop frames ending later work l f body others b m i type n d outer sound inner rest start
      positive =>
    have next : desc.drop (pos + 1) = others ++ desc.drop ending :=
      drop_succ_of_drop (here.trans (drop_endLoop start))
    by_cases last : n - 1 = 0
    · -- The loop is over: what stands behind it follows.
      have filled : frames ≠ [] := by cases outer <;> simp
      have place := At.of_rest outer rest next ⟨frames, pos, k, ptr⟩ rfl
      simp only [Cursor.turn, last, if_neg filled]
      refine ⟨visits others + work, by omega, ?_⟩
      simpa using place
    · -- The next turn of the loop begins.
      obtain ⟨more, rfl⟩ : ∃ more, n = more + 2 := ⟨n - 2, by omega⟩
      have place := At.of_turn outer sound inner rest start
        ⟨⟨some i, type, more + 1, d + l.extent⟩ :: frames, pos, k, ptr⟩ rfl
      simp only [Cursor.turn, Cursor.stride, entryAt_of_drop start]
      refine ⟨_, ?_, place⟩
      rw [show more + 2 - 1 = more + 1 from rfl, Nat.succ_mul]
      omega

/-- The start of a loop: its first turn begins. -/
theorem Outer.enter (k : Nat) (ptr : Offset)
    (outer : Outer arch desc w extent frames ending later work)
    (sound : LoopWritten arch True l body b f) (inner : Written arch True body b)
    (written : Written arch True rest m)
    (here : desc.drop pos = .loop l :: body ++ .endLoop f :: (rest ++ desc.drop ending)) :
    ∃ less < l.loops * (visits body + 1) + 1 + (visits rest + work),
      At arch desc w extent (Cursor.enter desc ⟨frames, pos, k, ptr⟩ l.loops 0)
        (shift (baseOf frames) (copies l.loops (l.extent : Offset) (bytesOf arch b)) ++
          (shift (baseOf frames) (bytesOf arch m) ++ later)) less := by
  obtain ⟨turns, loops⟩ := Nat.exists_eq_succ_of_ne_zero (Nat.ne_of_gt sound.loops_pos)
  rw [loops]
  have place := At.of_turn outer sound inner written here
    ⟨⟨some pos, none, turns + 1, baseOf frames⟩ :: frames, pos, k, ptr⟩ rfl
  simp only [Cursor.enter, Cursor.base, add_zero]
  refine ⟨_, ?_, place⟩
  rw [Nat.succ_mul]
  omega

end Walks

/-- What one step inside an element must have done: it took the bytes up to a counter, and unless
the element is complete it stands there. -/
def Elem.Steps {σ : Type} (arch : Arch) (base : Offset) (moved : σ → List Byte → σ → Prop)
    (e : Elem) (k : Nat) (s : σ) (r : Nat × Offset × σ) : Prop :=
  r.1 ≤ k ∧ moved s (shift base (e.between arch k r.1)) r.2.2 ∧
    (r.1 ≠ 0 → r.2.1 = base + e.reached arch r.1)

/-- What makes the operations of a walk right: on the elements they are used on they take the next
bytes. -/
structure Ops.Lawful {σ : Type} (arch : Arch) (ops : Ops σ)
    (fits : Elem → Nat → Offset → σ → Prop) (moved : σ → List Byte → σ → Prop) : Prop where
  refl : ∀ s, moved s [] s
  trans : ∀ {s t u a b}, moved s a t → moved t b u → moved s (a ++ b) u
  data : ∀ (e : Elem) (base : Offset) (k : Nat) (s : σ), e.Sound →
    k ≤ e.count * e.blocklen → fits e k (base + e.reached arch k) s →
    e.Steps arch base moved k s (ops.data e k (base + e.reached arch k) s)

/-- A condition on a record that only elements have to meet. -/
def Entry.Sat (p : Elem → Prop) : Entry → Prop
  | .elem e => p e
  | _ => True

instance (p : Elem → Prop) [DecidablePred p] : ∀ entry : Entry, Decidable (entry.Sat p)
  | .elem e => inferInstanceAs (Decidable (p e))
  | .loop _ => isTrue trivial
  | .endLoop _ => isTrue trivial

namespace Walk

variable {σ : Type} {arch : Arch} {desc : List Entry} {w : List Slot} {extent : Offset}
  {ops : Ops σ} {fits : Elem → Nat → Offset → σ → Prop} {moved : σ → List Byte → σ → Prop}
  {todo : List Byte}

/-- The condition on the element a walk is at. -/
def Here (desc : List Entry) (fits : Elem → Nat → Offset → σ → Prop) (x : Walk σ) : Prop :=
  (entryAt desc x.cursor.pos).Sat fun e => fits e x.cursor.count x.cursor.ptr x.store

instance (desc : List Entry) (fits : Elem → Nat → Offset → σ → Prop) (x : Walk σ)
    [∀ e k ptr s, Decidable (fits e k ptr s)] : Decidable (Here desc fits x) :=
  inferInstanceAs (Decidable (Entry.Sat _ _))

/-- The condition on every element of the next records of a walk. -/
def Meets (desc : List Entry) (extent : Offset) (ops : Ops σ)
    (fits : Elem → Nat → Offset → σ → Prop) : Nat → Walk σ → Prop
  | 0, _ => True
  | n + 1, x => Here desc fits x ∧ ((step desc extent ops x).2 = .going →
      Meets desc extent ops fits n (step desc extent ops x).1)

instance decidableMeets (desc : List Entry) (extent : Offset) (ops : Ops σ)
    (fits : Elem → Nat → Offset → σ → Prop) [∀ e k ptr s, Decidable (fits e k ptr s)] :
    ∀ n x, Decidable (Meets desc extent ops fits n x)
  | 0, _ => isTrue trivial
  | n + 1, x =>
    haveI := decidableMeets desc extent ops fits n (step desc extent ops x).1
    inferInstanceAs (Decidable (_ ∧ (_ → _)))

/-- How a walk stands after some records, seen from the bytes that were left before. -/
def Stands (arch : Arch) (desc : List Entry) (w : List Slot) (extent : Offset)
    (moved : σ → List Byte → σ → Prop) (work : Nat) (todo : List Byte) (before : σ) :
    Walk σ × Verdict → Prop
  | (x, verdict) => ∃ gone left, todo = gone ++ left ∧ moved before gone x.store ∧
      match verdict with
      | .going => ∃ less < work, At arch desc w extent x.cursor left less
      | .full => ∃ less ≤ work, At arch desc w extent x.cursor left less
      | .done => left = []

/-- One record takes the bytes it stands for. -/
theorem step_stands (lawful : ops.Lawful arch fits moved) (whole : Written arch True desc w)
    {x : Walk σ} {work : Nat} (place : At arch desc w extent x.cursor todo work)
    (here : Here desc fits x) :
    Stands arch desc w extent moved work todo x.store (step desc extent ops x) := by
  obtain ⟨cursor, store⟩ := x
  cases place with
  | @elem frames ending later work e rest m pos k outer sound written at_ some most =>
    have entry := entryAt_of_drop at_
    obtain ⟨fewer, moves, stops⟩ := lawful.data e (baseOf frames) k store sound most
      (by simpa only [Here, entry, Entry.Sat] using here)
    rcases taken : ops.data e k (baseOf frames + e.reached arch k) store with ⟨k', ptr, store'⟩
    rw [taken] at fewer moves stops
    simp only [step, entry, taken]
    by_cases finished : k' = 0
    · -- The element is complete: its last bytes are taken and the next record follows.
      rw [if_neg (not_not.mpr finished)]
      refine ⟨_, shift (baseOf frames) (bytesOf arch m) ++ later, ?_, moves, visits rest + work,
        by omega, At.of_rest outer written (drop_succ_of_drop at_) _ rfl⟩
      rw [Elem.left_split fewer most, finished, Elem.left_zero, append_nil]
    · -- The element is left in its middle, and goes on from there.
      rw [if_pos finished]
      refine ⟨_, shift (baseOf frames) (e.left arch k') ++
        (shift (baseOf frames) (bytesOf arch m) ++ later), ?_, moves, 1 + (visits rest + work),
        le_rfl, ?_⟩
      · rw [Elem.left_split fewer most, shift_append, append_assoc]
      · rw [show ptr = _ from stops finished]
        exact .elem outer sound written at_ (Nat.pos_of_ne_zero finished) (fewer.trans most)
  | @loop frames ending later work l f body rest b m pos outer sound inner written at_ =>
    obtain ⟨less, lt, entered⟩ := outer.enter l.loops (baseOf frames) sound inner written at_
    simp only [step, entryAt_of_drop at_, sound.plain]
    exact ⟨[], _, rfl, lawful.refl store, less, lt, entered⟩
  | @ending frames ending later work pos outer at_ =>
    obtain ⟨f, entry⟩ := outer.entryAt_ending at_
    have turned := outer.turn 0 (baseOf frames) whole at_
    simp only [step, entry]
    -- A turn ends the walk, or leads to a next place.
    cases turns : Cursor.turn desc extent ⟨frames, pos, 0, baseOf frames⟩ with
    | none =>
      rw [turns] at turned
      exact ⟨[], todo, rfl, lawful.refl store, turned⟩
    | some next =>
      rw [turns] at turned
      obtain ⟨less, lt, place⟩ := turned
      exact ⟨[], todo, rfl, lawful.refl store, less, lt, place⟩

/-- A walk goes on until there is no room or everything is done. -/
theorem run_stands (lawful : ops.Lawful arch fits moved) (whole : Written arch True desc w)
    {n : Nat} {x : Walk σ} {work : Nat} (place : At arch desc w extent x.cursor todo work)
    (enough : work ≤ n) (meets : Meets desc extent ops fits n x) :
    (run desc extent ops n x).2 ≠ .going ∧
      Stands arch desc w extent moved work todo x.store (run desc extent ops n x) := by
  -- The records still to visit bound the fuel: a record that goes on leaves fewer of them.
  induction n generalizing x todo work with
  | zero =>
    have := place.work_pos
    omega
  | succ n ih =>
    obtain ⟨here, later⟩ := meets
    have stands := step_stands lawful whole place here
    rw [run]
    rcases stepped : step desc extent ops x with ⟨next, verdict⟩
    rw [stepped] at stands later
    cases verdict with
    | full | done => exact ⟨by simp, stands⟩
    | going =>
      obtain ⟨gone, left, split, moves, less, lt, place⟩ := stands
      obtain ⟨stopped, after⟩ := ih place (by omega) (later rfl)
      refine ⟨stopped, ?_⟩
      show Stands arch desc w extent moved work todo x.store (run desc extent ops n next)
      generalize run desc extent ops n next = ran at stopped after ⊢
      obtain ⟨last, verdict⟩ := ran
      obtain ⟨gone', left', split', moves', rest⟩ := after
      refine ⟨gone ++ gone', left', by rw [split, split', append_assoc],
        lawful.trans moves moves', ?_⟩
      cases verdict with
      | full =>
        obtain ⟨fewer, le, rest⟩ := rest
        exact ⟨fewer, by omega, rest⟩
      | done => exact rest
      | going => exact absurd rfl stopped

end Walk

end EduMpi.Ddt
