import EduMpi.Ddt.AssembledTypes
import EduMpi.Ddt.ElementCount
import EduMpi.Ddt.WalkLaws
import EduMpi.Lib.Cuts

/-! Bytes and basic elements of a type are counted into each other. -/

namespace EduMpi.Ddt

open Cuts Ints Strided List
open List (replicate)

section Unrolled

/-- A nested description and its elements, as often as the loops run. -/
inductive Unrolls : List Entry → List Elem → Prop where
  | nil : Unrolls [] []
  | elem {rest es} (e : Elem) : Unrolls rest es → Unrolls (.elem e :: rest) (e :: es)
  | loop {body rest b es} (l : Loop) (f : EndLoop) : 0 < l.loops → Unrolls body b →
      Unrolls rest es →
      Unrolls (.loop l :: body ++ .endLoop f :: rest) ((replicate l.loops b).flatten ++ es)

variable {desc part rest body tail : List Entry} {es b : List Elem} {frames : List ScanFrame}

theorem Unrolls.nested (unrolls : Unrolls desc es) : Nested desc := by
  induction unrolls with
  | nil => exact .nil
  | elem e _ ih => exact ih.elem e
  | loop l f _ _ _ body rest => exact body.loop l f rest

variable {σ ρ : Type} {visit : Elem → σ → Except ρ σ} {s : σ}

/-- The elements visited one after the other, until one of them ends the scan. -/
def visitAll (visit : Elem → σ → Except ρ σ) (es : List Elem) (s : σ) : Except ρ σ :=
  es.foldlM (fun s e => visit e s) s

theorem visitAll_append (es es' : List Elem) (s : σ) :
    visitAll visit (es ++ es') s = (visitAll visit es s).bind (visitAll visit es') := by
  simp only [visitAll, foldlM_append]
  rfl

@[simp]
theorem visitAll_nil (s : σ) : visitAll visit [] s = .ok s := rfl

theorem visitAll_cons (e : Elem) (es : List Elem) (s : σ) :
    visitAll visit (e :: es) s = (visit e s).bind (visitAll visit es) := by
  rfl

/-- What a scan does behind a part of the description. -/
def onward (visited : Except ρ σ) (next : σ → Option (Except ρ σ)) : Option (Except ρ σ) :=
  match visited with
  | .ok s => next s
  | .error result => some (.error result)

theorem onward_bind (visited : Except ρ σ) (more : σ → Except ρ σ)
    (next : σ → Option (Except ρ σ)) :
    onward (visited.bind more) next = onward visited fun s => onward (more s) next := by
  cases visited <;> rfl

/-- An element is visited and passed. -/
theorem scanRun_elem {e : Elem} {pos : Nat} (here : desc.drop pos = .elem e :: tail) (n : Nat) :
    scanRun desc visit (n + 1) ⟨frames, pos, s⟩ =
      onward (visit e s) fun s => scanRun desc visit n ⟨frames, pos + 1, s⟩ := by
  rw [scanRun, scanStep, entryAt_of_drop here]
  dsimp only
  cases visit e s <;> rfl

/-- The end of a turn: the loop begins again, or the scan goes on behind it. -/
theorem scanRun_turn {f : EndLoop} {ending index k : Nat}
    (here : desc.drop ending = .endLoop f :: tail) (inner : frames ≠ []) (n : Nat) :
    scanRun desc visit (n + 1) ⟨⟨some index, k + 1⟩ :: frames, ending, s⟩ =
      if k = 0 then scanRun desc visit n ⟨frames, ending + 1, s⟩
      else scanRun desc visit n ⟨⟨some index, k⟩ :: frames, index + 1, s⟩ := by
  have filled : frames.isEmpty = false := by simpa using inner
  rw [scanRun, scanStep, entryAt_of_drop here]
  by_cases last : k = 0
  · simp [last, filled]
  · simp [last]

/-- The turns of a loop that are left, one after the other. -/
theorem scanRun_loop {f : EndLoop} {pos k : Nat}
    (ending : desc.drop (pos + 1 + body.length) = .endLoop f :: tail) (inner : frames ≠ [])
    (turn : ∀ (frames : List ScanFrame) (s : σ) (n : Nat), frames ≠ [] →
      scanRun desc visit (visits body + n) ⟨frames, pos + 1, s⟩ =
        onward (visitAll visit b s) fun s =>
          scanRun desc visit n ⟨frames, pos + 1 + body.length, s⟩) (left : 0 < k) (n : Nat) :
    scanRun desc visit (k * (visits body + 1) + n) ⟨⟨some pos, k⟩ :: frames, pos + 1, s⟩ =
      onward (visitAll visit (replicate k b).flatten s) fun s =>
        scanRun desc visit n ⟨frames, pos + 1 + body.length + 1, s⟩ := by
  -- By induction on the turns left: one turn of the body, then the end marker.
  induction k generalizing s with
  | zero => omega
  | succ k ih =>
    have fuel : (k + 1) * (visits body + 1) + n = visits body + (k * (visits body + 1) + n + 1) := by
      rw [Nat.succ_mul]
      omega
    rw [fuel, turn _ _ _ (cons_ne_nil _ _), replicate_succ, flatten_cons,
      visitAll_append, onward_bind]
    congr 1
    funext s
    rw [scanRun_turn ending inner]
    by_cases last : k = 0
    · simp [last, onward]
    · rw [if_neg last, ih (by omega)]

/-- A scan visits the elements of a part and goes on behind it. -/
theorem Unrolls.scanRun (unrolls : Unrolls part es) {pos : Nat}
    (here : desc.drop pos = part ++ rest) (inner : frames ≠ []) (n : Nat) :
    scanRun desc visit (visits part + n) ⟨frames, pos, s⟩ = onward (visitAll visit es s) fun s =>
        Ddt.scanRun desc visit n ⟨frames, pos + part.length, s⟩ := by
  -- By induction on the parts of the description.
  induction unrolls generalizing rest pos frames s n with
  | nil => simp [visits, onward]
  | @elem part es e unrolled ih =>
    rw [visits_elem e unrolled.nested, Nat.add_assoc, Nat.add_comm 1, scanRun_elem here,
      visitAll_cons, onward_bind]
    congr 1
    funext s
    rw [ih (drop_succ_of_drop here) inner, length_cons, Nat.add_assoc pos, Nat.add_comm 1]
  | @loop body part b es l f left inside behind ihBody ihRest =>
    have start : desc.drop pos = .loop l :: body ++ .endLoop f :: (part ++ rest) := by
      simpa using here
    have content : desc.drop (pos + 1) = body ++ .endLoop f :: (part ++ rest) :=
      drop_succ_of_drop start
    have ending : desc.drop (pos + 1 + body.length) = .endLoop f :: (part ++ rest) := by
      rw [← drop_drop, content, drop_left]
    -- The loop is entered, its turns are run, and the rest follows.
    have fuel : l.loops * (visits body + 1) + 1 + visits part + n
        = l.loops * (visits body + 1) + (visits part + n) + 1 := by omega
    rw [visits_loop inside.nested behind.nested, fuel, Ddt.scanRun, scanStep, entryAt_of_drop start]
    dsimp only
    rw [scanRun_loop ending inner
      (fun frames s n outer => ihBody content outer n) left, visitAll_append, onward_bind]
    congr 1
    funext s
    rw [ihRest (drop_succ_of_drop ending) inner]
    simp only [length_append, length_cons]
    congr 1
    funext s
    congr 2
    omega

/-- A scan visits all elements, or ends early. -/
theorem Unrolls.scan (unrolls : Unrolls desc es) (s : σ) :
    scan desc visit s = some (visitAll visit es s) := by
  have here : desc.drop 0 = desc ++ [] := by simp
  have fuel : budget desc 1 = visits desc + 2 := by
    rw [budget]
    omega
  rw [Ddt.scan, fuel, unrolls.scanRun here (cons_ne_nil _ _)]
  have ending : desc.drop (0 + desc.length) = [] := by simp
  cases visitAll visit es s with
  | error result => rfl
  | ok s =>
    simp only [onward]
    rw [Ddt.scanRun, scanStep, entryAt_of_end ending]
    rfl

end Unrolled

section Elements

variable {arch : Arch} {desc : List Entry} {m : List Slot} {es : List Elem} {types : List Basic}

/-- The predefined types of some elements, one for each basic element. -/
def basics (es : List Elem) : List Basic :=
  es.flatMap fun e => replicate (e.count * e.blocklen) e.type

theorem map_fst_shift (d : Offset) (m : List Slot) : (shift d m).map Prod.fst = m.map Prod.fst := by
  simp [shift]

theorem map_fst_copies (n : Nat) (d : Offset) (m : List Slot) :
    (copies n d m).map Prod.fst = (replicate n (m.map Prod.fst)).flatten := by
  induction n with
  | zero => rfl
  | succ n ih =>
    rw [copies_succ, map_append, ih, map_fst_shift, replicate_succ']
    simp

theorem Elem.map_fst_slots (e : Elem) :
    (e.slots arch).map Prod.fst = replicate (e.count * e.blocklen) e.type := by
  rw [Elem.slots, map_fst_shift, map_fst_copies, map_fst_copies]
  simp

theorem basics_append (es es' : List Elem) : basics (es ++ es') = basics es ++ basics es' := by
  simp [basics]

theorem basics_replicate (n : Nat) (es : List Elem) :
    basics (replicate n es).flatten = (replicate n (basics es)).flatten := by
  induction n with
  | zero => rfl
  | succ n ih =>
    rw [replicate_succ, flatten_cons, basics_append, ih, replicate_succ, flatten_cons]

/-- The elements of a sound description are those of its type map, in order. -/
theorem Shaped.unrolls (shaped : Shaped arch desc m) :
    ∃ es, Unrolls desc es ∧ m.map Prod.fst = basics es := by
  induction shaped with
  | nil => exact ⟨[], .nil, rfl⟩
  | elem e _ _ ih =>
    obtain ⟨es, unrolls, types⟩ := ih
    refine ⟨e :: es, .elem e unrolls, ?_⟩
    rw [map_append, Elem.map_fst_slots, types]
    rfl
  | loop l f sound _ _ ihBody ihRest =>
    obtain ⟨b, unrollsBody, typesBody⟩ := ihBody
    obtain ⟨es, unrollsRest, typesRest⟩ := ihRest
    refine ⟨_, .loop l f sound.loops_pos unrollsBody unrollsRest, ?_⟩
    rw [map_append, map_fst_copies, typesBody, typesRest, basics_append, basics_replicate]

/-- The sizes of the basic elements of a type map. -/
def sizesOf (arch : Arch) (m : List Slot) : List Nat := m.map fun slot => arch.size slot.1

theorem sum_sizesOf (m : List Slot) : (sizesOf arch m).sum = (bytesOf arch m).length := by
  induction m with
  | nil => rfl
  | cons slot m ih =>
    rw [bytesOf_cons, length_append, slotBytes, length_shift, length_line, ← ih]
    rfl

/-- The sizes of the elements of a scan. -/
def elemSizes (arch : Arch) (es : List Elem) : List Nat :=
  es.flatMap fun e => replicate (e.count * e.blocklen) (arch.size e.type)

theorem elemSizes_cons (e : Elem) (es : List Elem) :
    elemSizes arch (e :: es)
      = replicate (e.count * e.blocklen) (arch.size e.type) ++ elemSizes arch es := rfl

theorem sizesOf_slots (e : Elem) :
    sizesOf arch (e.slots arch) = replicate (e.count * e.blocklen) (arch.size e.type) := by
  have sizes : sizesOf arch (e.slots arch) = ((e.slots arch).map Prod.fst).map arch.size := by
    rw [map_map]
    rfl
  rw [sizes, e.map_fst_slots, map_replicate]

theorem elemSizes_eq (es : List Elem) : elemSizes arch es = (basics es).map arch.size := by
  simp [elemSizes, basics, map_flatMap]

theorem sum_elemSizes_cons (e : Elem) (es : List Elem) :
    (elemSizes arch (e :: es)).sum
      = e.count * e.blocklen * arch.size e.type + (elemSizes arch es).sum := by
  rw [elemSizes_cons, sum_append, sum_replicate_nat]

theorem length_elemSizes_cons (e : Elem) (es : List Elem) :
    (elemSizes arch (e :: es)).length = e.count * e.blocklen + (elemSizes arch es).length := by
  rw [elemSizes_cons, length_append, length_replicate]

theorem positive_replicate (k : Nat) (b : Basic) : Positive (replicate k (arch.size b)) := by
  intro z member
  rw [eq_of_mem_replicate member]
  exact arch.size_pos b

/-- Counting the elements of some bytes ends at the cut of the sizes. -/
theorem visitAll_countBytes {iSize : Nat} (nbElems : Int) (left : 0 < iSize)
    (fits : iSize ≤ (elemSizes arch es).sum) (small : (elemSizes arch es).sum < 2 ^ 64) :
    ∃ result, visitAll (countBytes arch) es (iSize, nbElems) = .error result ∧
      (cut (elemSizes arch es) iSize = none → result = -1) ∧
      ∀ k, cut (elemSizes arch es) iSize = some k → int32 result = int32 (nbElems + k) := by
  induction es generalizing iSize nbElems with
  | nil =>
    have : iSize ≤ 0 := fits
    omega
  | cons e es ih =>
    have positive := arch.size_pos e.type
    rw [sum_elemSizes_cons] at fits small
    -- The product of the code does not wrap, as all bytes together fit.
    have exact_ : e.count * e.blocklen * arch.size e.type % 2 ^ 64
        = e.count * e.blocklen * arch.size e.type := Nat.mod_eq_of_lt (by omega)
    rw [visitAll_cons, countBytes]
    rw [exact_, elemSizes_cons]
    by_cases here : iSize ≤ e.count * e.blocklen * arch.size e.type
    · -- The bytes end in this element.
      have ends : iSize - iSize / arch.size e.type * arch.size e.type = 0
          ↔ arch.size e.type ∣ iSize := by
        rw [Nat.dvd_iff_mod_eq_zero, Nat.mod_def, Nat.mul_comm]
      rw [if_pos here, cut_append_of_le (by rwa [sum_replicate_nat]), cut_replicate positive here]
      refine ⟨_, rfl, ?_, ?_⟩
      · intro cutsNone
        rw [if_neg]
        intro whole
        simp [ends.mp whole] at cutsNone
      · intro k cuts
        by_cases whole : arch.size e.type ∣ iSize
        · rw [if_pos whole] at cuts
          cases cuts
          rw [if_pos (ends.mpr whole), int32_int64, int32_add_int32]
        · simp [whole] at cuts
    · -- The whole element is counted and the rest has fewer bytes.
      rw [if_neg here]
      have less : 0 < iSize - e.count * e.blocklen * arch.size e.type := by omega
      obtain ⟨result, visited, inside, counted⟩ :=
        ih (int64 (nbElems + (e.count * e.blocklen : Nat))) less (by omega) (by omega)
      rw [cut_append_of_ge (positive_replicate _ _) (by rw [sum_replicate_nat]; omega),
        sum_replicate_nat, length_replicate]
      refine ⟨result, by exact_mod_cast visited, ?_, ?_⟩
      · intro cutsNone
        exact inside (Option.map_eq_none_iff.mp cutsNone)
      · intro k cuts
        obtain ⟨behind, cutsRest, rfl⟩ := Option.map_eq_some_iff.mp cuts
        rw [counted behind cutsRest, int32_int64_add]
        push_cast
        rw [Int.add_assoc, Int.add_comm (behind : Int)]

/-- Counting the bytes of some elements ends with their sum. -/
theorem visitAll_countElems {count : Nat} (length : Nat)
    (fits : count ≤ (elemSizes arch es).length) (left : 0 < count)
    (small : (elemSizes arch es).length < 2 ^ 64) :
    visitAll (countElems arch) es (count, length)
      = .error ((length + ((elemSizes arch es).take count).sum) % 2 ^ 64) := by
  induction es generalizing count length with
  | nil =>
    have : count ≤ 0 := fits
    omega
  | cons e es ih =>
    rw [length_elemSizes_cons] at fits small
    have exact_ : e.count * e.blocklen % 2 ^ 64 = e.count * e.blocklen :=
      Nat.mod_eq_of_lt (by omega)
    rw [visitAll_cons, countElems]
    rw [exact_, elemSizes_cons, take_append, sum_append, length_replicate]
    by_cases here : count ≤ e.count * e.blocklen
    · -- The elements end in this one.
      rw [if_pos here, take_replicate, Nat.min_eq_left here, sum_replicate_nat,
        Nat.sub_eq_zero_of_le here]
      rfl
    · rw [if_neg here, take_of_length_le (by rw [length_replicate]; omega),
        sum_replicate_nat]
      refine (ih _ (by omega) (by omega) (by omega)).trans ?_
      rw [← Nat.add_assoc, Nat.mod_add_mod]

theorem Basic.mem_all (b : Basic) : b ∈ Basic.all := by
  cases b <;> decide

theorem Basic.nodup_all : Basic.all.Nodup := by decide

/-- Changing one counter changes the sum by as much. -/
theorem sum_map_update (nodup : types.Nodup) {b : Basic} (member : b ∈ types) (f : Basic → Nat)
    (n : Nat) :
    (types.map (Function.update f b (f b + n))).sum = (types.map f).sum + n := by
  induction types with
  | nil => cases member
  | cons a types ih =>
    obtain ⟨fresh, rest⟩ := nodup_cons.mp nodup
    rw [map_cons, map_cons, sum_cons, sum_cons]
    by_cases same : b = a
    · subst same
      have others : types.map (Function.update f b (f b + n)) = types.map f :=
        map_congr_left fun c listed =>
          Function.update_of_ne (fun equal : c = b => fresh (equal ▸ listed)) _ _
      rw [others, Function.update_self]
      omega
    · have listed : b ∈ types := (mem_cons.mp member).resolve_left same
      rw [ih rest listed, Function.update_of_ne (Ne.symm same)]
      omega

/-- The counters of all predefined types add up to the elements. -/
theorem visitAll_countType (nodup : types.Nodup) (all : ∀ b, b ∈ types) (ptypes : Basic → Nat)
    (small : (types.map ptypes).sum + (elemSizes arch es).length < 2 ^ 64) :
    ∃ counted, visitAll countType es ptypes = .ok counted ∧
      (types.map counted).sum = (types.map ptypes).sum + (elemSizes arch es).length := by
  induction es generalizing ptypes with
  | nil => exact ⟨ptypes, rfl, rfl⟩
  | cons e es ih =>
    rw [length_elemSizes_cons] at small ⊢
    have listed : ptypes e.type ∈ types.map ptypes := mem_map_of_mem (all e.type)
    have less := le_sum_of_mem listed
    have grows := sum_map_update nodup (all e.type) ptypes (e.count * e.blocklen)
    rw [visitAll_cons, countType, Nat.mod_eq_of_lt (by omega)]
    obtain ⟨counted, visited, total⟩ := ih _ (by rw [grows]; omega)
    refine ⟨counted, visited, ?_⟩
    omega

end Elements

section Counts

variable {arch : Arch} {t : Datatype} {es : List Elem} {n c m : Nat}

/-- What the counts use of a type: its elements, their bytes and their number. -/
structure WellCounted (arch : Arch) (t : Datatype) (es : List Elem) : Prop where
  unrolls : Unrolls t.desc es
  size : t.size = (elemSizes arch es).sum
  size_lt : t.size < 2 ^ 64
  nbElems : t.nbElems = (elemSizes arch es).length ∨ elemSizes arch es = []

/-- The sizes of the basic elements of a type, in the order of its type map. -/
def Datatype.sizes (arch : Arch) (t : Datatype) : List Nat := sizesOf arch (t.typeMap arch)

theorem Assembled.wellCounted {grown : Bool} (assembled : Assembled arch grown t) :
    ∃ es, WellCounted arch t es ∧ t.sizes arch = elemSizes arch es := by
  -- The scans and the type map read the same records.
  obtain ⟨map, good⟩ := assembled.wellAdded
  obtain ⟨es, unrolls, types⟩ := good.shaped.unrolls
  have sizes : sizesOf arch map = elemSizes arch es := by
    rw [elemSizes_eq, ← types, map_map]
    rfl
  have number := assembled.nbElems
  rw [good.typeMap_eq] at number
  refine ⟨es, ⟨unrolls, ?_, good.size_lt, ?_⟩, ?_⟩
  · rw [← sizes, sum_sizesOf, good.size]
  · rw [← sizes, sizesOf, length_map]
    refine number.imp_right fun empty => ?_
    rw [empty.2.2]
    rfl
  · rw [Datatype.sizes, good.typeMap_eq, sizes]

theorem elemSizes_positive (es : List Elem) : Positive (elemSizes arch es) := by
  intro z member
  obtain ⟨e, -, inside⟩ := mem_flatMap.mp member
  rw [eq_of_mem_replicate inside]
  exact arch.size_pos e.type

/-- The result for the whole copies and the cut of one copy: an `int` holds the latter. -/
def counted (whole : Nat) : Option Nat → Except GetElementsErr Nat
  | none => .error .valueOutOfBounds
  | some k =>
    if int32 k = -1 then .error .valueOutOfBounds else .ok (sizeT (whole + int32 k)).toNat

theorem counted_zero {whole : Nat} (small : whole < 2 ^ 64) : counted whole (some 0) = .ok whole := by
  have zero : int32 (0 : Nat) = 0 := by decide
  have same : sizeT (whole + 0 : Int) = whole := by
    exact sizeT_of_mem (by omega) (by omega)
  rw [counted, zero, if_neg (by decide), same, Int.toNat_natCast]

/-- The counts that an `int` keeps, up to what a `size_t` drops. -/
def IntKept (m : Nat) : Prop := m < 2 ^ 31 ∨ 2 ^ 64 - 2 ^ 31 ≤ m ∧ m < 2 ^ 64 - 1

theorem counted_eq_ok_iff {whole : Nat} (small : m + whole < 2 ^ 64) :
    counted whole (some m) = .ok (m + whole) ↔ IntKept m := by
  rw [counted, IntKept]
  by_cases minus : int32 m = -1
  · rw [if_pos minus]
    refine iff_of_false nofun ?_
    unfold int32 at minus
    omega
  · rw [if_neg minus, Except.ok.injEq]
    unfold sizeT int32 at *
    omega

/-- A number beyond what was counted is not returned for it. -/
theorem counted_ne_ok {whole : Nat} {cuts : Option Nat} (small : c < 2 ^ 63)
    (fewer : ∀ k, cuts = some k → k + whole < c) : counted whole cuts ≠ .ok c := by
  cases cuts with
  | none => exact nofun
  | some k =>
    have less := fewer k rfl
    rw [counted]
    split
    · exact nofun
    · rw [ne_eq, Except.ok.injEq]
      unfold sizeT int32
      omega

/-- The number of elements of some bytes, or the error, as the sizes of the elements have it. -/
structure Exact (sizes : List Nat) (n : Nat) (result : Option (Except GetElementsErr Nat)) :
    Prop where
  returns : result ≠ none
  leads : ∀ k, Leads sizes n k → result = some (.ok k)
  inside : result = some (.error .valueOutOfBounds) ↔ Inside sizes n

theorem leads_nil {k : Nat} (leads : Leads [] n k) : n = 0 ∧ k = 0 := by
  obtain ⟨copies, few, sum⟩ := leads
  rw [length_nil] at few
  obtain rfl : k = 0 := by omega
  exact ⟨by simpa using sum.symm, rfl⟩

theorem not_inside_nil : ¬ Inside [] n := by
  rintro ⟨copies, k, z, here, -⟩
  have empty : repeated copies [] = [] := by
    apply eq_nil_of_length_eq_zero
    rw [length_repeated, length_nil, Nat.mul_zero]
  rw [empty] at here
  cases here

namespace WellCounted

variable (good : WellCounted arch t es)

include good

theorem length_lt : (elemSizes arch es).length < 2 ^ 64 :=
  Nat.lt_of_le_of_lt (length_le_sum_of_one_le _ (elemSizes_positive es)) (good.size ▸ good.size_lt)

theorem computePtypes :
    ∃ ptypes, computePtypes t = some ptypes ∧
      (Basic.all.map ptypes).sum = (elemSizes arch es).length := by
  -- All counters start at zero.
  have none : (Basic.all.map fun _ => 0).sum = 0 := by decide
  obtain ⟨ptypes, visited, total⟩ := @visitAll_countType arch es Basic.all
    Basic.nodup_all Basic.mem_all (fun _ => 0) (by rw [none, Nat.zero_add]; exact good.length_lt)
  refine ⟨ptypes, ?_, by rw [total, none, Nat.zero_add]⟩
  rw [Ddt.computePtypes, good.unrolls.scan, visited]
  rfl

theorem getElementCount (left : 0 < n) (fits : n ≤ (elemSizes arch es).sum) :
    ∃ result, getElementCount arch t n = some result ∧
      (cut (elemSizes arch es) n = none → result = -1) ∧
      ∀ k, cut (elemSizes arch es) n = some k → int32 result = int32 k := by
  obtain ⟨result, visited, inside, counted⟩ :=
    visitAll_countBytes 0 left fits (good.size ▸ good.size_lt)
  refine ⟨result, ?_, inside, fun k cuts => by rw [counted k cuts, Int.zero_add]⟩
  rw [Ddt.getElementCount, good.unrolls.scan, visited]
  rfl

/-- The whole copies are counted by the types of one of them. -/
theorem wholeElements {full : Nat}
    (small : full * (elemSizes arch es).length < 2 ^ 64) :
    wholeElements t full = some (full * (elemSizes arch es).length) := by
  unfold Ddt.wholeElements
  by_cases several : full = 0
  · rw [if_neg (not_not.mpr several), several, Nat.zero_mul]
  · obtain ⟨ptypes, computed, total⟩ := good.computePtypes
    rw [if_pos several, computed, Option.map_some, total, Nat.mod_eq_of_lt good.length_lt,
      Nat.mul_comm, Nat.mod_eq_of_lt small]

/-- The bytes behind the whole copies are counted by a scan. -/
theorem leftElements {whole left : Nat}
    (small : whole < 2 ^ 64) (fits : left ≤ (elemSizes arch es).sum) :
    leftElements arch t whole left = some (counted whole (cut (elemSizes arch es) left)) := by
  unfold Ddt.leftElements
  by_cases some_ : 0 < left
  · obtain ⟨result, scanned, inside, kept⟩ := good.getElementCount some_ fits
    rw [if_pos some_, scanned, Option.map_some]
    cases cuts : cut (elemSizes arch es) left with
    | none =>
      rw [inside cuts]
      rfl
    | some k =>
      rw [kept k cuts, counted]
  · obtain rfl : left = 0 := by omega
    rw [if_neg some_, cut_zero, counted_zero small]

theorem getElements (user : t.flags.predefined = false)
    (filled : 0 < (elemSizes arch es).sum) (small : n < 2 ^ 64) :
    getElements arch t n =
      some (counted (n / (elemSizes arch es).sum * (elemSizes arch es).length)
        (cut (elemSizes arch es) (n % (elemSizes arch es).sum))) := by
  -- The elements of the whole copies are no more than their bytes.
  have less := length_le_sum_of_one_le _ (@elemSizes_positive arch es)
  have bytes : n / (elemSizes arch es).sum * (elemSizes arch es).length < 2 ^ 64 :=
    Nat.lt_of_le_of_lt (Nat.le_trans (Nat.mul_le_mul_left _ less) (Nat.div_mul_le_self n _)) small
  have rest : n - n / (elemSizes arch es).sum * (elemSizes arch es).sum
      = n % (elemSizes arch es).sum := by
    rw [Nat.mod_def, Nat.mul_comm]
  rw [Ddt.getElements, good.size, if_neg (by omega), user]
  rw [if_neg Bool.false_ne_true, rest, good.wholeElements bytes, Option.bind_some,
    good.leftElements bytes (Nat.le_of_lt (Nat.mod_lt n filled))]

/-- The length of some elements, as far as a `size_t` holds it. -/
theorem setElementCount
    (filled : 0 < (elemSizes arch es).length) (leads : Leads (elemSizes arch es) n c) :
    setElementCount arch t c = some (n % 2 ^ 64) := by
  have number : t.nbElems = (elemSizes arch es).length := by
    refine good.nbElems.resolve_right fun empty => ?_
    rw [empty] at filled
    exact Nat.lt_irrefl 0 filled
  rw [(leads_iff_sum filled).mp leads, Ddt.setElementCount, number, if_neg (by omega), good.size]
  rw [Nat.mul_comm (elemSizes arch es).sum]
  by_cases left : c % (elemSizes arch es).length = 0
  · rw [left]
    simp
  -- The first elements of one more copy are added by a scan.
  have inside : c % (elemSizes arch es).length < (elemSizes arch es).length :=
    Nat.mod_lt c filled
  rw [if_neg left, good.unrolls.scan, visitAll_countElems _ (Nat.le_of_lt inside)
    (Nat.pos_of_ne_zero left) good.length_lt, Option.map_some]
  rw [Nat.mod_add_mod]

theorem getElements_nil (empty : elemSizes arch es = []) :
    Ddt.getElements arch t n = some (.ok 0) := by
  rw [Ddt.getElements, good.size, empty, if_pos sum_nil]

/-- The number of leftover elements decides whether the count is exact. -/
theorem exact_iff (user : t.flags.predefined = false) (small : n < 2 ^ 64) :
    Exact (elemSizes arch es) n (Ddt.getElements arch t n) ↔
      ∀ k, Leads (elemSizes arch es) n k → IntKept (k % (elemSizes arch es).length) := by
  have positive := @elemSizes_positive arch es
  by_cases empty : elemSizes arch es = []
  · rw [good.getElements_nil empty, empty]
    refine iff_of_true ⟨nofun, ?_, ?_⟩ ?_
    · intro k leads
      rw [(leads_nil leads).2]
    · exact iff_of_false nofun not_inside_nil
    · intro k leads
      rw [(leads_nil leads).2]
      exact .inl (by decide)
  have filled : 0 < (elemSizes arch es).sum :=
    Nat.lt_of_lt_of_le (length_pos_iff.mpr empty) (length_le_sum_of_one_le _ positive)
  rw [good.getElements user filled small]
  cases cuts : cut (elemSizes arch es) (n % (elemSizes arch es).sum) with
  | none =>
    -- No number of elements has these bytes.
    have inside := (inside_iff positive filled).mpr cuts
    have never (k : Nat) : ¬ Leads (elemSizes arch es) n k := by
      rw [leads_iff positive filled, cuts]
      rintro ⟨m, found, -⟩
      cases found
    refine iff_of_true ⟨nofun, ?_, iff_of_true rfl inside⟩ ?_
    · exact fun k leads => absurd leads (never k)
    · exact fun k leads => absurd leads (never k)
  | some m =>
    -- A place between elements is led to by one count only.
    have outside : ¬ Inside (elemSizes arch es) n := by
      rw [inside_iff positive filled, cuts]
      exact nofun
    have short := cut_lt_length positive (Nat.mod_lt n filled) cuts
    have leads_iff_eq (k : Nat) : Leads (elemSizes arch es) n k ↔
        k = m + n / (elemSizes arch es).sum * (elemSizes arch es).length := by
      rw [leads_iff positive filled, cuts]
      simp
    have leads := (leads_iff_eq _).mpr rfl
    have kept_iff := counted_eq_ok_iff (Nat.lt_of_le_of_lt (leads.le positive) small)
    have leftover : (m + n / (elemSizes arch es).sum * (elemSizes arch es).length)
        % (elemSizes arch es).length = m := by
      rw [Nat.add_mul_mod_self_right, Nat.mod_eq_of_lt short]
    constructor
    · intro exact_ k other
      rw [(leads_iff_eq k).mp other, leftover, ← kept_iff]
      exact Option.some.inj (exact_.leads _ leads)
    · intro kept
      have counts := kept_iff.mpr (leftover ▸ kept _ leads)
      rw [counts]
      refine ⟨nofun, ?_, iff_of_false nofun outside⟩
      intro k other
      rw [(leads_iff_eq k).mp other]

/-- Without elements only their number zero leads back, unless zero is divided by. -/
theorem returns_iff_nil (empty : elemSizes arch es = []) :
    (∃ length, Ddt.setElementCount arch t c = some length ∧
        Ddt.getElements arch t length = some (.ok c)) ↔ t.nbElems ≠ 0 ∧ c = 0 := by
  constructor
  · rintro ⟨length, set, get⟩
    rw [good.getElements_nil empty] at get
    cases get
    refine ⟨fun zero => ?_, rfl⟩
    rw [Ddt.setElementCount, if_pos zero] at set
    cases set
  · rintro ⟨number, rfl⟩
    refine ⟨0, ?_, good.getElements_nil empty⟩
    rw [Ddt.setElementCount, if_neg number]
    simp

/-- The length of some elements leads back to them as far as integers hold both. -/
theorem returns_iff (user : t.flags.predefined = false)
    (filled : 0 < (elemSizes arch es).length) (small : c < 2 ^ 63)
    (leads : Leads (elemSizes arch es) n c) :
    (∃ length, Ddt.setElementCount arch t c = some length ∧
        Ddt.getElements arch t length = some (.ok c)) ↔
      n < 2 ^ 64 ∧ c % (elemSizes arch es).length < 2 ^ 31 := by
  have positive := @elemSizes_positive arch es
  have bytes := Nat.lt_of_lt_of_le filled (length_le_sum_of_one_le _ positive)
  have wraps : n % 2 ^ 64 < 2 ^ 64 := Nat.mod_lt n (by decide)
  rw [good.setElementCount filled leads]
  simp only [Option.some.injEq, exists_eq_left', good.getElements user bytes wraps]
  by_cases fits : n < 2 ^ 64
  · -- The bytes are cut behind the first elements, and their leftover is to be kept.
    rw [Nat.mod_eq_of_lt fits]
    obtain ⟨m, cuts, rfl⟩ := (leads_iff positive bytes).mp leads
    have short := cut_lt_length positive (Nat.mod_lt n bytes) cuts
    rw [cuts, counted_eq_ok_iff (Nat.lt_trans small (by decide)), Nat.add_mul_mod_self_right,
      Nat.mod_eq_of_lt short, IntKept]
    omega
  · -- The length has lost a multiple, and fewer elements lead to it.
    refine iff_of_false ?_ fun both => fits both.1
    apply counted_ne_ok small
    intro k cuts
    have fewer := (leads_iff positive bytes).mpr ⟨k, cuts, rfl⟩
    exact fewer.lt leads (by omega)

end WellCounted

end Counts

section Theorem

variable {arch : Arch} {t : Datatype} {grown : Bool}

/-- The counts of a committed derived type are exact for the bytes whose leftover elements fit an
`int`; a number of elements comes back from its length if in addition the length fits and the type
does not claim to have no elements. -/
theorem element_counts_iff (assembled : Assembled arch grown t)
    (_committed : t.flags.committed = true) (derived : t.flags.predefined = false) :
    (∀ n < 2 ^ 64, Exact (t.sizes arch) n (getElements arch t n) ↔
      ∀ k, Leads (t.sizes arch) n k → IntKept (k % (t.sizes arch).length)) ∧
    ∀ c < 2 ^ 63,
      (∃ length, setElementCount arch t c = some length ∧
        getElements arch t length = some (.ok c)) ↔
      t.nbElems ≠ 0 ∧ (t.sizes arch = [] → c = 0) ∧ (∃ n < 2 ^ 64, Leads (t.sizes arch) n c) ∧
        c % (t.sizes arch).length < 2 ^ 31 := by
  obtain ⟨es, good, sizes⟩ := assembled.wellCounted
  rw [sizes]
  refine ⟨fun n small => good.exact_iff derived small, fun c small => ?_⟩
  -- An empty type has no elements, so that only zero comes back.
  by_cases empty : elemSizes arch es = []
  · rw [good.returns_iff_nil empty]
    constructor
    · rintro ⟨number, rfl⟩
      exact ⟨number, fun _ => rfl, ⟨0, by decide, 0, Nat.zero_le _, rfl⟩, by simp⟩
    · rintro ⟨number, zero, -⟩
      exact ⟨number, zero empty⟩
  · have filled := length_pos_iff.mpr empty
    have leads := (leads_iff_sum (k := c) filled).mpr rfl
    have number : t.nbElems ≠ 0 := by
      rw [good.nbElems.resolve_right empty]
      exact Nat.ne_of_gt filled
    rw [good.returns_iff derived filled small leads]
    constructor
    · rintro ⟨fits, kept⟩
      exact ⟨number, fun nil => absurd nil empty, ⟨_, fits, leads⟩, kept⟩
    · rintro ⟨-, -, ⟨n, fits, same⟩, kept⟩
      rw [(leads_iff_sum filled).mp same] at fits
      exact ⟨fits, kept⟩

end Theorem

/-- A number, a gap of its size, and two letters, repeated. -/
def numberAndLetters : Datatype :=
  ((Datatype.construct.add (.ofBasic lp64 .int4) 1 0 4).add (.ofBasic lp64 .int1) 2 8 1).commit lp64

theorem numberAndLetters_assembled : Assembled lp64 false numberAndLetters := by
  refine .committed (.added 2 8 1 (.added 1 0 4 .constructed (.basic .int4 ?_) ?_ ?_ ?_)
    (.basic .int1 ?_) ?_ ?_ ?_) <;> decide +kernel

/-- Four elements come back from their ten bytes, and nine bytes end inside a number. -/
theorem numberAndLetters_counts :
    (∃ length, setElementCount lp64 numberAndLetters 4 = some length ∧
      getElements lp64 numberAndLetters length = some (.ok 4)) ∧
    Exact (numberAndLetters.sizes lp64) 9 (getElements lp64 numberAndLetters 9) := by
  have counts := element_counts_iff numberAndLetters_assembled (by decide +kernel)
    (by decide +kernel)
  refine ⟨(counts.2 4 (by decide)).mpr ?_, (counts.1 9 (by decide)).mpr ?_⟩
  · exact ⟨by decide +kernel, nofun, ⟨10, by decide, 2, by decide, rfl⟩, by decide⟩
  · intro k _
    exact .inl (Nat.lt_trans (Nat.mod_lt k (by decide)) (by decide))

/-- As many letters in a row as two `int` can count. -/
def letterRow : Datatype :=
  (createVector 2 (2 ^ 31 - 1) (2 ^ 31 - 1) (.ofBasic lp64 .int1)).commit lp64

theorem letterRow_assembled : Assembled lp64 false letterRow := by
  -- The rows of the vector touch, so that it is one add.
  have same : letterRow
      = (Datatype.construct.add (.ofBasic lp64 .int1) (2 ^ 32 - 2) 0 1).commit lp64 := by
    decide +kernel
  rw [same]
  refine .committed (.added (2 ^ 32 - 2) 0 1 .constructed (.basic .int1 ?_) ?_ ?_ ?_) <;>
    decide +kernel

/-- The only record of the row. -/
def letters : Elem := ⟨.int1, 1, 2 ^ 32 - 2, 2 ^ 32 - 2, 0⟩

theorem letterRow_sizes : letterRow.sizes lp64 = replicate (2 ^ 32 - 2) 1 := by
  have desc : letterRow.desc = [.elem letters] := by decide +kernel
  have map : letterRow.typeMap lp64 = letters.slots lp64 := by
    rw [Datatype.typeMap, desc]
    exact (Denotes.single lp64 letters).expand_eq
  rw [Datatype.sizes, map, sizesOf_slots]
  exact congrArg (replicate _) (show lp64.size .int1 = 1 from rfl)

/-- A row of a type without elements. -/
def emptyRow : Datatype :=
  (createVector 1 1 1 (createContiguous 0 (.ofBasic lp64 .int4))).commit lp64

theorem emptyRow_assembled : Assembled lp64 false emptyRow := by
  refine .committed (.added 1 0 0 .constructed (.cloned .null) ?_ ?_ ?_) <;> decide +kernel

/-- Half of the letters are counted as a negative number, and the row without elements divides by
their number. -/
theorem letterRow_miscounted :
    (Assembled lp64 false letterRow ∧ letterRow.flags.committed = true ∧
      Leads (letterRow.sizes lp64) (2 ^ 31) (2 ^ 31) ∧
      getElements lp64 letterRow (2 ^ 31) = some (.ok (2 ^ 64 - 2 ^ 31))) ∧
    (Assembled lp64 false emptyRow ∧ emptyRow.flags.committed = true ∧
      emptyRow.sizes lp64 = [] ∧ setElementCount lp64 emptyRow 0 = none) := by
  refine ⟨⟨letterRow_assembled, by decide +kernel, ?_, by decide +kernel⟩, emptyRow_assembled, ?_⟩
  · rw [letterRow_sizes]
    refine ⟨1, ?_, ?_⟩
    · rw [length_replicate]
      omega
    · rw [repeated_succ, take_append_of_le_length (by rw [length_replicate]; omega),
        take_replicate, sum_replicate_nat]
      omega
  · refine ⟨?_, ?_, ?_⟩ <;> decide +kernel

end EduMpi.Ddt
