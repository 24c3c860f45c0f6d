import EduMpi.Lib.Slots
import Mathlib.Data.Nat.Find

/-! Linear probing in a cyclic table: searches, insertions, and the gap a removal leaves. -/

namespace Probing

open Option Slots
open Function (update update_of_ne update_self)

/-- How many slots a search started at one slot passes before it comes to another. -/
def dist (n a b : Nat) : Nat := if a ≤ b then b - a else b + n - a

/-- The slot behind a slot, around the end of the table. -/
def next (n i : Nat) : Nat := if i + 1 = n then 0 else i + 1

/-- The first slot from an index on at which a search stops; it is none if a number of slots is
passed without a stop. -/
def probe (n : Nat) (stop : Nat → Bool) : Nat → Nat → Option Nat
  | 0, _ => none
  | left + 1, index =>
    let slot := if index = n then 0 else index
    if stop slot then some slot else probe n stop left (slot + 1)

section Cyclic

variable {n a b i p : Nat}

theorem dist_lt (left : a < n) (right : b < n) : dist n a b < n := by
  unfold dist
  split <;> omega

theorem dist_self : dist n a a = 0 := by
  unfold dist
  simp

theorem dist_eq_zero (left : a < n) : dist n a b = 0 ↔ a = b := by
  unfold dist
  split <;> omega

theorem dist_inj (start : a < n) (left : b < n) (right : p < n) :
    dist n a b = dist n a p ↔ b = p := by
  unfold dist
  split <;> split <;> omega

theorem next_lt (inside : i < n) : next n i < n := by
  unfold next
  split <;> omega

/-- One slot further is one slot more, up to the slot the search started at. -/
theorem dist_next (start : a < n) (notLast : next n i ≠ a) :
    dist n a (next n i) = dist n a i + 1 := by
  unfold dist next at *
  split_ifs at * <;> omega

/-- The slot before the start is the last one a search comes to. -/
theorem next_ne_of_dist_lt (start : a < n) (below : p < n)
    (further : dist n a i < dist n a p) : next n i ≠ a := by
  unfold dist next at *
  split_ifs at * <;> omega

/-- Seen from the slot behind, every other slot is one slot nearer. -/
theorem dist_from_next (start : a < n) (inside : p < n) (other : p ≠ a) :
    dist n a p = dist n (next n a) p + 1 := by
  unfold dist next
  split <;> split <;> split <;> omega

end Cyclic

section Search

variable {n : Nat} {stop : Nat → Bool}

/-- A search of a number of slots stops at the first slot that stops it. -/
private theorem probe_of_dist {left index a r : Nat} (start : a < n) (inside : r < n)
    (here : (if index = n then 0 else index) = a) (stops : stop r = true)
    (first : ∀ p < n, dist n a p < dist n a r → stop p = false) (near : dist n a r < left) :
    probe n stop left index = some r := by
  induction left generalizing index a with
  | zero => omega
  | succ left ih =>
    simp only [probe, here]
    by_cases same : a = r
    · rw [if_pos (same ▸ stops), same]
    have away := dist_from_next start inside (Ne.symm same)
    have passes : stop a = false := first a start (by rw [dist_self]; omega)
    rw [if_neg (by rw [passes]; exact Bool.false_ne_true)]
    refine ih (next_lt start) rfl (fun p below nearer => ?_) (by omega)
    -- A slot nearer from behind the start is nearer from the start as well.
    by_cases isStart : p = a
    · rw [isStart]
      exact passes
    · have back := dist_from_next start below isStart
      exact first p below (by omega)

/-- A search of all slots stops at the nearest slot that stops it, if there is one. -/
theorem probe_spec (stop : Nat → Bool) {a : Nat} (start : a < n)
    (some_stop : ∃ r < n, stop r = true) :
    ∃ r < n, probe n stop n a = some r ∧ stop r = true
      ∧ ∀ p < n, dist n a p < dist n a r → stop p = false := by
  -- The stopping slot at the least distance.
  have at_distance : ∃ d, ∃ r < n, stop r = true ∧ dist n a r = d := by
    obtain ⟨r, inside, stops⟩ := some_stop
    exact ⟨_, r, inside, stops, rfl⟩
  obtain ⟨r, inside, stops, distance⟩ := Nat.find_spec at_distance
  have first (p : Nat) (below : p < n) (nearer : dist n a p < dist n a r) : stop p = false := by
    have not_here := Nat.find_min at_distance (m := dist n a p) (by omega)
    cases bit : stop p with
    | false => rfl
    | true => exact absurd ⟨p, below, bit, rfl⟩ not_here
  exact ⟨r, inside, probe_of_dist start inside (if_neg (by omega)) stops first
    (dist_lt start inside), stops, first⟩

end Search

section Table

variable {K V : Type*} {n : Nat} {home : K → Nat} {slots : Nat → Option (K × V)}

/-- Every key is in the table once, and a search from its home slot comes to it before it comes
to an empty slot. -/
structure WellPlaced (n : Nat) (home : K → Nat) (slots : Nat → Option (K × V)) : Prop where
  inside : ∀ i, n ≤ i → slots i = none
  unique : ∀ i j k v w, slots i = some (k, v) → slots j = some (k, w) → i = j
  reach : ∀ i k v, slots i = some (k, v) →
    ∀ p < n, dist n (home k) p < dist n (home k) i → slots p ≠ none

section Placed

variable (placed : WellPlaced n home slots)

include placed

/-- A search for a key stops at an empty slot, or at the key. -/
def stopAt [DecidableEq K] (slots : Nat → Option (K × V)) (key : K) (i : Nat) : Bool :=
  match slots i with
  | none => true
  | some (k, _) => k = key

/-- A search for a key comes to the key, or else to an empty slot in a table without the key. -/
theorem WellPlaced.find [DecidableEq K]
    (homes : ∀ k, home k < n) (empty : ∃ e < n, slots e = none) (key : K) :
    ∃ r < n, probe n (stopAt slots key) n (home key) = some r
      ∧ ((∃ v, slots r = some (key, v)) ∨ slots r = none ∧ ∀ i v, slots i ≠ some (key, v))
      ∧ ∀ p < n, dist n (home key) p < dist n (home key) r → slots p ≠ none := by
  obtain ⟨e, below, free⟩ := empty
  obtain ⟨r, inside, finds, stops, first⟩ :=
    probe_spec (stopAt slots key) (homes key) ⟨e, below, by simp [stopAt, free]⟩
  -- What the search passes is filled, as it stops at the first empty slot.
  have passed (p : Nat) (below : p < n) (nearer : dist n (home key) p < dist n (home key) r) :
      slots p ≠ none := by
    intro free
    have passes := first p below nearer
    simp [stopAt, free] at passes
  refine ⟨r, inside, finds, ?_, passed⟩
  cases held : slots r with
  | some pair =>
    obtain ⟨k, v⟩ := pair
    have same : k = key := by simpa [stopAt, held] using stops
    exact .inl ⟨v, by rw [same]⟩
  | none =>
    refine .inr ⟨rfl, fun i v elsewhere => ?_⟩
    -- The key would lie behind the empty slot, or the search would have come to it before.
    have insideI := lt_of_holds placed.inside elsewhere
    rcases Nat.lt_or_ge (dist n (home key) r) (dist n (home key) i) with behind | before
    · exact placed.reach i key v elsewhere r inside behind held
    · rcases Nat.eq_or_lt_of_le before with same | nearer
      · rw [(dist_inj (homes key) insideI inside).mp same, held] at elsewhere
        cases elsewhere
      · have passes := first i insideI nearer
        simp [stopAt, elsewhere] at passes

/-- A key that is not in the table may be put where the search for it ends. -/
theorem WellPlaced.insert {key : K} {v : V} {r : Nat}
    (inside : r < n) (free : slots r = none) (absent : ∀ i v, slots i ≠ some (key, v))
    (passed : ∀ p < n, dist n (home key) p < dist n (home key) r → slots p ≠ none) :
    WellPlaced n home (update slots r (some (key, v))) where
  inside i outside := by
    rw [update_of_ne (by omega)]
    exact placed.inside i outside
  unique i j k a b atI atJ := by
    -- A key is held at its new slot, or where it was.
    rcases holds_update atI with ⟨rfl, new⟩ | ⟨-, oldI⟩ <;>
      rcases holds_update atJ with ⟨rfl, new'⟩ | ⟨-, oldJ⟩
    · rfl
    · cases new
      exact absurd oldJ (absent j b)
    · cases new'
      exact absurd oldI (absent i a)
    · exact placed.unique i j k a b oldI oldJ
  reach i k a atI p below nearer := by
    by_cases isP : p = r
    · rw [isP, update_self]
      exact some_ne_none _
    · rw [update_of_ne isP]
      rcases holds_update atI with ⟨rfl, new⟩ | ⟨-, atI⟩
      · cases new
        exact passed p below nearer
      · exact placed.reach i k a atI p below nearer

/-- The value of a key may be replaced. -/
theorem WellPlaced.replace {key : K} {v w : V} {r : Nat} (held : slots r = some (key, v)) :
    WellPlaced n home (update slots r (some (key, w))) := by
  -- Every slot still holds its key.
  have keys (i : Nat) (k : K) (a : V)
      (atI : update slots r (some (key, w)) i = some (k, a)) :
      ∃ b, slots i = some (k, b) := by
    rcases holds_update atI with ⟨rfl, new⟩ | ⟨-, atI⟩
    · cases new
      exact ⟨v, held⟩
    · exact ⟨a, atI⟩
  refine ⟨fun i outside => ?_, fun i j k a b atI atJ => ?_, fun i k a atI p below nearer => ?_⟩
  · have inside := lt_of_holds placed.inside held
    rw [update_of_ne (by omega)]
    exact placed.inside i outside
  · obtain ⟨c, atI⟩ := keys i k a atI
    obtain ⟨d, atJ⟩ := keys j k b atJ
    exact placed.unique i j k c d atI atJ
  · obtain ⟨c, atI⟩ := keys i k a atI
    by_cases isP : p = r
    · rw [isP, update_self]
      exact some_ne_none _
    · rw [update_of_ne isP]
      exact placed.reach i k c atI p below nearer

end Placed

/-- A table with a gap that a removal left, and the slot that is looked at next: keys from that
slot on may have been placed with the gap filled. -/
structure Gap (n : Nat) (home : K → Nat) (slots : Nat → Option (K × V)) (gap current : Nat) :
    Prop where
  gap_lt : gap < n
  current_lt : current < n
  other : current ≠ gap
  free : slots gap = none
  inside : ∀ i, n ≤ i → slots i = none
  unique : ∀ i j k v w, slots i = some (k, v) → slots j = some (k, w) → i = j
  reach : ∀ i k v, slots i = some (k, v) → ∀ p < n, dist n (home k) p < dist n (home k) i →
    slots p ≠ none ∨ p = gap ∧ dist n gap current ≤ dist n gap i

/-- A removed key leaves a gap. -/
theorem WellPlaced.remove (placed : WellPlaced n home slots) {r : Nat} (inside : r < n)
    (more : next n r ≠ r) : Gap n home (update slots r none) r (next n r) where
  gap_lt := inside
  current_lt := next_lt inside
  other := more
  free := update_self ..
  inside i outside := by
    rw [update_of_ne (by omega)]
    exact placed.inside i outside
  unique i j k v w atI atJ := by
    obtain ⟨-, atI⟩ := (holds_update atI).resolve_left nofun
    obtain ⟨-, atJ⟩ := (holds_update atJ).resolve_left nofun
    exact placed.unique i j k v w atI atJ
  reach i k v atI p below nearer := by
    obtain ⟨notI, atI⟩ := (holds_update atI).resolve_left nofun
    by_cases isP : p = r
    · refine .inr ⟨isP, ?_⟩
      have away : dist n r i ≠ 0 := fun zero => notI ((dist_eq_zero inside).mp zero).symm
      rw [dist_next inside more, dist_self]
      omega
    · rw [update_of_ne isP]
      exact .inl (placed.reach i k v atI p below nearer)

section

variable {gap current : Nat} (gapped : Gap n home slots gap current) {key : K}

include gapped

/-- At the first empty slot behind the gap no key misses the gap any more. -/
theorem Gap.close (free : slots current = none) : WellPlaced n home slots where
  inside := gapped.inside
  unique := gapped.unique
  reach i k v atI p below nearer := by
    rcases gapped.reach i k v atI p below nearer with filled | ⟨isGap, behind⟩
    · exact filled
    -- The way from the gap to the key would pass the empty slot.
    have insideI := lt_of_holds gapped.inside atI
    have notI := ne_of_holds free atI
    have passes : dist n (home k) current < dist n (home k) i := by
      have current_lt := gapped.current_lt
      unfold dist at *
      split_ifs at * <;> omega
    rcases gapped.reach i k v atI current gapped.current_lt passes with filled | ⟨isGap, -⟩
    · exact absurd free filled
    · exact absurd isGap gapped.other

/-- A search from a key's home stops at the key's slot, or before it at the gap. -/
theorem Gap.place (homes : ∀ k, home k < n) {v : V} (held : slots current = some (key, v)) :
    probe n (fun j => j = current ∨ slots j = none) n (home key)
      = some (if dist n (home key) gap < dist n (home key) current then gap else current) := by
  obtain ⟨r, inside, finds, stops, first⟩ := probe_spec (fun j => j = current ∨ slots j = none)
    (homes key) ⟨current, gapped.current_lt, by simp⟩
  rw [finds, some.injEq]
  -- The search goes no further than the slot itself.
  have notBehind : dist n (home key) r ≤ dist n (home key) current := by
    by_contra behind
    have passes := first current gapped.current_lt (by omega)
    simp at passes
  split
  · have notBefore : dist n (home key) r ≤ dist n (home key) gap := by
      by_contra behind
      have passes := first gap gapped.gap_lt (by omega)
      simp [gapped.free] at passes
    -- Every slot before the gap is filled.
    have stopsAt : r = current ∨ slots r = none := by simpa using stops
    rcases stopsAt with same | free
    · rw [same] at notBefore
      omega
    · rcases gapped.reach current key v held r inside (by omega) with filled | ⟨isGap, -⟩
      · exact absurd free filled
      · exact isGap
  · rename_i offWay
    have stopsAt : r = current ∨ slots r = none := by simpa using stops
    rcases stopsAt with same | free
    · exact same
    rcases Nat.eq_or_lt_of_le notBehind with same | nearer
    · exact (dist_inj (homes key) inside gapped.current_lt).mp same
    · rcases gapped.reach current key v held r inside nearer with filled | ⟨isGap, -⟩
      · exact absurd free filled
      · rw [isGap] at nearer
        exact absurd nearer offWay

/-- A key whose way does not pass the gap stays, and the next slot is looked at. -/
theorem Gap.keep {v : V} (held : slots current = some (key, v))
    (offWay : ¬ dist n (home key) gap < dist n (home key) current) (more : next n current ≠ gap) :
    Gap n home slots gap (next n current) where
  gap_lt := gapped.gap_lt
  current_lt := next_lt gapped.current_lt
  other := more
  free := gapped.free
  inside := gapped.inside
  unique := gapped.unique
  reach i k w atI p below nearer := by
    rcases gapped.reach i k w atI p below nearer with filled | ⟨isGap, behind⟩
    · exact .inl filled
    refine .inr ⟨isGap, ?_⟩
    have insideI := lt_of_holds gapped.inside atI
    -- The held key would be on the way to the gap, which this one is not.
    have notI : i ≠ current := by
      rintro rfl
      rw [held, some.injEq, Prod.mk.injEq] at atI
      rw [← atI.1, isGap] at nearer
      exact offWay nearer
    have further : dist n gap current ≠ dist n gap i := fun same =>
      notI ((dist_inj gapped.gap_lt gapped.current_lt insideI).mp same).symm
    rw [dist_next gapped.gap_lt more]
    omega

/-- A key whose way passes the gap moves there, and its own slot is the gap from then on. -/
theorem Gap.move {v : V} (held : slots current = some (key, v))
    (onWay : dist n (home key) gap < dist n (home key) current) (more : next n current ≠ current) :
    Gap n home (update (update slots gap (some (key, v))) current none)
      current (next n current) := by
  have atGap : update (update slots gap (some (key, v))) current none gap = some (key, v) := by
    rw [update_of_ne (Ne.symm gapped.other), update_self]
  have elsewhere (i : Nat) (notCurrent : i ≠ current) (notGap : i ≠ gap) :
      update (update slots gap (some (key, v))) current none i = slots i := by
    rw [update_of_ne notCurrent, update_of_ne notGap]
  have atCurrent : update (update slots gap (some (key, v))) current none current
      = none := update_self ..
  generalize update (update slots gap (some (key, v))) current none = moved at *
  have gap_lt := gapped.gap_lt
  have current_lt := gapped.current_lt
  -- A held key is the moved one, or it is where it was.
  have origin (i : Nat) (k : K) (w : V) (atI : moved i = some (k, w)) :
      i = gap ∧ k = key ∨ i ≠ gap ∧ i ≠ current ∧ slots i = some (k, w) := by
    have notCurrent := ne_of_holds atCurrent atI
    by_cases isGap : i = gap
    · rw [isGap, atGap, some.injEq, Prod.mk.injEq] at atI
      exact .inl ⟨isGap, atI.1.symm⟩
    · exact .inr ⟨isGap, notCurrent, elsewhere i notCurrent isGap ▸ atI⟩
  refine ⟨current_lt, next_lt current_lt, more, atCurrent, fun i outside => ?_,
    fun i j k a b atI atJ => ?_, fun i k a atI p below nearer => ?_⟩
  · rw [elsewhere i (by omega) (by omega)]
    exact gapped.inside i outside
  · rcases origin i k a atI with ⟨rfl, rfl⟩ | ⟨_, notI, heldI⟩ <;>
      rcases origin j _ b atJ with ⟨rfl, same⟩ | ⟨_, notJ, heldJ⟩
    · rfl
    · exact absurd (gapped.unique _ _ _ _ _ heldJ held) notJ
    · subst same
      exact absurd (gapped.unique _ _ _ _ _ heldI held) notI
    · exact gapped.unique i j k a b heldI heldJ
  · by_cases isGap : p = gap
    · rw [isGap, atGap]
      exact .inl (some_ne_none _)
    rcases origin i k a atI with ⟨rfl, rfl⟩ | ⟨_, notCurrent, heldI⟩
    · -- The way to the old gap is the first part of the way to the old slot.
      have notCurrent : p ≠ current := by rintro rfl; omega
      rw [elsewhere p notCurrent isGap]
      rcases gapped.reach current k v held p below (by omega) with filled | ⟨same, -⟩
      · exact .inl filled
      · exact absurd same isGap
    · by_cases isCurrent : p = current
      · refine .inr ⟨isCurrent, ?_⟩
        have away : dist n current i ≠ 0 := fun zero =>
          notCurrent ((dist_eq_zero current_lt).mp zero).symm
        rw [dist_next current_lt more, dist_self]
        omega
      · rw [elsewhere p isCurrent isGap]
        rcases gapped.reach i k a heldI p below nearer with filled | ⟨same, -⟩
        · exact .inl filled
        · exact absurd same isGap

end

end Table

section Map

variable {K V : Type*} [DecidableEq K] {slots : Nat → Option (K × V)} {live : K → Option V}

/-- The slots hold exactly the pairs of a map. -/
def Stores (slots : Nat → Option (K × V)) (live : K → Option V) : Prop :=
  ∀ k v, live k = some v ↔ ∃ i, slots i = some (k, v)

/-- A key that is stored in the only slot that may hold it, or erased there, is so in the map. -/
theorem Stores.set {r : Nat} {key : K} (stores : Stores slots live) (new : Option V)
    (here : ∀ i v, slots i = some (key, v) → i = r)
    (same : ∀ k v, slots r = some (k, v) → k = key) :
    Stores (update slots r (new.map (key, ·))) (update live key new) := by
  intro k v
  by_cases isKey : k = key
  · subst isKey
    rw [update_self]
    constructor
    · rintro rfl
      exact ⟨r, update_self ..⟩
    · rintro ⟨i, holds⟩
      rcases holds_update holds with ⟨-, holds⟩ | ⟨isR, holds⟩
      · obtain ⟨w, rfl, equal⟩ := map_eq_some_iff.mp holds
        cases equal
        rfl
      · exact absurd (here i v holds) isR
  · rw [update_of_ne isKey, stores]
    refine exists_congr fun i => ?_
    by_cases isR : i = r
    · -- Neither before nor after does the slot hold another key.
      subst isR
      rw [update_self]
      refine iff_of_false (fun holds => isKey (same k v holds)) fun holds => ?_
      obtain ⟨w, -, equal⟩ := map_eq_some_iff.mp holds
      cases equal
      exact isKey rfl
    · rw [update_of_ne isR]

end Map

end Probing
