import Mathlib

/-!
# Ranges, slices and list indices

A `Range` is the arithmetic progression of a Python `range`, a `Slice` the
bounds between brackets. Taking a slice of a range is again a range, and it lists
what the slice of the listed range would list.
-/

namespace PySeq

section
variable {α β : Type*}

/-! ## Ranges -/

structure Range where
  start : Int
  stop : Int
  step : Int
  step_ne : step ≠ 0
  deriving DecidableEq

namespace Range

def upTo (n : Nat) : Range := ⟨0, n, 1, by decide⟩

def length (r : Range) : Nat :=
  if 0 < r.step then ((r.stop - r.start + r.step - 1) / r.step).toNat
  else ((r.start - r.stop - r.step - 1) / -r.step).toNat

def item (r : Range) (n : Nat) : Int := r.start + r.step * n

def toList (r : Range) : List Int := (List.range r.length).map r.item

def Before (r : Range) (n : Nat) : Prop :=
  if 0 < r.step then r.item n < r.stop else r.stop < r.item n

theorem lt_ceil_iff {d k : Int} (hk : 0 < k) (n : Nat) : n < ((d + k - 1) / k).toNat ↔ k * n < d := by
  rw [Int.lt_toNat, ← Int.add_one_le_iff, Int.le_ediv_iff_mul_le hk]
  have hexpand : ((n : Int) + 1) * k = k * n + k := by ring
  rw [hexpand]
  omega

theorem lt_length_iff (r : Range) (n : Nat) : n < r.length ↔ r.Before n := by
  unfold length Before item
  by_cases hs : 0 < r.step
  · rw [if_pos hs, if_pos hs, lt_ceil_iff hs]
    omega
  · have hneg : 0 < -r.step := by
      have := r.step_ne
      omega
    have hshift : r.start - r.stop - r.step - 1 = r.start - r.stop + -r.step - 1 := by ring
    have hmul : -r.step * (n : Int) = -(r.step * n) := by ring
    rw [if_neg hs, if_neg hs, hshift, lt_ceil_iff hneg, hmul]
    omega

theorem length_eq_of_before {r t : Range} (h : ∀ n, r.Before n ↔ t.Before n) : r.length = t.length := by
  refine eq_of_forall_lt_iff fun n => ?_
  rw [lt_length_iff, lt_length_iff, h]

@[simp] theorem length_toList (r : Range) : r.toList.length = r.length := by
  simp [toList]

@[simp] theorem getElem?_toList (r : Range) (n : Nat) :
    r.toList[n]? = if n < r.length then some (r.item n) else none := by
  by_cases h : n < r.length
  · simp [toList, h]
  · simp [toList, h]

@[simp] theorem length_upTo (n : Nat) : (upTo n).length = n := by
  refine eq_of_forall_lt_iff fun m => ?_
  rw [lt_length_iff]
  simp [Before, upTo, item]

theorem toList_upTo (n : Nat) : (upTo n).toList = (List.range n).map Int.ofNat := by
  unfold toList
  rw [length_upTo]
  simp [upTo, item]

theorem mem_toList {r : Range} {i : Int} : i ∈ r.toList ↔ ∃ n, r.Before n ∧ r.item n = i := by
  simp [toList, lt_length_iff]

/-- **A rising range splits at any bound above its start**: the places below the bound, and what
a range started at the first place past it lists. -/
theorem toList_split {a b c k : Int} (hk : 0 < k) (hac : a < c) :
    toList ⟨a, b, k, hk.ne'⟩ = toList ⟨a, min b c, k, hk.ne'⟩ ++ toList ⟨a + -(-(c - a) / k) * k, b, k, hk.ne'⟩ := by
  obtain ⟨q, hq⟩ : ∃ q : Nat, -(-(c - a) / k) = q := by
    refine ⟨(-(-(c - a) / k)).toNat, ?_⟩
    have hneg : -(c - a) / k < 0 := Int.ediv_neg_of_neg_of_pos (by omega) hk
    omega
  have hfloor : ∀ n : Int, n ≤ -(c - a) / k ↔ n * k ≤ -(c - a) := fun n => Int.le_ediv_iff_mul_le hk
  have hreach : ∀ n : Nat, n < q ↔ a + k * n < c := by
    intro n
    have h := hfloor (-n)
    have hexpand : -(n : Int) * k = -(k * n) := by ring
    rw [hexpand] at h
    omega
  rw [hq]
  by_cases hbc : b ≤ c
  · have hnil : length ⟨a + q * k, b, k, hk.ne'⟩ = 0 := by
      refine Nat.eq_zero_of_not_pos fun h => ?_
      have h0 := (lt_length_iff _ 0).1 h
      have hq0 : ¬ a + k * q < c := fun h => lt_irrefl q ((hreach q).2 h)
      simp only [Before, item, hk, if_true] at h0
      have hcomm : (q : Int) * k = k * q := by ring
      rw [hcomm] at h0
      simp at h0
      omega
    rw [min_eq_left hbc]
    simp [toList, hnil]
  · have hfirst : length ⟨a, c, k, hk.ne'⟩ = q := by
      refine eq_of_forall_lt_iff fun n => ?_
      rw [lt_length_iff, hreach]
      simp [Before, item, hk]
    have hrest : length ⟨a, b, k, hk.ne'⟩ = q + length ⟨a + q * k, b, k, hk.ne'⟩ := by
      have hlt : ∀ n : Nat, n < length ⟨a + q * k, b, k, hk.ne'⟩ ↔ q + n < length ⟨a, b, k, hk.ne'⟩ := by
        intro n
        rw [lt_length_iff, lt_length_iff]
        have hexpand : a + q * k + k * (n : Int) = a + k * ((q + n : Nat) : Int) := by
          push_cast
          ring
        simp only [Before, item, hk, if_true, hexpand]
      have hle : q ≤ length ⟨a, b, k, hk.ne'⟩ := by
        refine Nat.le_of_not_lt fun hlt => ?_
        have h1 := (hreach _).1 hlt
        have h2 := (lt_length_iff ⟨a, b, k, hk.ne'⟩ (length ⟨a, b, k, hk.ne'⟩)).not.1 (lt_irrefl _)
        simp only [Before, item, hk, if_true] at h2
        omega
      have := eq_of_forall_lt_iff (b := length ⟨a, b, k, hk.ne'⟩ - q) fun n => (hlt n).trans (by omega)
      omega
    rw [min_eq_right (le_of_not_ge hbc)]
    unfold toList
    rw [hrest, List.range_add, List.map_append, hfirst, List.map_map]
    refine congrArg _ (List.map_congr_left fun n _ => ?_)
    simp only [item, Function.comp_apply]
    push_cast
    ring

/-- `range.index`: the place of an item, by its distance from the start. -/
def index (r : Range) (i : Int) : Option Nat :=
  if (i - r.start) % r.step = 0 then
    if 0 ≤ (i - r.start) / r.step ∧ ((i - r.start) / r.step).toNat < r.length then
      some ((i - r.start) / r.step).toNat
    else none
  else none

theorem index_eq_some {r : Range} {i : Int} {n : Nat} : r.index i = some n ↔ n < r.length ∧ r.item n = i := by
  have hat : ∀ m : Nat, r.item m = i → i - r.start = r.step * m := fun m h => by
    simp only [item] at h
    omega
  refine ⟨fun h => ?_, fun ⟨hlt, hn⟩ => ?_⟩
  · unfold index at h
    split at h
    · next hdvd =>
      split at h
      · next hin =>
        cases h
        refine ⟨hin.2, ?_⟩
        have hmul := Int.mul_ediv_cancel' (Int.dvd_of_emod_eq_zero hdvd)
        simp only [item, Int.toNat_of_nonneg hin.1]
        omega
      · cases h
    · cases h
  · have hdiv : (i - r.start) / r.step = n := by
      rw [hat n hn, Int.mul_ediv_cancel_left _ r.step_ne]
    unfold index
    rw [if_pos (Int.emod_eq_zero_of_dvd ⟨n, hat n hn⟩), hdiv, if_pos ⟨Int.natCast_nonneg n, by simpa using hlt⟩]
    rfl

end Range

/-! ## Slices -/

structure Slice where
  start : Option Int
  stop : Option Int
  step : Option Int

namespace Slice

/-- A bound as `slice.indices` counts it: a negative one from the end, both held in `[lower, upper]`. -/
def bound (len : Nat) (lower upper : Int) (i : Int) : Int :=
  if i < 0 then max (i + len) lower else min i upper

/-- The places a slice takes of `len` items; a step of zero is refused. -/
def indices (s : Slice) (len : Nat) : Option Range :=
  let step := s.step.getD 1
  if h : step = 0 then none
  else if step < 0 then
    some ⟨(s.start.map (bound len (-1) (len - 1))).getD (len - 1), (s.stop.map (bound len (-1) (len - 1))).getD (-1),
      step, h⟩
  else
    some ⟨(s.start.map (bound len 0 len)).getD 0, (s.stop.map (bound len 0 len)).getD len, step, h⟩

end Slice

def pick (xs : List α) (places : List Int) : List α := places.filterMap fun i => xs[i.toNat]?

def slice (xs : List α) (s : Slice) : Option (List α) := (s.indices xs.length).map fun r => pick xs r.toList

def place (len : Nat) (i : Int) : Int := if i < 0 then i + len else i

def getItem (xs : List α) (i : Int) : Option α :=
  if 0 ≤ place xs.length i then xs[(place xs.length i).toNat]? else none

def clip (len : Nat) (i : Int) : Int := if i < 0 then max (i + len) 0 else i

/-- `list.index`: the first place in the bounds that holds the value. -/
def index [DecidableEq α] (xs : List α) (x : α) (start : Int) (stop : Option Int) : Option Nat :=
  (List.range xs.length).find? fun n =>
    decide (clip xs.length start ≤ n ∧ (n : Int) < (stop.map (clip xs.length)).getD xs.length ∧ xs[n]? = some x)

theorem place_of_nonneg {len : Nat} {i : Int} (hi : 0 ≤ i) : place len i = i := if_neg (not_lt.2 hi)

theorem getItem_of_nonneg {xs : List α} {i : Int} (hi : 0 ≤ i) : getItem xs i = xs[i.toNat]? := by
  unfold getItem
  rw [place_of_nonneg hi, if_pos hi]

theorem getItem_map (f : α → β) (xs : List α) (i : Int) : getItem (xs.map f) i = (getItem xs i).map f := by
  unfold getItem
  rw [List.length_map, List.getElem?_map]
  split <;> rfl

/-- Where `list.index` may stop. -/
def Holds (xs : List α) (x : α) (start : Int) (stop : Option Int) (n : Nat) : Prop :=
  clip xs.length start ≤ n ∧ (n : Int) < (stop.map (clip xs.length)).getD xs.length ∧ xs[n]? = some x

theorem index_eq_some [DecidableEq α] {xs : List α} {x : α} {start : Int} {stop : Option Int} {n : Nat}
    (h : Holds xs x start stop n) (hfirst : ∀ m < n, ¬ Holds xs x start stop m) : index xs x start stop = some n := by
  have hlt : n < xs.length := (List.getElem?_eq_some_iff.1 h.2.2).1
  refine List.find?_range_eq_some.2 ⟨decide_eq_true h, List.mem_range.2 hlt, fun m hm => ?_⟩
  rw [Bool.not_eq_true', decide_eq_false_iff_not]
  exact hfirst m hm

theorem index_eq_none [DecidableEq α] {xs : List α} {x : α} {start : Int} {stop : Option Int}
    (h : ∀ n, ¬ Holds xs x start stop n) : index xs x start stop = none := by
  refine List.find?_eq_none.2 fun n _ => ?_
  rw [decide_eq_true_eq]
  exact h n

theorem pick_map (f : α → β) (xs : List α) (places : List Int) : pick (xs.map f) places = (pick xs places).map f := by
  simp only [pick, List.getElem?_map, List.map_filterMap]

theorem pick_append_places (xs : List α) (ps qs : List Int) : pick xs (ps ++ qs) = pick xs ps ++ pick xs qs :=
  List.filterMap_append

theorem slice_map (f : α → β) (xs : List α) (s : Slice) : slice (xs.map f) s = (slice xs s).map (·.map f) := by
  simp only [slice, List.length_map, Option.map_map]
  cases s.indices xs.length with
  | none => rfl
  | some r => exact congrArg some (pick_map f xs r.toList)

theorem Slice.mem_indices {s : Slice} {len : Nat} {r : Range} (h : s.indices len = some r) {i : Int}
    (hi : i ∈ r.toList) : 0 ≤ i ∧ i < len := by
  obtain ⟨n, hn, rfl⟩ := Range.mem_toList.1 hi
  simp only [Slice.indices] at h
  split at h
  · cases h
  · next hz =>
    split at h
    · next hneg =>
      cases h
      have hmul : s.step.getD 1 * (n : Int) ≤ 0 := Int.mul_nonpos_of_nonpos_of_nonneg hneg.le (Int.natCast_nonneg n)
      have hstart : (s.start.map (bound len (-1) (len - 1))).getD (len - 1) ≤ len - 1 := by
        cases s.start with
        | none => simp
        | some a =>
          simp only [Option.map_some, Option.getD_some, bound]
          split <;> omega
      have hstop : -1 ≤ (s.stop.map (bound len (-1) (len - 1))).getD (-1) := by
        cases s.stop with
        | none => simp
        | some a =>
          simp only [Option.map_some, Option.getD_some, bound]
          split <;> omega
      simp only [Range.Before, Range.item, not_lt.2 hneg.le, if_false] at hn ⊢
      omega
    · next hpos =>
      cases h
      have hlt : 0 < s.step.getD 1 := lt_of_le_of_ne (not_lt.1 hpos) (Ne.symm hz)
      have hmul : 0 ≤ s.step.getD 1 * (n : Int) := Int.mul_nonneg hlt.le (Int.natCast_nonneg n)
      have hstart : 0 ≤ (s.start.map (bound len 0 len)).getD 0 := by
        cases s.start with
        | none => simp
        | some a =>
          simp only [Option.map_some, Option.getD_some, bound]
          split <;> omega
      have hstop : (s.stop.map (bound len 0 len)).getD len ≤ len := by
        cases s.stop with
        | none => simp
        | some a =>
          simp only [Option.map_some, Option.getD_some, bound]
          split <;> omega
      simp only [Range.Before, Range.item, hlt, if_true] at hn ⊢
      omega

/-! ## Picking -/

def Within (len : Nat) (places : List Int) : Prop := ∀ i ∈ places, 0 ≤ i ∧ i < len

theorem pick_eq_map {xs : List α} {places : List Int} {f : Int → α} (h : ∀ i ∈ places, xs[i.toNat]? = some (f i)) :
    pick xs places = places.map f := by
  unfold pick
  rw [← List.filterMap_eq_map]
  exact List.filterMap_congr fun i hi => h i hi

theorem pick_nil {xs : List α} {places : List Int} (h : ∀ i ∈ places, (xs.length : Int) ≤ i) : pick xs places = [] := by
  unfold pick
  refine List.filterMap_eq_nil_iff.2 fun i hi => List.getElem?_eq_none ?_
  have := h i hi
  omega

theorem getElem?_pick {xs : List α} : ∀ {places : List Int}, Within xs.length places →
    ∀ n : Nat, (pick xs places)[n]? = places[n]?.bind fun i => xs[i.toNat]?
  | [], _, _ => rfl
  | i :: places, h, n => by
    have hi := h i (List.mem_cons_self ..)
    have hlt : i.toNat < xs.length := by omega
    have ih := getElem?_pick fun j hj => h j (List.mem_cons_of_mem _ hj)
    have hcons : pick xs (i :: places) = xs[i.toNat] :: pick xs places := by
      simp [pick, List.getElem?_eq_getElem hlt]
    rw [hcons]
    cases n with
    | zero => simp [List.getElem?_eq_getElem hlt]
    | succ n => simpa using ih n

theorem length_pick {xs : List α} {places : List Int} (h : Within xs.length places) :
    (pick xs places).length = places.length := by
  refine eq_of_forall_lt_iff fun n => ?_
  rw [lt_iff_not_ge, ← List.getElem?_eq_none_iff, getElem?_pick h, lt_iff_not_ge, ← List.getElem?_eq_none_iff]
  by_cases hn : n < places.length
  · have hi := h _ (List.getElem_mem hn)
    have hlt : places[n].toNat < xs.length := by omega
    simp [hn, hlt]
  · simp [hn]

theorem pick_pick {xs : List α} {ps : List Int} (h : Within xs.length ps) (qs : List Int) :
    pick (pick xs ps) qs = pick xs (pick ps qs) := by
  simp only [pick, List.filterMap_filterMap]
  exact List.filterMap_congr fun q _ => getElem?_pick h q.toNat

theorem mem_pick {xs : List α} {places : List Int} {x : α} (h : x ∈ pick xs places) : x ∈ xs := by
  obtain ⟨i, -, hi⟩ := List.mem_filterMap.1 h
  exact List.mem_of_getElem? hi

theorem Within.pick {len : Nat} {ps : List Int} (h : Within len ps) (qs : List Int) : Within len (pick ps qs) :=
  fun i hi => h i (mem_pick hi)

theorem slice_pick {xs : List α} {ps : List Int} (h : Within xs.length ps) (s : Slice) :
    slice (pick xs ps) s = (slice ps s).map (pick xs) := by
  unfold slice
  rw [length_pick h, Option.map_map]
  exact congrArg (Option.map · _) (funext fun r => pick_pick h r.toList)

theorem getItem_pick {xs : List α} {ps : List Int} (h : Within xs.length ps) (i : Int) :
    getItem (pick xs ps) i = (getItem ps i).bind fun j => xs[j.toNat]? := by
  unfold getItem
  rw [length_pick h]
  split
  · exact getElem?_pick h _
  · rfl

theorem Within.slice {len : Nat} {ps qs : List Int} (h : Within len ps) {s : Slice} (hs : PySeq.slice ps s = some qs) :
    Within len qs := by
  obtain ⟨r, -, rfl⟩ := Option.map_eq_some_iff.1 hs
  exact h.pick _

theorem within_of_getItem {len : Nat} {ps : List Int} (h : Within len ps) {i j : Int} (hj : getItem ps i = some j) :
    0 ≤ j ∧ j < len := by
  unfold getItem at hj
  split at hj
  · exact h j (List.mem_of_getElem? hj)
  · cases hj

theorem within_upTo (n : Nat) : Within n (Range.upTo n).toList := by
  intro i hi
  rw [Range.toList_upTo] at hi
  obtain ⟨m, hm, rfl⟩ := List.mem_map.1 hi
  have := List.mem_range.1 hm
  simp only [Int.ofNat_eq_natCast]
  omega

theorem pick_upTo (xs : List α) : pick xs (Range.upTo xs.length).toList = xs := by
  refine List.ext_getElem? fun n => ?_
  rw [getElem?_pick (within_upTo _), Range.toList_upTo, List.getElem?_map]
  by_cases hn : n < xs.length
  · simp [hn]
  · simp [hn]

theorem Slice.indices_step {s : Slice} {len : Nat} {r : Range} (h : s.indices len = some r) : r.step = s.step.getD 1 := by
  simp only [Slice.indices] at h
  split at h
  · cases h
  · split at h <;> cases h <;> rfl

theorem Slice.indices_rising {s : Slice} {len : Nat} {r : Range} (h : s.indices len = some r) (hstep : 0 < r.step) :
    0 ≤ r.start ∧ 0 ≤ r.stop := by
  simp only [Slice.indices] at h
  split at h
  · cases h
  · split at h
    · next hneg =>
      cases h
      exact absurd hneg (not_lt.2 (le_of_lt hstep))
    · cases h
      refine ⟨?_, ?_⟩
      · cases s.start with
        | none => exact le_rfl
        | some a =>
          simp only [Option.map_some, Option.getD_some, bound]
          split <;> omega
      · cases s.stop with
        | none => exact Int.natCast_nonneg len
        | some a =>
          simp only [Option.map_some, Option.getD_some, bound]
          split <;> omega

theorem map_pick {γ : Type*} {xs : List α} {f : Int → γ} {g : α → γ} (hfg : ∀ (n : Nat) x, xs[n]? = some x → f n = g x) :
    ∀ {places : List Int}, Within xs.length places → places.map f = (pick xs places).map g
  | [], _ => rfl
  | i :: places, h => by
    have hi := h i (List.mem_cons_self ..)
    have hlt : i.toNat < xs.length := by omega
    have ih := map_pick hfg fun j hj => h j (List.mem_cons_of_mem _ hj)
    have hcons : pick xs (i :: places) = xs[i.toNat] :: pick xs places := by
      simp [pick, List.getElem?_eq_getElem hlt]
    have hat := hfg i.toNat _ (List.getElem?_eq_getElem hlt)
    rw [Int.toNat_of_nonneg hi.1] at hat
    rw [hcons, List.map_cons, List.map_cons, ih, hat]

namespace Range

/-- The items of `r` at the places of `t`. -/
def compose (r t : Range) : Range :=
  ⟨r.start + r.step * t.start, r.start + r.step * t.stop, r.step * t.step, Int.mul_ne_zero r.step_ne t.step_ne⟩

def slice (r : Range) (s : Slice) : Option Range := (s.indices r.length).map r.compose

def getItem (r : Range) (i : Int) : Option Int :=
  if 0 ≤ place r.length i ∧ place r.length i < r.length then some (r.start + r.step * place r.length i) else none

theorem getItem_toList (r : Range) (i : Int) : PySeq.getItem r.toList i = r.getItem i := by
  unfold PySeq.getItem getItem
  rw [length_toList, getElem?_toList]
  generalize place r.length i = j
  by_cases hj : 0 ≤ j
  · by_cases hlt : j < (r.length : Int)
    · rw [if_pos hj, if_pos (by omega), if_pos ⟨hj, hlt⟩, item, Int.toNat_of_nonneg hj]
    · rw [if_pos hj, if_neg (by omega), if_neg fun h => hlt h.2]
  · rw [if_neg hj, if_neg (fun h => hj h.1)]

theorem compose_item (r t : Range) (n : Nat) : (r.compose t).item n = r.start + r.step * t.item n := by
  simp only [compose, item]
  ring

theorem before_of_pos {r : Range} (h : 0 < r.step) (n : Nat) : r.Before n ↔ r.item n < r.stop := by
  unfold Before
  rw [if_pos h]

theorem before_of_neg {r : Range} (h : r.step < 0) (n : Nat) : r.Before n ↔ r.stop < r.item n := by
  unfold Before
  rw [if_neg (not_lt.2 h.le)]

theorem compose_before (r t : Range) (n : Nat) : (r.compose t).Before n ↔ t.Before n := by
  have hstop : (r.compose t).stop = r.start + r.step * t.stop := rfl
  rcases lt_or_gt_of_ne r.step_ne with hr | hr <;> rcases lt_or_gt_of_ne t.step_ne with ht | ht
  · rw [before_of_pos (mul_pos_of_neg_of_neg hr ht), before_of_neg ht, compose_item, hstop, add_lt_add_iff_left]
    exact mul_lt_mul_left_of_neg hr
  · rw [before_of_neg (mul_neg_of_neg_of_pos hr ht), before_of_pos ht, compose_item, hstop, add_lt_add_iff_left]
    exact mul_lt_mul_left_of_neg hr
  · rw [before_of_neg (mul_neg_of_pos_of_neg hr ht), before_of_neg ht, compose_item, hstop, add_lt_add_iff_left]
    exact mul_lt_mul_iff_right₀ hr
  · rw [before_of_pos (mul_pos hr ht), before_of_pos ht, compose_item, hstop, add_lt_add_iff_left]
    exact mul_lt_mul_iff_right₀ hr

theorem slice_upTo (n : Nat) (s : Slice) : (upTo n).slice s = s.indices n := by
  unfold slice
  rw [length_upTo]
  cases s.indices n with
  | none => rfl
  | some t => simp [compose, upTo]

/-- **Slicing a range** lists what slicing its list would. -/
theorem toList_slice (r : Range) (s : Slice) : PySeq.slice r.toList s = (r.slice s).map toList := by
  unfold PySeq.slice slice
  rw [length_toList]
  cases ht : s.indices r.length with
  | none => rfl
  | some t =>
    refine congrArg some ?_
    have hat : ∀ i ∈ t.toList, r.toList[i.toNat]? = some (r.start + r.step * i) := by
      intro i hi
      obtain ⟨h0, hlt⟩ := Slice.mem_indices ht hi
      rw [getElem?_toList, if_pos (by omega), item, Int.toNat_of_nonneg h0]
    change pick r.toList t.toList = _
    rw [pick_eq_map hat]
    unfold toList
    rw [length_eq_of_before (compose_before r t), List.map_map]
    exact List.map_congr_left fun n _ => (compose_item r t n).symm

end Range

theorem Range.start_le_of_mem {r : Range} (hk : 0 < r.step) {i : Int} (hi : i ∈ r.toList) : r.start ≤ i := by
  obtain ⟨n, -, rfl⟩ := mem_toList.1 hi
  have := Int.mul_nonneg hk.le (Int.natCast_nonneg n)
  simp only [item]
  omega

theorem Range.lt_stop_of_mem {r : Range} (hk : 0 < r.step) {i : Int} (hi : i ∈ r.toList) : i < r.stop := by
  obtain ⟨n, hn, rfl⟩ := mem_toList.1 hi
  simpa only [Before, hk, if_true] using hn

theorem le_first {a c k : Int} (hk : 0 < k) : c ≤ a + -(-(c - a) / k) * k := by
  have h := Int.ediv_mul_le (-(c - a)) hk.ne'
  have hexpand : -(-(c - a) / k) * k = -(-(c - a) / k * k) := by ring
  omega

theorem slice_rising {xs : List α} {a b k : Int} (ha : 0 ≤ a) (hb : 0 ≤ b) (hk : 0 < k) :
    slice xs ⟨some a, some b, some k⟩ = some (pick xs (Range.toList ⟨a, b, k, hk.ne'⟩)) := by
  have hind : Slice.indices ⟨some a, some b, some k⟩ xs.length =
      some ⟨min a xs.length, min b xs.length, k, hk.ne'⟩ := by
    simp [Slice.indices, Slice.bound, hk.ne', not_lt.2 hk.le, not_lt.2 ha, not_lt.2 hb]
  simp only [slice, hind, Option.map_some]
  refine congrArg some ?_
  by_cases hlt : a < xs.length
  · have hpast : pick xs (Range.toList ⟨a + -(-(xs.length - a) / k) * k, b, k, hk.ne'⟩) = [] :=
      pick_nil fun i hi => (le_first hk).trans (Range.start_le_of_mem hk hi)
    rw [min_eq_left hlt.le, Range.toList_split (b := b) hk hlt, pick_append_places, hpast, List.append_nil]
  · have hpast : pick xs (Range.toList ⟨a, b, k, hk.ne'⟩) = [] :=
      pick_nil fun i hi => (not_lt.1 hlt).trans (Range.start_le_of_mem hk hi)
    rw [hpast]
    refine pick_nil fun i hi => le_trans ?_ (Range.start_le_of_mem hk hi)
    exact le_min (not_lt.1 hlt) le_rfl

theorem pick_append_left {xs ys : List α} {places : List Int} (h : Within xs.length places) :
    pick (xs ++ ys) places = pick xs places := by
  refine List.filterMap_congr fun i hi => List.getElem?_append_left ?_
  have := h i hi
  omega

theorem pick_append_right {xs ys : List α} {places : List Int} (h : ∀ i ∈ places, 0 ≤ i) :
    pick (xs ++ ys) (places.map (· + xs.length)) = pick ys places := by
  unfold pick
  rw [List.filterMap_map]
  refine List.filterMap_congr fun i hi => ?_
  have h0 := h i hi
  have hle : xs.length ≤ (i + xs.length).toNat := by omega
  have hsub : (i + xs.length).toNat - xs.length = i.toNat := by omega
  rw [Function.comp_apply, List.getElem?_append_right hle, hsub]

theorem Range.toList_shift (a b k c : Int) (hk : k ≠ 0) :
    toList ⟨a, b, k, hk⟩ = (toList ⟨a - c, b - c, k, hk⟩).map (· + c) := by
  have hlen : length ⟨a, b, k, hk⟩ = length ⟨a - c, b - c, k, hk⟩ := by
    refine length_eq_of_before fun n => ?_
    simp only [Before, item]
    split <;> omega
  unfold toList
  rw [hlen, List.map_map]
  refine List.map_congr_left fun n _ => ?_
  simp only [item, Function.comp_apply]
  omega

theorem Range.toList_max_zero {a b k : Int} (ha : 0 ≤ a) (hk : 0 < k) :
    toList ⟨a, max b 0, k, hk.ne'⟩ = toList ⟨a, b, k, hk.ne'⟩ := by
  have hlen : length ⟨a, max b 0, k, hk.ne'⟩ = length ⟨a, b, k, hk.ne'⟩ := by
    refine length_eq_of_before fun n => ?_
    have hmul := Int.mul_nonneg hk.le (Int.natCast_nonneg n)
    simp only [Before, item, hk, if_true]
    omega
  unfold toList
  rw [hlen]
  rfl

/-- **A rising slice of a list in two parts** takes its places of the first part, and from its first
place past it on those of the second. -/
theorem pick_append_rising {xs ys : List α} {a b k : Int} (ha : 0 ≤ a) (hk : 0 < k) :
    pick (xs ++ ys) (Range.toList ⟨a, b, k, hk.ne'⟩) =
      if a < xs.length then
        pick xs (Range.toList ⟨a, min b xs.length, k, hk.ne'⟩) ++
          pick ys (Range.toList ⟨a + -(-(xs.length - a) / k) * k - xs.length, max (b - xs.length) 0, k, hk.ne'⟩)
      else pick ys (Range.toList ⟨a - xs.length, max (b - xs.length) 0, k, hk.ne'⟩) := by
  have hright : ∀ c : Int, xs.length ≤ c → pick (xs ++ ys) (Range.toList ⟨c, b, k, hk.ne'⟩) =
      pick ys (Range.toList ⟨c - xs.length, max (b - xs.length) 0, k, hk.ne'⟩) := by
    intro c hc
    rw [Range.toList_max_zero (by omega) hk, Range.toList_shift c b k xs.length hk.ne', pick_append_right]
    intro i hi
    have hle : c - xs.length ≤ i := Range.start_le_of_mem hk hi
    omega
  by_cases hlt : a < xs.length
  · rw [if_pos hlt, Range.toList_split hk hlt, pick_append_places, hright _ (le_first hk), pick_append_left]
    intro i hi
    have hle : a ≤ i := Range.start_le_of_mem hk hi
    have hstop : i < min b xs.length := Range.lt_stop_of_mem hk hi
    omega
  · rw [if_neg hlt, hright a (not_lt.1 hlt)]

end

end PySeq
