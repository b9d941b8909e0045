import Mathlib.Data.List.Find
import Mathlib.Data.List.Sort
import Mathlib.Order.Basic

/-!
# Bisection into a sorted list

`bisectRight xs x` is the place after the last member of a sorted list that is
not above `x`. What follows it is exactly what is above `x`. `bisectLeft xs x` is
the place of the first member that is not below `x`.
-/

namespace Bisect

section
variable {α β : Type*} [LinearOrder α]

def go (xs : List α) (x : α) : Nat → Nat → Nat → Nat
  | 0, lo, _ => lo
  | fuel + 1, lo, hi =>
    if lo < hi then
      let mid := (lo + hi) / 2
      match xs[mid]? with
      | none => lo
      | some y => if x < y then go xs x fuel lo mid else go xs x fuel (mid + 1) hi
    else lo

def bisectRight (xs : List α) (x : α) : Nat := go xs x xs.length 0 xs.length

/-- Nothing before `lo` is above `x`, and everything from `hi` on is. -/
structure Between (xs : List α) (x : α) (lo hi : Nat) : Prop where
  le : lo ≤ hi
  le_length : hi ≤ xs.length
  below : ∀ i y, i < lo → xs[i]? = some y → y ≤ x
  above : ∀ i y, hi ≤ i → xs[i]? = some y → x < y

theorem getElem?_le {xs : List α} (hs : xs.Pairwise (· ≤ ·)) {i j : Nat} {y z : α} (hij : i ≤ j)
    (hi : xs[i]? = some y) (hj : xs[j]? = some z) : y ≤ z := by
  obtain ⟨hi', rfl⟩ := List.getElem?_eq_some_iff.1 hi
  obtain ⟨hj', rfl⟩ := List.getElem?_eq_some_iff.1 hj
  obtain hlt | rfl := Nat.lt_or_eq_of_le hij
  · exact List.pairwise_iff_getElem.1 hs i j hi' hj' hlt
  · exact le_refl _

theorem go_between {xs : List α} {x : α} (hs : xs.Pairwise (· ≤ ·)) : ∀ (fuel lo hi : Nat), hi - lo ≤ fuel →
    Between xs x lo hi → Between xs x (go xs x fuel lo hi) (go xs x fuel lo hi)
  | 0, lo, hi, hf, hb => by
    have heq : lo = hi := by
      have := hb.le
      omega
    subst heq
    exact hb
  | fuel + 1, lo, hi, hf, hb => by
    unfold go
    by_cases hlt : lo < hi
    · rw [if_pos hlt]
      have hlen := hb.le_length
      have hmid : (lo + hi) / 2 < xs.length := by omega
      simp only [List.getElem?_eq_getElem hmid]
      by_cases hx : x < xs[(lo + hi) / 2]
      · rw [if_pos hx]
        refine go_between hs fuel _ _ (by omega) ⟨by omega, by omega, hb.below, ?_⟩
        intro i y hi hy
        exact lt_of_lt_of_le hx (getElem?_le hs hi (List.getElem?_eq_getElem hmid) hy)
      · rw [if_neg hx]
        refine go_between hs fuel _ _ (by omega) ⟨by omega, hb.le_length, ?_, hb.above⟩
        intro i y hi hy
        exact le_trans (getElem?_le hs (by omega) hy (List.getElem?_eq_getElem hmid)) (not_lt.1 hx)
    · rw [if_neg hlt]
      have heq : lo = hi := by
        have := hb.le
        omega
      subst heq
      exact hb

theorem bisectRight_between {xs : List α} (hs : xs.Pairwise (· ≤ ·)) (x : α) :
    Between xs x (bisectRight xs x) (bisectRight xs x) := by
  refine go_between hs xs.length 0 xs.length (by omega) ⟨Nat.zero_le _, le_refl _, ?_, ?_⟩
  · intro i y hi
    exact absurd hi (Nat.not_lt_zero i)
  · intro i y hi hy
    obtain ⟨hlt, -⟩ := List.getElem?_eq_some_iff.1 hy
    exact absurd hlt (Nat.not_lt.2 hi)

/-- **What a bisection leaves** is what is above the value. -/
theorem mem_drop_bisectRight {l : List β} {key : β → α} (hs : (l.map key).Pairwise (· ≤ ·)) {x : α} {b : β} :
    b ∈ l.drop (bisectRight (l.map key) x) ↔ b ∈ l ∧ x < key b := by
  have hb := bisectRight_between hs x
  have hat : ∀ i, (l.map key)[i]? = l[i]?.map key := fun i => List.getElem?_map
  simp only [List.mem_iff_getElem?, List.getElem?_drop]
  constructor
  · intro ⟨i, hi⟩
    refine ⟨⟨_, hi⟩, hb.above _ _ (Nat.le_add_right _ i) ?_⟩
    rw [hat, hi]
    rfl
  · intro ⟨⟨i, hi⟩, hlt⟩
    have hge : bisectRight (l.map key) x ≤ i := by
      by_contra hn
      refine absurd hlt (not_lt.2 (hb.below i _ (Nat.lt_of_not_le hn) ?_))
      rw [hat, hi]
      rfl
    exact ⟨i - bisectRight (l.map key) x, by rw [Nat.add_sub_cancel' hge, hi]⟩

theorem le_of_mem_take_bisectRight {l : List β} {key : β → α} (hs : (l.map key).Pairwise (· ≤ ·)) {x : α} {b : β}
    (h : b ∈ l.take (bisectRight (l.map key) x)) : key b ≤ x := by
  obtain ⟨i, hi⟩ := List.mem_iff_getElem?.1 h
  rw [List.getElem?_take] at hi
  by_cases hlt : i < bisectRight (l.map key) x
  · rw [if_pos hlt] at hi
    refine (bisectRight_between hs x).below i _ hlt ?_
    rw [List.getElem?_map, hi]
    rfl
  · rw [if_neg hlt] at hi
    cases hi

theorem find?_drop_bisectRight {l : List β} {key : β → α} (hs : (l.map key).Pairwise (· ≤ ·)) (x : α) (p : β → Bool) :
    (l.drop (bisectRight (l.map key) x)).find? p = l.find? fun b => decide (x < key b) && p b := by
  have hfront : (l.take (bisectRight (l.map key) x)).find? (fun b => decide (x < key b) && p b) = none := by
    rw [List.find?_eq_none]
    intro b hb
    have hle := le_of_mem_take_bisectRight hs hb
    simp [not_lt.2 hle]
  have hback : (l.drop (bisectRight (l.map key) x)).find? p =
      (l.drop (bisectRight (l.map key) x)).find? fun b => decide (x < key b) && p b := by
    refine List.find?_congr fun b hb => ?_
    obtain ⟨-, hlt⟩ := (mem_drop_bisectRight hs).1 hb
    simp [hlt]
  conv_rhs => rw [← List.take_append_drop (bisectRight (l.map key) x) l, List.find?_append, hfront, Option.none_or]
  exact hback

def goLeft (xs : List α) (x : α) : Nat → Nat → Nat → Nat
  | 0, lo, _ => lo
  | fuel + 1, lo, hi =>
    if lo < hi then
      let mid := (lo + hi) / 2
      match xs[mid]? with
      | none => lo
      | some y => if y < x then goLeft xs x fuel (mid + 1) hi else goLeft xs x fuel lo mid
    else lo

def bisectLeft (xs : List α) (x : α) : Nat := goLeft xs x xs.length 0 xs.length

theorem goLeft_eq (xs : List α) (x : α) : ∀ fuel lo hi : Nat,
    goLeft xs x fuel lo hi = go (xs.map fun y => decide (x ≤ y)) false fuel lo hi
  | 0, _, _ => rfl
  | fuel + 1, lo, hi => by
    unfold goLeft go
    by_cases hlt : lo < hi
    · rw [if_pos hlt, if_pos hlt]
      dsimp only
      rw [List.getElem?_map]
      cases xs[(lo + hi) / 2]? with
      | none => rfl
      | some y =>
        by_cases hy : y < x
        · have hx : ¬ false < decide (x ≤ y) := by rw [decide_eq_false (not_le.2 hy)]; decide
          simp only [Option.map_some, if_pos hy, if_neg hx]
          exact goLeft_eq xs x fuel _ _
        · have hx : false < decide (x ≤ y) := by rw [decide_eq_true (not_lt.1 hy)]; decide
          simp only [Option.map_some, if_neg hy, if_pos hx]
          exact goLeft_eq xs x fuel _ _
    · rw [if_neg hlt, if_neg hlt]

theorem bisectLeft_eq (xs : List α) (x : α) : bisectLeft xs x = bisectRight (xs.map fun y => decide (x ≤ y)) false := by
  unfold bisectLeft bisectRight
  rw [goLeft_eq, List.length_map]

theorem lt_of_mem_take_bisectLeft {l : List β} {key : β → α} (hs : (l.map key).Pairwise (· ≤ ·)) {x : α} {b : β}
    (h : b ∈ l.take (bisectLeft (l.map key) x)) : key b < x := by
  have hsorted : (l.map fun c => decide (x ≤ key c)).Pairwise (· ≤ ·) := by
    rw [List.pairwise_map] at hs ⊢
    refine hs.imp fun {c d} hcd => ?_
    rw [Bool.le_iff_imp]
    intro hc
    simp only [decide_eq_true_eq] at hc ⊢
    exact hc.trans hcd
  rw [bisectLeft_eq, List.map_map] at h
  have hle := le_of_mem_take_bisectRight hsorted h
  rw [← not_le]
  intro hx
  rw [decide_eq_true hx] at hle
  exact absurd hle (by decide)

theorem find?_reverse_drop_bisectLeft {l : List β} {key : β → α} (hs : (l.map key).Pairwise (· ≤ ·)) {x : α}
    {p : β → Bool} (hp : ∀ b ∈ l, p b = true → x ≤ key b) :
    (l.drop (bisectLeft (l.map key) x)).reverse.find? p = l.reverse.find? p := by
  have hfront : (l.take (bisectLeft (l.map key) x)).reverse.find? p = none := by
    rw [List.find?_eq_none]
    intro b hb hpb
    rw [List.mem_reverse] at hb
    exact absurd (hp b (List.mem_of_mem_take hb) hpb) (not_le.2 (lt_of_mem_take_bisectLeft hs hb))
  conv_rhs => rw [← List.take_append_drop (bisectLeft (l.map key) x) l, List.reverse_append, List.find?_append, hfront,
    Option.or_none]

end

end Bisect
