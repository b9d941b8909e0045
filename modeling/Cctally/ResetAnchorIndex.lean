import Cctally.Dict
import Cctally.Least
import Mathlib.Algebra.Order.Floor.Ring
import Mathlib.Data.Prod.Lex
import Mathlib.Data.Rat.Floor
import Mathlib.Tactic.FieldSimp
import Mathlib.Tactic.Linarith

/-!
# The bucketed anchor index

Anchors are kept in buckets as wide as the tolerance. What is within the
tolerance of a probe lies in the probe's bucket or beside it, so three buckets
answer as the scan over all anchors does. Instants are exact seconds.
-/

namespace Cctally

/-- One round: `best_delta` is the distance of `best`. -/
def nearerAnchor (tolerance : Nat) (rawReset : ℚ) (best : Option ℚ) (anchor : ℚ) : Option ℚ :=
  if (tolerance : ℚ) < |rawReset - anchor| then best
  else
    match best with
    | none => some anchor
    | some held =>
      if |rawReset - anchor| < |rawReset - held| ∨ |rawReset - anchor| = |rawReset - held| ∧ anchor < held then
        some anchor
      else some held

def resolveResetAnchorLinear (anchors : List ℚ) (rawReset : ℚ) (tolerance : Nat) : ℚ :=
  (anchors.foldl (nearerAnchor tolerance rawReset) none).getD rawReset

structure ResetAnchorIndex where
  tolerance : Nat
  positive : 0 < tolerance
  buckets : Dict Int (List ℚ)
  order : List ℚ

namespace ResetAnchorIndex

def bucketOf (tolerance : Nat) (value : ℚ) : Int := ⌊value / tolerance⌋

def bucket (s : ResetAnchorIndex) (b : Int) : List ℚ := (s.buckets.get? b).getD []

def empty (tolerance : Nat) (positive : 0 < tolerance) : ResetAnchorIndex :=
  { tolerance := tolerance
    positive := positive
    buckets := Dict.empty
    order := [] }

/-- `setdefault` of the buckets. -/
def opened (s : ResetAnchorIndex) (b : Int) : ResetAnchorIndex := { s with buckets := s.buckets.setdefault b [] }

def add (s : ResetAnchorIndex) (anchor : ℚ) : ResetAnchorIndex × Bool :=
  let b := bucketOf s.tolerance anchor
  let s := s.opened b
  if anchor ∈ s.bucket b then (s, false)
  else ({ s with buckets := s.buckets.set b (s.bucket b ++ [anchor]), order := s.order ++ [anchor] }, true)

def addAll (s : ResetAnchorIndex) (anchors : List ℚ) : ResetAnchorIndex := anchors.foldl (fun s a => (s.add a).1) s

def resolve (s : ResetAnchorIndex) (rawReset : ℚ) : ℚ :=
  let probe := bucketOf s.tolerance rawReset
  ([-1, 0, 1].foldl (fun best offset => (s.bucket (probe + offset)).foldl (nearerAnchor s.tolerance rawReset) best)
    none).getD rawReset

def contains (s : ResetAnchorIndex) (anchor : ℚ) : Bool := anchor ∈ s.bucket (bucketOf s.tolerance anchor)

end ResetAnchorIndex

section
variable {tolerance : Nat} {rawReset : ℚ} {anchors : List ℚ}

def WithinTolerance (tolerance : Nat) (rawReset anchor : ℚ) : Prop := |rawReset - anchor| ≤ tolerance

instance (tolerance : Nat) (rawReset anchor : ℚ) : Decidable (WithinTolerance tolerance rawReset anchor) :=
  inferInstanceAs (Decidable (_ ≤ _))

def nearness (rawReset anchor : ℚ) : ℚ ×ₗ ℚ := toLex (|rawReset - anchor|, anchor)

theorem nearness_injective {x y : ℚ} (h : nearness rawReset x = nearness rawReset y) : x = y :=
  congrArg (fun p => (ofLex p).2) h

theorem nearness_lt {x y : ℚ} : nearness rawReset x < nearness rawReset y ↔
    |rawReset - x| < |rawReset - y| ∨ |rawReset - x| = |rawReset - y| ∧ x < y :=
  Prod.Lex.lt_iff

theorem nearerAnchor_eq (best : Option ℚ) (anchor : ℚ) : nearerAnchor tolerance rawReset best anchor =
    if WithinTolerance tolerance rawReset anchor then Least.better (nearness rawReset) best anchor else best := by
  by_cases hw : WithinTolerance tolerance rawReset anchor
  · rw [if_pos hw]
    unfold nearerAnchor
    rw [if_neg (not_lt.2 hw)]
    cases best with
    | none => rfl
    | some held => simp only [Least.better, nearness_lt]
  · rw [if_neg hw]
    unfold nearerAnchor
    rw [if_pos (not_le.1 hw)]

theorem foldl_nearerAnchor (anchors : List ℚ) : anchors.foldl (nearerAnchor tolerance rawReset) none =
    Least.least (nearness rawReset) (anchors.filter fun a => WithinTolerance tolerance rawReset a) := by
  rw [Least.least, List.foldl_filter]
  congr
  funext best anchor
  simp only [decide_eq_true_eq]
  exact nearerAnchor_eq best anchor

inductive Joins (tolerance : Nat) (anchors : List ℚ) (rawReset : ℚ) : ℚ → Prop
  | anchor {a : ℚ} (mem : a ∈ anchors) (within : WithinTolerance tolerance rawReset a)
      (nearest : ∀ b ∈ anchors, |rawReset - a| ≤ |rawReset - b|)
      (earlier : ∀ b ∈ anchors, |rawReset - b| = |rawReset - a| → a ≤ b) : Joins tolerance anchors rawReset a
  | probe (apart : ∀ b ∈ anchors, ¬ WithinTolerance tolerance rawReset b) : Joins tolerance anchors rawReset rawReset

theorem resolveResetAnchorLinear_joins (anchors : List ℚ) (rawReset : ℚ) (tolerance : Nat) :
    Joins tolerance anchors rawReset (resolveResetAnchorLinear anchors rawReset tolerance) := by
  rw [resolveResetAnchorLinear, foldl_nearerAnchor]
  cases h : Least.least (nearness rawReset) (anchors.filter fun a => WithinTolerance tolerance rawReset a) with
  | none =>
    rw [Least.least_eq_none, List.filter_eq_nil_iff] at h
    refine .probe fun b hb => ?_
    simpa using h b hb
  | some a =>
    obtain ⟨ha, hw⟩ := List.mem_filter.1 (Least.least_mem h)
    rw [decide_eq_true_eq] at hw
    have hle : ∀ b ∈ anchors, WithinTolerance tolerance rawReset b → nearness rawReset a ≤ nearness rawReset b :=
      fun b hb hb' => Least.least_le h (List.mem_filter.2 ⟨hb, decide_eq_true hb'⟩)
    refine .anchor ha hw (fun b hb => ?_) (fun b hb heq => ?_)
    · by_cases hb' : WithinTolerance tolerance rawReset b
      · rcases Prod.Lex.le_iff.1 (hle b hb hb') with hlt | ⟨heq, -⟩
        · exact hlt.le
        · exact heq.le
      · exact hw.trans (not_le.1 hb').le
    · have hb' : WithinTolerance tolerance rawReset b := heq.le.trans hw
      rcases Prod.Lex.le_iff.1 (hle b hb hb') with hlt | ⟨-, hab⟩
      · exact absurd heq.symm hlt.ne
      · exact hab

end

/-! ## The three buckets -/

namespace ResetAnchorIndex

section
variable {tolerance : Nat} {positive : 0 < tolerance} {rawReset : ℚ} {anchors : List ℚ} {s : ResetAnchorIndex}

theorem bucketOf_within (ht : 0 < tolerance) {x y : ℚ} (h : WithinTolerance tolerance x y) :
    bucketOf tolerance x - 1 ≤ bucketOf tolerance y ∧ bucketOf tolerance y ≤ bucketOf tolerance x + 1 := by
  have hpos : (0 : ℚ) < tolerance := by exact_mod_cast ht
  obtain ⟨hlo, hhi⟩ := abs_le.1 h
  have hback : x / tolerance - 1 ≤ y / tolerance := by
    rw [← div_self hpos.ne', ← sub_div]
    exact div_le_div_of_nonneg_right (by linarith) hpos.le
  have hforth : y / tolerance ≤ x / tolerance + 1 := by
    rw [← div_self hpos.ne', ← add_div]
    exact div_le_div_of_nonneg_right (by linarith) hpos.le
  constructor
  · rw [bucketOf, ← Int.floor_sub_one]
    exact Int.floor_le_floor hback
  · rw [bucketOf, bucketOf, ← Int.floor_add_one]
    exact Int.floor_le_floor hforth

structure Indexes (s : ResetAnchorIndex) (anchors : List ℚ) : Prop where
  mem_bucket : ∀ b a, a ∈ s.bucket b ↔ a ∈ anchors ∧ bucketOf s.tolerance a = b
  mem_order : ∀ a, a ∈ s.order ↔ a ∈ anchors
  nodup : s.order.Nodup

theorem indexes_empty (positive : 0 < tolerance) : (empty tolerance positive).Indexes [] := by
  refine ⟨fun b a => ?_, fun a => Iff.rfl, List.nodup_nil⟩
  simp [bucket, empty]

@[simp] theorem add_tolerance (s : ResetAnchorIndex) (anchor : ℚ) : (s.add anchor).1.tolerance = s.tolerance := by
  simp only [add]
  split <;> rfl

@[simp] theorem bucket_opened (s : ResetAnchorIndex) (b b' : Int) : (s.opened b).bucket b' = s.bucket b' := by
  rw [opened, bucket, bucket, Dict.get?_setdefault]
  cases s.buckets.get? b' with
  | none => split <;> rfl
  | some held => rfl

theorem bucket_add (s : ResetAnchorIndex) (anchor : ℚ) (b : Int) : (s.add anchor).1.bucket b =
    if b = bucketOf s.tolerance anchor ∧ anchor ∉ s.bucket b then s.bucket b ++ [anchor] else s.bucket b := by
  simp only [add, bucket_opened]
  by_cases ha : anchor ∈ s.bucket (bucketOf s.tolerance anchor)
  · rw [if_pos ha, if_neg, bucket_opened]
    intro ⟨hb, hn⟩
    exact hn (hb ▸ ha)
  · rw [if_neg ha, bucket, Dict.get?_set]
    by_cases hb : bucketOf s.tolerance anchor = b
    · subst hb
      rw [if_pos rfl, if_pos ⟨rfl, ha⟩]
      rfl
    · rw [if_neg hb, if_neg fun h => hb h.1.symm]
      exact bucket_opened s _ b

theorem order_add (s : ResetAnchorIndex) (anchor : ℚ) : (s.add anchor).1.order =
    if anchor ∈ s.bucket (bucketOf s.tolerance anchor) then s.order else s.order ++ [anchor] := by
  simp only [add, bucket_opened]
  by_cases ha : anchor ∈ s.bucket (bucketOf s.tolerance anchor)
  · rw [if_pos ha, if_pos ha]
    rfl
  · rw [if_neg ha, if_neg ha]
    rfl

theorem Indexes.mem (h : s.Indexes anchors) {anchor : ℚ} :
    anchor ∈ s.bucket (bucketOf s.tolerance anchor) ↔ anchor ∈ anchors := by
  rw [h.mem_bucket]
  exact and_iff_left rfl

theorem Indexes.add (h : s.Indexes anchors) (anchor : ℚ) : (s.add anchor).1.Indexes (anchors ++ [anchor]) := by
  refine ⟨fun b a => ?_, fun a => ?_, ?_⟩
  · rw [bucket_add, add_tolerance, List.mem_append, List.mem_singleton]
    by_cases hb : b = bucketOf s.tolerance anchor ∧ anchor ∉ s.bucket b
    · rw [if_pos hb, List.mem_append, List.mem_singleton, h.mem_bucket b a]
      constructor
      · intro ha
        rcases ha with ⟨ha, hab⟩ | rfl
        · exact ⟨Or.inl ha, hab⟩
        · exact ⟨Or.inr rfl, hb.1.symm⟩
      · intro ⟨ha, hab⟩
        rcases ha with ha | rfl
        · exact Or.inl ⟨ha, hab⟩
        · exact Or.inr rfl
    · rw [if_neg hb, h.mem_bucket b a]
      constructor
      · intro ⟨ha, hab⟩
        exact ⟨Or.inl ha, hab⟩
      · intro ⟨ha, hab⟩
        rcases ha with ha | rfl
        · exact ⟨ha, hab⟩
        · have hmem : a ∈ s.bucket b := by
            by_contra hn
            exact hb ⟨hab.symm, hn⟩
          exact (h.mem_bucket b a).1 hmem
  · rw [order_add, List.mem_append, List.mem_singleton]
    by_cases ha : anchor ∈ anchors
    · rw [if_pos (h.mem.2 ha), h.mem_order]
      constructor
      · exact Or.inl
      · intro hor
        rcases hor with hmem | rfl
        · exact hmem
        · exact ha
    · rw [if_neg (mt h.mem.1 ha), List.mem_append, List.mem_singleton, h.mem_order]
  · rw [order_add]
    by_cases ha : anchor ∈ anchors
    · rw [if_pos (h.mem.2 ha)]
      exact h.nodup
    · rw [if_neg (mt h.mem.1 ha), ← List.concat_eq_append]
      exact h.nodup.concat (mt (h.mem_order anchor).1 ha)

theorem Indexes.addAll : ∀ {more anchors : List ℚ} {s : ResetAnchorIndex}, s.Indexes anchors →
    (s.addAll more).Indexes (anchors ++ more)
  | [], anchors, s, h => by
    rw [List.append_nil]
    exact h
  | a :: more, anchors, s, h => by
    have : ((s.add a).1.addAll more).Indexes (anchors ++ [a] ++ more) := Indexes.addAll (h.add a)
    rwa [List.append_assoc] at this

theorem tolerance_addAll (s : ResetAnchorIndex) (anchors : List ℚ) : (s.addAll anchors).tolerance = s.tolerance := by
  induction anchors generalizing s with
  | nil => rfl
  | cons a anchors ih => exact (ih (s.add a).1).trans (s.add_tolerance a)

theorem resolve_eq (s : ResetAnchorIndex) (rawReset : ℚ) : s.resolve rawReset =
    (([-1, 0, 1].flatMap fun offset => s.bucket (bucketOf s.tolerance rawReset + offset)).foldl
      (nearerAnchor s.tolerance rawReset) none).getD rawReset := by
  rw [resolve, List.foldl_flatMap]

theorem Indexes.resolve (h : s.Indexes anchors) (rawReset : ℚ) :
    s.resolve rawReset = resolveResetAnchorLinear anchors rawReset s.tolerance := by
  rw [resolve_eq, resolveResetAnchorLinear, foldl_nearerAnchor, foldl_nearerAnchor]
  refine congrArg (fun best : Option ℚ => best.getD rawReset) ?_
  apply Least.least_congr
  · intro a
    simp only [List.mem_filter, List.mem_flatMap, decide_eq_true_eq, h.mem_bucket _ a]
    constructor
    · intro ⟨⟨_, _, ha, _⟩, hw⟩
      exact ⟨ha, hw⟩
    · intro ⟨ha, hw⟩
      obtain ⟨hlo, hhi⟩ := bucketOf_within s.positive hw
      refine ⟨⟨bucketOf s.tolerance a - bucketOf s.tolerance rawReset, ?_, ha, by omega⟩, hw⟩
      simp only [List.mem_cons, List.not_mem_nil, or_false]
      omega
  · intro x _ y _ hxy
    exact nearness_injective hxy

/-- **The index is exact**: it answers as the scan over the anchors that were added. -/
theorem resolve_exact (tolerance : Nat) (positive : 0 < tolerance) (anchors : List ℚ) (rawReset : ℚ) :
    ((empty tolerance positive).addAll anchors).resolve rawReset =
      resolveResetAnchorLinear anchors rawReset tolerance ∧
    Joins tolerance anchors rawReset (((empty tolerance positive).addAll anchors).resolve rawReset) := by
  have h : ((empty tolerance positive).addAll anchors).Indexes ([] ++ anchors) := (indexes_empty positive).addAll
  have heq := h.resolve rawReset
  rw [List.nil_append, tolerance_addAll] at heq
  refine ⟨heq, ?_⟩
  rw [heq]
  exact resolveResetAnchorLinear_joins anchors rawReset tolerance

theorem resolve_exact_tie : ((empty 600 (by decide)).addAll [600, -600]).resolve 0 = -600 := by
  rw [(resolve_exact 600 (by decide) [600, -600] 0).1]
  decide +kernel

end

end ResetAnchorIndex

end Cctally
