import Mathlib.Data.List.Sort
import Mathlib.Order.Basic

/-!
# The first least member of a list

A scan holds the best member so far and changes it for a strictly better one.
It ends with the first member whose key is least, which is also the first that a
stable sort by the key puts in front.
-/

namespace Least

section
variable {α β κ κ' : Type*} [LinearOrder κ] [LinearOrder κ'] (key : α → κ)

def better (best : Option α) (a : α) : Option α :=
  match best with
  | none => some a
  | some b => if key a < key b then some a else some b

def least (l : List α) : Option α := l.foldl (better key) none

def orBetter (a : α) : Option α → α
  | none => a
  | some b => if key b < key a then b else a

variable {key} {l l' : List α} {a b c : α}

theorem foldl_better : ∀ (l : List α) (a : α), l.foldl (better key) (some a) = some (orBetter key a (least key l))
  | [], _ => rfl
  | b :: l, a => by
    have hb : least key (b :: l) = some (orBetter key b (least key l)) := foldl_better l b
    rw [hb, List.foldl_cons, better]
    by_cases hlt : key b < key a
    · rw [if_pos hlt, foldl_better l b]
      cases hl : least key l with
      | none => exact congrArg some (if_pos hlt).symm
      | some c =>
        by_cases hc : key c < key b
        · simp only [orBetter, if_pos hc, if_pos (hc.trans hlt)]
        · simp only [orBetter, if_neg hc, if_pos hlt]
    · rw [if_neg hlt, foldl_better l a]
      cases hl : least key l with
      | none => exact congrArg some (if_neg hlt).symm
      | some c =>
        by_cases hc : key c < key b
        · simp only [orBetter, if_pos hc]
        · have hca : ¬ key c < key a := fun h => hc (lt_of_lt_of_le h (not_lt.1 hlt))
          simp only [orBetter, if_neg hc, if_neg hca, if_neg hlt]

@[simp] theorem least_nil : least key [] = none := rfl

theorem least_cons (a : α) (l : List α) : least key (a :: l) = some (orBetter key a (least key l)) :=
  foldl_better l a

theorem least_eq_none : least key l = none ↔ l = [] := by
  cases l with
  | nil => simp
  | cons a l => simp [least_cons]

theorem least_spec : ∀ {l : List α} {a : α}, least key l = some a → a ∈ l ∧ ∀ b ∈ l, key a ≤ key b
  | [], a, h => by cases h
  | c :: l, a, h => by
    rw [least_cons, Option.some.injEq] at h
    subst h
    cases hl : least key l with
    | none =>
      rw [least_eq_none] at hl
      subst hl
      simp [orBetter]
    | some d =>
      obtain ⟨hd, hle⟩ := least_spec hl
      by_cases hlt : key d < key c
      · simp only [orBetter, if_pos hlt]
        refine ⟨List.mem_cons_of_mem _ hd, List.forall_mem_cons.2 ⟨hlt.le, hle⟩⟩
      · simp only [orBetter, if_neg hlt]
        refine ⟨List.mem_cons_self .., List.forall_mem_cons.2 ⟨le_refl _, fun b hb => ?_⟩⟩
        exact (not_lt.1 hlt).trans (hle b hb)

theorem least_mem (h : least key l = some a) : a ∈ l := (least_spec h).1

theorem least_le (h : least key l = some a) (hb : b ∈ l) : key a ≤ key b := (least_spec h).2 b hb

/-- **The answer depends on the members only**, as far as those of one key look the same. -/
theorem map_least_congr (f : α → β) (hl : ∀ a, a ∈ l ↔ a ∈ l')
    (hf : ∀ a ∈ l, ∀ b ∈ l, key a = key b → f a = f b) : (least key l).map f = (least key l').map f := by
  cases h : least key l with
  | none =>
    rw [least_eq_none] at h
    subst h
    have hnil : l' = [] := List.eq_nil_iff_forall_not_mem.2 fun a ha => by simpa using (hl a).2 ha
    rw [hnil]
    rfl
  | some a =>
    cases h' : least key l' with
    | none =>
      rw [least_eq_none] at h'
      subst h'
      exact absurd ((hl a).1 (least_mem h)) (by simp)
    | some b =>
      have hb : b ∈ l := (hl b).2 (least_mem h')
      have hkey := le_antisymm (least_le h hb) (least_le h' ((hl a).1 (least_mem h)))
      rw [Option.map_some, Option.map_some, hf a (least_mem h) b hb hkey]

theorem least_congr (hl : ∀ a, a ∈ l ↔ a ∈ l') (hf : ∀ a ∈ l, ∀ b ∈ l, key a = key b → a = b) :
    least key l = least key l' := by
  simpa using map_least_congr id hl hf

theorem least_eq_some (hinj : ∀ a ∈ l, ∀ b ∈ l, key a = key b → a = b) :
    least key l = some a ↔ a ∈ l ∧ ∀ b ∈ l, key a ≤ key b := by
  constructor
  · exact least_spec
  · rintro ⟨ha, hle⟩
    cases h : least key l with
    | none =>
      rw [least_eq_none.1 h] at ha
      cases ha
    | some b =>
      obtain ⟨hb, hle'⟩ := least_spec h
      rw [hinj b hb a ha (le_antisymm (hle' a ha) (hle b hb))]

theorem least_subset (hinj : ∀ a ∈ l, ∀ b ∈ l, key a = key b → a = b) (hsub : ∀ a ∈ l', a ∈ l) :
    least key l' = least key l ↔ ∀ a, least key l = some a → a ∈ l' := by
  constructor
  · intro h a ha
    exact (least_spec (h.trans ha)).1
  · intro h
    cases hl : least key l with
    | none =>
      rw [least_eq_none] at hl ⊢
      subst hl
      exact List.eq_nil_iff_forall_not_mem.2 fun a ha => by cases hsub a ha
    | some a =>
      have hinj' : ∀ b ∈ l', ∀ c ∈ l', key b = key c → b = c := fun b hb c hc => hinj b (hsub b hb) c (hsub c hc)
      exact (least_eq_some hinj').2 ⟨h a hl, fun b hb => least_le hl (hsub b hb)⟩

variable {p : α → Bool}

theorem find?_orderedInsert (a : α) : ∀ {l : List α}, l.Pairwise (fun a b => key a ≤ key b) →
    (l.orderedInsert (fun a b => key a ≤ key b) a).find? p =
      if p a then some (orBetter key a (l.find? p)) else l.find? p
  | [], _ => by
    by_cases ha : p a = true
    · simp [ha, orBetter]
    · simp [ha]
  | b :: l, hs => by
    obtain ⟨hb, hs⟩ := List.pairwise_cons.1 hs
    rw [List.orderedInsert_cons]
    by_cases hab : key a ≤ key b
    · rw [if_pos hab, List.find?_cons]
      by_cases ha : p a = true
      · -- what is found behind `a` is not below it
        have hkeep : orBetter key a ((b :: l).find? p) = a := by
          cases hf : (b :: l).find? p with
          | none => rfl
          | some c =>
            have hc : key a ≤ key c := by
              rcases List.mem_cons.1 (List.mem_of_find?_eq_some hf) with rfl | hc
              · exact hab
              · exact hab.trans (hb c hc)
            simp only [orBetter, if_neg (not_lt.2 hc)]
        simp only [ha, if_true, hkeep]
      · simp only [ha]
        rfl
    · rw [if_neg hab, List.find?_cons, List.find?_cons, find?_orderedInsert a hs]
      by_cases hpb : p b = true
      · simp only [hpb, orBetter, if_pos (not_le.1 hab), ite_self]
      · simp only [hpb]

theorem find?_insertionSort : ∀ l : List α,
    (l.insertionSort fun a b => key a ≤ key b).find? p = least key (l.filter p)
  | [] => rfl
  | a :: l => by
    have : Std.Total fun a b : α => key a ≤ key b := ⟨fun a b => le_total _ _⟩
    have : IsTrans α fun a b => key a ≤ key b := ⟨fun _ _ _ => le_trans⟩
    rw [List.insertionSort_cons, find?_orderedInsert a (List.pairwise_insertionSort _ l), find?_insertionSort l]
    by_cases ha : p a = true
    · rw [if_pos ha, List.filter_cons_of_pos ha, least_cons]
    · rw [if_neg ha, List.filter_cons_of_neg ha]

theorem find?_of_pairwise {l l' : List α} (hs : l.Pairwise fun a b => key a ≤ key b) (hl : ∀ a, a ∈ l ↔ a ∈ l')
    (hinj : ∀ a ∈ l, ∀ b ∈ l, key a = key b → a = b) : l.find? p = least key (l'.filter p) := by
  have hsorted : l.insertionSort (fun a b => key a ≤ key b) = l := hs.insertionSort_eq
  rw [← hsorted, find?_insertionSort]
  refine least_congr (fun a => ?_) fun a ha b hb => hinj a (List.mem_of_mem_filter ha) b (List.mem_of_mem_filter hb)
  rw [List.mem_filter, List.mem_filter, hl]

theorem least_map (f : β → α) : ∀ l : List β, least key (l.map f) = (least (fun b => key (f b)) l).map f
  | [] => rfl
  | b :: l => by
    rw [List.map_cons, least_cons, least_cons, least_map f l]
    cases least (fun b => key (f b)) l with
    | none => rfl
    | some c => exact congrArg some (apply_ite f (key (f c) < key (f b)) c b).symm

theorem foldl_better_congr {key' : α → κ'} : ∀ {l : List α} {a : α},
    (a :: l).Pairwise (fun a b => key b < key a ↔ key' b < key' a) →
    l.foldl (better key) (some a) = l.foldl (better key') (some a)
  | [], _, _ => rfl
  | b :: l, a, h => by
    obtain ⟨ha, hbl⟩ := List.pairwise_cons.1 h
    obtain ⟨-, hl⟩ := List.pairwise_cons.1 hbl
    have hab := ha b (List.mem_cons_self ..)
    rw [List.foldl_cons, List.foldl_cons, better, better]
    by_cases hlt : key b < key a
    · rw [if_pos hlt, if_pos (hab.1 hlt)]
      exact foldl_better_congr hbl
    · rw [if_neg hlt, if_neg fun h' => hlt (hab.2 h')]
      exact foldl_better_congr (List.pairwise_cons.2 ⟨fun c hc => ha c (List.mem_cons_of_mem _ hc), hl⟩)

theorem least_congr_key {key' : α → κ'} {l : List α}
    (h : l.Pairwise fun a b => key b < key a ↔ key' b < key' a) : least key l = least key' l := by
  cases l with
  | nil => rfl
  | cons a l => exact foldl_better_congr h

theorem pairwise_insertionSort_lt {l : List α} (h : (l.map key).Nodup) :
    (l.insertionSort fun a b => key a ≤ key b).Pairwise fun a b => key a < key b := by
  have : Std.Total fun a b : α => key a ≤ key b := ⟨fun a b => le_total _ _⟩
  have : IsTrans α fun a b => key a ≤ key b := ⟨fun _ _ _ => le_trans⟩
  have hnodup := ((List.perm_insertionSort (fun a b => key a ≤ key b) l).map key).nodup_iff.2 h
  exact ((List.pairwise_insertionSort _ l).and (List.pairwise_map.1 hnodup)).imp fun hab => lt_of_le_of_ne hab.1 hab.2

end

end Least
