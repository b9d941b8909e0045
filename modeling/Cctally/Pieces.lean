import Mathlib.Data.List.Sort

/-!
# Intervals cut into pieces

Points inside a half-open interval cut it into one piece more than there are
points. Sorting keeps items of equal keys in their order, so the sorted list
depends on nothing but the items of each key.
-/

namespace Pieces

section
variable {α : Type*}

def pieces : α → List α → α → List (α × α)
  | a, [], b => [(a, b)]
  | a, c :: cs, b => (a, c) :: pieces c cs b

theorem length_pieces : ∀ (a : α) (cs : List α) (b : α), (pieces a cs b).length = cs.length + 1
  | _, [], _ => rfl
  | _, c :: cs, b => by rw [pieces, List.length_cons, length_pieces c cs b, List.length_cons]

theorem map_fst_pieces : ∀ (a : α) (cs : List α) (b : α), (pieces a cs b).map Prod.fst = a :: cs
  | _, [], _ => rfl
  | _, c :: cs, b => by rw [pieces, List.map_cons, map_fst_pieces c cs b]

theorem getLast_pieces : ∀ (a : α) (cs : List α) (b : α), (pieces a cs b).getLast?.bind (fun p => some p.2) = some b
  | _, [], _ => rfl
  | a, c :: cs, b => by
    have ih := getLast_pieces c cs b
    rw [pieces, List.getLast?_cons]
    cases h : (pieces c cs b).getLast? with
    | none => rw [h] at ih; cases ih
    | some p => rwa [h] at ih

section
variable [LinearOrder α]

def Inside (a : α) (cs : List α) (b : α) : Prop := (a :: cs).Pairwise (· < ·) ∧ ∀ c ∈ cs, c < b

theorem Inside.tail {a c : α} {cs : List α} {b : α} (h : Inside a (c :: cs) b) : Inside c cs b :=
  ⟨(List.pairwise_cons.1 h.1).2, fun x hx => h.2 x (List.mem_cons_of_mem c hx)⟩

theorem Inside.lt {a c : α} {cs : List α} {b : α} (h : Inside a (c :: cs) b) : a < c ∧ c < b :=
  ⟨(List.pairwise_cons.1 h.1).1 c List.mem_cons_self, h.2 c List.mem_cons_self⟩

theorem countP_pieces (t : α) : ∀ (a : α) (cs : List α) (b : α), Inside a cs b →
    (pieces a cs b).countP (fun p => p.1 ≤ t ∧ t < p.2) = if a ≤ t ∧ t < b then 1 else 0
  | a, [], b, _ => by
    rw [pieces, List.countP_singleton]
    simp only [decide_eq_true_eq]
  | a, c :: cs, b, h => by
    obtain ⟨hac, hcb⟩ := h.lt
    rw [pieces, List.countP_cons, countP_pieces t c cs b h.tail]
    simp only [decide_eq_true_eq]
    rcases lt_or_ge t c with ht | ht
    · have hno : ¬(c ≤ t ∧ t < b) := fun hc => absurd hc.1 (not_le.2 ht)
      rw [if_neg hno, Nat.zero_add]
      simp only [ht, and_true, lt_trans ht hcb]
    · have hno : ¬(a ≤ t ∧ t < c) := fun hc => absurd hc.2 (not_lt.2 ht)
      rw [if_neg hno, Nat.add_zero]
      simp only [ht, true_and, le_trans (le_of_lt hac) ht]

end

end

section
variable {α κ : Type*} [DecidableEq κ] (key : α → κ) (r : α → α → Prop)

theorem eq_of_pairwise (hr : ∀ a b, r a b → r b a → key a = key b) :
    ∀ {l l' : List α}, l.Pairwise r → l'.Pairwise r →
      (∀ e, l.filter (fun x => key x = e) = l'.filter fun x => key x = e) → l = l'
  | [], [], _, _, _ => rfl
  | [], b :: l', _, _, h => by simpa using h (key b)
  | a :: l, [], _, _, h => by simpa using h (key a)
  | a :: l, b :: l', hl, hl', h => by
    rw [List.pairwise_cons] at hl hl'
    have hmem : ∀ c, c ∈ a :: l ↔ c ∈ b :: l' := fun c => by
      have hclass := congrArg (c ∈ ·) (h (key c))
      simpa only [List.mem_filter, decide_true, and_true, eq_iff_iff] using hclass
    have hab : key a = key b := by
      rcases List.mem_cons.1 ((hmem a).1 List.mem_cons_self) with rfl | ha
      · rfl
      · rcases List.mem_cons.1 ((hmem b).2 List.mem_cons_self) with rfl | hb
        · rfl
        · exact hr a b (hl.1 b hb) (hl'.1 a ha)
    have hhead := h (key a)
    rw [List.filter_cons_of_pos (by simp), List.filter_cons_of_pos (by simp [hab])] at hhead
    obtain ⟨rfl, -⟩ := List.cons.inj hhead
    refine congrArg (a :: ·) (eq_of_pairwise hr hl.2 hl'.2 fun e => ?_)
    have he := h e
    rw [List.filter_cons, List.filter_cons] at he
    split at he
    · exact (List.cons.inj he).2
    · exact he

variable [DecidableRel r]

theorem filter_orderedInsert (hr : ∀ a b, key a = key b → r a b) (e : κ) (a : α) :
    ∀ l : List α, (l.orderedInsert r a).filter (fun x => key x = e) = (a :: l).filter fun x => key x = e
  | [] => rfl
  | b :: l => by
    rw [List.orderedInsert_cons]
    by_cases h : r a b
    · rw [if_pos h]
    · have hne : key a ≠ key b := fun heq => h (hr a b heq)
      rw [if_neg h, List.filter_cons, filter_orderedInsert hr e a l]
      by_cases hb : key b = e
      · have ha : key a ≠ e := fun ha => hne (ha.trans hb.symm)
        simp [hb, ha]
      · simp [List.filter_cons, hb]

theorem filter_insertionSort (hr : ∀ a b, key a = key b → r a b) (e : κ) :
    ∀ l : List α, (l.insertionSort r).filter (fun x => key x = e) = l.filter fun x => key x = e
  | [] => rfl
  | a :: l => by
    rw [List.insertionSort_cons, filter_orderedInsert key r hr, List.filter_cons, List.filter_cons,
      filter_insertionSort hr e l]

theorem insertionSort_eq [Std.Total r] [IsTrans α r] (hr : ∀ a b, key a = key b ↔ r a b ∧ r b a) {l l' : List α}
    (h : ∀ e, l.filter (fun x => key x = e) = l'.filter fun x => key x = e) :
    l.insertionSort r = l'.insertionSort r := by
  have hsame : ∀ a b, key a = key b → r a b := fun a b hab => ((hr a b).1 hab).1
  refine eq_of_pairwise key r (fun a b hab hba => (hr a b).2 ⟨hab, hba⟩) (List.pairwise_insertionSort r l)
    (List.pairwise_insertionSort r l') fun e => ?_
  rw [filter_insertionSort key r hsame, filter_insertionSort key r hsame, h e]

end

end Pieces
