import Mathlib.Data.List.Basic

/-!
# Lines and the torn tail

A byte list is its complete lines, each ending in the newline, and a tail without one. The
last newline of a window at its end is found there as soon as the tail is shorter.
-/

namespace TornLines

variable {α : Type*} [DecidableEq α] (nl : α)

def rfind : List α → Option Nat
  | [] => none
  | x :: xs =>
    match rfind xs with
    | some i => some (i + 1)
    | none => if x = nl then some 0 else none

def lines : List α → List (List α)
  | [] => []
  | x :: xs =>
    if x = nl then [x] :: lines xs
    else
      match lines xs with
      | [] => []
      | l :: ls => (x :: l) :: ls

def IsLine (l : List α) : Prop := ∃ body, nl ∉ body ∧ l = body ++ [nl]

variable {nl}

theorem rfind_eq_none {l : List α} (h : nl ∉ l) : rfind nl l = none := by
  induction l with
  | nil => rfl
  | cons x xs ih =>
    rw [List.mem_cons, not_or] at h
    rw [rfind, ih h.2]
    exact if_neg (Ne.symm h.1)

theorem rfind_snoc (c : List α) {t : List α} (h : nl ∉ t) : rfind nl (c ++ nl :: t) = some c.length := by
  induction c with
  | nil =>
    rw [List.nil_append, rfind, rfind_eq_none h]
    exact if_pos rfl
  | cons x c ih => rw [List.cons_append, rfind, ih, List.length_cons]

/-! ## Lines -/

theorem lines_eq_nil {t : List α} (h : nl ∉ t) : lines nl t = [] := by
  induction t with
  | nil => rfl
  | cons x xs ih =>
    rw [List.mem_cons, not_or] at h
    rw [lines, if_neg (Ne.symm h.1), ih h.2]

theorem lines_cons {l : List α} (h : IsLine nl l) (rest : List α) : lines nl (l ++ rest) = l :: lines nl rest := by
  obtain ⟨body, hclean, rfl⟩ := h
  induction body with
  | nil => exact if_pos rfl
  | cons x body ih =>
    rw [List.mem_cons, not_or] at hclean
    rw [List.cons_append, List.cons_append, lines, if_neg (Ne.symm hclean.1), ih hclean.2]

theorem lines_flatten {ls : List (List α)} (h : ∀ l ∈ ls, IsLine nl l) (rest : List α) :
    lines nl (ls.flatten ++ rest) = ls ++ lines nl rest := by
  induction ls with
  | nil => rfl
  | cons l ls ih =>
    rw [List.flatten_cons, List.append_assoc, lines_cons (h l List.mem_cons_self),
      ih fun l' hl' => h l' (List.mem_cons_of_mem _ hl'), List.cons_append]

theorem eq_flatten_append (nl : α) (l : List α) :
    ∃ t, nl ∉ t ∧ (∀ x ∈ lines nl l, IsLine nl x) ∧ l = (lines nl l).flatten ++ t := by
  induction l with
  | nil => exact ⟨[], List.not_mem_nil, nofun, rfl⟩
  | cons x xs ih =>
    obtain ⟨t, hclean, hlines, heq⟩ := ih
    by_cases hx : x = nl
    · subst hx
      refine ⟨t, hclean, fun l hl => ?_, ?_⟩
      · rw [lines, if_pos rfl] at hl
        rcases List.mem_cons.1 hl with rfl | hl
        · exact ⟨[], List.not_mem_nil, rfl⟩
        · exact hlines l hl
      · rw [lines, if_pos rfl, List.flatten_cons, List.append_assoc, ← heq, List.singleton_append]
    · cases hls : lines nl xs with
      | nil =>
        rw [hls, List.flatten_nil, List.nil_append] at heq
        refine ⟨x :: t, ?_, fun l hl => ?_, ?_⟩
        · rw [List.mem_cons, not_or]
          exact ⟨Ne.symm hx, hclean⟩
        · rw [lines, if_neg hx, hls] at hl
          cases hl
        · rw [lines, if_neg hx, hls, heq, List.flatten_nil, List.nil_append]
      | cons l ls =>
        rw [hls] at hlines heq
        refine ⟨t, hclean, fun k hk => ?_, ?_⟩
        · rw [lines, if_neg hx, hls] at hk
          rcases List.mem_cons.1 hk with rfl | hk
          · obtain ⟨body, hbody, rfl⟩ := hlines l List.mem_cons_self
            refine ⟨x :: body, ?_, rfl⟩
            rw [List.mem_cons, not_or]
            exact ⟨Ne.symm hx, hbody⟩
          · exact hlines k (List.mem_cons_of_mem _ hk)
        · rw [lines, if_neg hx, hls]
          simp only [List.flatten_cons, List.cons_append]
          rw [List.flatten_cons] at heq
          rw [← heq]

theorem lines_of_eq {ls : List (List α)} {t : List α} (h : ∀ l ∈ ls, IsLine nl l) (ht : nl ∉ t) :
    lines nl (ls.flatten ++ t) = ls := by
  rw [lines_flatten h, lines_eq_nil ht, List.append_nil]

omit [DecidableEq α] in
theorem flatten_eq_nil_or_snoc {ls : List (List α)} (h : ∀ l ∈ ls, IsLine nl l) :
    ls.flatten = [] ∨ ∃ c, ls.flatten = c ++ [nl] := by
  rcases ls.eq_nil_or_concat with rfl | ⟨init, last, rfl⟩
  · exact .inl rfl
  · right
    rw [List.concat_eq_append] at h ⊢
    obtain ⟨body, _, hbody⟩ := h last (List.mem_append_right _ List.mem_cons_self)
    refine ⟨init.flatten ++ body, ?_⟩
    rw [List.flatten_append, hbody, List.flatten_singleton, List.append_assoc]

theorem rfind_drop {ls : List (List α)} {t : List α} (h : ∀ l ∈ ls, IsLine nl l) (ht : nl ∉ t) {k : Nat}
    (hk : k < ls.flatten.length) :
    rfind nl ((ls.flatten ++ t).drop k) = some (ls.flatten.length - k - 1) := by
  rcases flatten_eq_nil_or_snoc h with hnil | ⟨c, hc⟩
  · rw [hnil] at hk
    cases hk
  · rw [hc, List.length_append, List.length_singleton] at hk ⊢
    have hle : k ≤ c.length := by omega
    rw [List.append_assoc, List.drop_append_of_le_length hle, List.singleton_append, rfind_snoc _ ht, List.length_drop]
    congr 1
    omega

theorem rfind_drop_eq (l : List α) (k : Nat) :
    rfind nl (l.drop k) =
      if k < (lines nl l).flatten.length then some ((lines nl l).flatten.length - k - 1) else none := by
  obtain ⟨t, hclean, hlines, heq⟩ := eq_flatten_append nl l
  generalize hw : (lines nl l).flatten = w at heq
  split
  next hk =>
    have hfound := rfind_drop hlines hclean (hw ▸ hk)
    rwa [hw, ← heq] at hfound
  next hk =>
    rw [heq, List.drop_append, List.drop_eq_nil_of_le (Nat.le_of_not_lt hk), List.nil_append]
    exact rfind_eq_none fun hmem => hclean (List.mem_of_mem_drop hmem)

theorem eq_flatten_of_getLast? {l : List α} (h : l.getLast? = some nl) : (lines nl l).flatten = l := by
  obtain ⟨t, hclean, _, heq⟩ := eq_flatten_append nl l
  have hnil : t = [] := by
    rcases t.eq_nil_or_concat with rfl | ⟨init, x, rfl⟩
    · rfl
    · rw [List.concat_eq_append] at heq hclean
      rw [heq, ← List.append_assoc, List.getLast?_append] at h
      obtain rfl : x = nl := Option.some.inj h
      exact absurd (List.mem_append_right _ List.mem_cons_self) hclean
  rw [hnil, List.append_nil] at heq
  exact heq.symm

def within : Nat → List (List α) → List (List α)
  | _, [] => []
  | n, l :: ls => if l.length ≤ n then l :: within (n - l.length) ls else []

omit [DecidableEq α] in
theorem mem_of_mem_within {l : List α} : ∀ {n : Nat} {ls : List (List α)}, l ∈ within n ls → l ∈ ls
  | _, [], h => nomatch h
  | n, k :: ls, h => by
    rw [within] at h
    split at h
    · rcases List.mem_cons.1 h with rfl | h
      · exact List.mem_cons_self
      · exact List.mem_cons_of_mem _ (mem_of_mem_within h)
    · cases h

omit [DecidableEq α] in
theorem take_flatten {ls : List (List α)} (h : ∀ l ∈ ls, IsLine nl l) {bound : Nat} (hpos : 0 < bound)
    (hbound : ∀ l ∈ ls, l.length ≤ bound) (n : Nat) :
    ∃ t, nl ∉ t ∧ t.length < bound ∧ ls.flatten.take n = (within n ls).flatten ++ t := by
  induction ls generalizing n with
  | nil => exact ⟨[], List.not_mem_nil, hpos, List.take_nil⟩
  | cons l ls ih =>
    rw [List.flatten_cons, within]
    by_cases hfits : l.length ≤ n
    · obtain ⟨t, hclean, hlen, heq⟩ := ih (fun l' hl' => h l' (List.mem_cons_of_mem _ hl'))
        (fun l' hl' => hbound l' (List.mem_cons_of_mem _ hl')) (n - l.length)
      refine ⟨t, hclean, hlen, ?_⟩
      rw [if_pos hfits, List.take_append, List.take_of_length_le hfits, heq, List.flatten_cons, List.append_assoc]
    · obtain ⟨body, hbody, rfl⟩ := h l List.mem_cons_self
      rw [List.length_append, List.length_singleton] at hfits
      refine ⟨body.take n, fun hmem => hbody (List.mem_of_mem_take hmem), ?_, ?_⟩
      · have hle := hbound _ List.mem_cons_self
        rw [List.length_append, List.length_singleton] at hle
        rw [List.length_take]
        omega
      · have hlong : ¬ (body ++ [nl]).length ≤ n := by
          rw [List.length_append, List.length_singleton]
          exact hfits
        rw [if_neg hlong, List.append_assoc, List.take_append_of_le_length (by omega)]
        rfl

def Cut (nl : α) (l : List α) (n : Nat) : Prop := ∃ ls, ls <+: lines nl l ∧ ls.flatten.length = n

theorem cut_zero (l : List α) : Cut nl l 0 := ⟨[], List.nil_prefix, rfl⟩

theorem cut_all (l : List α) : Cut nl l (lines nl l).flatten.length := ⟨_, List.prefix_rfl, rfl⟩

theorem isLine_of_mem {l x : List α} (h : x ∈ lines nl l) : IsLine nl x := by
  obtain ⟨_, _, hlines, _⟩ := eq_flatten_append nl l
  exact hlines x h

theorem take_leading {l : List α} {ls : List (List α)} (h : ls <+: lines nl l) : l.take ls.flatten.length = ls.flatten := by
  obtain ⟨ms, hms⟩ := h
  obtain ⟨t, _, _, heq⟩ := eq_flatten_append nl l
  rw [← hms, List.flatten_append, List.append_assoc] at heq
  conv_lhs => rw [heq]
  exact List.take_left

theorem lines_leading {l : List α} {ls : List (List α)} (h : ls <+: lines nl l) : lines nl ls.flatten = ls := by
  have hlines := lines_of_eq (fun x hx => isLine_of_mem (h.subset hx)) (List.not_mem_nil : nl ∉ ([] : List α))
  rwa [List.append_nil] at hlines

theorem Cut.le_length {l : List α} {n : Nat} (h : Cut nl l n) : n ≤ l.length := by
  obtain ⟨ls, hls, rfl⟩ := h
  rw [← take_leading hls]
  exact List.length_take_le' _ _

theorem Cut.grow {l l' : List α} {n : Nat} (h : Cut nl l n) (hle : lines nl l <+: lines nl l') :
    Cut nl l' n ∧ l'.take n = l.take n := by
  obtain ⟨ls, hls, rfl⟩ := h
  exact ⟨⟨ls, hls.trans hle, rfl⟩, by rw [take_leading (hls.trans hle), take_leading hls]⟩

theorem Cut.lines_take {l : List α} {m n : Nat} (hm : Cut nl l m) (hn : Cut nl l n) (hle : m ≤ n) :
    lines nl (l.take n) = lines nl (l.take m) ++ lines nl ((l.take n).drop m) := by
  obtain ⟨ls, hls, rfl⟩ := hm
  obtain ⟨ks, hks, rfl⟩ := hn
  rw [take_leading hls, take_leading hks]
  rcases List.prefix_or_prefix_of_prefix hls hks with ⟨ms, rfl⟩ | ⟨ms, rfl⟩
  · rw [List.flatten_append, List.drop_left, lines_flatten fun x hx => isLine_of_mem (hls.subset hx),
      lines_leading hls]
  · have hnil : ms.flatten = [] := by
      rw [List.flatten_append, List.length_append] at hle
      exact List.length_eq_zero_iff.1 (by omega)
    rw [List.flatten_append, hnil, List.append_nil, List.drop_length, lines, List.append_nil]

def glue (t : List α) : List (List α) → List (List α)
  | [] => []
  | l :: ls => (t ++ l) :: ls

theorem lines_torn {t : List α} (h : nl ∉ t) (v : List α) : lines nl (t ++ v) = glue t (lines nl v) := by
  induction t with
  | nil =>
    rw [List.nil_append]
    cases lines nl v <;> rfl
  | cons x t ih =>
    rw [List.mem_cons, not_or] at h
    rw [List.cons_append, lines, if_neg (Ne.symm h.1), ih h.2]
    cases lines nl v <;> rfl

theorem lines_append {u t : List α} (hu : u = (lines nl u).flatten ++ t) (ht : nl ∉ t) (v : List α) :
    lines nl (u ++ v) = lines nl u ++ glue t (lines nl v) := by
  have hlines : ∀ x ∈ lines nl u, IsLine nl x := fun x hx => isLine_of_mem hx
  conv_lhs => rw [hu, List.append_assoc, lines_flatten hlines, lines_torn ht]

theorem lines_append_torn {u t : List α} (ht : nl ∉ t) : lines nl (u ++ t) = lines nl u := by
  obtain ⟨torn, hclean, -, heq⟩ := eq_flatten_append nl u
  rw [lines_append heq hclean, lines_eq_nil ht, glue, List.append_nil]

theorem flatten_lines_append {u v : List α} (h : lines nl v ≠ []) :
    (lines nl (u ++ v)).flatten = u ++ (lines nl v).flatten := by
  obtain ⟨torn, hclean, -, heq⟩ := eq_flatten_append nl u
  rw [lines_append heq hclean, List.flatten_append]
  cases hv : lines nl v with
  | nil => exact absurd hv h
  | cons l ls =>
    rw [glue, List.flatten_cons, List.append_assoc, ← List.append_assoc, ← heq, List.flatten_cons]

theorem lines_flatten_lines (l : List α) : lines nl (lines nl l).flatten = lines nl l := by
  have h := lines_flatten (fun x (hx : x ∈ lines nl l) => isLine_of_mem hx) []
  rwa [List.append_nil, lines, List.append_nil] at h

theorem length_flatten_pos {l : List α} (h : lines nl l ≠ []) : 0 < (lines nl l).flatten.length := by
  obtain ⟨x, xs, hl⟩ := List.exists_cons_of_ne_nil h
  obtain ⟨body, -, rfl⟩ := isLine_of_mem (l := l) (x := x) (by rw [hl]; exact List.mem_cons_self)
  rw [hl, List.flatten_cons, List.length_append, List.length_append, List.length_singleton]
  omega

theorem rfind_eq (l : List α) :
    rfind nl l = if lines nl l = [] then none else some ((lines nl l).flatten.length - 1) := by
  have h := @rfind_drop_eq _ _ nl l 0
  rw [List.drop_zero] at h
  rw [h]
  by_cases hnil : lines nl l = []
  · rw [if_pos hnil, hnil]
    rfl
  · rw [if_pos (length_flatten_pos hnil), if_neg hnil, Nat.sub_zero]

theorem splitOn_eq (l : List α) : ∃ t, nl ∉ t ∧ l.splitOn nl = (lines nl l).map List.dropLast ++ [t] := by
  induction l with
  | nil => exact ⟨[], List.not_mem_nil, List.splitOn_nil nl⟩
  | cons x xs ih =>
    obtain ⟨t, ht, hsplit⟩ := ih
    rw [List.splitOn_cons_eq_if_modifyHead, hsplit]
    by_cases hx : x = nl
    · rw [if_pos (beq_iff_eq.2 hx), lines, if_pos hx]
      exact ⟨t, ht, rfl⟩
    · rw [if_neg (by simpa using hx), lines, if_neg hx]
      cases hl : lines nl xs with
      | nil =>
        refine ⟨x :: t, ?_, rfl⟩
        rw [List.mem_cons, not_or]
        exact ⟨Ne.symm hx, ht⟩
      | cons l ls =>
        refine ⟨t, ht, ?_⟩
        obtain ⟨body, -, rfl⟩ := isLine_of_mem (l := xs) (x := l) (by rw [hl]; exact List.mem_cons_self)
        have hlast : (x :: (body ++ [nl])).dropLast = x :: body := by rw [← List.cons_append, List.dropLast_concat]
        rw [List.map_cons, List.cons_append, List.modifyHead_cons, List.map_cons, List.cons_append, List.dropLast_concat, hlast]

end TornLines
