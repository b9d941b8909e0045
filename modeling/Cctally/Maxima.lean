import Cctally.Dict
import Mathlib.Order.Bounds.Basic
import Mathlib.Order.WithBot

/-!
# Maxima in any order

A fold whose every step joins something to what a view shows of the state ends with the
join of it all, from wherever it began. A dictionary that keeps the greatest value of each
key is such a fold.
-/

namespace Cctally.Maxima

section
variable {σ β L : Type*} [SemilatticeSup L] [OrderBot L] {view : σ → L} {init : σ} {step : σ → β → σ}

structure Joins (view : σ → L) (init : σ) (step : σ → β → σ) : Prop where
  bottom : view init = ⊥
  adds : ∀ s x, view (step s x) = view s ⊔ view (step init x)

theorem Joins.foldl (h : Joins view init step) (s : σ) (xs : List β) :
    view (xs.foldl step s) = view s ⊔ view (xs.foldl step init) := by
  induction xs generalizing s with
  | nil => rw [List.foldl_nil, List.foldl_nil, h.bottom, sup_bot_eq]
  | cons x xs ih => rw [List.foldl_cons, List.foldl_cons, ih, h.adds, ih (step init x), sup_assoc]

theorem Joins.cons (h : Joins view init step) (x : β) (xs : List β) :
    view ((x :: xs).foldl step init) = view (step init x) ⊔ view (xs.foldl step init) := h.foldl (step init x) xs

theorem Joins.append (h : Joins view init step) (xs ys : List β) :
    view ((xs ++ ys).foldl step init) = view (xs.foldl step init) ⊔ view (ys.foldl step init) := by
  rw [List.foldl_append]
  exact h.foldl _ ys

theorem Joins.perm (h : Joins view init step) {xs ys : List β} (hp : xs.Perm ys) :
    view (xs.foldl step init) = view (ys.foldl step init) := by
  induction hp with
  | nil => rfl
  | cons x _ ih => rw [h.cons, h.cons, ih]
  | swap x y xs => rw [h.cons, h.cons, h.cons, h.cons, sup_left_comm]
  | trans _ _ ih ih' => exact ih.trans ih'

theorem Joins.le (h : Joins view init step) {x : β} {xs : List β} (hx : x ∈ xs) :
    view (step init x) ≤ view (xs.foldl step init) := by
  obtain ⟨pre, post, rfl⟩ := List.append_of_mem hx
  rw [h.append, h.cons]
  exact le_sup_left.trans le_sup_right

theorem Joins.comp {L' : Type*} [SemilatticeSup L'] [OrderBot L'] (h : Joins view init step) {f : L → L'}
    (hbot : f ⊥ = ⊥) (hsup : ∀ a b, f (a ⊔ b) = f a ⊔ f b) : Joins (f ∘ view) init step :=
  ⟨(congrArg f h.bottom).trans hbot, fun s x => (congrArg f (h.adds s x)).trans (hsup _ _)⟩

end

section
variable {σ β α : Type*} [LinearOrder α] {init : σ} {step : σ → β → σ}

theorem Joins.attained {view : σ → WithBot α} (h : Joins view init step) : ∀ xs : List β,
    view (xs.foldl step init) = ⊥ ∨ ∃ x ∈ xs, view (xs.foldl step init) = view (step init x)
  | [] => .inl h.bottom
  | x :: xs => by
    rw [h.cons]
    rcases le_total (view (xs.foldl step init)) (view (step init x)) with hle | hle
    · exact .inr ⟨x, List.mem_cons_self, sup_eq_left.2 hle⟩
    · rw [sup_eq_right.2 hle]
      rcases h.attained xs with hbot | ⟨y, hy, hview⟩
      · exact .inl hbot
      · exact .inr ⟨y, List.mem_cons_of_mem _ hy, hview⟩

end

section
variable {κ α σ β : Type*} [DecidableEq κ] [LinearOrder α] {init : σ} {step : σ → β → σ}

def later (previous : Option α) (v : α) : Option α :=
  match previous with
  | none => some v
  | some p => if p < v then some v else some p

theorem later_eq_some {previous : Option α} {v w : α} (h : later previous v = some w) : w = v ∨ previous = some w := by
  cases previous with
  | none => exact .inl (Option.some.inj h).symm
  | some p =>
    rw [later] at h
    split at h
    next => exact .inl (Option.some.inj h).symm
    next => exact .inr h

def bot (o : Option α) : WithBot α := o.elim ⊥ WithBot.some

theorem bot_later (previous : Option α) (v : α) : bot (later previous v) = bot previous ⊔ v := by
  cases previous with
  | none => exact (bot_sup_eq _).symm
  | some p =>
    rw [later]
    by_cases h : p < v
    · rw [if_pos h]
      exact (sup_eq_right.2 (WithBot.coe_le_coe.2 h.le)).symm
    · rw [if_neg h]
      exact (sup_eq_left.2 (WithBot.coe_le_coe.2 (not_lt.1 h))).symm

omit [LinearOrder α] in
theorem bot_eq_coe {o : Option α} {v : α} : bot o = (v : WithBot α) ↔ o = some v := by
  cases o with
  | none => exact ⟨fun h => absurd h WithBot.bot_ne_coe, nofun⟩
  | some w => exact WithBot.coe_inj.trans ⟨congrArg some, Option.some.inj⟩

omit [LinearOrder α] in
theorem bot_inj {o o' : Option α} : bot o = bot o' ↔ o = o' := by
  cases o' with
  | none => cases o <;> simp [bot]
  | some v => exact bot_eq_coe

theorem Joins.isGreatest {view : σ → WithBot α} (h : Joins view init step) {value : β → Option α}
    (hvalue : ∀ x, view (step init x) = bot (value x)) (xs : List β) (m : α) :
    view (xs.foldl step init) = (m : WithBot α) ↔ IsGreatest {v | ∃ x ∈ xs, value x = some v} m := by
  have hupper : ∀ x ∈ xs, ∀ v, value x = some v → (v : WithBot α) ≤ view (xs.foldl step init) := fun x hx v hv => by
    have hle := h.le hx
    rwa [hvalue, bot_eq_coe.2 hv] at hle
  constructor
  · intro heq
    rcases h.attained xs with hbot | ⟨x, hx, hview⟩
    · exact absurd (heq.symm.trans hbot) WithBot.coe_ne_bot
    · refine ⟨⟨x, hx, ?_⟩, fun v ⟨y, hy, hv⟩ => WithBot.coe_le_coe.1 (heq ▸ hupper y hy v hv)⟩
      rw [heq, hvalue] at hview
      exact bot_eq_coe.1 hview.symm
  · rintro ⟨⟨x, hx, hv⟩, hgreatest⟩
    refine le_antisymm ?_ (hupper x hx m hv)
    rcases h.attained xs with hbot | ⟨y, hy, hview⟩
    · exact hbot ▸ bot_le
    · rw [hview, hvalue]
      cases hw : value y with
      | none => exact bot_le
      | some w => exact WithBot.coe_le_coe.2 (hgreatest ⟨y, hy, hw⟩)

def raise (d : Dict κ α) (k : κ) (v : α) : Dict κ α :=
  match d.get? k with
  | none => d.set k v
  | some p => if p < v then d.set k v else d

theorem get?_raise (d : Dict κ α) (k j : κ) (v : α) :
    (raise d k v).get? j = if k = j then later (d.get? j) v else d.get? j := by
  rw [raise]
  by_cases hj : k = j
  · subst hj
    rw [if_pos rfl]
    cases hk : d.get? k with
    | none => exact Dict.get?_set_self d k v
    | some p =>
      simp only [later]
      split
      next => exact Dict.get?_set_self d k v
      next => exact hk
  · rw [if_neg hj]
    split
    next => exact Dict.get?_set_ne d v hj
    next =>
      split
      next => exact Dict.get?_set_ne d v hj
      next => rfl

def held (d : Dict κ α) (k : κ) : WithBot α := bot (d.get? k)

theorem held_raise (d : Dict κ α) (k : κ) (v : α) (j : κ) :
    held (raise d k v) j = held d j ⊔ if k = j then (v : WithBot α) else ⊥ := by
  rw [held, held, get?_raise]
  by_cases hj : k = j
  · rw [if_pos hj, if_pos hj, bot_later]
  · rw [if_neg hj, if_neg hj, sup_bot_eq]

theorem held_foldl_raise (j : κ) : ∀ (l : List (κ × α)) (d : Dict κ α), (l.map Prod.fst).Nodup →
    held (l.foldl (fun d p => raise d p.1 p.2) d) j = held d j ⊔ bot (Dict.find j l)
  | [], d, _ => (sup_bot_eq _).symm
  | (k, v) :: l, d, h => by
    rw [List.map_cons, List.nodup_cons] at h
    rw [List.foldl_cons, held_foldl_raise j l _ h.2, held_raise, Dict.find, sup_assoc]
    by_cases hj : k = j
    · subst hj
      rw [if_pos rfl, if_pos rfl, Dict.find_eq_none.2 h.1]
      exact congrArg _ (sup_bot_eq _)
    · rw [if_neg hj, if_neg hj, bot_sup_eq]

end

end Cctally.Maxima
