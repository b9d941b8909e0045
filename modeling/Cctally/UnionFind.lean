import Cctally.Dict
import Mathlib.Logic.Relation

/-!
# Union-find over dictionaries

Parent pointers with path compression, and ranks that grow along them. A forest
is described by the function `root` it computes: finding a member returns its
root and keeps that function, linking two roots redirects it.
-/

namespace UnionFind

section
variable {α : Type*} [DecidableEq α]

def rankOf (rank : Dict α Nat) (x : α) : Nat := (rank.get? x).getD 0

def height (rank : Dict α Nat) : Nat := rank.values.foldr max 0 + 1

def find : Nat → Dict α α → α → Option (Dict α α × α)
  | 0, _, _ => none
  | fuel + 1, parent, value => do
    let next ← parent.get? value
    if next = value then some (parent, value)
    else do
      let (parent, root) ← find fuel parent next
      some (parent.set value root, root)

/-- The forest computes `root`, and ranks grow towards the roots. -/
structure Rooted (parent : Dict α α) (rank : Dict α Nat) (root : α → α) : Prop where
  outside : ∀ x, x ∉ parent.keys → root x = x
  step : ∀ x p, parent.get? x = some p → p ∈ parent.keys ∧ root p = root x ∧ (p ≠ x → rankOf rank x < rankOf rank p)
  self : ∀ x, parent.get? x = some x → root x = x

theorem rankOf_lt_height (rank : Dict α Nat) (x : α) : rankOf rank x < height rank := by
  have hmax : ∀ (l : List Nat) (n : Nat), n ∈ l → n ≤ l.foldr max 0 := by
    intro l
    induction l with
    | nil => intro n hn; cases hn
    | cons m l ih =>
      intro n hn
      rw [List.foldr_cons]
      obtain rfl | hn := List.mem_cons.1 hn
      · exact Nat.le_max_left _ _
      · exact Nat.le_trans (ih n hn) (Nat.le_max_right _ _)
  unfold rankOf height
  cases h : rank.get? x with
  | none => exact Nat.succ_pos _
  | some r => exact Nat.lt_succ_of_le (hmax _ r (Dict.mem_values.2 ⟨x, h⟩))

theorem rankOf_set_self (rank : Dict α Nat) (x : α) (r : Nat) : rankOf (rank.set x r) x = r := by
  rw [rankOf, Dict.get?_set_self, Option.getD_some]

theorem rankOf_set_ne (rank : Dict α Nat) {x y : α} (r : Nat) (h : x ≠ y) : rankOf (rank.set x r) y = rankOf rank y := by
  rw [rankOf, Dict.get?_set_ne rank r h, rankOf]

section
variable {parent : Dict α α} {rank : Dict α Nat} {root : α → α}

theorem Rooted.compress (h : Rooted parent rank root) {x : α} (hx : x ∈ parent.keys)
    (hroot : parent.get? (root x) = some (root x)) (hrank : root x ≠ x → rankOf rank x < rankOf rank (root x)) :
    Rooted (parent.set x (root x)) rank root := by
  have hkeys : (parent.set x (root x)).keys = parent.keys := by rw [Dict.keys_set, if_pos hx]
  refine ⟨?_, ?_, ?_⟩
  · intro y hy
    rw [hkeys] at hy
    exact h.outside y hy
  · intro y p hy
    rw [hkeys]
    rw [Dict.get?_set] at hy
    by_cases hxy : x = y
    · subst hxy
      rw [if_pos rfl] at hy
      cases hy
      exact ⟨Dict.mem_keys.2 ⟨_, hroot⟩, h.self _ hroot, hrank⟩
    · rw [if_neg hxy] at hy
      exact h.step y p hy
  · intro y hy
    rw [Dict.get?_set] at hy
    by_cases hxy : x = y
    · subst hxy
      rw [if_pos rfl] at hy
      exact Option.some.inj hy
    · rw [if_neg hxy] at hy
      exact h.self y hy

/-- **Finding a member** returns its root, and leaves a forest with the same roots. -/
theorem Rooted.find (h : Rooted parent rank root) : ∀ {fuel : Nat} {x : α}, x ∈ parent.keys →
    height rank ≤ fuel + rankOf rank x →
      ∃ parent', find fuel parent x = some (parent', root x) ∧ Rooted parent' rank root ∧
        parent'.keys = parent.keys ∧ parent'.get? (root x) = some (root x) ∧
        (root x ≠ x → rankOf rank x < rankOf rank (root x))
  | 0, x, hx, hfuel => by
    have := rankOf_lt_height rank x
    omega
  | fuel + 1, x, hx, hfuel => by
    obtain ⟨p, hp⟩ := Dict.mem_keys.1 hx
    obtain ⟨hpmem, hproot, hprank⟩ := h.step x p hp
    unfold UnionFind.find
    rw [hp, Option.bind_eq_bind, Option.bind_some]
    by_cases hpx : p = x
    · subst hpx
      rw [if_pos rfl, h.self p hp]
      exact ⟨parent, rfl, h, rfl, hp, fun hne => absurd rfl hne⟩
    · rw [if_neg hpx]
      have hlt := hprank hpx
      obtain ⟨parent', hfind, h', hkeys, hself, hrank⟩ := h.find hpmem (show height rank ≤ fuel + rankOf rank p by omega)
      rw [hproot] at hfind hself hrank
      have hxrank : root x ≠ x → rankOf rank x < rankOf rank (root x) := by
        intro _
        by_cases hrp : root x = p
        · rw [hrp]
          exact hlt
        · exact Nat.lt_trans hlt (hrank hrp)
      have hx' : x ∈ parent'.keys := by
        rw [hkeys]
        exact hx
      refine ⟨parent'.set x (root x), ?_, h'.compress hx' hself hxrank, ?_, ?_, hxrank⟩
      · rw [hfind]
        rfl
      · rw [Dict.keys_set, if_pos hx', hkeys]
      · rw [Dict.get?_set]
        by_cases hrx : x = root x
        · rw [if_pos hrx]
        · rw [if_neg hrx]
          exact hself

theorem Rooted.get?_root (h : Rooted parent rank root) {x : α} (hx : x ∈ parent.keys) :
    parent.get? (root x) = some (root x) := by
  obtain ⟨parent', -, h', hkeys, hself, -⟩ := h.find hx (Nat.le_add_right _ _)
  have hroot := h'.self _ hself
  have hmem : root x ∈ parent.keys := by
    rw [← hkeys]
    exact Dict.mem_keys.2 ⟨_, hself⟩
  obtain ⟨p, hp⟩ := Dict.mem_keys.1 hmem
  obtain ⟨hpmem, hproot, hlt⟩ := h.step _ p hp
  by_cases hpx : p = root x
  · rw [hp, hpx]
  · obtain ⟨-, -, -, -, -, hlt'⟩ := h.find hpmem (Nat.le_add_right _ _)
    rw [hproot, hroot] at hlt'
    exact absurd (hlt hpx) (Nat.lt_asymm (hlt' (Ne.symm hpx)))

theorem Rooted.find_height (h : Rooted parent rank root) {x : α} (hx : x ∈ parent.keys) :
    ∃ parent', UnionFind.find (height rank) parent x = some (parent', root x) ∧ Rooted parent' rank root ∧
      parent'.keys = parent.keys ∧ parent'.get? (root x) = some (root x) := by
  obtain ⟨parent', hfind, h', hkeys, hself, -⟩ := h.find hx (Nat.le_add_right _ _)
  exact ⟨parent', hfind, h', hkeys, hself⟩

theorem Rooted.insert (h : Rooted parent rank root) {x : α} (hx : x ∉ parent.keys) :
    Rooted (parent.set x x) (rank.set x 0) root := by
  have hmem : ∀ y, y ∈ (parent.set x x).keys ↔ y = x ∨ y ∈ parent.keys := fun y => Dict.mem_keys_set
  refine ⟨?_, ?_, ?_⟩
  · intro y hy
    rw [hmem] at hy
    exact h.outside y fun h' => hy (.inr h')
  · intro y p hy
    rw [Dict.get?_set] at hy
    by_cases hxy : x = y
    · subst hxy
      rw [if_pos rfl] at hy
      cases hy
      exact ⟨(hmem x).2 (.inl rfl), rfl, fun hne => absurd rfl hne⟩
    · rw [if_neg hxy] at hy
      obtain ⟨hp, hroot, hrank⟩ := h.step y p hy
      have hxp : x ≠ p := fun heq => hx (heq ▸ hp)
      refine ⟨(hmem p).2 (.inr hp), hroot, ?_⟩
      rw [rankOf_set_ne rank 0 hxy, rankOf_set_ne rank 0 hxp]
      exact hrank
  · intro y hy
    rw [Dict.get?_set] at hy
    by_cases hxy : x = y
    · subst hxy
      exact h.outside x hx
    · rw [if_neg hxy] at hy
      exact h.self y hy

/-- The roots once `right` is put under `left`. -/
def redirect (root : α → α) (left right : α) (x : α) : α := if root x = right then left else root x

theorem Rooted.link (h : Rooted parent rank root) {left right : α} (hl : parent.get? left = some left)
    (hr : parent.get? right = some right) (hne : left ≠ right) (hrank : rankOf rank right ≤ rankOf rank left) :
    Rooted (parent.set right left)
      (if rankOf rank left = rankOf rank right then rank.set left (rankOf rank left + 1) else rank)
      (redirect root left right) := by
  obtain ⟨rank', hrank'⟩ : ∃ rank', rank' =
      if rankOf rank left = rankOf rank right then rank.set left (rankOf rank left + 1) else rank := ⟨_, rfl⟩
  have hother : ∀ x, x ≠ left → rankOf rank' x = rankOf rank x := by
    intro x hx
    rw [hrank']
    by_cases heq : rankOf rank left = rankOf rank right
    · rw [if_pos heq, rankOf_set_ne _ _ (Ne.symm hx)]
    · rw [if_neg heq]
  have hleft : rankOf rank left ≤ rankOf rank' left ∧ rankOf rank right < rankOf rank' left := by
    rw [hrank']
    by_cases heq : rankOf rank left = rankOf rank right
    · rw [if_pos heq, rankOf_set_self]
      omega
    · rw [if_neg heq]
      omega
  have hrkeys : right ∈ parent.keys := Dict.mem_keys.2 ⟨_, hr⟩
  have hkeys : (parent.set right left).keys = parent.keys := by rw [Dict.keys_set, if_pos hrkeys]
  rw [← hrank']
  unfold redirect
  refine ⟨?_, ?_, ?_⟩
  · intro x hx
    rw [hkeys] at hx
    rw [h.outside x hx]
    rw [if_neg]
    intro heq
    rw [heq] at hx
    exact hx hrkeys
  · intro x p hx
    rw [hkeys]
    rw [Dict.get?_set] at hx
    by_cases hrx : right = x
    · subst hrx
      rw [if_pos rfl] at hx
      cases hx
      rw [h.self left hl, h.self right hr, if_neg hne, if_pos rfl, hother right (Ne.symm hne)]
      exact ⟨Dict.mem_keys.2 ⟨_, hl⟩, rfl, fun _ => hleft.2⟩
    · rw [if_neg hrx] at hx
      obtain ⟨hp, hroot, hlt⟩ := h.step x p hx
      rw [hroot]
      refine ⟨hp, rfl, ?_⟩
      intro hpx
      have hxl : x ≠ left := by
        intro heq
        subst heq
        rw [hl] at hx
        exact hpx (Option.some.inj hx).symm
      rw [hother x hxl]
      by_cases hpl : p = left
      · subst hpl
        exact Nat.lt_of_lt_of_le (hlt hpx) hleft.1
      · rw [hother p hpl]
        exact hlt hpx
  · intro x hx
    rw [Dict.get?_set] at hx
    by_cases hrx : right = x
    · rw [if_pos hrx] at hx
      exact absurd ((Option.some.inj hx).trans hrx.symm) hne
    · rw [if_neg hrx] at hx
      rw [h.self x hx]
      exact if_neg fun heq => hrx heq.symm

theorem redirect_eq_iff {left right x y : α} (hl : root left = left) (hr : root right = right) :
    redirect root left right x = redirect root left right y ↔
      root x = root y ∨ (root x = root left ∧ root y = root right) ∨ (root x = root right ∧ root y = root left) := by
  unfold redirect
  rw [hl, hr]
  by_cases hx : root x = right
  · by_cases hy : root y = right
    · simp [hx, hy]
    · rw [if_pos hx, if_neg hy, hx]
      simp [hy, Ne.symm hy, eq_comm]
  · by_cases hy : root y = right
    · rw [if_neg hx, if_pos hy, hy]
      simp [hx]
    · rw [if_neg hx, if_neg hy]
      simp [hx, hy]

end

end

section
variable {α : Type*} {E E' : α → α → Prop} {v : α} {N : α → Prop}

/-- The vertices that a new vertex `v` with neighbours `N` draws together. -/
def Drawn (E : α → α → Prop) (v : α) (N : α → Prop) (x : α) : Prop :=
  Relation.EqvGen E x v ∨ ∃ c, N c ∧ Relation.EqvGen E x c

theorem Drawn.trans {x y : α} (h : Drawn E v N y) (hxy : Relation.EqvGen E x y) : Drawn E v N x := by
  obtain h | ⟨c, hc, h⟩ := h
  · exact .inl (.trans _ _ _ hxy h)
  · exact .inr ⟨c, hc, .trans _ _ _ hxy h⟩

/-- **Connectivity after a vertex is added** is the old one, with what it draws together. -/
theorem eqvGen_addVertex (hold : ∀ x y, E x y → E' x y) (hnew : ∀ c, N c → E' c v)
    (hE : ∀ x y, E' x y → E x y ∨ (x = v ∧ N y) ∨ (N x ∧ y = v) ∨ (x = v ∧ y = v)) (x y : α) :
    Relation.EqvGen E' x y ↔ Relation.EqvGen E x y ∨ (Drawn E v N x ∧ Drawn E v N y) := by
  have hmono : ∀ {a b}, Relation.EqvGen E a b → Relation.EqvGen E' a b := fun h =>
    Relation.EqvGen.mono hold _ _ h
  have hdrawn : ∀ {a}, Drawn E v N a → Relation.EqvGen E' a v := by
    intro a ha
    obtain h | ⟨c, hc, h⟩ := ha
    · exact hmono h
    · exact .trans _ _ _ (hmono h) (.rel _ _ (hnew c hc))
  constructor
  · intro h
    induction h with
    | rel a b hab =>
      have hv : Drawn E v N v := .inl (.refl v)
      have hc : ∀ {c}, N c → Drawn E v N c := fun hn => .inr ⟨_, hn, .refl _⟩
      obtain hab | ⟨rfl, hb⟩ | ⟨ha, rfl⟩ | ⟨rfl, rfl⟩ := hE a b hab
      · exact .inl (.rel _ _ hab)
      · exact .inr ⟨hv, hc hb⟩
      · exact .inr ⟨hc ha, hv⟩
      · exact .inr ⟨hv, hv⟩
    | refl a => exact .inl (.refl a)
    | symm a b hab ih =>
      obtain ih | ⟨ha, hb⟩ := ih
      · exact .inl (.symm _ _ ih)
      · exact .inr ⟨hb, ha⟩
    | trans a b c hab hbc ih₁ ih₂ =>
      obtain h₁ | ⟨ha, hb⟩ := ih₁
      · obtain h₂ | ⟨hb, hc⟩ := ih₂
        · exact .inl (.trans _ _ _ h₁ h₂)
        · exact .inr ⟨hb.trans h₁, hc⟩
      · obtain h₂ | ⟨_, hc⟩ := ih₂
        · exact .inr ⟨ha, hb.trans (.symm _ _ h₂)⟩
        · exact .inr ⟨ha, hc⟩
  · intro h
    obtain h | ⟨hx, hy⟩ := h
    · exact hmono h
    · exact .trans _ _ _ (hdrawn hx) (.symm _ _ (hdrawn hy))

theorem eqvGen_iff_reflTransGen (hs : ∀ x y, E x y → E y x) {x y : α} :
    Relation.EqvGen E x y ↔ Relation.ReflTransGen E x y := by
  constructor
  · intro h
    induction h with
    | rel a b hab => exact .single hab
    | refl a => exact .refl
    | symm a b hab ih =>
      have : Std.Symm E := ⟨hs⟩
      exact symm ih
    | trans a b c hab hbc ih₁ ih₂ => exact ih₁.trans ih₂
  · intro h
    induction h with
    | refl => exact .refl x
    | tail _ hbc ih => exact .trans _ _ _ ih (.rel _ _ hbc)

end

end UnionFind
