import Mathlib.Data.Finset.Card
import Mathlib.Data.Finset.Lattice.Basic

/-!
# Loops that settle

A loop repeats a round until one leaves the key of the state as it was. A round may take
elements away as well as add them. It settles nonetheless when an element is only taken away
for good: permanent elements stay, an element goes only when a permanent one blocks it, and
what a blocked element is put back for is there in the next round too.
-/

namespace Cctally.Settling

section
variable {σ κ ε : Type*} [DecidableEq κ]

def settle (round : σ → Except ε σ) (key : σ → κ) : Nat → σ → Option (Except ε σ)
  | 0, _ => none
  | fuel + 1, s =>
    match round s with
    | .error e => some (.error e)
    | .ok s' => if key s' = key s then some (.ok s') else settle round key fuel s'

variable {round : σ → Except ε σ} {key : σ → κ}

theorem settle_eq_none : ∀ {fuel : Nat} {s : σ}, settle round key fuel s = none →
    ∃ run : Nat → σ, run 0 = s ∧ ∀ i < fuel, round (run i) = .ok (run (i + 1)) ∧ key (run (i + 1)) ≠ key (run i)
  | 0, s, _ => ⟨fun _ => s, rfl, fun _ hi => absurd hi (Nat.not_lt_zero _)⟩
  | fuel + 1, s, h => by
    rw [settle] at h
    split at h
    next => cases h
    next s' hs =>
      split at h
      next => cases h
      next hkey =>
        obtain ⟨run, rfl, hrun⟩ := settle_eq_none h
        refine ⟨fun i => i.casesOn s run, rfl, fun i hi => ?_⟩
        cases i with
        | zero => exact ⟨hs, hkey⟩
        | succ i => exact hrun i (Nat.lt_of_succ_lt_succ hi)

theorem settle_add : ∀ {fuel : Nat} {s : σ} {result : Except ε σ}, settle round key fuel s = some result →
    ∀ k, settle round key (fuel + k) s = some result
  | 0, _, _, h, _ => nomatch h
  | fuel + 1, s, result, h, k => by
    rw [Nat.add_right_comm, settle]
    rw [settle] at h
    cases hs : round s with
    | error e => rwa [hs] at h
    | ok s' =>
      rw [hs] at h
      dsimp only at h ⊢
      split at h
      next hkey => rw [if_pos hkey, h]
      next hkey =>
        rw [if_neg hkey]
        exact settle_add h k

theorem settle_eq_ok : ∀ {fuel : Nat} {s out : σ}, settle round key fuel s = some (.ok out) →
    ∃ before, round before = .ok out ∧ key out = key before
  | 0, _, _, h => nomatch h
  | fuel + 1, s, out, h => by
    rw [settle] at h
    split at h
    next => nomatch h
    next s' hs =>
      split at h
      next hkey =>
        cases h
        exact ⟨s, hs, hkey⟩
      next => exact settle_eq_ok h

end

theorem length_le_of_rises {f : Nat → Nat} {n bound : Nat} (hmono : ∀ i, i + 1 < n → f i ≤ f (i + 1))
    (hrise : ∀ i, i + 2 < n → f i ≠ f (i + 2)) (hbound : ∀ i < n, f i ≤ bound) : n ≤ 2 * bound + 2 := by
  have hlinear : ∀ j, 2 * j < n → j ≤ f (2 * j) := by
    intro j
    induction j with
    | zero => exact fun _ => Nat.zero_le _
    | succ j ih =>
      intro hj
      have hle := ih (by omega)
      have h₁ := hmono (2 * j) (by omega)
      have h₂ : f (2 * j + 1) ≤ f (2 * j + 2) := hmono (2 * j + 1) (by omega)
      have hne := hrise (2 * j) (by omega)
      show j + 1 ≤ f (2 * j + 2)
      omega
  by_contra hn
  have h₁ := hlinear (bound + 1) (by omega)
  have h₂ := hbound (2 * (bound + 1)) (by omega)
  omega

section
variable {α : Type*} (permanent loose : α → Prop) (blocks pulls : α → α → Prop)

def Blocked (l : Finset α) (x : α) : Prop := ∃ m ∈ l, permanent m ∧ blocks m x

/-- A round from `e` to `e'`: it grows to `l`, drops loose elements that are blocked and
keeps no such element in `s`, and grows again, by what is pulled in and by what stays. -/
structure Round (pool e l s e' : Finset α) : Prop where
  enters : e ⊆ l
  dropped : ∀ x ∈ l, x ∉ s → ¬ permanent x ∧ loose x ∧ Blocked permanent blocks l x
  clear : ∀ x ∈ s, ¬ permanent x → loose x → ¬ Blocked permanent blocks l x
  grows : s ⊆ e'
  pulled : ∀ t ∈ s, ∀ x ∈ pool, pulls t x → x ∈ e'
  added : ∀ x ∈ e', x ∉ s → permanent x ∨ ¬ loose x ∨ ∃ t ∈ s, pulls t x
  within : e' ⊆ pool

variable {permanent loose blocks pulls} {pool e₀ l₀ s₀ e₁ l₁ s₁ e₂ l₂ s₂ e₃ : Finset α}

theorem Round.stays (h : Round permanent loose blocks pulls pool e₀ l₀ s₀ e₁) {x : α} (hx : x ∈ l₀)
    (hs : permanent x ∨ ¬ loose x) : x ∈ e₁ := by
  by_contra hn
  obtain ⟨hp, hl, -⟩ := h.dropped x hx fun hx => hn (h.grows hx)
  exact hs.elim hp fun hloose => hloose hl

theorem Round.blocked_mono (h₀ : Round permanent loose blocks pulls pool e₀ l₀ s₀ e₁)
    (h₁ : Round permanent loose blocks pulls pool e₁ l₁ s₁ e₂) {x : α} (hb : Blocked permanent blocks l₀ x) :
    Blocked permanent blocks l₁ x := by
  obtain ⟨m, hm, hp, hblocks⟩ := hb
  exact ⟨m, h₁.enters (h₀.stays hm (.inl hp)), hp, hblocks⟩

theorem Round.settled_or (h₀ : Round permanent loose blocks pulls pool e₀ l₀ s₀ e₁)
    (h₁ : Round permanent loose blocks pulls pool e₁ l₁ s₁ e₂) {x : α} (hx : x ∈ s₀) :
    x ∈ s₁ ∨ ¬ permanent x ∧ loose x ∧ Blocked permanent blocks l₁ x := by
  by_cases hs : x ∈ s₁
  · exact .inl hs
  · exact .inr (h₁.dropped x (h₁.enters (h₀.grows hx)) hs)

theorem Round.ends_subset (h₀ : Round permanent loose blocks pulls pool e₀ l₀ s₀ e₁)
    (h₁ : Round permanent loose blocks pulls pool e₁ l₁ s₁ e₂) (hs : s₀ = s₁) : e₁ ⊆ e₂ := by
  intro x hx
  by_cases hs₀ : x ∈ s₀
  · exact h₁.grows (hs ▸ hs₀)
  · rcases h₀.added x hx hs₀ with hp | hl | ⟨t, ht, hpull⟩
    · exact h₁.stays (h₁.enters hx) (.inl hp)
    · exact h₁.stays (h₁.enters hx) (.inr hl)
    · exact h₁.pulled t (hs ▸ ht) x (h₀.within hx) hpull

theorem Round.ends_supset (h₀ : Round permanent loose blocks pulls pool e₀ l₀ s₀ e₁)
    (h₁ : Round permanent loose blocks pulls pool e₁ l₁ s₁ e₂)
    (h₂ : Round permanent loose blocks pulls pool e₂ l₂ s₂ e₃) (hs : s₀ = s₁) (hs' : s₁ = s₂) : e₂ ⊆ e₁ := by
  intro x hx
  by_cases hs₁ : x ∈ s₁
  · exact h₀.grows (hs ▸ hs₁)
  · have hstays : permanent x ∨ ¬ loose x → x ∈ s₂ := fun hp => by
      by_contra hn
      obtain ⟨hp', hl, -⟩ := h₂.dropped x (h₂.enters hx) hn
      exact hp.elim hp' fun hloose => hloose hl
    rcases h₁.added x hx hs₁ with hp | hl | ⟨t, ht, hpull⟩
    · exact absurd (hs' ▸ hstays (.inl hp)) hs₁
    · exact absurd (hs' ▸ hstays (.inr hl)) hs₁
    · exact h₀.pulled t (hs ▸ ht) x (h₁.within hx) hpull

end

section
variable {α : Type*} [DecidableEq α] {permanent loose : α → Prop} {blocks pulls : α → α → Prop} {pool : Finset α}

open Classical in
noncomputable def gone (permanent loose : α → Prop) (blocks : α → α → Prop) (pool l : Finset α) : Finset α :=
  pool.filter fun x => ¬ permanent x ∧ loose x ∧ Blocked permanent blocks l x

omit [DecidableEq α] in
theorem mem_gone {l : Finset α} {x : α} : x ∈ gone permanent loose blocks pool l ↔
    x ∈ pool ∧ ¬ permanent x ∧ loose x ∧ Blocked permanent blocks l x := by
  simp only [gone, Finset.mem_filter]

section
variable {e l s : Nat → Finset α} {n : Nat}
  (hround : ∀ i < n, Round permanent loose blocks pulls pool (e i) (l i) (s i) (e (i + 1)))

include hround

omit [DecidableEq α] in
theorem gone_mono {i : Nat} (hi : i + 1 < n) :
    gone permanent loose blocks pool (l i) ⊆ gone permanent loose blocks pool (l (i + 1)) := by
  intro x hx
  obtain ⟨hu, hp, hl, hb⟩ := mem_gone.1 hx
  exact mem_gone.2 ⟨hu, hp, hl, (hround i (by omega)).blocked_mono (hround (i + 1) hi) hb⟩

theorem union_gone_mono {i : Nat} (hi : i + 1 < n) :
    s i ∪ gone permanent loose blocks pool (l i) ⊆ s (i + 1) ∪ gone permanent loose blocks pool (l (i + 1)) := by
  intro x hx
  rcases Finset.mem_union.1 hx with hs | hg
  · have h := hround i (by omega)
    rcases h.settled_or (hround (i + 1) hi) hs with hs' | hb
    · exact Finset.mem_union_left _ hs'
    · exact Finset.mem_union_right _ (mem_gone.2 ⟨h.within (h.grows hs), hb⟩)
  · exact Finset.mem_union_right _ (gone_mono hround hi hg)

theorem settled_eq {i : Nat} (hi : i < n) :
    s i = (s i ∪ gone permanent loose blocks pool (l i)) \ gone permanent loose blocks pool (l i) := by
  refine (Finset.union_sdiff_cancel_right (Finset.disjoint_left.2 fun x hs hg => ?_)).symm
  obtain ⟨-, hp, hl, hb⟩ := mem_gone.1 hg
  exact (hround i hi).clear x hs hp hl hb

/-- **A run of rounds that never ends alike is short.** What was seen and what is gone only
grow; where both stay for two rounds the rounds end alike. -/
theorem length_le (hnew : ∀ i < n, e (i + 1) ≠ e i) : n ≤ 4 * pool.card + 2 := by
  have hgone : ∀ i < n, gone permanent loose blocks pool (l i) ⊆ pool := fun _ _ _ hx => (mem_gone.1 hx).1
  have hseen : ∀ i < n, s i ∪ gone permanent loose blocks pool (l i) ⊆ pool := fun i hi =>
    Finset.union_subset ((hround i hi).grows.trans (hround i hi).within) (hgone i hi)
  let f i := (s i ∪ gone permanent loose blocks pool (l i)).card + (gone permanent loose blocks pool (l i)).card
  have hmono : ∀ i, i + 1 < n → f i ≤ f (i + 1) := fun i hi =>
    Nat.add_le_add (Finset.card_le_card (union_gone_mono hround hi)) (Finset.card_le_card (gone_mono hround hi))
  have hsame : ∀ i, i + 1 < n → f i = f (i + 1) → s i = s (i + 1) := by
    intro i hi hf
    have hu := Finset.card_le_card (union_gone_mono hround hi)
    have hg := Finset.card_le_card (gone_mono hround hi)
    simp only [f] at hf
    have hgone := Finset.eq_of_subset_of_card_le (gone_mono hround hi) (by omega)
    have hunion := Finset.eq_of_subset_of_card_le (union_gone_mono hround hi) (by omega)
    rw [settled_eq hround (by omega : i < n), hunion, hgone, ← settled_eq hround hi]
  have hrise : ∀ i, i + 2 < n → f i ≠ f (i + 2) := by
    intro i hi hf
    have h₀ := hmono i (by omega)
    have h₁ : f (i + 1) ≤ f (i + 2) := hmono (i + 1) hi
    have hs := hsame i (by omega) (by omega)
    have hs' := hsame (i + 1) hi (show f (i + 1) = f (i + 2) by omega)
    have hr₀ := hround i (by omega)
    have hr₁ := hround (i + 1) (by omega)
    refine hnew (i + 1) (by omega) ((hr₀.ends_supset hr₁ (hround (i + 2) hi) hs hs').antisymm (hr₀.ends_subset hr₁ hs))
  have hbound : ∀ i < n, f i ≤ 2 * pool.card := fun i hi => by
    have hu := Finset.card_le_card (hseen i hi)
    have hg := Finset.card_le_card (hgone i hi)
    simp only [f]
    omega
  have := length_le_of_rises hmono hrise hbound
  omega

end

variable {σ κ ε : Type*} [DecidableEq κ] {round : σ → Except ε σ} {key : σ → κ}

/-- **Such a loop settles**, or raises, after linearly many rounds. -/
theorem settles (view : σ → Finset α) (inv : σ → Prop) (hkey : ∀ s s', view s' = view s → key s' = key s)
    (hinv : ∀ s s', inv s → round s = .ok s' → inv s')
    (hround : ∀ s s', inv s → round s = .ok s' →
      ∃ l settled, Round permanent loose blocks pulls pool (view s) l settled (view s'))
    {s : σ} (hs : inv s) : settle round key (4 * pool.card + 3) s ≠ none := by
  intro hnone
  obtain ⟨run, rfl, hrun⟩ := settle_eq_none hnone
  have hall : ∀ i, i ≤ 4 * pool.card + 3 → inv (run i) := by
    intro i
    induction i with
    | zero => exact fun _ => hs
    | succ i ih => exact fun hi => hinv _ _ (ih (by omega)) (hrun i (by omega)).1
  choose! l settled hstep using fun i (hi : i < 4 * pool.card + 3) =>
    hround (run i) (run (i + 1)) (hall i (by omega)) (hrun i hi).1
  have hle := length_le hstep fun i hi hview => (hrun i hi).2 (hkey _ _ hview)
  omega

end

end Cctally.Settling
