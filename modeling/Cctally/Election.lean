import Mathlib.Data.Set.Insert
import Mathlib.Order.Lattice
import Mathlib.Tactic.Tauto

/-!
# Electing one member of a group

A member of higher revision beats one of lower revision; within a revision the
earlier position wins. The winner of a group does not depend on the order its
members arrive in. A scan keeps one representative of a group and the labels of
the pairs it saw disagree.
-/

/-! ## One component of a fold -/

theorem foldl_view {σ τ α : Type*} (view : σ → τ) (stepV : τ → α → τ) (p : α → Bool) {step : σ → α → σ}
    (h : ∀ s a, view (step s a) = if p a then stepV (view s) a else view s) :
    ∀ (l : List α) (s : σ), view (l.foldl step s) = (l.filter p).foldl stepV (view s)
  | [], _ => rfl
  | a :: l, s => by
    rw [List.foldl_cons, foldl_view view stepV p h l, h]
    by_cases ha : p a = true
    · rw [if_pos ha, List.filter_cons_of_pos ha, List.foldl_cons]
    · rw [if_neg ha, List.filter_cons_of_neg ha]

namespace Winner

section
variable {α ρ π : Type*} [LinearOrder ρ] [LinearOrder π] (rev : α → ρ) (pos : α → π)

/-- `c` takes the place of `p`. -/
def Beats (c p : α) : Prop := rev p < rev c ∨ (rev c = rev p ∧ pos c < pos p)

instance (c p : α) : Decidable (Beats rev pos c p) := inferInstanceAs (Decidable (_ ∨ _))

def IsWinner (s : Set α) (w : α) : Prop := w ∈ s ∧ ∀ c ∈ s, ¬ Beats rev pos c w

def champion (p : Option α) (c : α) : Option α :=
  match p with
  | none => some c
  | some p => if Beats rev pos c p then some c else some p

variable {rev pos} {s t : Set α} {a b c w w' : α}

theorem not_beats : ¬ Beats rev pos c w ↔ rev c < rev w ∨ (rev c = rev w ∧ pos w ≤ pos c) := by
  rw [Beats, not_or, not_and, not_lt, not_lt, le_iff_lt_or_eq]
  constructor
  · rintro ⟨h | h, hp⟩
    · exact Or.inl h
    · exact Or.inr ⟨h, hp h⟩
  · rintro (h | ⟨h, hp⟩)
    · exact ⟨Or.inl h, fun e => absurd e (ne_of_lt h)⟩
    · exact ⟨Or.inr h, fun _ => hp⟩

theorem not_beats_self : ¬ Beats rev pos a a := not_beats.mpr (Or.inr ⟨rfl, le_rfl⟩)

theorem not_beats_trans (h₁ : ¬ Beats rev pos a b) (h₂ : ¬ Beats rev pos b c) : ¬ Beats rev pos a c := by
  rw [not_beats] at *
  rcases h₁ with h₁ | ⟨h₁, hp₁⟩
  · rcases h₂ with h₂ | ⟨h₂, -⟩
    · exact Or.inl (h₁.trans h₂)
    · exact Or.inl (h₂ ▸ h₁)
  · rcases h₂ with h₂ | ⟨h₂, hp₂⟩
    · exact Or.inl (h₁ ▸ h₂)
    · exact Or.inr ⟨h₁.trans h₂, hp₂.trans hp₁⟩

theorem Beats.asymm (h : Beats rev pos a b) : ¬ Beats rev pos b a := by
  rw [not_beats]
  rcases h with h | ⟨h, hp⟩
  · exact Or.inl h
  · exact Or.inr ⟨h.symm, hp.le⟩

theorem IsWinner.singleton (a : α) : IsWinner rev pos {a} a :=
  ⟨rfl, fun _ hc => Set.mem_singleton_iff.mp hc ▸ not_beats_self⟩

theorem IsWinner.rev_le (h : IsWinner rev pos s w) (hc : c ∈ s) : rev c ≤ rev w := by
  rcases not_beats.mp (h.2 c hc) with h | ⟨h, -⟩
  · exact h.le
  · exact h.le

theorem IsWinner.pos_le (h : IsWinner rev pos s w) (hc : c ∈ s) (hr : rev c = rev w) : pos w ≤ pos c := by
  rcases not_beats.mp (h.2 c hc) with h | ⟨-, h⟩
  · exact absurd hr (ne_of_lt h)
  · exact h

theorem IsWinner.unique (hinj : ∀ a ∈ s, ∀ b ∈ s, rev a = rev b → pos a = pos b → a = b)
    (h : IsWinner rev pos s w) (h' : IsWinner rev pos s w') : w = w' := by
  have hr : rev w = rev w' := le_antisymm (h'.rev_le h.1) (h.rev_le h'.1)
  exact hinj w h.1 w' h'.1 hr (le_antisymm (h.pos_le h'.1 hr.symm) (h'.pos_le h.1 hr))

theorem IsWinner.insert (h : IsWinner rev pos s w) :
    IsWinner rev pos (insert c s) (if Beats rev pos c w then c else w) := by
  split
  · rename_i hc
    refine ⟨Set.mem_insert .., fun d hd => ?_⟩
    rcases Set.mem_insert_iff.mp hd with rfl | hd
    · exact not_beats_self
    · exact not_beats_trans (h.2 d hd) hc.asymm
  · rename_i hc
    refine ⟨Set.mem_insert_of_mem _ h.1, fun d hd => ?_⟩
    rcases Set.mem_insert_iff.mp hd with rfl | hd
    · exact hc
    · exact h.2 d hd

theorem IsWinner.mono (h : IsWinner rev pos s w) (hs : s ⊆ t) (ht : ∀ c ∈ t, c ∉ s → ¬ Beats rev pos c w) :
    IsWinner rev pos t w := by
  refine ⟨hs h.1, fun c hc => ?_⟩
  by_cases hcs : c ∈ s
  · exact h.2 c hcs
  · exact ht c hc hcs

theorem foldl_champion_some : ∀ (l : List α) {s : Set α} {p : α}, IsWinner rev pos s p →
    ∃ w, l.foldl (champion rev pos) (some p) = some w ∧ IsWinner rev pos (s ∪ {c | c ∈ l}) w
  | [], s, p, h => ⟨p, rfl, by simpa using h⟩
  | c :: l, s, p, h => by
    obtain ⟨w, hw, hwin⟩ := foldl_champion_some l (h.insert (c := c))
    refine ⟨w, ?_, ?_⟩
    · rw [List.foldl_cons, champion, ← apply_ite some]; exact hw
    · have : s ∪ {d | d ∈ c :: l} = Insert.insert c s ∪ {d | d ∈ l} := by
        ext d; simp only [List.mem_cons, Set.mem_union, Set.mem_ofPred_eq, Set.mem_insert_iff]; tauto
      rwa [this]

theorem foldl_champion_none {l : List α} :
    (l = [] ∧ l.foldl (champion rev pos) none = none) ∨
    ∃ w, l.foldl (champion rev pos) none = some w ∧ IsWinner rev pos {c | c ∈ l} w := by
  cases l with
  | nil => exact Or.inl ⟨rfl, rfl⟩
  | cons c l =>
    obtain ⟨w, hw, hwin⟩ := foldl_champion_some l (@IsWinner.singleton α ρ π _ _ rev pos c)
    refine Or.inr ⟨w, hw, ?_⟩
    have : ({d | d ∈ c :: l} : Set α) = {c} ∪ {d | d ∈ l} := by
      ext d; simp only [List.mem_cons, Set.mem_union, Set.mem_ofPred_eq, Set.mem_singleton_iff]
    rwa [this]

end

/-! ## Scans -/

structure Scan (α β : Type*) where
  rep : Option α
  noted : Option (List β)

namespace Scan

section
variable {α β γ : Type*} [DecidableEq γ] (content : α → γ) (label : α → β) (keep : α → α → α)

def start : Scan α β := ⟨none, none⟩

def add (s : Scan α β) (c : α) : Scan α β :=
  match s.rep with
  | none => ⟨some c, s.noted⟩
  | some p =>
    ⟨some (keep p c), if content p ≠ content c then some (s.noted.getD [] ++ [label p, label c]) else s.noted⟩

structure Saw (s : Scan α β) (l : List α) : Prop where
  rep_mem : ∀ p, s.rep = some p → p ∈ l
  rep_none : s.rep = none → l = []
  agree : s.noted = none → ∀ a ∈ l, ∀ b ∈ l, content a = content b
  noted : ∀ labels, s.noted = some labels →
    (∃ a ∈ l, ∃ b ∈ l, content a ≠ content b) ∧ ∀ x, x ∈ labels ↔ ∃ a ∈ l, label a = x

variable {content label keep}

theorem add_none {s : Scan α β} (h : s.rep = none) (c : α) :
    s.add content label keep c = ⟨some c, s.noted⟩ := by rw [Scan.add, h]

theorem add_some {s : Scan α β} {p : α} (h : s.rep = some p) (c : α) :
    s.add content label keep c =
      ⟨some (keep p c), if content p ≠ content c then some (s.noted.getD [] ++ [label p, label c]) else s.noted⟩ := by
  rw [Scan.add, h]

omit [DecidableEq γ] in
theorem Saw.start : Saw content label (start : Scan α β) [] := by
  refine ⟨?_, fun _ => rfl, ?_, ?_⟩
  · intro p h; cases h
  · intro _ a ha; cases ha
  · intro labels h; cases h

theorem Saw.add (hlabel : ∀ a b, content a = content b → label a = label b)
    (hkeep : ∀ p c, keep p c = p ∨ keep p c = c) {s : Scan α β} {l : List α} (h : Saw content label s l) (c : α) :
    Saw content label (s.add content label keep c) (l ++ [c]) := by
  cases hrep : s.rep with
  | none =>
    rw [add_none hrep]
    obtain rfl := h.rep_none hrep
    refine ⟨?_, by simp, ?_, ?_⟩
    · rintro p hp; cases hp; simp
    · rintro - a ha b hb
      rw [List.nil_append, List.mem_singleton] at ha hb
      rw [ha, hb]
    · rintro labels hl
      obtain ⟨⟨a, ha, -⟩, -⟩ := h.noted labels hl
      cases ha
  | some p =>
    have hp := h.rep_mem p hrep
    rw [add_some hrep]
    refine ⟨?_, by simp, ?_, ?_⟩
    · rintro q hq
      cases hq
      rcases hkeep p c with hk | hk
      · rw [hk]; exact List.mem_append_left _ hp
      · rw [hk]; simp
    · intro hn a ha b hb
      split at hn
      · cases hn
      · rename_i hpc
        rw [not_not] at hpc
        -- every member agrees with the representative
        have hall : ∀ a ∈ l ++ [c], content a = content p := by
          intro a ha
          rcases List.mem_append.mp ha with ha | ha
          · exact h.agree hn a ha p hp
          · rw [List.mem_singleton.mp ha, hpc]
        rw [hall a ha, hall b hb]
    · intro labels hl
      split at hl
      · rename_i hpc
        cases hl
        refine ⟨⟨p, List.mem_append_left _ hp, c, by simp, hpc⟩, fun x => ?_⟩
        simp only [List.mem_append, List.mem_cons, List.not_mem_nil, or_false]
        constructor
        · rintro (hx | rfl | rfl)
          · cases hn : s.noted with
            | none => rw [hn] at hx; cases hx
            | some labels =>
              rw [hn] at hx
              obtain ⟨a, ha, hax⟩ := ((h.noted labels hn).2 x).mp hx
              exact ⟨a, Or.inl ha, hax⟩
          · exact ⟨p, Or.inl hp, rfl⟩
          · exact ⟨c, Or.inr rfl, rfl⟩
        · rintro ⟨a, ha | rfl, rfl⟩
          · cases hn : s.noted with
            | none => exact Or.inr (Or.inl (hlabel a p (h.agree hn a ha p hp)))
            | some labels => exact Or.inl (((h.noted labels hn).2 _).mpr ⟨a, ha, rfl⟩)
          · exact Or.inr (Or.inr rfl)
      · rename_i hpc
        rw [not_not] at hpc
        obtain ⟨⟨a, ha, b, hb, hab⟩, hmem⟩ := h.noted labels hl
        refine ⟨⟨a, List.mem_append_left _ ha, b, List.mem_append_left _ hb, hab⟩, fun x => ?_⟩
        rw [hmem]
        constructor
        · rintro ⟨a, ha, hx⟩; exact ⟨a, List.mem_append_left _ ha, hx⟩
        · rintro ⟨a, ha, hx⟩
          rcases List.mem_append.mp ha with ha | ha
          · exact ⟨a, ha, hx⟩
          · rw [List.mem_singleton] at ha
            subst ha
            exact ⟨p, hp, (hlabel p a hpc).trans hx⟩

theorem Saw.foldl (hlabel : ∀ a b, content a = content b → label a = label b)
    (hkeep : ∀ p c, keep p c = p ∨ keep p c = c) : ∀ (l : List α) {s : Scan α β} {l₀ : List α},
    Saw content label s l₀ → Saw content label (l.foldl (Scan.add content label keep) s) (l₀ ++ l)
  | [], s, l₀, h => by simpa using h
  | c :: l, s, l₀, h => by
    have := Saw.foldl hlabel hkeep l (h.add hlabel hkeep c)
    rwa [List.append_assoc] at this

end

end Scan

end Winner
