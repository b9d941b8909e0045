import Mathlib.Data.List.Basic
import Mathlib.Logic.Function.Basic

/-!
# Writing behind

Live values of keys, a copy of them at rest, and the list of the keys that are
marked. A change marks what it changes; the copy is then right outside the marks,
and writing the marked keys makes it right everywhere.
-/

namespace Cctally

variable {κ α ρ : Type*}

def Behind (rest live : κ → α) (marks : List κ) : Prop := ∀ k, k ∉ marks → rest k = live k

def Marked (live live' : κ → α) (marks marks' : List κ) : Prop := ∀ k, k ∉ marks' → k ∉ marks ∧ live' k = live k

theorem Marked.refl (live : κ → α) (marks : List κ) : Marked live live marks marks := fun _ h => ⟨h, rfl⟩

theorem Marked.trans {live live' live'' : κ → α} {marks marks' marks'' : List κ} (h : Marked live live' marks marks')
    (h' : Marked live' live'' marks' marks'') : Marked live live'' marks marks'' := by
  intro k hk
  obtain ⟨hk', he'⟩ := h' k hk
  obtain ⟨hk, he⟩ := h k hk'
  exact ⟨hk, he'.trans he⟩

theorem Marked.map {β : Type*} (g : α → β) {live live' : κ → α} {marks marks' : List κ}
    (h : Marked live live' marks marks') : Marked (fun k => g (live k)) (fun k => g (live' k)) marks marks' := by
  intro k hk
  obtain ⟨hk, he⟩ := h k hk
  exact ⟨hk, congrArg g he⟩

theorem marked_append {live live' : κ → α} {l marks : List κ} (h : ∀ k, k ∉ l → live' k = live k) :
    Marked live live' marks (l ++ marks) := by
  intro k hk
  rw [List.mem_append, not_or] at hk
  exact ⟨hk.2, h k hk.1⟩

theorem Behind.after {rest live live' : κ → α} {marks marks' : List κ} (h : Behind rest live marks)
    (hm : Marked live live' marks marks') : Behind rest live' marks' := by
  intro k hk
  obtain ⟨hk, he⟩ := hm k hk
  rw [h k hk, he]

section
variable [DecidableEq κ]

theorem look_foldl (look : ρ → κ → α) (write : ρ → κ → ρ) (value : κ → α)
    (h : ∀ r k k', look (write r k) k' = if k = k' then value k' else look r k') (k : κ) : ∀ (l : List κ) (r : ρ),
      look (l.foldl write r) k = if k ∈ l then value k else look r k
  | [], r => by simp
  | j :: l, r => by
    rw [List.foldl_cons, look_foldl look write value h k l, h]
    by_cases hj : j = k
    · subst hj; simp
    · simp [hj, Ne.symm hj]

/-- **The marked keys written, the copy is right.** -/
theorem Behind.flush {rest rest' live : κ → α} {marks : List κ} (h : Behind rest live marks)
    (hw : ∀ k, rest' k = if k ∈ marks then live k else rest k) : rest' = live := by
  funext k
  rw [hw]
  split
  · rfl
  · rename_i hk
    exact h k hk

end

end Cctally
