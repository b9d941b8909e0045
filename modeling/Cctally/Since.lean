import Mathlib.Data.List.Basic

/-!
# Properties of a history

A history is the list of the inputs so far. A property of one input is about it
and the inputs before it; it may hold throughout a history, or since another did.
-/

namespace Cctally

variable {α : Type*} {P P' Q Q' : List α → α → Prop} {l : List α} {e : α}

def Throughout (Q : List α → α → Prop) (l : List α) : Prop := ∀ pre e rest, l = pre ++ e :: rest → Q pre e

/-- `P` of some input, and `Q` of every input after it. -/
def Since (P Q : List α → α → Prop) (l : List α) : Prop :=
  ∃ pre e rest, l = pre ++ e :: rest ∧ P pre e ∧ Throughout (fun mid f => Q (pre ++ e :: mid) f) rest

theorem snoc_eq_append_cons {pre rest : List α} {f : α} (h : l ++ [e] = pre ++ f :: rest) :
    (rest = [] ∧ pre = l ∧ f = e) ∨ ∃ tail, rest = tail ++ [e] ∧ l = pre ++ f :: tail := by
  rcases List.eq_nil_or_concat rest with rfl | ⟨tail, g, rfl⟩
  · obtain ⟨hl, he⟩ := List.append_inj' h rfl
    exact .inl ⟨rfl, hl.symm, (List.singleton_inj.1 he).symm⟩
  · rw [List.concat_eq_append, ← List.cons_append, ← List.append_assoc] at h
    obtain ⟨hl, he⟩ := List.append_inj' h rfl
    exact .inr ⟨tail, by rw [List.concat_eq_append, List.singleton_inj.1 he], hl⟩

theorem throughout_nil : Throughout Q [] := by
  intro pre e rest h
  simp at h

theorem throughout_snoc : Throughout Q (l ++ [e]) ↔ Throughout Q l ∧ Q l e := by
  constructor
  · intro h
    refine ⟨fun pre f rest hl => h pre f (rest ++ [e]) (by rw [hl]; simp), h l e [] rfl⟩
  · rintro ⟨h, he⟩ pre f rest hl
    obtain ⟨-, rfl, rfl⟩ | ⟨tail, -, hl⟩ := snoc_eq_append_cons hl
    · exact he
    · exact h pre f tail hl

/-- **Since, one input later**. -/
theorem since_snoc : Since P Q (l ++ [e]) ↔ P l e ∨ Since P Q l ∧ Q l e := by
  constructor
  · rintro ⟨pre, f, rest, hl, hP, hQ⟩
    obtain ⟨-, rfl, rfl⟩ | ⟨tail, rfl, rfl⟩ := snoc_eq_append_cons hl
    · exact .inl hP
    · obtain ⟨hQ, he⟩ := throughout_snoc.1 hQ
      exact .inr ⟨⟨pre, f, tail, rfl, hP, hQ⟩, he⟩
  · rintro (hP | ⟨⟨pre, f, rest, rfl, hP, hQ⟩, he⟩)
    · exact ⟨l, e, [], rfl, hP, throughout_nil⟩
    · exact ⟨pre, f, rest ++ [e], by simp, hP, throughout_snoc.2 ⟨hQ, he⟩⟩

theorem Since.now (h : P l e) : Since P Q (l ++ [e]) := since_snoc.2 (.inl h)

theorem Since.later (h : Since P Q l) (he : Q l e) : Since P Q (l ++ [e]) := since_snoc.2 (.inr ⟨h, he⟩)

end Cctally
