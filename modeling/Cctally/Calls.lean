import Mathlib.Data.List.Basic

/-!
# Calls that may raise and keep their state

A call on a state returns or raises, and leaves a state in both cases: what a
call did before it raised stays done.
-/

abbrev Call (σ ε : Type) := ExceptT ε (StateM σ)

namespace Call

variable {σ ε α β : Type}

def on (m : Call σ ε α) (s : σ) : Except ε α × σ := StateT.run (ExceptT.run m) s

def ofExcept (a : Except ε α) : Call σ ε α := ExceptT.mk (pure a)

@[simp] theorem on_ofExcept (a : Except ε α) (s : σ) : (ofExcept a : Call σ ε α).on s = (a, s) := rfl

@[simp] theorem on_pure (a : α) (s : σ) : (pure a : Call σ ε α).on s = (.ok a, s) := rfl

@[simp] theorem on_modify (f : σ → σ) (s : σ) : (modify f : Call σ ε PUnit).on s = (.ok ⟨⟩, f s) := rfl

@[simp] theorem on_get (s : σ) : (get : Call σ ε σ).on s = (.ok s, s) := rfl

@[simp] theorem on_set (t s : σ) : (set t : Call σ ε PUnit).on s = (.ok ⟨⟩, t) := rfl

theorem on_bind (m : Call σ ε α) (f : α → Call σ ε β) (s : σ) :
    (m >>= f).on s = match m.on s with
      | (.ok a, s') => (f a).on s'
      | (.error e, s') => (.error e, s') := by
  show StateT.run (ExceptT.run (ExceptT.bind m f)) s = _
  simp only [ExceptT.bind, ExceptT.run, ExceptT.mk, StateT.run, bind, StateT.bind, on]
  cases h : m s with
  | mk a s' => cases a <;> rfl

theorem on_bind_of_ok {m : Call σ ε α} {f : α → Call σ ε β} {s s' : σ} {a : α} (h : m.on s = (.ok a, s')) :
    (m >>= f).on s = (f a).on s' := by
  rw [on_bind, h]

theorem on_bind_of_error {m : Call σ ε α} {f : α → Call σ ε β} {s s' : σ} {e : ε} (h : m.on s = (.error e, s')) :
    (m >>= f).on s = (.error e, s') := by
  rw [on_bind, h]

theorem on_bind_eq_ok {m : Call σ ε α} {f : α → Call σ ε β} {s s' : σ} {b : β} :
    (m >>= f).on s = (.ok b, s') ↔ ∃ a s₁, m.on s = (.ok a, s₁) ∧ (f a).on s₁ = (.ok b, s') := by
  constructor
  · intro h
    cases hm : m.on s with
    | mk r s₁ =>
      cases r with
      | ok a => exact ⟨a, s₁, rfl, (on_bind_of_ok hm).symm.trans h⟩
      | error e => exact absurd ((on_bind_of_error hm).symm.trans h) (by simp)
  · rintro ⟨a, s₁, hm, hf⟩
    exact (on_bind_of_ok hm).trans hf

theorem on_bind_congr {m : Call σ ε α} {f g : α → Call σ ε β} {s : σ}
    (h : ∀ a s₁, m.on s = (.ok a, s₁) → (f a).on s₁ = (g a).on s₁) : (m >>= f).on s = (m >>= g).on s := by
  cases hm : m.on s with
  | mk r s₁ =>
    cases r with
    | ok a => rw [on_bind_of_ok hm, on_bind_of_ok hm, h a s₁ hm]
    | error e => rw [on_bind_of_error hm, on_bind_of_error hm]

theorem on_bind_keeps {m : Call σ ε α} {f : α → Call σ ε β} {s : σ} {p : σ → Prop} (hm : p (m.on s).2)
    (hf : ∀ a s₁, m.on s = (.ok a, s₁) → p ((f a).on s₁).2) : p ((m >>= f).on s).2 := by
  cases h : m.on s with
  | mk r s₁ =>
    rw [h] at hm
    cases r with
    | ok a => rw [on_bind_of_ok h]; exact hf a s₁ h
    | error e => rw [on_bind_of_error h]; exact hm

theorem on_foldlM_congr {f g : β → α → Call σ ε β} : ∀ {l : List α} {b : β} {s : σ},
    (∀ a ∈ l, ∀ b, f b a = g b a) → (l.foldlM f b).on s = (l.foldlM g b).on s
  | [], _, _, _ => rfl
  | a :: l, b, s, h => by
    rw [List.foldlM_cons, List.foldlM_cons, h a List.mem_cons_self]
    exact on_bind_congr fun b' s₁ _ => on_foldlM_congr fun a' ha' => h a' (List.mem_cons_of_mem _ ha')

/-- From a state of the invariant the call ends in one, and answers as `q` says. -/
def Ends (inv : σ → Prop) (m : Call σ ε α) (q : Except ε α → Prop) : Prop :=
  ∀ s, inv s → q (m.on s).1 ∧ inv (m.on s).2

section
variable {inv : σ → Prop} {m : Call σ ε α} {q : Except ε α → Prop} {q' : Except ε β → Prop}

theorem Ends.pure {a : α} (h : q (.ok a)) : Ends inv (pure a) q := fun _ hs => ⟨h, hs⟩

theorem Ends.ofExcept {r : Except ε α} (h : q r) : Ends inv (ofExcept r) q := fun _ hs => ⟨h, hs⟩

theorem Ends.mono {q₁ : Except ε α → Prop} (h : Ends inv m q) (hq : ∀ r, q r → q₁ r) : Ends inv m q₁ :=
  fun s hs => ⟨hq _ (h s hs).1, (h s hs).2⟩

theorem Ends.bind {f : α → Call σ ε β} (hm : Ends inv m q) (hok : ∀ a, q (.ok a) → Ends inv (f a) q')
    (herror : ∀ e, q (.error e) → q' (.error e)) : Ends inv (m >>= f) q' := by
  intro s hs
  obtain ⟨hq, hs₁⟩ := hm s hs
  cases h : m.on s with
  | mk r s₁ =>
    rw [h] at hq hs₁
    cases r with
    | ok a =>
      rw [on_bind_of_ok h]
      exact hok a hq s₁ hs₁
    | error e =>
      rw [on_bind_of_error h]
      exact ⟨herror e hq, hs₁⟩

end

end Call
