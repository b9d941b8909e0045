import Mathlib.Data.List.Forall2

/-!
# Computations that may raise

A computation in `Except ε` either returns or raises. These lemmas take a
returned value apart along the binds, maps and loops that produced it.
-/

namespace Except

variable {ε α β γ : Type}

@[simp] theorem pure_eq_ok {a b : α} : (pure a : Except ε α) = .ok b ↔ b = a := by
  simp [pure, Except.pure, eq_comm]

@[simp] theorem throw_eq_ok {e : ε} {b : α} : (throw e : Except ε α) = .ok b ↔ False := by
  simp [throw, throwThe, MonadExceptOf.throw]

theorem bind_eq_ok {x : Except ε α} {f : α → Except ε β} {b : β} :
    x >>= f = .ok b ↔ ∃ a, x = .ok a ∧ f a = .ok b := by
  cases x <;> simp [bind, Except.bind]

theorem bind_eq_error {x : Except ε α} {f : α → Except ε β} {e : ε} :
    x >>= f = .error e ↔ x = .error e ∨ ∃ a, x = .ok a ∧ f a = .error e := by
  cases x <;> simp [bind, Except.bind]

theorem map_eq_ok {x : Except ε α} {f : α → β} {b : β} : f <$> x = .ok b ↔ ∃ a, x = .ok a ∧ f a = b := by
  cases x <;> simp [Functor.map, Except.map]

theorem ok_bind {a : α} {f : α → Except ε β} : (Except.ok a >>= f) = f a := rfl

theorem ite_throw_eq_ok {p : Prop} [Decidable p] {e : ε} {x : Except ε α} {b : α} :
    (if p then throw e else x) = .ok b ↔ ¬ p ∧ x = .ok b := by
  split <;> simp_all

theorem guard_eq_ok {p : Prop} [Decidable p] {e : ε} {f : γ → Except ε α} {x : Except ε α} {b : α} :
    (if p then throw e >>= f else x) = .ok b ↔ ¬ p ∧ x = .ok b := by
  split
  · rename_i hp
    rw [bind_eq_ok]
    simp [hp]
  · rename_i hp
    simp [hp]

theorem mapM_cons {f : α → Except ε β} {a : α} {l : List α} {r : List β} :
    (a :: l).mapM f = .ok r ↔ ∃ b bs, f a = .ok b ∧ l.mapM f = .ok bs ∧ r = b :: bs := by
  simp only [List.mapM_cons, bind_eq_ok, pure_eq_ok]
  constructor
  · rintro ⟨b, hb, bs, hbs, rfl⟩; exact ⟨b, bs, hb, hbs, rfl⟩
  · rintro ⟨b, bs, hb, hbs, rfl⟩; exact ⟨b, hb, bs, hbs, rfl⟩

theorem mapM_eq_ok {f : α → Except ε β} : ∀ {l : List α} {r : List β},
    l.mapM f = .ok r ↔ List.Forall₂ (fun a b => f a = .ok b) l r
  | [], r => by rw [List.mapM_nil, pure_eq_ok, List.forall₂_nil_left_iff]
  | a :: l, r => by
    rw [mapM_cons, List.forall₂_cons_left_iff]
    simp only [mapM_eq_ok (l := l)]

theorem mem_of_mapM {f : α → Except ε β} : ∀ {l : List α} {r : List β}, l.mapM f = .ok r →
    ∀ b, b ∈ r ↔ ∃ a ∈ l, f a = .ok b
  | [], r, h, b => by
    rw [List.mapM_nil, pure_eq_ok] at h
    simp [h]
  | a :: l, r, h, b => by
    obtain ⟨x, xs, hx, hxs, rfl⟩ := mapM_cons.mp h
    simp [mem_of_mapM hxs, hx, eq_comm]

theorem ok_of_mapM {f : α → Except ε β} : ∀ {l : List α} {r : List β}, l.mapM f = .ok r →
    ∀ a ∈ l, ∃ b ∈ r, f a = .ok b
  | [], _, _, a, ha => by cases ha
  | x :: l, r, h, a, ha => by
    obtain ⟨y, ys, hy, hys, rfl⟩ := mapM_cons.mp h
    obtain rfl | ha := List.mem_cons.mp ha
    · exact ⟨y, List.mem_cons_self .., hy⟩
    · obtain ⟨b, hb, hab⟩ := ok_of_mapM hys a ha
      exact ⟨b, List.mem_cons_of_mem _ hb, hab⟩

theorem map_of_mapM {f : α → Except ε β} {g : β → γ} {k : α → γ} (hf : ∀ a b, f a = .ok b → g b = k a) :
    ∀ {l : List α} {r : List β}, l.mapM f = .ok r → r.map g = l.map k
  | [], r, h => by
    rw [List.mapM_nil, pure_eq_ok] at h
    simp [h]
  | a :: l, r, h => by
    obtain ⟨x, xs, hx, hxs, rfl⟩ := mapM_cons.mp h
    simp [hf a x hx, map_of_mapM hf hxs]

theorem filter_of_mapM {f : α → Except ε β} {g : β → α} {p : β → Bool} {q : α → Bool}
    (hf : ∀ a b, f a = .ok b → g b = a ∧ p b = q a) {l : List α} {r : List β} (h : l.mapM f = .ok r) :
    (r.filter p).map g = l.filter q := by
  have hmap : r.map g = l := by
    rw [map_of_mapM (fun a b hab => (hf a b hab).1) h, List.map_id'']
    exact fun a => rfl
  have hfilter : r.filter p = r.filter (q ∘ g) := by
    refine List.filter_congr fun b hb => ?_
    obtain ⟨a, -, hab⟩ := (mem_of_mapM h b).mp hb
    obtain ⟨hg, hp⟩ := hf a b hab
    rw [hp, Function.comp_apply, hg]
  rw [hfilter, ← List.filter_map, hmap]

theorem mapM_returns {f : α → Except ε β} : ∀ {l : List α}, (∀ a ∈ l, ∃ b, f a = .ok b) → ∃ r, l.mapM f = .ok r
  | [], _ => ⟨[], rfl⟩
  | a :: l, h => by
    obtain ⟨b, hb⟩ := h a (List.mem_cons_self ..)
    obtain ⟨r, hr⟩ := mapM_returns fun x hx => h x (List.mem_cons_of_mem _ hx)
    exact ⟨b :: r, mapM_cons.mpr ⟨b, r, hb, hr, rfl⟩⟩

theorem mapM_append {f : α → Except ε β} {l₁ l₂ : List α} {r : List β} :
    (l₁ ++ l₂).mapM f = .ok r ↔ ∃ r₁ r₂, l₁.mapM f = .ok r₁ ∧ l₂.mapM f = .ok r₂ ∧ r = r₁ ++ r₂ := by
  rw [List.mapM_append, bind_eq_ok]
  simp only [bind_eq_ok, pure_eq_ok]
  constructor
  · rintro ⟨a, ha, b, hb, rfl⟩; exact ⟨a, b, ha, hb, rfl⟩
  · rintro ⟨a, b, ha, hb, rfl⟩; exact ⟨a, ha, b, hb, rfl⟩

theorem mapM_pure {f : α → Except ε β} {g : α → β} {l : List α} (h : ∀ a ∈ l, f a = .ok (g a)) :
    l.mapM f = .ok (l.map g) := by
  rw [mapM_eq_ok, List.forall₂_map_right_iff, List.forall₂_same]
  exact h

theorem foldlM_cons {f : β → α → Except ε β} {b : β} {a : α} {l : List α} {r : β} :
    (a :: l).foldlM f b = .ok r ↔ ∃ b', f b a = .ok b' ∧ l.foldlM f b' = .ok r := by
  rw [List.foldlM_cons, bind_eq_ok]

theorem foldlM_keeps {f : β → α → Except ε β} {p : β → Prop} (h : ∀ b a b', p b → f b a = .ok b' → p b') :
    ∀ {l : List α} {b r : β}, p b → l.foldlM f b = .ok r → p r
  | [], b, r, hb, hr => by
    rw [List.foldlM_nil, pure_eq_ok] at hr
    exact hr ▸ hb
  | a :: l, b, r, hb, hr => by
    obtain ⟨b', hb', hr⟩ := foldlM_cons.mp hr
    exact foldlM_keeps h (h b a b' hb hb') hr

theorem turn_of_foldlM {f : β → α → Except ε β} : ∀ {l : List α} {b r : β}, l.foldlM f b = .ok r →
    ∀ a ∈ l, ∃ b₀ b₁, f b₀ a = .ok b₁
  | [], _, _, _, _, ha => absurd ha List.not_mem_nil
  | a :: l, b, r, h, a', ha' => by
    obtain ⟨b₁, h₁, h⟩ := foldlM_cons.mp h
    rcases List.mem_cons.mp ha' with rfl | ha'
    · exact ⟨b, b₁, h₁⟩
    · exact turn_of_foldlM h a' ha'

theorem foldlM_returns {f : β → α → Except ε β} : ∀ {l : List α} {b : β}, (∀ a ∈ l, ∀ b, ∃ b', f b a = .ok b') →
    ∃ r, l.foldlM f b = .ok r
  | [], b, _ => ⟨b, rfl⟩
  | a :: l, b, h => by
    obtain ⟨b₁, h₁⟩ := h a List.mem_cons_self b
    obtain ⟨r, hr⟩ := foldlM_returns (b := b₁) fun a' ha' => h a' (List.mem_cons_of_mem _ ha')
    exact ⟨r, foldlM_cons.mpr ⟨b₁, h₁, hr⟩⟩

theorem error_of_foldlM {f : β → α → Except ε β} {e : ε} : ∀ {l : List α} {b : β},
    l.foldlM f b = .error e → ∃ a ∈ l, ∃ b', f b' a = .error e
  | [], b, h => by simp [pure, Except.pure] at h
  | a :: l, b, h => by
    rw [List.foldlM_cons] at h
    cases hb : f b a with
    | error e' =>
      rw [hb] at h
      cases h
      exact ⟨a, List.mem_cons_self, b, hb⟩
    | ok b₁ =>
      rw [hb] at h
      obtain ⟨a', ha', b', hb'⟩ := error_of_foldlM h
      exact ⟨a', List.mem_cons_of_mem _ ha', b', hb'⟩

theorem foldlM_pure {f : β → α → Except ε β} {g : β → α → β} : ∀ {l : List α} {b : β},
    (∀ a ∈ l, ∀ b, f b a = .ok (g b a)) → l.foldlM f b = .ok (l.foldl g b)
  | [], _, _ => rfl
  | a :: l, b, h => by
    rw [List.foldlM_cons, h a List.mem_cons_self b, ok_bind, List.foldl_cons]
    exact foldlM_pure fun a' ha' => h a' (List.mem_cons_of_mem _ ha')

theorem foldlM_keeps_mem {f : β → α → Except ε β} {p : β → Prop} : ∀ {l : List α} {b r : β},
    (∀ a ∈ l, ∀ b b', p b → f b a = .ok b' → p b') → p b → l.foldlM f b = .ok r → p r
  | [], b, r, _, hb, hr => by
    rw [List.foldlM_nil, pure_eq_ok] at hr
    exact hr ▸ hb
  | a :: l, b, r, h, hb, hr => by
    obtain ⟨b', hb', hr⟩ := foldlM_cons.mp hr
    exact foldlM_keeps_mem (fun a ha => h a (List.mem_cons_of_mem _ ha)) (h a List.mem_cons_self b b' hb hb') hr

theorem mem_of_filterAuxM {f : α → Except ε Bool} : ∀ {l acc r : List α}, l.filterAuxM f acc = .ok r →
    ∀ a ∈ r, a ∈ l ∨ a ∈ acc
  | [], acc, r, h, a, ha => by
    rw [List.filterAuxM, pure_eq_ok] at h
    exact .inr (h ▸ ha)
  | x :: l, acc, r, h, a, ha => by
    obtain ⟨b, -, h⟩ := bind_eq_ok.mp h
    rcases mem_of_filterAuxM h a ha with ha | ha
    · exact .inl (List.mem_cons_of_mem x ha)
    · cases b with
      | false => exact .inr ha
      | true => exact (List.mem_cons.mp ha).imp (fun hax : a = x => hax ▸ List.mem_cons_self) id

theorem mem_of_filterM {f : α → Except ε Bool} {l r : List α} (h : l.filterM f = .ok r) : ∀ a ∈ r, a ∈ l := by
  obtain ⟨acc, hacc, h⟩ := bind_eq_ok.mp h
  rw [pure_eq_ok] at h
  subst h
  intro a ha
  exact (mem_of_filterAuxM hacc a (List.mem_reverse.mp ha)).resolve_right List.not_mem_nil

theorem filterAuxM_eq {f : α → Except ε Bool} : ∀ (l acc : List α),
    l.filterAuxM f acc = l.filterM f >>= fun r => pure (r.reverse ++ acc)
  | [], acc => rfl
  | a :: l, acc => by
    show (f a >>= fun b => l.filterAuxM f (bif b then a :: acc else acc)) =
      ((f a >>= fun b => l.filterAuxM f (bif b then [a] else [])) >>= fun r => pure r.reverse) >>= _
    cases f a with
    | error e => rfl
    | ok b =>
      simp only [ok_bind]
      rw [filterAuxM_eq l, filterAuxM_eq l]
      cases l.filterM f with
      | error e => rfl
      | ok r => cases b <;> simp [pure, Except.pure, bind, Except.bind]

theorem filterM_cons (f : α → Except ε Bool) (a : α) (l : List α) :
    (a :: l).filterM f = f a >>= fun b => l.filterM f >>= fun r => pure (if b then a :: r else r) := by
  show (f a >>= fun b => l.filterAuxM f (bif b then [a] else [])) >>= (fun r => pure r.reverse) = _
  cases f a with
  | error e => rfl
  | ok b =>
    simp only [ok_bind]
    rw [filterAuxM_eq]
    cases l.filterM f with
    | error e => rfl
    | ok r => cases b <;> simp [pure, Except.pure, bind, Except.bind]

theorem filterM_map {g : γ → α} {f : α → Except ε Bool} : ∀ l : List γ,
    (l.map g).filterM f = l.filterM (fun c => f (g c)) >>= fun r => pure (r.map g)
  | [] => rfl
  | c :: l => by
    rw [List.map_cons, filterM_cons, filterM_cons, filterM_map l]
    cases f (g c) with
    | error e => rfl
    | ok b =>
      simp only [ok_bind]
      cases l.filterM fun c => f (g c) with
      | error e => rfl
      | ok r => cases b <;> rfl

theorem filterM_pure {f : α → Except ε Bool} {p : α → Bool} : ∀ {l : List α}, (∀ a ∈ l, f a = .ok (p a)) →
    l.filterM f = .ok (l.filter p)
  | [], _ => rfl
  | a :: l, h => by
    rw [filterM_cons, h a List.mem_cons_self, filterM_pure fun b hb => h b (List.mem_cons_of_mem _ hb)]
    cases hp : p a with
    | true => rw [List.filter_cons_of_pos hp]; rfl
    | false => rw [List.filter_cons_of_neg (by simp [hp])]; rfl

theorem ok_of_filterM {f : α → Except ε Bool} : ∀ {l r : List α}, l.filterM f = .ok r → ∀ a ∈ l, ∃ b, f a = .ok b
  | [], _, _, _, ha => absurd ha List.not_mem_nil
  | a :: l, r, h, c, hc => by
    rw [filterM_cons] at h
    obtain ⟨b, hb, h⟩ := bind_eq_ok.1 h
    obtain ⟨r', hr, -⟩ := bind_eq_ok.1 h
    rcases List.mem_cons.1 hc with rfl | hc
    · exact ⟨b, hb⟩
    · exact ok_of_filterM hr c hc

theorem filterM_returns {f : α → Except ε Bool} {l : List α} (h : ∀ a ∈ l, ∃ b, f a = .ok b) :
    ∃ r, l.filterM f = .ok r := by
  refine ⟨_, filterM_pure (p := fun a => (f a).toOption.getD false) fun a ha => ?_⟩
  obtain ⟨b, hb⟩ := h a ha
  rw [hb]
  rfl

theorem filter_of_filterM {f : α → Except ε Bool} : ∀ {l r : List α}, l.filterM f = .ok r →
    r = l.filter fun a => f a |>.toOption.getD false
  | [], r, h => by cases h; rfl
  | a :: l, r, h => by
    rw [filterM_cons] at h
    obtain ⟨b, hb, h⟩ := bind_eq_ok.1 h
    obtain ⟨r', hr, h⟩ := bind_eq_ok.1 h
    rw [pure_eq_ok] at h
    subst h
    rw [filter_of_filterM hr, List.filter_cons, hb]
    rfl

def returns (x : Except ε α) (p : α → Bool) : Bool :=
  match x with
  | .ok a => p a
  | .error _ => false

theorem returns_iff {x : Except ε α} {p : α → Bool} : x.returns p = true ↔ ∃ a, x = .ok a ∧ p a = true := by
  cases x <;> simp [returns]

end Except
