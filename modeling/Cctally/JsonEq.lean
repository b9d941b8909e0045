import Cctally.Json
import Mathlib.Data.Rat.Defs

/-!
# Equality of decoded values

`==` on what `json.loads` returns: numbers and booleans compare by value, lists
and dictionaries item by item, and a NaN equals nothing. It is symmetric and
transitive, and reflexive on every number that is not a NaN.
-/

namespace Json

/-- What floating point says: the number a finite float is, and whether two amounts lie more than
the tolerance apart. -/
structure Floats where
  value : String → Option ℚ
  drifts : Json → Json → Bool

inductive Scalar where
  | null
  | number (q : ℚ)
  | infinite (repr : String)
  | str (s : String)
  deriving DecidableEq

section
variable (fl : Floats)

def scalar : Json → Option Scalar
  | .null => some .null
  | .bool b => some (.number (if b then 1 else 0))
  | .num n => some (.number n)
  | .float r =>
    match fl.value r with
    | some q => some (.number q)
    | none => if r = "nan" then none else some (.infinite r)
  | .str s => some (.str s)
  | .arr _ => none
  | .obj _ => none

def eqScalar (a b : Json) : Bool := (scalar fl a).isSome && scalar fl a == scalar fl b

mutual

def eq : Json → Json → Bool
  | .arr xs, .arr ys => eqItems xs ys
  | .arr _, _ => false
  | .obj xs, .obj ys => eqFields xs ys
  | .obj _, _ => false
  | .null, b => eqScalar fl .null b
  | .bool v, b => eqScalar fl (.bool v) b
  | .num n, b => eqScalar fl (.num n) b
  | .float r, b => eqScalar fl (.float r) b
  | .str s, b => eqScalar fl (.str s) b

def eqItems : List Json → List Json → Bool
  | [], [] => true
  | x :: xs, y :: ys => eq x y && eqItems xs ys
  | _, _ => false

def eqFields : List (String × Json) → List (String × Json) → Bool
  | [], [] => true
  | (k, x) :: xs, (l, y) :: ys => k == l && eq x y && eqFields xs ys
  | _, _ => false

end

theorem eqScalar_iff {a b : Json} : eqScalar fl a b = true ↔ ∃ s, scalar fl a = some s ∧ scalar fl b = some s := by
  unfold eqScalar
  rw [Bool.and_eq_true, Option.isSome_iff_exists, beq_iff_eq]
  refine ⟨fun ⟨⟨s, hs⟩, heq⟩ => ⟨s, hs, heq ▸ hs⟩, fun ⟨s, ha, hb⟩ => ⟨⟨s, ha⟩, by rw [ha, hb]⟩⟩

theorem eq_of_scalar {a b : Json} {s : Scalar} (ha : scalar fl a = some s) : eq fl a b = eqScalar fl a b := by
  cases a with
  | arr xs => cases ha
  | obj xs => cases ha
  | _ => simp only [eq]

theorem eq_scalar_iff {a b : Json} {s : Scalar} (ha : scalar fl a = some s) :
    eq fl a b = true ↔ scalar fl b = some s := by
  rw [eq_of_scalar fl ha, eqScalar_iff, ha]
  refine ⟨fun ⟨t, ht, hb⟩ => ht ▸ hb, fun hb => ⟨s, rfl, hb⟩⟩

theorem eq_refl_of_scalar {a : Json} {s : Scalar} (ha : scalar fl a = some s) : eq fl a a = true :=
  (eq_scalar_iff fl ha).2 ha

theorem eq_cases {a b : Json} (h : eq fl a b = true) :
    (∃ xs ys, a = .arr xs ∧ b = .arr ys ∧ eqItems fl xs ys = true) ∨
      (∃ xs ys, a = .obj xs ∧ b = .obj ys ∧ eqFields fl xs ys = true) ∨
      ∃ s, scalar fl a = some s ∧ scalar fl b = some s := by
  cases a with
  | arr xs =>
    cases b with
    | arr ys => exact .inl ⟨xs, ys, rfl, rfl, by simpa only [eq] using h⟩
    | _ => simp [eq] at h
  | obj xs =>
    cases b with
    | obj ys => exact .inr (.inl ⟨xs, ys, rfl, rfl, by simpa only [eq] using h⟩)
    | _ => simp [eq] at h
  | _ =>
    simp only [eq] at h
    exact .inr (.inr ((eqScalar_iff fl).1 h))

mutual

theorem eq_symm : ∀ {a b : Json}, eq fl a b = true → eq fl b a = true
  | .arr xs, b, h => by
    obtain ⟨_, ys, heq, rfl, hitems⟩ | ⟨_, _, heq, -⟩ | ⟨_, heq, -⟩ := eq_cases fl h
    · cases heq
      simp only [eq]
      exact eqItems_symm hitems
    · cases heq
    · cases heq
  | .obj xs, b, h => by
    obtain ⟨_, _, heq, -⟩ | ⟨_, ys, heq, rfl, hfields⟩ | ⟨_, heq, -⟩ := eq_cases fl h
    · cases heq
    · cases heq
      simp only [eq]
      exact eqFields_symm hfields
    · cases heq
  | .null, b, h => (eq_scalar_iff fl ((eq_scalar_iff fl rfl).1 h)).2 rfl
  | .bool v, b, h => (eq_scalar_iff fl ((eq_scalar_iff fl rfl).1 h)).2 rfl
  | .num n, b, h => (eq_scalar_iff fl ((eq_scalar_iff fl rfl).1 h)).2 rfl
  | .float r, b, h => by
    obtain ⟨_, _, heq, -⟩ | ⟨_, _, heq, -⟩ | ⟨s, ha, hb⟩ := eq_cases fl h
    · cases heq
    · cases heq
    · exact (eq_scalar_iff fl hb).2 ha
  | .str s, b, h => (eq_scalar_iff fl ((eq_scalar_iff fl rfl).1 h)).2 rfl

theorem eqItems_symm : ∀ {xs ys : List Json}, eqItems fl xs ys = true → eqItems fl ys xs = true
  | [], [], _ => rfl
  | x :: xs, y :: ys, h => by
    simp only [eqItems, Bool.and_eq_true] at h ⊢
    exact ⟨eq_symm h.1, eqItems_symm h.2⟩

theorem eqFields_symm : ∀ {xs ys : List (String × Json)}, eqFields fl xs ys = true → eqFields fl ys xs = true
  | [], [], _ => rfl
  | (k, x) :: xs, (l, y) :: ys, h => by
    simp only [eqFields, Bool.and_eq_true, beq_iff_eq] at h ⊢
    exact ⟨⟨h.1.1.symm, eq_symm h.1.2⟩, eqFields_symm h.2⟩

end

mutual

theorem eq_trans : ∀ {a b c : Json}, eq fl a b = true → eq fl b c = true → eq fl a c = true
  | .arr xs, b, c, h, h' => by
    obtain ⟨_, ys, heq, rfl, hitems⟩ | ⟨_, _, heq, -⟩ | ⟨_, heq, -⟩ := eq_cases fl h
    · cases heq
      obtain ⟨_, zs, heq, rfl, hitems'⟩ | ⟨_, _, heq, -⟩ | ⟨_, heq, -⟩ := eq_cases fl h'
      · cases heq
        simp only [eq]
        exact eqItems_trans hitems hitems'
      · cases heq
      · cases heq
    · cases heq
    · cases heq
  | .obj xs, b, c, h, h' => by
    obtain ⟨_, _, heq, -⟩ | ⟨_, ys, heq, rfl, hfields⟩ | ⟨_, heq, -⟩ := eq_cases fl h
    · cases heq
    · cases heq
      obtain ⟨_, _, heq, -⟩ | ⟨_, zs, heq, rfl, hfields'⟩ | ⟨_, heq, -⟩ := eq_cases fl h'
      · cases heq
      · cases heq
        simp only [eq]
        exact eqFields_trans hfields hfields'
      · cases heq
    · cases heq
  | .null, b, c, h, h' => by
    have hb := (eq_scalar_iff fl (s := .null) rfl).1 h
    exact (eq_scalar_iff fl rfl).2 ((eq_scalar_iff fl hb).1 h')
  | .bool v, b, c, h, h' => by
    have hb := (eq_scalar_iff fl rfl).1 h
    exact (eq_scalar_iff fl rfl).2 ((eq_scalar_iff fl hb).1 h')
  | .num n, b, c, h, h' => by
    have hb := (eq_scalar_iff fl rfl).1 h
    exact (eq_scalar_iff fl rfl).2 ((eq_scalar_iff fl hb).1 h')
  | .float r, b, c, h, h' => by
    obtain ⟨_, _, heq, -⟩ | ⟨_, _, heq, -⟩ | ⟨s, ha, hb⟩ := eq_cases fl h
    · cases heq
    · cases heq
    · exact (eq_scalar_iff fl ha).2 ((eq_scalar_iff fl hb).1 h')
  | .str s, b, c, h, h' => by
    have hb := (eq_scalar_iff fl rfl).1 h
    exact (eq_scalar_iff fl rfl).2 ((eq_scalar_iff fl hb).1 h')

theorem eqItems_trans : ∀ {xs ys zs : List Json}, eqItems fl xs ys = true → eqItems fl ys zs = true →
    eqItems fl xs zs = true
  | [], [], [], _, _ => rfl
  | x :: xs, y :: ys, z :: zs, h, h' => by
    simp only [eqItems, Bool.and_eq_true] at h h' ⊢
    exact ⟨eq_trans h.1 h'.1, eqItems_trans h.2 h'.2⟩

theorem eqFields_trans : ∀ {xs ys zs : List (String × Json)}, eqFields fl xs ys = true → eqFields fl ys zs = true →
    eqFields fl xs zs = true
  | [], [], [], _, _ => rfl
  | (k, x) :: xs, (l, y) :: ys, (m, z) :: zs, h, h' => by
    simp only [eqFields, Bool.and_eq_true, beq_iff_eq] at h h' ⊢
    exact ⟨⟨h.1.1.trans h'.1.1, eq_trans h.1.2 h'.1.2⟩, eqFields_trans h.2 h'.2⟩

end

/-- What a dictionary or a set looks a value up by. Identity comes first there, and the decoder has one NaN; a list
or a dictionary has no hash. -/
def key : Json → Option Scalar
  | .float r => some (((fl.value r).map Scalar.number).getD (.infinite r))
  | v => scalar fl v

def sameScalar (a b : Json) : Bool := (key fl a).isSome && key fl a == key fl b

mutual

/-- `==` on two items of a container, which compares them by identity first. -/
def same : Json → Json → Bool
  | .arr xs, .arr ys => sameItems xs ys
  | .arr _, _ => false
  | .obj xs, .obj ys => sameFields xs ys
  | .obj _, _ => false
  | .null, b => sameScalar fl .null b
  | .bool v, b => sameScalar fl (.bool v) b
  | .num n, b => sameScalar fl (.num n) b
  | .float r, b => sameScalar fl (.float r) b
  | .str s, b => sameScalar fl (.str s) b

def sameItems : List Json → List Json → Bool
  | [], [] => true
  | x :: xs, y :: ys => same x y && sameItems xs ys
  | _, _ => false

def sameFields : List (String × Json) → List (String × Json) → Bool
  | [], [] => true
  | (k, x) :: xs, (l, y) :: ys => k == l && same x y && sameFields xs ys
  | _, _ => false

end

mutual

theorem same_refl : ∀ a : Json, same fl a a = true
  | .arr xs => by
    simp only [same]
    exact sameItems_refl xs
  | .obj xs => by
    simp only [same]
    exact sameFields_refl xs
  | .null => by simp [same, sameScalar, key, scalar]
  | .bool v => by simp [same, sameScalar, key, scalar]
  | .num n => by simp [same, sameScalar, key, scalar]
  | .float r => by simp [same, sameScalar, key]
  | .str s => by simp [same, sameScalar, key, scalar]

theorem sameItems_refl : ∀ xs : List Json, sameItems fl xs xs = true
  | [] => by simp only [sameItems]
  | x :: xs => by
    simp only [sameItems, Bool.and_eq_true]
    exact ⟨same_refl x, sameItems_refl xs⟩

theorem sameFields_refl : ∀ xs : List (String × Json), sameFields fl xs xs = true
  | [] => by simp only [sameFields]
  | (k, x) :: xs => by
    simp only [sameFields, Bool.and_eq_true, beq_self_eq_true, true_and]
    exact ⟨same_refl x, sameFields_refl xs⟩

end

end

end Json
