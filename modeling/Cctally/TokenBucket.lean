import Mathlib.Algebra.Order.Group.Defs
import Mathlib.Algebra.Order.BigOperators.Group.List
import Mathlib.Algebra.Order.Group.MinMax
import Mathlib.Tactic.Abel

/-!
# Token buckets with debt

A bucket's level is at most `credit`, grows by at most what the clock grants, and
falls by each amount spent, below zero if need be. `Covered` bounds the level by
everything spent since any earlier moment, so an amount spent from a level that
is not negative was covered by the credit and the grant. A level that is cut off
at `floor` forgets the part of a debt below it.
-/

namespace TokenBucket

variable {T A : Type*}

structure Spend (T A : Type*) where
  time : T
  amount : A

def spent [AddMonoid A] (l : List (Spend T A)) : A := (l.map Spend.amount).sum

theorem spent_snoc [AddMonoid A] (l : List (Spend T A)) (o : Spend T A) : spent (l ++ [o]) = spent l + o.amount := by
  simp [spent]

structure Grant (T A : Type*) [LinearOrder T] [AddCommGroup A] [LinearOrder A] where
  between : T → T → A
  nonneg : ∀ {a b}, a ≤ b → 0 ≤ between a b
  add_le : ∀ {a b c}, a ≤ b → b ≤ c → between a b + between b c ≤ between a c

section
variable [LinearOrder T] [AddCommGroup A] [LinearOrder A]
variable (grant : Grant T A) (credit floor : A)

structure Covered (level : A) (now : T) (past : List (Spend T A)) : Prop where
  before : ∀ o ∈ past, o.time ≤ now
  bound : ∀ o mid, (o :: mid) <:+ past →
    level ≤ max (credit - spent (o :: mid)) floor + grant.between o.time now

variable {grant credit floor} {level level' : A} {now later : T} {past : List (Spend T A)}

theorem covered_nil (level : A) (now : T) : Covered grant credit floor level now [] where
  before := by simp
  bound o mid h := by simp at h

variable [IsOrderedAddMonoid A]

theorem Covered.wait (h : Covered grant credit floor level now past) (hle : now ≤ later)
    (hl : level' ≤ level + grant.between now later) : Covered grant credit floor level' later past where
  before o ho := (h.before o ho).trans hle
  bound o mid hs := by
    have hb := h.bound o mid hs
    have ho : o.time ≤ now := h.before o (hs.subset List.mem_cons_self)
    calc level' ≤ level + grant.between now later := hl
      _ ≤ max (credit - spent (o :: mid)) floor + grant.between o.time now + grant.between now later := by
        apply add_le_add_left hb
      _ ≤ max (credit - spent (o :: mid)) floor + grant.between o.time later := by
        rw [add_assoc]; exact add_le_add_right (grant.add_le ho hle) _

theorem Covered.clamp (h : Covered grant credit floor level now past) (hl : level' ≤ max level floor) :
    Covered grant credit floor level' now past where
  before := h.before
  bound o mid hs := by
    have hb := h.bound o mid hs
    have hg := grant.nonneg (h.before o (hs.subset List.mem_cons_self))
    refine hl.trans (max_le hb ?_)
    exact (le_max_right _ _).trans (le_add_of_nonneg_right hg)

/-- **Spending keeps the level covered**: what is spent now counts against every moment
before, and against this one. -/
theorem Covered.spend (h : Covered grant credit floor level now past) (hc : level ≤ credit) {amount : A}
    (ha : 0 ≤ amount) : Covered grant credit floor (level - amount) now (past ++ [⟨now, amount⟩]) where
  before o ho := by
    rcases List.mem_append.1 ho with ho | ho
    · exact h.before o ho
    · rw [List.mem_singleton.1 ho]
  bound o mid hs := by
    rcases List.suffix_concat_iff.1 hs with ht | ⟨t, ht, hp⟩
    · nomatch ht
    cases t with
    | nil =>
      obtain ⟨rfl, rfl⟩ := List.cons.inj ht
      have hg := grant.nonneg (le_refl now)
      calc level - amount ≤ credit - amount := sub_le_sub_right hc _
        _ = credit - spent [⟨now, amount⟩] := by simp [spent]
        _ ≤ max (credit - spent [⟨now, amount⟩]) floor := le_max_left _ _
        _ ≤ _ := le_add_of_nonneg_right hg
    | cons o' mid' =>
      obtain ⟨rfl, rfl⟩ := List.cons.inj ht
      have hb := h.bound o mid' hp
      have hm : max (credit - spent (o :: mid')) floor - amount ≤
          max (credit - spent (o :: (mid' ++ [⟨now, amount⟩]))) floor := by
        rw [← List.cons_append, spent_snoc, ← sub_sub, ← max_sub_sub_right]
        exact max_le_max_left _ (sub_le_self _ ha)
      calc level - amount
          ≤ max (credit - spent (o :: mid')) floor + grant.between o.time now - amount := sub_le_sub_right hb _
        _ = max (credit - spent (o :: mid')) floor - amount + grant.between o.time now := by abel
        _ ≤ _ := add_le_add_left hm _

/-- **What was spent since any earlier moment**, up to a level that is not negative, was
covered by the credit and the grant, where the floor is too deep to be repaid in between. -/
theorem Covered.spent_le (h : Covered grant credit floor level now past) (hl : 0 ≤ level) {o : Spend T A}
    {mid : List (Spend T A)} (hs : (o :: mid) <:+ past) (hf : floor + grant.between o.time now < 0) :
    spent (o :: mid) ≤ credit + grant.between o.time now := by
  have hb := h.bound o mid hs
  rw [← max_add_add_right, le_max_iff] at hb
  rcases hb with hb | hb
  · have := hl.trans hb
    rwa [sub_add_eq_add_sub, sub_nonneg] at this
  · exact absurd (hl.trans hb) (not_le.2 hf)

end

end TokenBucket
