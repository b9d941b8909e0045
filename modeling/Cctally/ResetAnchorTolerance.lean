import Cctally.ResetAnchorConverge
import Mathlib.Tactic.Linarith
import Mathlib.Tactic.Ring

/-!
# Tolerance and double precision

The components are those of the links that double-precision seconds show. These
are the links of the tolerance as long as a double tells the microseconds around a
bucket's edge apart, which it does for centuries around the epoch and not forever.
-/

namespace Cctally

/-! ## Rounding -/

section
variable {a b c : Nat}

theorem roundHalfEven_ge (hb : 0 < b) (h : c * b ≤ a) : c ≤ roundHalfEven a b := by
  have hq : c ≤ a / b := (Nat.le_div_iff_mul_le hb).2 h
  simp only [roundHalfEven]
  split
  · exact hq
  · split <;> omega

theorem roundHalfEven_lt (hb : 0 < b) (h : b < 2 * (c * b - a)) : roundHalfEven a b < c := by
  have hdiv := Nat.div_add_mod a b
  have hlt : a < c * b := by omega
  have hq : a / b < c := (Nat.div_lt_iff_lt_mul hb).2 hlt
  simp only [roundHalfEven]
  by_cases hr : 2 * (a % b) < b
  · rw [if_pos hr]
    exact hq
  · -- the remainder is at least a half, so the quotient is not the last before `c`
    have hnext : a / b + 1 < c := by
      by_contra hge
      have heq : c = a / b + 1 := by omega
      have hmul : c * b = b * (a / b) + b := by
        rw [heq]
        ring
      omega
    rw [if_neg hr]
    split <;> omega

theorem roundHalfEven_le (hb : 0 < b) (h : a ≤ c * b) : roundHalfEven a b ≤ c := by
  have hdiv := Nat.div_add_mod a b
  have hq : a / b ≤ c := Nat.div_le_of_le_mul (by rw [Nat.mul_comm]; exact h)
  simp only [roundHalfEven]
  by_cases hr : 2 * (a % b) < b
  · rw [if_pos hr]
    exact hq
  · have hlt : a / b < c := by
      by_contra hge
      have heq : c = a / b := by omega
      have hmul : c * b = b * (a / b) := by
        rw [heq]
        ring
      omega
    rw [if_neg hr]
    split <;> omega

theorem roundHalfEven_gt (hb : 0 < b) (h : b < 2 * (a - c * b)) : c < roundHalfEven a b := by
  have hdiv := Nat.div_add_mod a b
  have hq : c ≤ a / b := (Nat.le_div_iff_mul_le hb).2 (by omega)
  simp only [roundHalfEven]
  by_cases hr : b < 2 * (a % b)
  · rw [if_neg (Nat.lt_asymm hr), if_pos hr]
    omega
  · have hlt : c < a / b := by
      by_contra hge
      have heq : c = a / b := by omega
      have hmul : c * b = b * (a / b) := by
        rw [heq]
        ring
      omega
    rw [if_neg hr]
    split <;> omega

end

def RECENT : Nat := 2 ^ 34 * 10 ^ 6

section
variable {n c : Nat}

theorem doubleScale_recent (h : n < RECENT) : 10 ^ 6 < 2 * 2 ^ doubleScale n := by
  have hk : 19 ≤ doubleScale n := by
    have hlog : Nat.log2 n < 54 := by
      by_cases hn : n = 0
      · subst hn
        decide
      · rw [Nat.log2_lt hn]
        unfold RECENT at h
        omega
    unfold doubleScale
    simp only
    by_cases hsmall : n * 2 ^ (72 - Nat.log2 n) < 2 ^ 53 * 10 ^ 6
    · rw [if_pos hsmall]
      omega
    · rw [if_neg hsmall]
      by_contra hlt
      have heq : 72 - Nat.log2 n = 19 := by omega
      rw [heq] at hsmall
      unfold RECENT at h
      omega
  have hpow : 2 ^ 19 ≤ 2 ^ doubleScale n := Nat.pow_le_pow_right (by decide) hk
  omega

theorem totalSeconds_ge (h : c * 10 ^ 6 ≤ n) : c * 2 ^ doubleScale n ≤ totalSeconds n := by
  refine roundHalfEven_ge (by decide) ?_
  calc c * 2 ^ doubleScale n * 10 ^ 6 = c * 10 ^ 6 * 2 ^ doubleScale n := by ring
    _ ≤ n * 2 ^ doubleScale n := Nat.mul_le_mul_right _ h

theorem totalSeconds_le (h : n ≤ c * 10 ^ 6) : totalSeconds n ≤ c * 2 ^ doubleScale n := by
  refine roundHalfEven_le (by decide) ?_
  calc n * 2 ^ doubleScale n ≤ c * 10 ^ 6 * 2 ^ doubleScale n := Nat.mul_le_mul_right _ h
    _ = c * 2 ^ doubleScale n * 10 ^ 6 := by ring

theorem totalSeconds_lt (hn : n < RECENT) (h : n < c * 10 ^ 6) : totalSeconds n < c * 2 ^ doubleScale n := by
  refine roundHalfEven_lt (by decide) ?_
  have hscale := doubleScale_recent hn
  have hdiff : c * 2 ^ doubleScale n * 10 ^ 6 - n * 2 ^ doubleScale n = (c * 10 ^ 6 - n) * 2 ^ doubleScale n := by
    rw [Nat.sub_mul]
    ring_nf
  have hone : 2 ^ doubleScale n ≤ (c * 10 ^ 6 - n) * 2 ^ doubleScale n := Nat.le_mul_of_pos_left _ (by omega)
  rw [hdiff]
  omega

theorem totalSeconds_gt (hn : n < RECENT) (h : c * 10 ^ 6 < n) : c * 2 ^ doubleScale n < totalSeconds n := by
  refine roundHalfEven_gt (by decide) ?_
  have hscale := doubleScale_recent hn
  have hdiff : n * 2 ^ doubleScale n - c * 2 ^ doubleScale n * 10 ^ 6 = (n - c * 10 ^ 6) * 2 ^ doubleScale n := by
    rw [Nat.sub_mul]
    ring_nf
  have hone : 2 ^ doubleScale n ≤ (n - c * 10 ^ 6) * 2 ^ doubleScale n := Nat.le_mul_of_pos_left _ (by omega)
  rw [hdiff]
  omega

end

/-! ## Links of recent resets -/

def Within (tolerance : Nat) (x y : RawReset) : Prop := (x - y).natAbs ≤ tolerance * 10 ^ 6

def Recent (x : RawReset) : Prop := 2 * x.natAbs < RECENT

theorem ediv_eq {a d q : Int} (hd : 0 < d) (hlo : q * d ≤ a) (hhi : a < (q + 1) * d) : a / d = q :=
  le_antisymm (Int.lt_add_one_iff.1 (Int.ediv_lt_of_lt_mul hd hhi)) (Int.le_ediv_of_mul_le hd hlo)

theorem bucketOf_recent {tolerance : Nat} (ht : 0 < tolerance) {x : Int} (hx : Recent x) :
    bucketOf tolerance x = x / (tolerance * 10 ^ 6 : Nat) := by
  have hn : x.natAbs < RECENT := by
    unfold Recent at hx
    omega
  have hD : (0 : Int) < (tolerance * 10 ^ 6 : Nat) := by positivity
  have hS : (0 : Int) < (2 ^ doubleScale x.natAbs * tolerance : Nat) := by positivity
  obtain ⟨q, hq⟩ : ∃ q, q = x / (tolerance * 10 ^ 6 : Nat) := ⟨_, rfl⟩
  have hlo : q * (tolerance * 10 ^ 6 : Nat) ≤ x := by
    rw [hq]
    exact Int.ediv_mul_le _ (ne_of_gt hD)
  have hhi : x < (q + 1) * (tolerance * 10 ^ 6 : Nat) := by
    rw [hq]
    exact Int.lt_ediv_add_one_mul_self _ hD
  rw [← hq]
  unfold bucketOf
  simp only
  push_cast at hlo hhi
  by_cases hneg : x < 0
  · rw [if_pos hneg]
    have hq0 : q < 0 := by
      by_contra hpos
      nlinarith [mul_nonneg (not_lt.1 hpos) (le_of_lt hD)]
    obtain ⟨m, hm⟩ : ∃ m : Nat, q = -(m + 1 : Int) := ⟨(-q - 1).toNat, by omega⟩
    have hle : x.natAbs ≤ (m + 1) * tolerance * 10 ^ 6 := by
      zify
      rw [abs_of_neg hneg]
      rw [hm] at hlo
      linarith
    have hgt : m * tolerance * 10 ^ 6 < x.natAbs := by
      zify
      rw [abs_of_neg hneg]
      rw [hm] at hhi
      linarith
    have h₁ := totalSeconds_le hle
    have h₂ := totalSeconds_gt hn hgt
    zify at h₁ h₂
    rw [hm]
    refine ediv_eq hS ?_ ?_
    · push_cast
      linarith
    · push_cast
      linarith
  · rw [if_neg hneg]
    have hq0 : 0 ≤ q := by
      rw [hq]
      exact Int.ediv_nonneg (not_lt.1 hneg) (le_of_lt hD)
    obtain ⟨m, hm⟩ : ∃ m : Nat, q = m := ⟨q.toNat, by omega⟩
    have hge : m * tolerance * 10 ^ 6 ≤ x.natAbs := by
      zify
      rw [abs_of_nonneg (not_lt.1 hneg)]
      rw [hm] at hlo
      linarith
    have hlt : x.natAbs < (m + 1) * tolerance * 10 ^ 6 := by
      zify
      rw [abs_of_nonneg (not_lt.1 hneg)]
      rw [hm] at hhi
      linarith
    have h₁ := totalSeconds_ge hge
    have h₂ := totalSeconds_lt hn hlt
    zify at h₁ h₂
    rw [hm]
    refine ediv_eq hS ?_ ?_
    · push_cast
      linarith
    · push_cast
      linarith

theorem nearReset_recent {tolerance : Nat} {x y : Int} (hx : Recent x) (hy : Recent y) :
    nearReset tolerance x y = true ↔ Within tolerance x y := by
  have hn : (x - y).natAbs < RECENT := by
    unfold Recent at hx hy
    omega
  unfold nearReset Within
  simp only [decide_eq_true_eq]
  constructor
  · intro h
    by_contra hgt
    have := totalSeconds_gt hn (not_le.1 hgt)
    rw [Nat.mul_comm] at this
    omega
  · intro h
    rw [Nat.mul_comm]
    exact totalSeconds_le h

theorem adjacent_recent {tolerance : Nat} (ht : 0 < tolerance) {x y : Int} (hx : Recent x) (hy : Recent y) :
    Adjacent (resetNearness tolerance) x y ↔ Within tolerance x y := by
  have hnear : (resetNearness tolerance).near x y = true ↔ Within tolerance x y := nearReset_recent hx hy
  unfold Adjacent
  rw [hnear]
  refine ⟨fun h => h.2, fun h => ⟨?_, h⟩⟩
  show bucketOf tolerance x - 1 ≤ bucketOf tolerance y ∧ bucketOf tolerance y ≤ bucketOf tolerance x + 1
  rw [bucketOf_recent ht hx, bucketOf_recent ht hy]
  have hD : (0 : Int) < (tolerance * 10 ^ 6 : Nat) := by positivity
  unfold Within at h
  obtain ⟨D, hDeq⟩ : ∃ D : Nat, D = tolerance * 10 ^ 6 := ⟨_, rfl⟩
  rw [← hDeq] at h hD ⊢
  have hup : ∀ a b : Int, a ≤ b + D → a / D ≤ b / D + 1 := by
    intro a b hab
    calc a / D ≤ (b + 1 * D) / D := Int.ediv_le_ediv hD (by omega)
      _ = b / D + 1 := by rw [Int.add_mul_ediv_right _ _ (ne_of_gt hD)]
  have hxy := hup x y (by omega)
  have hyx := hup y x (by omega)
  omega

/-! ## Components and chains -/

section
variable {α K : Type} [LinearOrder α] [LinearOrder K] {n : Nearness α K} {calls calls' : List (α × K)}
  {s : ResetAnchorComponents α K} {root : α → α}

theorem Components.canonicalOf_some (h : Components n calls s root) (hk : KeysDistinct calls) {x : α}
    (hx : x ∈ calls.map Prod.fst) : ∃ a, canonicalOf s x = some a ∧ AnchorOf (Adjacent n) calls x a := by
  obtain ⟨_, a, -, -, -, ha⟩ := h.canonical hx
  exact ⟨a, (h.canonicalOf_eq hk hx).2 ha, ha⟩

theorem Components.canonicalOf_eq_iff (h : Components n calls s root) (hk : KeysDistinct calls) {x y : α}
    (hx : x ∈ calls.map Prod.fst) (hy : y ∈ calls.map Prod.fst) :
    canonicalOf s x = canonicalOf s y ↔ Chain (Adjacent n) calls x y := by
  obtain ⟨a, hca, ha⟩ := h.canonicalOf_some hk hx
  obtain ⟨b, hcb, hb⟩ := h.canonicalOf_some hk hy
  rw [hca, hcb, Option.some.injEq]
  constructor
  · rintro rfl
    exact ha.chain.trans hb.chain.symm
  · intro hxy
    exact (ha.of_chain hxy).unique hk hb

omit [LinearOrder α] [LinearOrder K] in
theorem Chain.of_links {step step' : α → α → Prop}
    (h : ∀ x ∈ calls.map Prod.fst, ∀ y ∈ calls.map Prod.fst, step x y → Chain step' calls' x y) {x y : α}
    (hxy : Chain step calls x y) : Chain step' calls' x y := by
  induction hxy with
  | refl => exact .refl
  | tail _ hbc ih => exact ih.trans (h _ hbc.1 _ hbc.2.1 hbc.2.2)

omit [LinearOrder α] in
theorem AnchorOf.of_chains {step step' : α → α → Prop} {x a : α} (ha : AnchorOf step calls x a)
    (hchain : ∀ y, Chain step calls x y ↔ Chain step' calls' x y)
    (hmem : ∀ e, e ∈ calls ↔ e ∈ calls') : AnchorOf step' calls' x a := by
  have hmin : ∀ {y k}, MinKey calls y k ↔ MinKey calls' y k := by
    intro y k
    simp only [MinKey, hmem]
  obtain ⟨k, hk, hle⟩ := ha.least
  exact ⟨(hchain a).1 ha.chain, k, hmin.1 hk, fun y m hy hm => hle y m ((hchain y).2 hy) (hmin.2 hm)⟩

theorem Components.perm (h : Components n calls s root) (hk : KeysDistinct calls) (hp : calls.Perm calls') :
    ∃ s', (ResetAnchorComponents.empty : ResetAnchorComponents α K).addAll n calls' = some s' ∧
      ∀ x ∈ calls.map Prod.fst, canonicalOf s' x = canonicalOf s x := by
  have hk' : KeysDistinct calls' := fun x y k hx hy => hk x y k (hp.mem_iff.2 hx) (hp.mem_iff.2 hy)
  obtain ⟨s', root', hrun, h'⟩ := addAll_components (n := n) hk'
  refine ⟨s', hrun, fun x hx => ?_⟩
  have hraws : ∀ y, y ∈ calls.map Prod.fst ↔ y ∈ calls'.map Prod.fst := fun y => (hp.map Prod.fst).mem_iff
  have hchain : ∀ y, Chain (Adjacent n) calls x y ↔ Chain (Adjacent n) calls' x y := by
    intro y
    constructor
    · intro hxy
      exact hxy.of_links fun a ha b hb hab => .single ⟨(hraws a).1 ha, (hraws b).1 hb, hab⟩
    · intro hxy
      exact hxy.of_links fun a ha b hb hab => .single ⟨(hraws a).2 ha, (hraws b).2 hb, hab⟩
  obtain ⟨a, hca, ha⟩ := h.canonicalOf_some hk hx
  rw [hca, h'.canonicalOf_eq hk' ((hraws x).1 hx)]
  exact ha.of_chains hchain fun _ => hp.mem_iff

end

structure ToleranceComponents (tolerance : Nat) (calls : List (RawReset × OrderKey))
    (s : ResetAnchorComponents RawReset OrderKey) : Prop where
  equal : ∀ x ∈ calls.map Prod.fst, ∀ y ∈ calls.map Prod.fst,
    (canonicalOf s x = canonicalOf s y ↔ Chain (Within tolerance) calls x y)
  anchor : ∀ x ∈ calls.map Prod.fst, ∃ a, canonicalOf s x = some a ∧ AnchorOf (Within tolerance) calls x a
  orderFree : ∀ calls', calls.Perm calls' →
    ∃ s', ResetAnchorComponents.empty.addAll (resetNearness tolerance) calls' = some s' ∧
      ∀ x ∈ calls.map Prod.fst, canonicalOf s' x = canonicalOf s x

def LinksAgree (tolerance : Nat) (calls : List (RawReset × OrderKey)) : Prop :=
  ∀ x ∈ calls.map Prod.fst, ∀ y ∈ calls.map Prod.fst,
    (Within tolerance x y → Chain (Adjacent (resetNearness tolerance)) calls x y) ∧
      (Adjacent (resetNearness tolerance) x y → Chain (Within tolerance) calls x y)

theorem linksAgree_recent {tolerance : Nat} (ht : 0 < tolerance) {calls : List (RawReset × OrderKey)}
    (h : ∀ x ∈ calls.map Prod.fst, Recent x) : LinksAgree tolerance calls := by
  intro x hx y hy
  have hiff := adjacent_recent ht (h x hx) (h y hy)
  exact ⟨fun hw => .single ⟨hx, hy, hiff.2 hw⟩, fun ha => .single ⟨hx, hy, hiff.1 ha⟩⟩

theorem linksAgree_recent_pair : LinksAgree 600 [(0, rowKey "a" 0 1), (600000000, rowKey "b" 0 1)] :=
  linksAgree_recent (by decide) (by
    unfold Recent
    decide)

theorem LinksAgree.chain_iff {tolerance : Nat} {calls : List (RawReset × OrderKey)} (h : LinksAgree tolerance calls)
    (x y : RawReset) : Chain (Adjacent (resetNearness tolerance)) calls x y ↔ Chain (Within tolerance) calls x y :=
  ⟨fun hxy => hxy.of_links fun a ha b hb => (h a ha b hb).2, fun hxy => hxy.of_links fun a ha b hb => (h a ha b hb).1⟩

/-- **The components are those of the tolerance** exactly where doubles tell the links of
the tolerance from the others, as they do between recent instants. -/
theorem toleranceComponents_iff (tolerance : Nat) (calls : List (RawReset × OrderKey)) (hk : KeysDistinct calls) :
    ∃ s, ResetAnchorComponents.empty.addAll (resetNearness tolerance) calls = some s ∧
      (ToleranceComponents tolerance calls s ↔ LinksAgree tolerance calls) := by
  obtain ⟨s, root, hrun, hc⟩ := addAll_components (n := resetNearness tolerance) hk
  refine ⟨s, hrun, ?_, ?_⟩
  · intro h x hx y hy
    have hiff := (hc.canonicalOf_eq_iff hk hx hy).symm.trans (h.equal x hx y hy)
    exact ⟨fun hw => hiff.2 (.single ⟨hx, hy, hw⟩), fun ha => hiff.1 (.single ⟨hx, hy, ha⟩)⟩
  · intro h
    refine ⟨fun x hx y hy => ?_, fun x hx => ?_, fun calls' hp => hc.perm hk hp⟩
    · rw [hc.canonicalOf_eq_iff hk hx hy]
      exact h.chain_iff x y
    · obtain ⟨a, hca, ha⟩ := hc.canonicalOf_some hk hx
      exact ⟨a, hca, ha.of_chains (h.chain_iff x) fun _ => Iff.rfl⟩

theorem toleranceComponents_iff_pair : ∃ s,
    ResetAnchorComponents.empty.addAll (resetNearness 600) [(0, rowKey "a" 0 1), (600000000, rowKey "b" 0 1)] = some s ∧
      (ToleranceComponents 600 [(0, rowKey "a" 0 1), (600000000, rowKey "b" 0 1)] s ↔
        LinksAgree 600 [(0, rowKey "a" 0 1), (600000000, rowKey "b" 0 1)]) :=
  toleranceComponents_iff 600 _ (keysDistinct_pair (by decide))

def lateResets : List (RawReset × OrderKey) :=
  [(137438953199999990, rowKey "a" 0 1), (137438953799999990, rowKey "b" 0 1)]

theorem toleranceComponents_late : KeysDistinct lateResets ∧
    ∃ s, ResetAnchorComponents.empty.addAll (resetNearness 600) lateResets = some s ∧
      ¬ ToleranceComponents 600 lateResets s := by
  refine ⟨keysDistinct_pair (by decide), ?_⟩
  have hrun : (ResetAnchorComponents.empty.addAll (resetNearness 600) lateResets).any (fun s =>
      canonicalOf s 137438953199999990 != canonicalOf s 137438953799999990) = true := by decide +kernel
  obtain ⟨s, hs, hne⟩ := (Option.any_eq_true _ _).1 hrun
  refine ⟨s, hs, fun h => bne_iff_ne.1 hne ?_⟩
  rw [h.equal _ (by decide) _ (by decide)]
  refine .single ⟨by decide, by decide, ?_⟩
  unfold Within
  decide

end Cctally
