import Cctally.Except
import Cctally.MeterRate

/-!
# The lazy search finds the marker's pair

Both ways to the active pair are compared with the newest start at which a kept
regime was closed and the last kept regime of its meter is open.
-/

namespace Cctally.MeterRate

section
variable (env : Env) (value : Ref → Json)

def startsAt (start : Int) (r : Ref) : Bool := startOf env value r = .ok (some start)

def closesAt (start : Int) (r : Ref) : Bool := !isStale value r && decide (untilOf env value r = .ok (some start))

def follows (p r : Ref) : Bool := decide (r ≠ p) && sameMeter env value p r

def pairAt (regimes : List Ref) (start : Int) : Option (Ref × Ref) :=
  (regimes.find? fun r => isDict value r && closesAt env value start r).bind fun p =>
    (regimes.reverse.find? fun r => isDict value r && startsAt env value start r && follows env value p r).map fun r => (p, r)

def activeAt (regimes : List Ref) (start : Int) : Option (Ref × Ref) :=
  (pairAt env value regimes start).filter fun pair => isOpen value pair.2

def IsNewest (regimes : List Ref) (pair : Option (Ref × Ref)) : Prop :=
  (pair = none ∧ ∀ s, activeAt env value regimes s = none) ∨
    ∃ s, pair = activeAt env value regimes s ∧ pair.isSome ∧ ∀ s', s < s' → activeAt env value regimes s' = none

variable {env value}

theorem IsNewest.unique {regimes : List Ref} {a b : Option (Ref × Ref)} (ha : IsNewest env value regimes a)
    (hb : IsNewest env value regimes b) : a = b := by
  rcases ha with ⟨rfl, hnone⟩ | ⟨s, rfl, hsome, hnewest⟩
  · rcases hb with ⟨rfl, -⟩ | ⟨s, rfl, -, -⟩
    · rfl
    · exact (hnone s).symm
  · rcases hb with ⟨rfl, hnone⟩ | ⟨s', rfl, hsome', hnewest'⟩
    · exact hnone s
    · rcases lt_trichotomy s s' with hlt | rfl | hlt
      · rw [hnewest s' hlt] at hsome'
        cases hsome'
      · rfl
      · rw [hnewest' s hlt] at hsome
        cases hsome

/-! ## The table -/

theorem closeStep_eq_ok {closed closed' : Dict Int Ref} {r : Ref} (h : closeStep env value closed r = .ok closed') (s : Int) :
    closed'.get? s = (closed.get? s).or (if isDict value r && closesAt env value s r then some r else none) := by
  unfold closeStep at h
  split at h
  · rename_i hdict
    cases h
    have hd : isDict value r = false := by simpa using hdict
    simp [hd]
  split at h
  · rename_i hstale
    cases h
    simp [closesAt, hstale]
  rename_i hdict hstale
  obtain ⟨u, hu, h⟩ := Except.bind_eq_ok.mp h
  cases u with
  | none =>
    cases h
    simp [closesAt, hu]
  | some u =>
    cases h
    have hd : isDict value r = true := by simpa using hdict
    rw [Dict.get?_setdefault]
    by_cases hus : u = s
    · subst hus
      cases closed.get? u <;> simp [closesAt, hu, hd, hstale]
    · simp [closesAt, hu, hus]

theorem closed_eq {l : List Ref} {d closed : Dict Int Ref} (h : l.foldlM (closeStep env value) d = .ok closed) (s : Int) :
    closed.get? s = (d.get? s).or (l.find? fun r => isDict value r && closesAt env value s r) := by
  induction l generalizing d with
  | nil =>
    cases h
    simp
  | cons r l ih =>
    obtain ⟨d₁, hstep, h⟩ := Except.foldlM_cons.mp h
    rw [ih h, closeStep_eq_ok hstep, List.find?_cons, Option.or_assoc]
    split
    · rename_i hr
      simp [hr]
    · rename_i hr
      simp [hr]

def pairsWith (env : Env) (value : Ref → Json) (closed : Dict Int Ref) (s : Int) (r : Ref) : Bool :=
  isDict value r && startsAt env value s r && (closed.get? s).any fun p => follows env value p r

theorem pairStep_eq_ok {closed : Dict Int Ref} {pairs pairs' : Dict Int (Ref × Ref)} {r : Ref}
    (h : pairStep env value closed pairs r = .ok pairs') (s : Int) :
    pairs'.get? s = (if pairsWith env value closed s r then (closed.get? s).map (·, r) else none).or (pairs.get? s) := by
  unfold pairStep at h
  split at h
  · rename_i hdict
    cases h
    have hd : isDict value r = false := by simpa using hdict
    simp [pairsWith, hd]
  rename_i hdict
  have hd : isDict value r = true := by simpa using hdict
  obtain ⟨start, hs, h⟩ := Except.bind_eq_ok.mp h
  cases start with
  | none =>
    cases h
    simp [pairsWith, startsAt, hs]
  | some start =>
    cases hclosed : closed.get? start with
    | none =>
      simp only [hclosed] at h
      cases h
      by_cases heq : start = s
      · subst heq; simp [pairsWith, hclosed]
      · simp [pairsWith, startsAt, hs, heq]
    | some p =>
      simp only [hclosed] at h
      rw [Except.pure_eq_ok] at h
      subst h
      by_cases heq : start = s
      · subst heq
        by_cases hp : p = r
        · simp [pairsWith, hclosed, follows, hp]
        · cases hm : sameMeter env value p r with
          | false => simp [pairsWith, hclosed, follows, hp, hm]
          | true => simp [pairsWith, hclosed, follows, Ne.symm hp, hp, hm, hd, startsAt, hs]
      · have hno : pairsWith env value closed s r = false := by simp [pairsWith, startsAt, hs, heq]
        rw [hno]
        split
        · simp
        · rw [Dict.get?_set_ne _ _ heq]; simp

theorem pairs_eq {closed : Dict Int Ref} {l : List Ref} {d pairs : Dict Int (Ref × Ref)}
    (h : l.foldlM (pairStep env value closed) d = .ok pairs) (s : Int) :
    pairs.get? s = ((closed.get? s).bind fun p =>
      (l.reverse.find? (pairsWith env value closed s)).map (p, ·)).or (d.get? s) := by
  induction l generalizing d with
  | nil =>
    cases h
    simp
  | cons r l ih =>
    obtain ⟨d₁, hstep, h⟩ := Except.foldlM_cons.mp h
    rw [ih h, pairStep_eq_ok hstep, ← Option.or_assoc, List.reverse_cons, List.find?_append]
    congr 1
    cases closed.get? s with
    | none => simp
    | some p =>
      cases hfind : l.reverse.find? (pairsWith env value closed s) with
      | some r' => simp
      | none =>
        by_cases hr : pairsWith env value closed s r
        · simp [hr]
        · simp [hr]

theorem adjacentPairs_get? {l : List Ref} {pairs : Dict Int (Ref × Ref)} (h : adjacentPairs env value l = .ok pairs) (s : Int) :
    pairs.get? s = pairAt env value l s := by
  obtain ⟨closed, hclosed, h⟩ := Except.bind_eq_ok.mp h
  have hc : closed.get? s = l.find? fun r => isDict value r && closesAt env value s r := by
    rw [closed_eq hclosed s]
    rfl
  rw [pairs_eq h s, pairAt, ← hc, Dict.get?_empty, Option.or_none]
  cases hp : closed.get? s with
  | none => rfl
  | some p =>
    have hsame : pairsWith env value closed s =
        fun r => isDict value r && startsAt env value s r && follows env value p r := by
      funext r
      simp [pairsWith, hp]
    rw [hsame]
    rfl

theorem activeRateChange_newest {l : List Ref} {pair : Option (Ref × Ref)} (h : activeRateChange env value l = .ok pair) :
    IsNewest env value l pair := by
  obtain ⟨pairs, hpairs, h⟩ := Except.bind_eq_ok.mp h
  have hmem : ∀ s, s ∈ (pairs.entries.filter fun e => isOpen value e.2.2).map Prod.fst ↔ (activeAt env value l s).isSome := by
    intro s
    have hat := adjacentPairs_get? hpairs s
    rw [activeAt, ← hat, List.mem_map]
    constructor
    · rintro ⟨e, he, rfl⟩
      obtain ⟨he, hopen⟩ := List.mem_filter.mp he
      rw [Dict.get?_eq_some.mpr he]
      simp [Option.filter, hopen]
    · intro hs
      obtain ⟨v, hv⟩ := Option.isSome_iff_exists.mp hs
      obtain ⟨hv, hopen⟩ := Option.filter_eq_some_iff.mp hv
      exact ⟨(s, v), List.mem_filter.mpr ⟨Dict.get?_eq_some.mp hv, hopen⟩, rfl⟩
  dsimp only at h
  split at h
  · rename_i hmax
    cases h
    refine .inl ⟨rfl, fun s => ?_⟩
    rw [List.max?_eq_none_iff] at hmax
    have hs := hmem s
    rw [hmax] at hs
    simpa using hs
  · rename_i start hmax
    cases h
    obtain ⟨hin, hge⟩ := List.max?_eq_some_iff.mp hmax
    have hsome := (hmem start).mp hin
    have hactive : pairs.get? start = activeAt env value l start := by
      obtain ⟨v, hv⟩ := Option.isSome_iff_exists.mp hsome
      rw [hv, adjacentPairs_get? hpairs start]
      exact (Option.filter_eq_some_iff.mp hv).1
    refine .inr ⟨start, hactive, hactive ▸ hsome, fun s hlt => ?_⟩
    by_contra hne
    have := hge s ((hmem s).mpr (Option.ne_none_iff_isSome.mp hne))
    omega

/-- No instant of the list that the table reads leaves the years of `datetime`. -/
def Readable (env : Env) (value : Ref → Json) (l : List Ref) : Prop :=
  (∀ r ∈ l, isDict value r = true → isStale value r = false → ∃ u, untilOf env value r = .ok u) ∧
    ∀ r ∈ l, isDict value r = true → ∃ s, startOf env value r = .ok s

theorem closeStep_returns {r : Ref} {closed : Dict Int Ref} :
    (∃ closed', closeStep env value closed r = .ok closed') ↔
      (isDict value r = true → isStale value r = false → ∃ u, untilOf env value r = .ok u) := by
  unfold closeStep
  cases hd : isDict value r with
  | false => exact iff_of_true ⟨_, rfl⟩ nofun
  | true =>
    cases hs : isStale value r with
    | true => exact iff_of_true ⟨_, rfl⟩ fun _ => nofun
    | false =>
      cases hu : untilOf env value r with
      | error e => exact iff_of_false (by rintro ⟨_, h⟩; cases h) (by simp)
      | ok u => cases u <;> exact iff_of_true ⟨_, rfl⟩ fun _ _ => ⟨_, rfl⟩

theorem pairStep_returns {closed : Dict Int Ref} {r : Ref} {pairs : Dict Int (Ref × Ref)} :
    (∃ pairs', pairStep env value closed pairs r = .ok pairs') ↔
      (isDict value r = true → ∃ s, startOf env value r = .ok s) := by
  unfold pairStep
  cases hd : isDict value r with
  | false => exact iff_of_true ⟨_, rfl⟩ nofun
  | true =>
    cases hs : startOf env value r with
    | error e => exact iff_of_false (by rintro ⟨_, h⟩; cases h) (by simp)
    | ok s =>
      refine iff_of_true ?_ fun _ => ⟨_, rfl⟩
      cases s with
      | none => exact ⟨_, rfl⟩
      | some s => cases h : closed.get? s <;> simp [h, bind, Except.bind, pure, Except.pure]

theorem activeRateChange_returns {l : List Ref} :
    (∃ pair, activeRateChange env value l = .ok pair) ↔ Readable env value l := by
  constructor
  · rintro ⟨pair, h⟩
    obtain ⟨pairs, hpairs, -⟩ := Except.bind_eq_ok.mp h
    obtain ⟨closed, hclosed, hpairs⟩ := Except.bind_eq_ok.mp hpairs
    refine ⟨fun r hr => ?_, fun r hr => ?_⟩
    · obtain ⟨d, hturn⟩ := Except.turn_of_foldlM hclosed r hr
      exact closeStep_returns.mp hturn
    · obtain ⟨d, hturn⟩ := Except.turn_of_foldlM hpairs r hr
      exact pairStep_returns.mp hturn
  · rintro ⟨huntil, hstart⟩
    obtain ⟨closed, hclosed⟩ := Except.foldlM_returns (b := (Dict.empty : Dict Int Ref)) fun r hr _ =>
      closeStep_returns.mpr (huntil r hr)
    obtain ⟨pairs, hpairs⟩ := Except.foldlM_returns (b := (Dict.empty : Dict Int (Ref × Ref)))
      (f := pairStep env value closed) fun r hr _ => pairStep_returns.mpr (hstart r hr)
    have htable : adjacentPairs env value l = .ok pairs := Except.bind_eq_ok.mpr ⟨closed, hclosed, hpairs⟩
    unfold activeRateChange
    rw [htable, Except.ok_bind]
    dsimp only
    split <;> exact ⟨_, rfl⟩

end

/-! ## The lazy search -/

section
variable {env : Env} {value : Ref → Json} {keep : Ref → Bool}

structure Memo (keep : Ref → Bool) (a : Asked) : Prop where
  truth : ∀ r b, a.kept.get? r = some b → b = keep r
  known : ∀ r ∈ a.calls, ∃ b, a.kept.get? r = some b
  once : a.calls.Nodup

theorem keeps_on {a : Asked} (h : Memo keep a) (r : Ref) :
    ∃ a', (keeps keep r).on a = (.ok (keep r), a') ∧ Memo keep a' := by
  unfold keeps
  rw [Call.on_bind_of_ok (Call.on_get a)]
  cases hr : a.kept.get? r with
  | some b =>
    rw [← h.truth r b hr]
    exact ⟨a, rfl, h⟩
  | none =>
    refine ⟨⟨a.kept.set r (keep r), a.calls ++ [r]⟩, rfl, fun r' b hb => ?_, fun r' hr' => ?_, ?_⟩
    · rw [Dict.get?_set] at hb
      split at hb
      · rename_i heq
        cases hb
        rw [heq]
      · exact h.truth r' b hb
    · show ∃ b, (a.kept.set r (keep r)).get? r' = some b
      rw [Dict.get?_set]
      split
      · exact ⟨_, rfl⟩
      · rename_i hne
        rcases List.mem_append.mp hr' with hr' | hr'
        · exact h.known r' hr'
        · exact absurd (List.mem_singleton.mp hr').symm hne
    · refine List.nodup_append.mpr ⟨h.once, List.nodup_singleton r, fun x hx y hy hxy => ?_⟩
      rw [List.mem_singleton] at hy
      subst hxy hy
      obtain ⟨b, hb⟩ := h.known x hx
      rw [hr] at hb
      cases hb

def meets (env : Env) (value : Ref → Json) (keep : Ref → Bool) (start : Int) : List Ref → Bool
  | [] => false
  | r :: rest =>
    if isStale value r then meets env value keep start rest
    else
      match untilOf env value r with
      | .error _ => true
      | .ok u => if u = some start ∧ keep r = true then false else meets env value keep start rest

variable (env value) in
theorem findPredecessor_on (start : Int) : ∀ {l : List Ref} {a : Asked}, Memo keep a →
    ∃ a', (findPredecessor env value keep start l).on a =
      (if meets env value keep start l then .error .overflow
        else .ok (l.find? fun r => closesAt env value start r && keep r), a') ∧ Memo keep a'
  | [], a, h => ⟨a, rfl, h⟩
  | r :: rest, a, h => by
    unfold findPredecessor meets
    rw [List.find?_cons]
    cases hs : isStale value r with
    | true =>
      have hno : closesAt env value start r = false := by simp [closesAt, hs]
      simpa [hno] using findPredecessor_on start h
    | false =>
      simp only [Bool.false_eq_true, if_false]
      cases hu : untilOf env value r with
      | error e =>
        cases e
        exact ⟨a, Call.on_bind_of_error (Call.on_ofExcept _ _), h⟩
      | ok u =>
        rw [Call.on_bind_of_ok (Call.on_ofExcept _ _)]
        by_cases hstart : u = some start
        · have hclose : closesAt env value start r = true := by simp [closesAt, hs, hu, hstart]
          obtain ⟨a₁, ha₁, h₁⟩ := keeps_on h r
          rw [if_pos hstart, Call.on_bind_of_ok ha₁]
          cases hk : keep r with
          | true => exact ⟨a₁, by simp [hstart, hclose], h₁⟩
          | false => simpa [hstart, hclose, hk] using findPredecessor_on start h₁
        · have hno : closesAt env value start r = false := by simp [closesAt, hu, hstart]
          rw [if_neg hstart]
          simpa [hno, hstart] using findPredecessor_on start h

variable (env value) in
theorem findSuccessor_on (p : Ref) : ∀ {l : List Ref} {a : Asked}, Memo keep a →
    ∃ a', (findSuccessor env value keep p l).on a =
      (.ok ((l.find? fun r => follows env value p r && keep r).filter (isOpen value)), a') ∧ Memo keep a'
  | [], a, h => ⟨a, rfl, h⟩
  | r :: rest, a, h => by
    unfold findSuccessor
    rw [List.find?_cons]
    by_cases hp : r = p
    · have hno : follows env value p r = false := by simp [follows, hp]
      rw [if_pos hp, hno, Bool.false_and]
      exact findSuccessor_on p h
    · cases hm : sameMeter env value p r with
      | false =>
        have hno : follows env value p r = false := by simp [follows, hm]
        simpa [hp, hno] using findSuccessor_on p h
      | true =>
        have hyes : follows env value p r = true := by simp [follows, hp, hm]
        obtain ⟨a₁, ha₁, h₁⟩ := keeps_on h r
        simp only [hp, if_false, Bool.true_eq_false]
        rw [Call.on_bind_of_ok ha₁]
        cases hk : keep r with
        | true =>
          refine ⟨a₁, ?_, h₁⟩
          cases ho : isOpen value r <;> simp [hyes, ho, Option.filter]
        | false => simpa [hyes, hk] using findSuccessor_on p h₁

theorem starts_eq {l : List Ref} {d starts : Dict Int (List Ref)} (h : l.foldlM (startsStep env value) d = .ok starts)
    (s : Int) : (starts.get? s).getD [] = (d.get? s).getD [] ++ l.filter (startsAt env value s) ∧
      (s ∈ starts.keys ↔ s ∈ d.keys ∨ ∃ r ∈ l, startsAt env value s r = true) := by
  induction l generalizing d with
  | nil =>
    cases h
    simp
  | cons r l ih =>
    obtain ⟨d₁, hstep, h⟩ := Except.foldlM_cons.mp h
    obtain ⟨hget, hkeys⟩ := ih h
    obtain ⟨start, hs, hstep⟩ := Except.bind_eq_ok.mp hstep
    cases start with
    | none =>
      cases hstep
      have hno : startsAt env value s r = false := by simp [startsAt, hs]
      exact ⟨by rw [hget, List.filter_cons, hno]; rfl, by rw [hkeys]; simp [hno]⟩
    | some start =>
      cases hstep
      by_cases heq : start = s
      · subst heq
        have hyes : startsAt env value start r = true := by simp [startsAt, hs]
        refine ⟨?_, ?_⟩
        · rw [hget, Dict.get?_set_self, List.filter_cons, hyes]
          simp
        · rw [hkeys, Dict.mem_keys_set]
          simp [hyes]
      · have hno : startsAt env value s r = false := by simp [startsAt, hs, heq]
        refine ⟨?_, ?_⟩
        · rw [hget, Dict.get?_set_ne _ _ heq, List.filter_cons, hno]
          rfl
        · rw [hkeys, Dict.mem_keys_set]
          simp [hno, Ne.symm heq]

theorem starts_returns {l : List Ref} {d : Dict Int (List Ref)} :
    (∃ starts, l.foldlM (startsStep env value) d = .ok starts) ↔ ∀ r ∈ l, ∃ s, startOf env value r = .ok s := by
  have hturn : ∀ r (d : Dict Int (List Ref)), (∃ d', startsStep env value d r = .ok d') ↔ ∃ s, startOf env value r = .ok s := by
    intro r d
    unfold startsStep
    cases startOf env value r with
    | error e => exact iff_of_false (by rintro ⟨_, h⟩; cases h) (by simp)
    | ok s => cases s <;> exact iff_of_true ⟨_, rfl⟩ ⟨_, rfl⟩
  constructor
  · rintro ⟨starts, h⟩ r hr
    obtain ⟨d₀, hd₀⟩ := Except.turn_of_foldlM h r hr
    exact (hturn r d₀).mp hd₀
  · exact fun h => Except.foldlM_returns fun r hr d => (hturn r d).mpr (h r hr)

/-! ## The newest start first -/

def OpenStart (env : Env) (value : Ref → Json) (l : List Ref) (s : Int) : Prop :=
  ∃ r ∈ l, startsAt env value s r = true ∧ isOpen value r = true

structure Answers (env : Env) (value : Ref → Json) (keep : Ref → Bool) (l : List Ref) (left : List Int)
    (res : Except Raised (Option (Ref × Ref))) : Prop where
  newest : ∀ pair, res = .ok pair → (pair = none ∧ ∀ s ∈ left, activeAt env value (l.filter keep) s = none) ∨
    ∃ s ∈ left, pair = activeAt env value (l.filter keep) s ∧ pair.isSome ∧
      ∀ s' ∈ left, s < s' → activeAt env value (l.filter keep) s' = none
  raised : (∃ pair, res = .ok pair) ↔ ∀ s ∈ left, OpenStart env value l s →
    (∀ s' ∈ left, s < s' → activeAt env value (l.filter keep) s' = none) → meets env value keep s l = false

variable (env keep) in
theorem activeAt_filter {l : List Ref} (hl : ∀ r ∈ l, isDict value r = true) (s : Int) :
    activeAt env value (l.filter keep) s =
      (l.find? fun r => closesAt env value s r && keep r).bind fun p =>
        (((l.filter (startsAt env value s)).reverse.find? fun r => follows env value p r && keep r).filter
          (isOpen value)).map fun r => (p, r) := by
  have hpred : (l.filter keep).find? (fun r => isDict value r && closesAt env value s r) =
      l.find? fun r => closesAt env value s r && keep r := by
    rw [List.find?_filter]
    refine List.find?_congr fun r hr => ?_
    simp [hl r hr, Bool.and_comm]
  have hsucc : ∀ p, (l.filter keep).reverse.find? (fun r => isDict value r && startsAt env value s r && follows env value p r) =
      (l.filter (startsAt env value s)).reverse.find? fun r => follows env value p r && keep r := by
    intro p
    rw [← List.filter_reverse, ← List.filter_reverse, List.find?_filter, List.find?_filter]
    refine List.find?_congr fun r hr => ?_
    cases keep r <;> simp [hl r (List.mem_reverse.mp hr)]
  rw [activeAt, pairAt, hpred]
  cases l.find? fun r => closesAt env value s r && keep r with
  | none => rfl
  | some p =>
    rw [Option.bind_some, Option.bind_some, hsucc]
    cases (l.filter (startsAt env value s)).reverse.find? fun r => follows env value p r && keep r with
    | none => rfl
    | some r => cases h : isOpen value r <;> simp [Option.filter, h]

theorem openStart_of_activeAt {l : List Ref} (hl : ∀ r ∈ l, isDict value r = true) {s : Int}
    (h : activeAt env value (l.filter keep) s ≠ none) : OpenStart env value l s := by
  rw [activeAt_filter env keep hl] at h
  obtain ⟨pair, hpair⟩ := Option.ne_none_iff_exists'.mp h
  obtain ⟨p, -, hpair⟩ := Option.bind_eq_some_iff.mp hpair
  obtain ⟨r, hr, -⟩ := Option.map_eq_some_iff.mp hpair
  obtain ⟨hr, hopen⟩ := Option.filter_eq_some_iff.mp hr
  obtain ⟨hin, hs⟩ := List.mem_filter.mp (List.mem_reverse.mp (List.mem_of_find?_eq_some hr))
  exact ⟨r, hin, hs, hopen⟩

section
variable {l : List Ref} {s : Int} {rest : List Int} {res : Except Raised (Option (Ref × Ref))}

theorem Answers.skip (h : Answers env value keep l rest res) (hnone : activeAt env value (l.filter keep) s = none)
    (hmeets : OpenStart env value l s → meets env value keep s l = false) : Answers env value keep l (s :: rest) res where
  newest pair hpair := by
    rcases h.newest pair hpair with ⟨hp, hall⟩ | ⟨t, ht, hp, hsome, hall⟩
    · exact .inl ⟨hp, List.forall_mem_cons.mpr ⟨hnone, hall⟩⟩
    · exact .inr ⟨t, List.mem_cons_of_mem _ ht, hp, hsome, List.forall_mem_cons.mpr ⟨fun _ => hnone, hall⟩⟩
  raised := by
    rw [h.raised, List.forall_mem_cons]
    constructor
    · intro hall
      exact ⟨fun hopen _ => hmeets hopen, fun t ht hopen hnew => hall t ht hopen (List.forall_mem_cons.mp hnew).2⟩
    · rintro ⟨-, hall⟩ t ht hopen hnew
      exact hall t ht hopen (List.forall_mem_cons.mpr ⟨fun _ => hnone, hnew⟩)

theorem Answers.stop (hlt : ∀ t ∈ rest, t < s) (hopen : OpenStart env value l s)
    (hmeets : meets env value keep s l = true) (e : Raised) : Answers env value keep l (s :: rest) (.error e) where
  newest pair hpair := by cases hpair
  raised := by
    refine iff_of_false (by rintro ⟨_, h⟩; cases h) fun hall => ?_
    have hnew : ∀ s' ∈ s :: rest, s < s' → activeAt env value (l.filter keep) s' = none := by
      refine List.forall_mem_cons.mpr ⟨fun h => absurd h (lt_irrefl s), fun t ht h => ?_⟩
      exact absurd (h.trans (hlt t ht)) (lt_irrefl s)
    rw [hall s List.mem_cons_self hopen hnew] at hmeets
    cases hmeets

theorem Answers.found (hlt : ∀ t ∈ rest, t < s) {pair : Ref × Ref}
    (hactive : activeAt env value (l.filter keep) s = some pair)
    (hmeets : meets env value keep s l = false) : Answers env value keep l (s :: rest) (.ok (some pair)) where
  newest found hfound := by
    cases hfound
    refine .inr ⟨s, List.mem_cons_self, hactive.symm, rfl, List.forall_mem_cons.mpr ⟨fun h => absurd h (lt_irrefl s),
      fun t ht h => absurd (h.trans (hlt t ht)) (lt_irrefl s)⟩⟩
  raised := by
    refine iff_of_true ⟨_, rfl⟩ (List.forall_mem_cons.mpr ⟨fun _ _ => hmeets, fun t ht _ hnew => ?_⟩)
    have := hnew s List.mem_cons_self (hlt t ht)
    rw [hactive] at this
    cases this

end

theorem visit_on {l : List Ref} (hl : ∀ r ∈ l, isDict value r = true) {starts : Dict Int (List Ref)}
    (hstarts : ∀ s, (starts.get? s).getD [] = l.filter (startsAt env value s)) :
    ∀ {left : List Int} {a : Asked}, left.Pairwise (· > ·) → Memo keep a →
      ∃ res a', (visit env value keep l starts left).on a = (res, a') ∧ Memo keep a' ∧ Answers env value keep l left res := by
  intro left
  induction left with
  | nil =>
    intro a _ h
    refine ⟨.ok none, a, rfl, h, ⟨fun pair hp => ?_, iff_of_true ⟨_, rfl⟩ (by simp)⟩⟩
    cases hp
    exact .inl ⟨rfl, by simp⟩
  | cons s rest ih =>
    intro a hsorted h
    obtain ⟨hlt, hsorted⟩ := List.pairwise_cons.mp hsorted
    have hactive := activeAt_filter env keep hl s
    unfold visit
    dsimp only
    rw [hstarts]
    by_cases hopen : OpenStart env value l s
    · have hany : (l.filter (startsAt env value s)).any (isOpen value) = true := by
        obtain ⟨r, hr, hs, ho⟩ := hopen
        exact List.any_eq_true.mpr ⟨r, List.mem_filter.mpr ⟨hr, hs⟩, ho⟩
      rw [if_neg (by simp [hany])]
      obtain ⟨a₁, ha₁, h₁⟩ := findPredecessor_on env value s (l := l) h
      cases hmeets : meets env value keep s l with
      | true =>
        rw [hmeets, if_pos rfl] at ha₁
        exact ⟨_, a₁, Call.on_bind_of_error ha₁, h₁, Answers.stop hlt hopen hmeets _⟩
      | false =>
        rw [hmeets, if_neg (by simp)] at ha₁
        rw [Call.on_bind_of_ok ha₁]
        cases hp : l.find? fun r => closesAt env value s r && keep r with
        | none =>
          rw [hp] at hactive
          obtain ⟨res, a', hres, h', hans⟩ := ih hsorted h₁
          exact ⟨res, a', hres, h', hans.skip hactive fun _ => hmeets⟩
        | some p =>
          rw [hp] at hactive
          obtain ⟨a₂, ha₂, h₂⟩ := findSuccessor_on env value p
            (l := (l.filter (startsAt env value s)).reverse) h₁
          dsimp only
          rw [Call.on_bind_of_ok ha₂]
          cases hr : (((l.filter (startsAt env value s)).reverse.find? fun r => follows env value p r && keep r).filter
              (isOpen value)) with
          | none =>
            rw [Option.bind_some, hr] at hactive
            obtain ⟨res, a', hres, h', hans⟩ := ih hsorted h₂
            exact ⟨res, a', hres, h', hans.skip hactive fun _ => hmeets⟩
          | some r =>
            rw [Option.bind_some, hr] at hactive
            exact ⟨_, a₂, rfl, h₂, Answers.found hlt hactive hmeets⟩
    · have hany : (l.filter (startsAt env value s)).any (isOpen value) = false := by
        by_contra hne
        obtain ⟨r, hr, ho⟩ := List.any_eq_true.mp (Bool.not_eq_false _ ▸ hne)
        obtain ⟨hr, hs⟩ := List.mem_filter.mp hr
        exact hopen ⟨r, hr, hs, ho⟩
      rw [if_pos hany]
      obtain ⟨res, a', hres, h', hans⟩ := ih hsorted h
      refine ⟨res, a', hres, h', hans.skip ?_ fun h => absurd h hopen⟩
      by_contra hne
      exact hopen (openStart_of_activeAt hl hne)

/-- No instant that either way looks at leaves the years of `datetime`: those of the kept regimes, every start, and
at each start that is visited the ends up to the one that is looked for. -/
structure InYears (env : Env) (value : Ref → Json) (keep : Ref → Bool) (regimes : List Ref) : Prop where
  kept : Readable env value (regimes.filter keep)
  starts : ∀ r ∈ regimes.filter (isDict value), ∃ s, startOf env value r = .ok s
  visited : ∀ s, OpenStart env value (regimes.filter (isDict value)) s →
    (∀ s', s < s' → activeAt env value (regimes.filter keep) s' = none) →
    meets env value keep s (regimes.filter (isDict value)) = false

theorem activeAt_dicts (regimes : List Ref) (s : Int) :
    activeAt env value ((regimes.filter (isDict value)).filter keep) s = activeAt env value (regimes.filter keep) s := by
  have hfind : ∀ (l : List Ref) (q : Ref → Bool),
      ((l.filter (isDict value)).filter keep).find? (fun r => isDict value r && q r) =
        (l.filter keep).find? fun r => isDict value r && q r := by
    intro l q
    rw [List.find?_filter, List.find?_filter, List.find?_filter]
    refine List.find?_congr fun r _ => ?_
    cases isDict value r <;> simp
  have hrev : ((regimes.filter (isDict value)).filter keep).reverse = (regimes.reverse.filter (isDict value)).filter keep := by
    rw [← List.filter_reverse, ← List.filter_reverse]
  unfold activeAt pairAt
  simp only [hfind, hrev, Bool.and_assoc, ← List.filter_reverse]

theorem activePairAmong_on (env : Env) (value : Ref → Json) (keep : Ref → Bool) (regimes : List Ref) : ∃ res a',
    (activePairAmong env value keep regimes).on ⟨Dict.empty, []⟩ = (res, a') ∧ a'.calls.Nodup ∧
    (∀ pair, res = .ok pair → IsNewest env value (regimes.filter keep) pair) ∧
    ((∃ pair, res = .ok pair) ↔ (∀ r ∈ regimes.filter (isDict value), ∃ s, startOf env value r = .ok s) ∧
      ∀ s, OpenStart env value (regimes.filter (isDict value)) s →
        (∀ s', s < s' → activeAt env value (regimes.filter keep) s' = none) →
        meets env value keep s (regimes.filter (isDict value)) = false) := by
  have hl : ∀ r ∈ regimes.filter (isDict value), isDict value r = true := fun r hr => (List.mem_filter.mp hr).2
  unfold activePairAmong
  dsimp only
  cases hstarts : (regimes.filter (isDict value)).foldlM (startsStep env value) Dict.empty with
  | error e =>
    refine ⟨.error e, _, Call.on_bind_of_error (Call.on_ofExcept _ _), List.nodup_nil, nofun, ?_⟩
    refine iff_of_false (by rintro ⟨_, h⟩; cases h) fun h => ?_
    obtain ⟨starts, hok⟩ := starts_returns.mpr h.1
    rw [hstarts] at hok
    cases hok
  | ok starts =>
    rw [Call.on_bind_of_ok (Call.on_ofExcept _ _)]
    have hkeys : ∀ s, OpenStart env value (regimes.filter (isDict value)) s → s ∈ starts.keys.insertionSort (· ≥ ·) := by
      rintro s ⟨r, hr, hs, -⟩
      exact (List.mem_insertionSort _).mpr ((starts_eq hstarts s).2.mpr (.inr ⟨r, hr, hs⟩))
    have hsorted : (starts.keys.insertionSort (· ≥ ·)).Pairwise (· > ·) := by
      have hge := List.pairwise_insertionSort (· ≥ ·) starts.keys
      have hnd : (starts.keys.insertionSort (· ≥ ·)).Nodup := (List.perm_insertionSort _ _).nodup_iff.mpr starts.nodup
      exact (hge.and hnd).imp fun h => lt_of_le_of_ne h.1 (Ne.symm h.2)
    obtain ⟨res, a', hres, hmemo, hans⟩ := visit_on hl (fun s => by simpa using (starts_eq hstarts s).1) hsorted
      (show Memo keep ⟨Dict.empty, []⟩ from ⟨by simp, by simp, List.nodup_nil⟩)
    have hall : ∀ {p : Int → Prop}, (∀ s' ∈ starts.keys.insertionSort (· ≥ ·), p s' →
        activeAt env value ((regimes.filter (isDict value)).filter keep) s' = none) ↔
        ∀ s', p s' → activeAt env value (regimes.filter keep) s' = none := by
      intro p
      constructor
      · intro h s' hp
        by_contra hne
        rw [← activeAt_dicts] at hne
        exact hne (h s' (hkeys s' (openStart_of_activeAt hl hne)) hp)
      · intro h s' _ hp
        rw [activeAt_dicts]
        exact h s' hp
    refine ⟨res, a', hres, hmemo.once, fun pair hpair => ?_, ?_⟩
    · rcases hans.newest pair hpair with ⟨hp, hnone⟩ | ⟨s, -, hp, hsome, hnew⟩
      · exact .inl ⟨hp, fun s => (hall (p := fun _ => True)).mp (fun s' hs' _ => hnone s' hs') s trivial⟩
      · exact .inr ⟨s, hp.trans (activeAt_dicts _ _), hsome, hall.mp hnew⟩
    · rw [hans.raised]
      constructor
      · exact fun h => ⟨starts_returns.mp ⟨starts, hstarts⟩, fun s hopen hnew => h s (hkeys s hopen) hopen (hall.mpr hnew)⟩
      · exact fun h s _ hopen hnew => h.2 s hopen (hall.mp hnew)

/-- **The lazy search returns the pair that the marker reads over the kept regimes, and asks about none twice,
just when no instant that either looks at leaves the years of `datetime`.** -/
theorem activePairAmong_iff (env : Env) (value : Ref → Json) (keep : Ref → Bool) (regimes : List Ref) :
    ((∃ pair, ((activePairAmong env value keep regimes).on ⟨Dict.empty, []⟩).1 = .ok pair ∧
        activeRateChange env value (regimes.filter keep) = .ok pair) ∧
      ((activePairAmong env value keep regimes).on ⟨Dict.empty, []⟩).2.calls.Nodup) ↔
      InYears env value keep regimes := by
  obtain ⟨res, a', hon, honce, hnewest, hreturns⟩ := activePairAmong_on env value keep regimes
  rw [hon]
  constructor
  · rintro ⟨⟨pair, hpair, htable⟩, -⟩
    obtain ⟨hstarts, hvisited⟩ := hreturns.mp ⟨pair, hpair⟩
    exact ⟨activeRateChange_returns.mp ⟨pair, htable⟩, hstarts, hvisited⟩
  · intro h
    obtain ⟨pair, hpair⟩ := hreturns.mpr ⟨h.starts, h.visited⟩
    obtain ⟨pair', htable⟩ := activeRateChange_returns.mpr h.kept
    have heq : pair' = pair := (activeRateChange_newest htable).unique (hnewest pair hpair)
    exact ⟨⟨pair, hpair, heq ▸ htable⟩, honce⟩

def beforeYearOne : Env where
  fromisoformat s := if s = "0001-01-01T00:00:00+14:00" then some (.aware (MIN_INSTANT - 50400000000)) else none
  floats := ⟨fun _ => none, fun _ _ => false⟩

theorem activePairAmong_raises :
    ¬ ((∃ pair, ((activePairAmong beforeYearOne (fun _ => .obj [("effectiveFrom", .str "0001-01-01T00:00:00+14:00")])
        (fun _ => false) [0]).on ⟨Dict.empty, []⟩).1 = .ok pair ∧
      activeRateChange beforeYearOne (fun _ => .obj [("effectiveFrom", .str "0001-01-01T00:00:00+14:00")])
        ([0].filter fun _ => false) = .ok pair)) := by
  have hraised : ((activePairAmong beforeYearOne (fun _ => .obj [("effectiveFrom", .str "0001-01-01T00:00:00+14:00")])
      (fun _ => false) [0]).on ⟨Dict.empty, []⟩).1 = .error .overflow := by
    decide +kernel
  rintro ⟨pair, hpair, -⟩
  rw [hraised] at hpair
  cases hpair

end

end Cctally.MeterRate
