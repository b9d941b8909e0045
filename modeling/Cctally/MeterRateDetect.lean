import Cctally.Doubles
import Cctally.Except
import Cctally.MeterRate
import Mathlib.Data.List.ReduceOption

/-!
# Reported rate transitions

A transition is a pair whose two rates are finite and positive. A run reports the
transitions of the regimes it persists, less those at the start of a pair it began
with, whether that pair could be measured or not. A pair whose later regime gets its
first rate in a later run is a transition that no run reports.
-/

namespace Cctally.MeterRate

inductive Severity
  | info
  | warn
  | alarm
  deriving DecidableEq

def ALARM_DROP_FRACTION : ℚ := 25 / 100
def NOTABLE_DROP_FRACTION : ℚ := Doubles.round (2 / 100)

def transitionSeverity (previous new : ℚ) : Severity :=
  if previous ≤ 0 ∨ new ≤ 0 then .info
  else if previous ≤ new then .info
  else
    let drop := Doubles.round (Doubles.round (previous - new) / previous)
    if ALARM_DROP_FRACTION ≤ drop then .alarm else if NOTABLE_DROP_FRACTION ≤ drop then .warn else .info

/-- The instant stands for its `isoformat()`, one text for each. -/
structure RateChangeTransition where
  provider : String
  accountKey : String
  effectiveFrom : Int
  previousUnitsPerPoint : ℚ
  newUnitsPerPoint : ℚ
  severity : Severity
  detectedAt : String
  deriving DecidableEq

def RateChangeTransition.identity (t : RateChangeTransition) : String × String × Int :=
  (t.provider, t.accountKey, t.effectiveFrom)

structure Regimes where
  value : Ref → Json
  regimes : List Ref

structure Listing where
  provider : String
  accountKey : String
  detectedAt : String

section
variable (env : Env) (floatOf : String → Option ℚ)

/-- `_finite_positive`, where `floatOf` is `float` of a text: `none` for a `ValueError` and what is not finite. -/
def finitePositive : Json → Except Raised (Option ℚ)
  | .num n =>
    if 2 ^ 1024 - 2 ^ 970 ≤ |n| then throw .overflow else pure (some (Doubles.round n) |>.filter (0 < ·))
  | .bool b => pure (if b then some 1 else none)
  | .float r => pure ((env.floats.value r).filter (0 < ·))
  | .str s => pure ((floatOf s).filter (0 < ·))
  | _ => pure none

def rateOf (value : Ref → Json) (r : Ref) : Except Raised (Option ℚ) := finitePositive env floatOf (getField value r "unitsPerPoint")

def Regimes.pairs (state : Regimes) : Except Raised (Dict Int (Ref × Ref)) := adjacentPairs env state.value state.regimes

def transitionAt (listing : Listing) (state : Regimes) (pairs : Dict Int (Ref × Ref)) (start : Int) :
    Except Raised (Option RateChangeTransition) := do
  match pairs.get? start with
  | none => pure none
  | some (p, r) =>
    let previous ← rateOf env floatOf state.value p
    let new ← rateOf env floatOf state.value r
    match previous, new with
    | some previous, some new =>
      pure (some ⟨listing.provider, listing.accountKey, start, previous, new, transitionSeverity previous new, listing.detectedAt⟩)
    | _, _ => pure none

def enumerateTransitions (listing : Listing) (state : Regimes) : Except Raised (List RateChangeTransition) := do
  let pairs ← state.pairs env
  let out ← (sortedSet pairs.keys).mapM (transitionAt env floatOf listing state pairs)
  pure out.reduceOption

def detectTransitions (listing : Listing) (before after : Regimes) : Except Raised (List RateChangeTransition) := do
  let already ← before.pairs env
  let transitions ← enumerateTransitions env floatOf listing after
  pure (transitions.filter fun t => t.effectiveFrom ∉ already.keys)

/-! ## What a run reports -/

def Paired (state : Regimes) (start : Int) : Prop := ∃ pairs, state.pairs env = .ok pairs ∧ start ∈ pairs.keys

def Measurable (state : Regimes) (start : Int) : Prop :=
  ∃ pairs p r a b, state.pairs env = .ok pairs ∧ pairs.get? start = some (p, r) ∧
    rateOf env floatOf state.value p = .ok (some a) ∧ rateOf env floatOf state.value r = .ok (some b)

def Reports (listing : Listing) (before after : Regimes) : Prop :=
  ∃ old new reported, enumerateTransitions env floatOf listing before = .ok old ∧
    enumerateTransitions env floatOf listing after = .ok new ∧
    detectTransitions env floatOf listing before after = .ok reported ∧
    (∀ t ∈ new, t.identity ∉ old.map RateChangeTransition.identity → t.identity ∈ reported.map RateChangeTransition.identity) ∧
    ∀ t ∈ reported, t.identity ∉ old.map RateChangeTransition.identity

def MeasuredBefore (before after : Regimes) : Prop :=
  ∀ start, Measurable env floatOf after start → Paired env before start → Measurable env floatOf before start

variable {env floatOf} {listing : Listing} {state before after : Regimes}

theorem transitionAt_eq_some {pairs : Dict Int (Ref × Ref)} {start : Int} {t : RateChangeTransition}
    (h : transitionAt env floatOf listing state pairs start = .ok (some t)) :
    t.identity = (listing.provider, listing.accountKey, start) ∧ t.effectiveFrom = start ∧
      ∃ p r a b, pairs.get? start = some (p, r) ∧ rateOf env floatOf state.value p = .ok (some a) ∧
        rateOf env floatOf state.value r = .ok (some b) := by
  unfold transitionAt at h
  cases hpair : pairs.get? start with
  | none =>
    rw [hpair] at h
    cases h
  | some pair =>
    obtain ⟨p, r⟩ := pair
    rw [hpair] at h
    obtain ⟨previous, hp, h⟩ := Except.bind_eq_ok.mp h
    obtain ⟨new, hr, h⟩ := Except.bind_eq_ok.mp h
    cases previous with
    | none => cases h
    | some a =>
      cases new with
      | none => cases h
      | some b =>
        cases h
        exact ⟨rfl, rfl, p, r, a, b, rfl, hp, hr⟩

variable (listing) in
theorem transitionAt_of_rates {pairs : Dict Int (Ref × Ref)} {start : Int} {p r : Ref} {a b : ℚ}
    (hpair : pairs.get? start = some (p, r)) (hp : rateOf env floatOf state.value p = .ok (some a))
    (hr : rateOf env floatOf state.value r = .ok (some b)) :
    ∃ t, transitionAt env floatOf listing state pairs start = .ok (some t) ∧
      t.identity = (listing.provider, listing.accountKey, start) := by
  unfold transitionAt
  rw [hpair]
  dsimp only
  rw [hp, hr]
  exact ⟨_, rfl, rfl⟩

theorem mem_enumerate {ts : List RateChangeTransition} (h : enumerateTransitions env floatOf listing state = .ok ts)
    (key : String × String × Int) : key ∈ ts.map RateChangeTransition.identity ↔
      ∃ start, key = (listing.provider, listing.accountKey, start) ∧ Measurable env floatOf state start := by
  obtain ⟨pairs, hpairs, h⟩ := Except.bind_eq_ok.mp h
  obtain ⟨out, hout, h⟩ := Except.bind_eq_ok.mp h
  cases h
  rw [List.mem_map]
  constructor
  · rintro ⟨t, ht, rfl⟩
    obtain ⟨start, -, hat⟩ := (Except.mem_of_mapM hout _).1 (List.reduceOption_mem_iff.1 ht)
    obtain ⟨hid, -, p, r, a, b, hpair, hp, hr⟩ := transitionAt_eq_some hat
    exact ⟨start, hid, pairs, p, r, a, b, hpairs, hpair, hp, hr⟩
  · rintro ⟨start, rfl, pairs', p, r, a, b, hpairs', hpair, hp, hr⟩
    rw [hpairs] at hpairs'
    cases hpairs'
    obtain ⟨t, hat, hid⟩ := transitionAt_of_rates listing hpair hp hr
    have hmem : start ∈ sortedSet pairs.keys := by
      rw [mem_sortedSet]
      exact Dict.mem_keys.2 ⟨_, hpair⟩
    exact ⟨t, List.reduceOption_mem_iff.2 ((Except.mem_of_mapM hout _).2 ⟨start, hmem, hat⟩), hid⟩

theorem mem_detect {ts : List RateChangeTransition} (h : detectTransitions env floatOf listing before after = .ok ts)
    (key : String × String × Int) : key ∈ ts.map RateChangeTransition.identity ↔
      ∃ start, key = (listing.provider, listing.accountKey, start) ∧ Measurable env floatOf after start ∧
        ¬ Paired env before start := by
  obtain ⟨already, halready, h⟩ := Except.bind_eq_ok.mp h
  obtain ⟨new, hnew, h⟩ := Except.bind_eq_ok.mp h
  cases h
  have hpaired : ∀ start, Paired env before start ↔ start ∈ already.keys := by
    intro start
    unfold Paired
    rw [halready]
    exact ⟨fun h => by obtain ⟨pairs, hpairs, hmem⟩ := h; cases hpairs; exact hmem, fun h => ⟨already, rfl, h⟩⟩
  rw [List.mem_map]
  constructor
  · intro h
    obtain ⟨t, ht, rfl⟩ := h
    obtain ⟨ht, hfresh⟩ := List.mem_filter.1 ht
    obtain ⟨start, hid, hstart⟩ := (mem_enumerate hnew t.identity).1 (List.mem_map_of_mem ht)
    have hfrom : t.effectiveFrom = start := congrArg (fun k => k.2.2) hid
    rw [decide_eq_true_eq, hfrom, ← hpaired] at hfresh
    exact ⟨start, hid, hstart, hfresh⟩
  · intro h
    obtain ⟨start, rfl, hstart, hfresh⟩ := h
    obtain ⟨t, ht, hid⟩ := List.mem_map.1 ((mem_enumerate hnew _).2 ⟨start, rfl, hstart⟩)
    have hfrom : t.effectiveFrom = start := congrArg (fun k => k.2.2) hid
    refine ⟨t, List.mem_filter.2 ⟨ht, ?_⟩, hid⟩
    rw [decide_eq_true_eq, hfrom, ← hpaired]
    exact hfresh

theorem Measurable.paired {start : Int} (h : Measurable env floatOf state start) : Paired env state start := by
  obtain ⟨pairs, p, r, a, b, hpairs, hpair, -, -⟩ := h
  exact ⟨pairs, hpairs, Dict.mem_keys.2 ⟨_, hpair⟩⟩

theorem detect_returns {old new : List RateChangeTransition} (hold : enumerateTransitions env floatOf listing before = .ok old)
    (hnew : enumerateTransitions env floatOf listing after = .ok new) :
    ∃ reported, detectTransitions env floatOf listing before after = .ok reported := by
  obtain ⟨pairs, hpairs, -⟩ := Except.bind_eq_ok.mp hold
  unfold detectTransitions
  rw [hpairs, hnew]
  exact ⟨_, rfl⟩

theorem reports_iff {old new : List RateChangeTransition} (hold : enumerateTransitions env floatOf listing before = .ok old)
    (hnew : enumerateTransitions env floatOf listing after = .ok new) :
    Reports env floatOf listing before after ↔ MeasuredBefore env floatOf before after := by
  constructor
  · intro h start hafter hpaired
    obtain ⟨old', new', reported, hold', hnew', hreported, hall, -⟩ := h
    obtain ⟨t, ht, hid⟩ := List.mem_map.1 ((mem_enumerate hnew' _).2 ⟨start, rfl, hafter⟩)
    by_cases hmem : (listing.provider, listing.accountKey, start) ∈ old'.map RateChangeTransition.identity
    · obtain ⟨s, hs, hbefore⟩ := (mem_enumerate hold' _).1 hmem
      cases hs
      exact hbefore
    · rw [← hid] at hmem
      obtain ⟨s, hs, -, hfresh⟩ := (mem_detect hreported _).1 (hall t ht hmem)
      rw [hid] at hs
      cases hs
      exact absurd hpaired hfresh
  · intro h
    obtain ⟨reported, hreported⟩ := detect_returns hold hnew
    refine ⟨old, new, reported, hold, hnew, hreported, fun t ht hmem => ?_, fun t ht hmem => ?_⟩
    · obtain ⟨start, hid, hafter⟩ := (mem_enumerate hnew _).1 (List.mem_map_of_mem ht)
      refine (mem_detect hreported _).2 ⟨start, hid, hafter, fun hpaired => hmem ?_⟩
      exact (mem_enumerate hold _).2 ⟨start, hid, h start hafter hpaired⟩
    · obtain ⟨start, hid, -, hfresh⟩ := (mem_detect hreported _).1 (List.mem_map_of_mem ht)
      obtain ⟨s, hs, hbefore⟩ := (mem_enumerate hold _).1 hmem
      rw [hid] at hs
      cases hs
      exact hfresh hbefore.paired

end

section
variable (env : Env) (floatOf : String → Option ℚ) (listing : Listing)

end

def oneInstant : Env where
  fromisoformat s := if s = "2026-01-01" then some (.aware 0) else none
  floats := ⟨fun _ => none, fun _ _ => false⟩

def nobody : Listing := ⟨"claude", "all", "2026-01-02"⟩

def measuredAs (rate : Json) : Regimes where
  value r :=
    if r = 0 then .obj [("status", .str "closed"), ("effectiveUntil", .str "2026-01-01"), ("unitsPerPoint", .num 2)]
    else .obj [("effectiveFrom", .str "2026-01-01"), ("unitsPerPoint", rate)]
  regimes := [0, 1]

theorem detectTransitions_silent :
    enumerateTransitions oneInstant (fun _ => none) nobody (measuredAs .null) = .ok [] ∧
      enumerateTransitions oneInstant (fun _ => none) nobody (measuredAs (.num 1)) =
        .ok [⟨"claude", "all", 0, 2, 1, .alarm, "2026-01-02"⟩] ∧
      detectTransitions oneInstant (fun _ => none) nobody (measuredAs .null) (measuredAs (.num 1)) = .ok [] := by
  decide +kernel

end Cctally.MeterRate
