import Cctally.Dict
import Mathlib.Data.String.Basic

/-!
# The outcome quarantine

Every record an older process wrote pauses the automatic outcomes of every account.
The state below is the fold that pauses them and, for each account and axis, finds
the way back: coverage by a completion, a witness against the bounds of everything
read before it, and a release. The transitions mark the rows they change.
Instants are whole seconds since the epoch.
-/

namespace Cctally.Quarantine

inductive Axis where
  | sevenDay
  | fiveHour
  deriving DecidableEq

def AXES : List Axis := [.sevenDay, .fiveHour]

theorem mem_AXES (x : Axis) : x ∈ AXES := by cases x <;> decide

def TOLERANCE_BLOCK_SEARCH_S : Int := 1800
def TOLERANCE_CANONICAL_S : Int := 600
def FIVE_HOUR_SEPARATION_S : Int := TOLERANCE_BLOCK_SEARCH_S + TOLERANCE_CANONICAL_S
def RECEIPT_SKEW_S : Int := 5
def CANDIDATE_ACTIVE_S : Int := 90
def COHORT_WEEKLY_OFFSET_S : Int := 8 * 86400
def COHORT_FIVE_HOUR_OFFSET_S : Int := 6 * 3600

def EXCLUDED_SCOPE : String := "excluded"
def COHORT_SCOPE : String := "cohorts"

inductive Wait where
  | inventory
  | expiry
  | usageRefresh
  | freshPeriod
  deriving DecidableEq

inductive Revocation where
  | backwardKey
  | orderRegression
  | nonInertFallback
  | administrative
  | manualCredit
  deriving DecidableEq

inductive TriggerKind where
  | excluded
  | legacySpool
  deriving DecidableEq

def maxOpt {α : Type*} [LinearOrder α] : Option α → Option α → Option α
  | none, b => b
  | some a, none => some a
  | some a, some b => some (if b ≤ a then a else b)

/-- What the fold takes from outside: `normalize_week_end`, the UTC date of an instant, and its
text. -/
structure Calendar where
  normalizeWeekEnd : Int → Int
  dateOf : Int → String
  iso : Int → String

structure Reading where
  observationId : String
  accountKey : Option String
  captureText : String
  captureEpoch : Int
  detectionEpoch : Int
  weekStartDate : Option String
  weekStartAtEpoch : Option Int
  weeklyEndEpoch : Option Int
  fiveHourKey : Option Int
  rawFiveHourReset : Option Int
  observedAxes : List Axis
  eligibleAxes : List Axis
  deriving DecidableEq

def Reading.bears (r : Reading) : Axis → Bool
  | .sevenDay => r.weekStartDate.isSome
  | .fiveHour => r.fiveHourKey.isSome

structure Cohort where
  h : Int
  r : Int
  e : Int
  u7End : Int
  u7Date : String
  u5Raw : Int
  u5Key : Int
  deriving DecidableEq

def Cohort.fromH (cal : Calendar) (h : Int) : Cohort :=
  let r := h + RECEIPT_SKEW_S
  let e := r + CANDIDATE_ACTIVE_S
  let u7End := cal.normalizeWeekEnd (e + COHORT_WEEKLY_OFFSET_S)
  let u5Raw := e + COHORT_FIVE_HOUR_OFFSET_S
  { h := h, r := r, e := e, u7End := u7End, u7Date := cal.dateOf (u7End - 7 * 86400), u5Raw := u5Raw
    u5Key := u5Raw + TOLERANCE_BLOCK_SEARCH_S }

/-! ## Bounds -/

structure WeeklyBounds where
  s7Date : Option String
  s7End : Option Int
  k7 : Option Int
  t7 : Option String
  c7 : Option Int
  x7 : Option Int
  deriving DecidableEq

def WeeklyBounds.empty : WeeklyBounds := ⟨none, none, none, none, none, none⟩

structure WeeklyEffect where
  effectiveEpoch : Option Int := none
  weekStartDate : Option String := none
  weekEndEpoch : Option Int := none
  captureEpoch : Option Int := none
  captureText : Option String := none
  exclusiveEnd : Option Int := none

namespace WeeklyBounds

def absorbReading (b : WeeklyBounds) (r : Reading) (possibleEffect : Bool) : WeeklyBounds :=
  if r.weekStartDate = none then b
  else
    { s7Date := maxOpt b.s7Date r.weekStartDate
      s7End := maxOpt b.s7End r.weeklyEndEpoch
      k7 := maxOpt b.k7 (some r.captureEpoch)
      t7 := maxOpt b.t7 (some r.captureText)
      c7 := if possibleEffect then maxOpt b.c7 (some r.captureEpoch) else b.c7
      x7 := b.x7 }

def absorbEffect (b : WeeklyBounds) (effect : WeeklyEffect) : WeeklyBounds :=
  { s7Date := maxOpt b.s7Date effect.weekStartDate
    s7End := maxOpt b.s7End effect.weekEndEpoch
    k7 := maxOpt b.k7 effect.captureEpoch
    t7 := maxOpt b.t7 effect.captureText
    c7 := maxOpt b.c7 effect.effectiveEpoch
    x7 := maxOpt b.x7 effect.exclusiveEnd }

def absorbCohort (b : WeeklyBounds) (c : Cohort) : WeeklyBounds :=
  { s7Date := maxOpt b.s7Date (some c.u7Date)
    s7End := maxOpt b.s7End (some c.u7End)
    k7 := b.k7
    t7 := b.t7
    c7 := maxOpt b.c7 (some c.e)
    x7 := maxOpt b.x7 (some c.u7End) }

def merge (items : List WeeklyBounds) : WeeklyBounds :=
  items.foldl (fun out b =>
    { s7Date := maxOpt out.s7Date b.s7Date
      s7End := maxOpt out.s7End b.s7End
      k7 := maxOpt out.k7 b.k7
      t7 := maxOpt out.t7 b.t7
      c7 := maxOpt out.c7 b.c7
      x7 := maxOpt out.x7 b.x7 }) empty

end WeeklyBounds

structure FiveHourBounds where
  k5 : Option Int
  rawUpper5 : Option Int
  k5c : Option Int
  t5 : Option String
  detectFloor : Option Int
  deriving DecidableEq

def FiveHourBounds.empty : FiveHourBounds := ⟨none, none, none, none, none⟩

structure FiveHourEffect where
  fiveHourKey : Option Int := none
  rawReset : Option Int := none
  captureEpoch : Option Int := none
  captureText : Option String := none

namespace FiveHourBounds

def absorbReading (b : FiveHourBounds) (r : Reading) (excluded : Bool) : FiveHourBounds :=
  match r.fiveHourKey with
  | none => b
  | some key =>
    { k5 := maxOpt b.k5 (some key)
      rawUpper5 := maxOpt b.rawUpper5 (maxOpt r.rawFiveHourReset (some (key + FIVE_HOUR_SEPARATION_S)))
      k5c := maxOpt b.k5c (some r.captureEpoch)
      t5 := maxOpt b.t5 (some r.captureText)
      detectFloor := if excluded then maxOpt b.detectFloor r.rawFiveHourReset else b.detectFloor }

def absorbEffect (b : FiveHourBounds) (effect : FiveHourEffect) : FiveHourBounds :=
  let upper :=
    match effect.fiveHourKey with
    | some key => maxOpt effect.rawReset (some (key + FIVE_HOUR_SEPARATION_S))
    | none => effect.rawReset
  { k5 := maxOpt b.k5 effect.fiveHourKey
    rawUpper5 := maxOpt b.rawUpper5 upper
    k5c := maxOpt b.k5c effect.captureEpoch
    t5 := maxOpt b.t5 effect.captureText
    detectFloor := b.detectFloor }

def absorbCohort (b : FiveHourBounds) (c : Cohort) : FiveHourBounds :=
  { k5 := maxOpt b.k5 (some c.u5Key)
    rawUpper5 := maxOpt b.rawUpper5 (some (max c.u5Raw (c.u5Key + FIVE_HOUR_SEPARATION_S)))
    k5c := b.k5c
    t5 := b.t5
    detectFloor := maxOpt b.detectFloor (some c.u5Raw) }

def merge (items : List FiveHourBounds) : FiveHourBounds :=
  items.foldl (fun out b =>
    { k5 := maxOpt out.k5 b.k5
      rawUpper5 := maxOpt out.rawUpper5 b.rawUpper5
      k5c := maxOpt out.k5c b.k5c
      t5 := maxOpt out.t5 b.t5
      detectFloor := maxOpt out.detectFloor b.detectFloor }) empty

end FiveHourBounds

structure ScopeBounds where
  weekly : WeeklyBounds
  fiveHour : FiveHourBounds
  deriving DecidableEq

def ScopeBounds.empty : ScopeBounds := ⟨.empty, .empty⟩

/-- `bound is None or p(bound)` -/
def absentOr {α : Type*} (bound : Option α) (p : α → Prop) : Prop := ∀ b ∈ bound, p b

instance {α : Type*} (bound : Option α) (p : α → Prop) [DecidablePred p] : Decidable (absentOr bound p) :=
  match bound with
  | none => .isTrue (by simp [absentOr])
  | some b => decidable_of_iff (p b) (by simp [absentOr])

def captureOrderOk (r : Reading) (k : Option Int) (t : Option String) : Prop :=
  absentOr k (fun k => k ≤ r.captureEpoch) ∧ absentOr t (fun t => t ≤ r.captureText)

instance (r : Reading) (k : Option Int) (t : Option String) : Decidable (captureOrderOk r k t) :=
  inferInstanceAs (Decidable (_ ∧ _))

def weeklyWitnessQualifies (r : Reading) (b : WeeklyBounds) : Bool :=
  match r.weekStartDate, r.weeklyEndEpoch, r.weekStartAtEpoch with
  | some date, some weekEnd, some start =>
    absentOr b.s7Date (fun s => s < date) ∧ absentOr b.s7End (fun s => s < weekEnd) ∧
      absentOr b.c7 (fun c => c < start) ∧ absentOr b.x7 (fun x => x ≤ start) ∧
      captureOrderOk r b.k7 b.t7 ∧ absentOr b.s7End (fun s => s < r.detectionEpoch)
  | _, _, _ => false

def fiveHourWitnessQualifies (r : Reading) (b : FiveHourBounds) (detectionFloor : Option Int) : Bool :=
  match r.fiveHourKey, r.rawFiveHourReset with
  | some key, some raw =>
    absentOr b.k5 (fun k => k < key) ∧ absentOr b.rawUpper5 (fun u => u + FIVE_HOUR_SEPARATION_S < raw) ∧
      captureOrderOk r b.k5c b.t5 ∧ absentOr detectionFloor (fun f => f < r.detectionEpoch)
  | _, _ => false

/-! ## State -/

inductive GateReason where
  | noTrigger
  | released
  | paused (wait : Option Wait)
  | pendingRevocation
  deriving DecidableEq

structure GateDecision where
  allowed : Bool
  reason : GateReason
  deriving DecidableEq

def GATE_NO_TRIGGER : GateDecision := ⟨true, .noTrigger⟩
def GATE_RELEASED : GateDecision := ⟨true, .released⟩

inductive Recovery where
  | paused
  | recovered
  deriving DecidableEq

inductive WitnessKey where
  | date (d : String)
  | window (k : Int)
  deriving DecidableEq

structure AxisRecovery where
  state : Recovery := .paused
  coverageId : Option String := none
  witnessId : Option String := none
  releaseId : Option String := none
  revocation : Option Revocation := none
  since : Option String := none
  recoveredAt : Option String := none
  notBefore : Option Int := none
  witnessKey : Option WitnessKey := none
  deriving DecidableEq

def AxisRecovery.pending (rec_ : AxisRecovery) : Option String :=
  if rec_.state = .paused ∧ rec_.releaseId = none then rec_.witnessId else none

structure ControlWitness where
  observationId : String
  captureEpoch : Int
  axes : List Axis
  weeklyEndEpoch : Option Int
  deriving DecidableEq

abbrev Coordinate := String × Int

structure Trigger where
  seq : Nat
  at_ : Coordinate
  kind : TriggerKind
  reason : String
  time : Option String
  deriving DecidableEq

structure Episode where
  opener : Coordinate
  openedAt : Option String
  closer : Option Coordinate
  closedAt : Option String
  deriving DecidableEq

def Episode.isOpen (e : Episode) : Bool := e.closedAt.isNone && e.closer.isNone

structure State where
  generation : Nat
  latestTrigger : Option Trigger
  episodes : List Episode
  cohort : Option Cohort
  expired : Bool
  maxAdmittedAt : Option Int
  bounds : Dict String ScopeBounds
  accounts : Dict String (Dict Axis AxisRecovery)
  control : Dict String ControlWitness
  nonInertCrossPeriod : Bool
  newTriggers : List Trigger
  dirtyEpisodes : List Coordinate
  dirtyBounds : List String
  dirtyAccounts : List String
  dirtyMeta : Bool
  dirtyControl : List String

def State.empty (nonInertCrossPeriod : Bool) : State :=
  { generation := 0, latestTrigger := none, episodes := [], cohort := none, expired := false, maxAdmittedAt := none
    bounds := .empty, accounts := .empty, control := .empty, nonInertCrossPeriod := nonInertCrossPeriod
    newTriggers := [], dirtyEpisodes := [], dirtyBounds := [], dirtyAccounts := [], dirtyMeta := false
    dirtyControl := [] }

namespace State

def hasTrigger (s : State) : Bool := 0 < s.generation

def openEpisode (s : State) : Option Episode := s.episodes.reverse.find? Episode.isOpen

def scope (s : State) (name : String) : ScopeBounds := (s.bounds.get? name).getD .empty

def merged (s : State) (accountKey : Option String) : ScopeBounds :=
  let parts := ([EXCLUDED_SCOPE, COHORT_SCOPE] ++ accountKey.toList).map s.scope
  ⟨WeeklyBounds.merge (parts.map ScopeBounds.weekly), FiveHourBounds.merge (parts.map ScopeBounds.fiveHour)⟩

def freshAxis (s : State) : AxisRecovery := { since := s.latestTrigger.bind Trigger.time }

def axis (s : State) (accountKey : String) (x : Axis) : AxisRecovery :=
  ((s.accounts.sub accountKey).get? x).getD s.freshAxis

def released (s : State) (accountKey : String) (x : Axis) : Bool := (s.axis accountKey x).state = .recovered

def barrierOpen (s : State) : Bool := s.openEpisode.isNone && (s.cohort.isNone || s.expired)

def waitingFor (s : State) (accountKey : String) (x : Axis) : Option Wait :=
  if !s.hasTrigger || s.released accountKey x then none
  else if s.openEpisode.isSome then some .inventory
  else if s.cohort.isSome && !s.expired then some .expiry
  else if (s.axis accountKey x).coverageId = none then some .usageRefresh
  else some .freshPeriod

def axisGate (s : State) (accountKey : Option String) (x : Axis) : GateDecision :=
  if !s.hasTrigger then GATE_NO_TRIGGER
  else
    match accountKey with
    | some a => if s.released a x then GATE_RELEASED else ⟨false, .paused (s.waitingFor a x)⟩
    | none => ⟨false, .paused none⟩

def pendingWitness (s : State) (accountKey : String) (x : Axis) : Option String := (s.axis accountKey x).pending

def coverableAxes (s : State) (accountKey observationId : String) : List Axis :=
  if !s.hasTrigger || s.openEpisode.isSome then []
  else
    match s.control.get? accountKey with
    | none => []
    | some witness =>
      if witness.observationId ≠ observationId then []
      else if ¬ absentOr s.cohort (fun c => c.e ≤ witness.captureEpoch) then []
      else AXES.filter fun x => x ∈ witness.axes ∧ ¬ s.released accountKey x ∧ (s.axis accountKey x).coverageId = none

/-! ## Transitions -/

def setScope (s : State) (name : String) (value : ScopeBounds) : State :=
  if s.bounds.get? name = some value then s
  else { s with bounds := s.bounds.set name value, dirtyBounds := name :: s.dirtyBounds }

def setAxis (s : State) (accountKey : String) (x : Axis) (rec_ : AxisRecovery) : State :=
  { s with accounts := s.accounts.setSub accountKey x rec_, dirtyAccounts := accountKey :: s.dirtyAccounts }

def rewrite (s : State) (accountKey : String) (x : Axis) : Option AxisRecovery → State
  | none => s
  | some rec_ => s.setAxis accountKey x rec_

def touchAllAccounts (s : State) : State := { s with dirtyAccounts := s.accounts.keys ++ s.dirtyAccounts }

def noteAdmitted (s : State) (atEpoch : Option Int) : State :=
  match atEpoch with
  | none => s
  | some t =>
    if absentOr s.maxAdmittedAt (fun m => m < t) then { s with maxAdmittedAt := some t, dirtyMeta := true } else s

def noteClock (s : State) (clock : Option Int) : State :=
  match s.cohort, clock with
  | some cohort, some t =>
    if !s.expired && s.openEpisode.isNone && cohort.e ≤ t then
      touchAllAccounts { s with expired := true, dirtyMeta := true }
    else s
  | _, _ => s

def onTrigger (s : State) (kind : TriggerKind) (reason : String) (at_ : Coordinate) (time : Option String) : State :=
  let trig : Trigger := ⟨s.generation + 1, at_, kind, reason, time⟩
  { s with
    generation := s.generation + 1
    latestTrigger := some trig
    newTriggers := s.newTriggers ++ [trig]
    accounts := s.accounts.mapValues fun _ => .empty
    control := .empty
    dirtyControl := s.accounts.keys ++ s.dirtyControl
    dirtyAccounts := s.accounts.keys ++ s.dirtyAccounts
    dirtyMeta := true }

def setPosition (cal : Calendar) (s : State) : State :=
  let cohort := Cohort.fromH cal (s.maxAdmittedAt.getD 0)
  let scope := s.scope COHORT_SCOPE
  let s := { s with cohort := some cohort, expired := false }
  let s := s.setScope COHORT_SCOPE ⟨scope.weekly.absorbCohort cohort, scope.fiveHour.absorbCohort cohort⟩
  touchAllAccounts { s with dirtyMeta := true }

def modifyOpen (f : Episode → Episode) : List Episode → List Episode
  | [] => []
  | e :: es => if es.any Episode.isOpen then e :: modifyOpen f es else if e.isOpen then f e :: es else e :: es

def modifyKey (key : Coordinate) (f : Episode → Episode) : List Episode → List Episode
  | [] => []
  | e :: es => if e.opener = key then f e :: es else e :: modifyKey key f es

/-- `current.closer_… = …; current.closed_at = …`, and the row is marked. -/
def closeCurrent (s : State) (at_ : Coordinate) (time : Option String) : State :=
  match s.openEpisode with
  | none => s
  | some current =>
    { s with
      episodes := modifyOpen (fun e => { e with closer := some at_, closedAt := time }) s.episodes
      dirtyEpisodes := current.opener :: s.dirtyEpisodes }

def onEpisodeOpen (s : State) (key : Coordinate) (time : Option String) : State :=
  let s := s.closeCurrent key time
  let episodes :=
    if s.episodes.any (fun e => e.opener = key) then
      modifyKey key (fun e => { e with closer := none, closedAt := none }) s.episodes
    else s.episodes ++ [⟨key, time, none, none⟩]
  touchAllAccounts
    { s with episodes := episodes, dirtyEpisodes := key :: s.dirtyEpisodes, cohort := none, expired := false
             dirtyMeta := true }

def onEpisodeContinue (s : State) (key : Coordinate) : Bool :=
  match s.openEpisode with
  | some current => current.opener = key
  | none => false

def onEpisodeClose (s : State) (at_ : Coordinate) (time : Option String) (episode : Option Coordinate) : Bool × State :=
  match s.openEpisode with
  | none => (false, s)
  | some current =>
    if absentOr episode (fun key => key = current.opener) then (true, (s.closeCurrent at_ time).touchAllAccounts)
    else (false, s)

def absorbReading (s : State) (name : String) (r : Reading) (possibleEffect excluded : Bool) : State :=
  s.setScope name
    ⟨(s.scope name).weekly.absorbReading r possibleEffect, (s.scope name).fiveHour.absorbReading r excluded⟩

def absorbWeeklyEffect (s : State) (name : String) (effect : WeeklyEffect) : State :=
  s.setScope name ⟨(s.scope name).weekly.absorbEffect effect, (s.scope name).fiveHour⟩

def absorbFiveHourEffect (s : State) (name : String) (effect : FiveHourEffect) : State :=
  s.setScope name ⟨(s.scope name).weekly, (s.scope name).fiveHour.absorbEffect effect⟩

def weeklyPossibleEffect (s : State) (accountKey : Option String) (r : Reading) : Bool :=
  if Axis.sevenDay ∉ r.observedAxes ∨ r.weekStartDate = none then false
  else
    match (s.merged accountKey).weekly.s7End with
    | some weekEnd => r.detectionEpoch < weekEnd
    | none => false

def onControlWitness (s : State) (accountKey : String) (witness : ControlWitness) : State :=
  if !s.hasTrigger then s
  else if s.control.get? accountKey = some witness then s
  else { s with control := s.control.set accountKey witness, dirtyControl := accountKey :: s.dirtyControl }

/-- The texts that name axes; `none` where one names none, or there are none. -/
def axesOf (names : List String) : Option (List Axis) :=
  if names = [] then none
  else names.mapM fun name => if name = "sevenDay" then some .sevenDay else if name = "fiveHour" then some .fiveHour else none

def cover (completionId : String) (accountKey : String) (s : State) (x : Axis) : State :=
  s.setAxis accountKey x { s.axis accountKey x with coverageId := some completionId }

def onAuthorityCompletion (s : State) (accountKey completionId : String) (generation : Option Int)
    (observationId : Option String) (axes : List String) : Bool × State :=
  if generation ≠ some (s.generation : Int) ∨ !s.hasTrigger then (false, s)
  else
    match axesOf axes, s.control.get? accountKey, observationId with
    | some axes, some witness, some observationId =>
      if ¬ axes.all (· ∈ witness.axes) then (false, s)
      else
        let newly := axes.filter (· ∈ s.coverableAxes accountKey observationId)
        if newly = [] then (false, s)
        else
          let s := newly.foldl (cover completionId accountKey) s
          match decide (Axis.sevenDay ∈ newly), witness.weeklyEndEpoch with
          | true, some weekEnd => (true, s.absorbWeeklyEffect accountKey { exclusiveEnd := some weekEnd })
          | _, _ => (true, s)
    | _, _, _ => (false, s)

/-- A record that names no witness names the pending witness of an axis without one. -/
def onRelease (s : State) (accountKey : String) (x : Option Axis) (generation : Option Int)
    (witnessId completionId : Option String) (releaseId : String) (time : Option String) : Bool × State :=
  match x with
  | none => (false, s)
  | some x =>
    let rec_ := s.axis accountKey x
    if generation ≠ some (s.generation : Int) ∨ !s.hasTrigger then (false, s)
    else if rec_.state ≠ .paused ∨ rec_.coverageId = none ∨ rec_.coverageId ≠ completionId ∨
        s.pendingWitness accountKey x ≠ witnessId then (false, s)
    else
      (true, s.setAxis accountKey x
        { rec_ with state := .recovered, releaseId := some releaseId, recoveredAt := time, revocation := none
                    notBefore := none })

/-- What a revocation makes of a record: nothing, of one with neither a release nor a witness. -/
def revoked (reason : Revocation) (time : Option String) (voidCoverage : Bool) (rec_ : AxisRecovery) :
    Option AxisRecovery :=
  if rec_.state ≠ .recovered ∧ rec_.witnessId = none ∧ ¬ (voidCoverage ∧ rec_.coverageId ≠ none) then none
  else
    let rec_ :=
      if rec_.state = .recovered then
        { rec_ with revocation := some reason, since := (time.filter (· ≠ "")).or rec_.since }
      else rec_
    some
      { rec_ with state := .paused, witnessId := none, witnessKey := none, releaseId := none, recoveredAt := none
                  notBefore := none, coverageId := if voidCoverage then none else rec_.coverageId }

def revokeAxis (reason : Revocation) (time : Option String) (voidCoverage : Bool) (s : State) (accountKey : String)
    (x : Axis) : State :=
  s.rewrite accountKey x (revoked reason time voidCoverage (s.axis accountKey x))

def revokeAll (s : State) (reason : Revocation) (time : Option String) (axes : List Axis) (voidCoverage : Bool) : State :=
  (sortedSet s.accounts.keys).foldl
    (fun s accountKey => axes.foldl (fun s x => revokeAxis reason time voidCoverage s accountKey x) s) s

def onDeletionOutcome (s : State) (accountKey : Option String) (time : Option String) : State :=
  if !s.nonInertCrossPeriod then s
  else
    match accountKey with
    | none => s.revokeAll .nonInertFallback time AXES false
    | some a => AXES.foldl (fun s x => revokeAxis .nonInertFallback time false s a x) s

def backwardKey (r : Reading) : Axis → Option WitnessKey → Bool
  | .sevenDay, some (.date d) => r.weekStartDate.any (· < d)
  | .fiveHour, some (.window k) => r.fiveHourKey.any (· < k)
  | _, _ => false

def orderRegressed (own : ScopeBounds) (r : Reading) (x : Axis) : Bool :=
  let (k, t) :=
    match x with
    | .sevenDay => (own.weekly.k7, own.weekly.t7)
    | .fiveHour => (own.fiveHour.k5c, own.fiveHour.t5)
  k.any (r.captureEpoch < ·) || t.any (r.captureText < ·)

/-- `_revocation` -/
def revocationOf (own : ScopeBounds) (r : Reading) (rec_ : AxisRecovery) (x : Axis) : Option Revocation :=
  if backwardKey r x rec_.witnessKey then some .backwardKey
  else if orderRegressed own r x then some .orderRegression
  else none

def settled (cal : Calendar) (own : ScopeBounds) (r : Reading) (x : Axis) (rec_ : AxisRecovery) : Option AxisRecovery :=
  if !r.bears x then none
  else if rec_.state = .recovered then
    (revocationOf own r rec_ x).bind fun reason => revoked reason (some (cal.iso r.detectionEpoch)) false rec_
  else if rec_.pending.isSome then some { rec_ with witnessId := none, witnessKey := none, notBefore := none }
  else none

def settleAxis (cal : Calendar) (own : ScopeBounds) (accountKey : String) (r : Reading) (s : State) (x : Axis) : State :=
  s.rewrite accountKey x (settled cal own r x (s.axis accountKey x))

def qualifies (r : Reading) (merged : ScopeBounds) : Axis → Bool
  | .sevenDay => weeklyWitnessQualifies r merged.weekly
  | .fiveHour => fiveHourWitnessQualifies r merged.fiveHour merged.fiveHour.detectFloor

def witnessSnapshot (merged : ScopeBounds) : Axis → Option Int
  | .sevenDay => merged.weekly.s7End
  | .fiveHour => merged.fiveHour.detectFloor

def witnessKeyOf (r : Reading) : Axis → Option WitnessKey
  | .sevenDay => r.weekStartDate.map .date
  | .fiveHour => r.fiveHourKey.map .window

def witnessed (merged : ScopeBounds) (r : Reading) (x : Axis) (rec_ : AxisRecovery) : Option AxisRecovery :=
  if rec_.state ≠ .paused ∨ rec_.coverageId = none ∨ rec_.witnessId ≠ none ∨ x ∉ r.eligibleAxes then none
  else if qualifies r merged x then
    some { rec_ with witnessId := some r.observationId, witnessKey := witnessKeyOf r x
                     notBefore := witnessSnapshot merged x }
  else none

def witnessAxis (merged : ScopeBounds) (accountKey : String) (r : Reading) (s : State) (x : Axis) : State :=
  s.rewrite accountKey x (witnessed merged r x (s.axis accountKey x))

def evaluateReading (cal : Calendar) (s : State) (accountKey : Option String) (r : Reading) :
    (Axis → GateDecision) × State :=
  match accountKey with
  | none =>
    let s := s.absorbReading EXCLUDED_SCOPE r (s.weeklyPossibleEffect none r) false
    (s.axisGate none, s)
  | some a =>
    let own := s.scope a
    let s := if s.hasTrigger then AXES.foldl (settleAxis cal own a r) s else s
    let gates := s.axisGate (some a)
    let merged := s.merged (some a)
    let s := if s.hasTrigger && s.barrierOpen then AXES.foldl (witnessAxis merged a r) s else s
    (gates, s.absorbReading a r (s.weeklyPossibleEffect (some a) r) false)

end State

end Cctally.Quarantine
