import Cctally.Dict
import Mathlib.Algebra.Order.Ring.Rat
import Mathlib.Data.String.Basic
import Mathlib.Order.WithBot

/-!
# Reducing statusline candidates

The candidates of one evaluation are reduced axis by axis against the projected
baseline. A reading below the baseline of its own window is a drop: it is held
pending with the observations that support it, until its contributors agree or
its deadline has passed.
-/

namespace Cctally.Statusline

inductive Axis where
  | fiveHour
  | sevenDay
  deriving DecidableEq

structure AxisValue where
  percent : ℚ
  rawResetsAt : Int
  canonicalKey : Option Int
  deriving DecidableEq

inductive ResetGeneration where
  | epoch (floor : Int)
  | logical (generation : String)
  deriving DecidableEq

structure AxisProjection where
  percent : ℚ
  rawResetsAt : Int
  canonicalKey : Int
  resetGeneration : ResetGeneration

inductive EvidenceKind where
  | present
  | expiredPredecessor
  | provenEmpty
  | floorRetired
  | unknown
  deriving DecidableEq

structure AxisEvidence where
  kind : EvidenceKind
  predecessorKey : Option Int
  groupKey : Option Int
  floorEpoch : Option Int

structure DbProjection where
  fiveHour : Option AxisProjection
  sevenDay : Option AxisProjection
  evidence : Axis → Option AxisEvidence

structure Contributor where
  baselineReceivedAt : Int
  satisfied : Bool
  deriving DecidableEq

inductive KernelStage where
  | settling
  | ready
  | zeroArmed
  | suppressed
  deriving DecidableEq

abbrev Scope := String × String × Axis

structure RetrySignature where
  candidateKey : Int
  candidatePercent : ℚ
  dbKey : Option Int
  dbPercent : Option ℚ
  dbResetGeneration : Option ResetGeneration
  scope : Option Scope
  deriving DecidableEq

structure MemberFacts where
  refused : Bool
  dropRefused : Bool

inductive TombstoneState where
  | inflight
  | committed
  deriving DecidableEq

structure Tombstone where
  state : TombstoneState
  blockReceivedAtThrough : Option Int

/-- The drop gate: one answer for both axes, or one for each; a missing axis is withheld. -/
inductive DropConsensus where
  | both (allowed : Bool)
  | each (allowed : Axis → Option Bool)

def DropConsensus.allows : DropConsensus → Axis → Bool
  | .both allowed, _ => allowed
  | .each allowed, axis => allowed axis = some true

inductive Action where
  | noop
  | writeControl
  | publishDb
  deriving DecidableEq

inductive Classification where
  | publish
  | stale
  | floor
  | unknown

def pendingDropDeadlineSeconds : Int := 180

def protocolGeneration : String := "account-bound-v1"

section
variable (W : Type)

structure Candidate where
  token : String
  receivedAt : Int
  fiveHour : Option AxisValue
  sevenDay : Option AxisValue
  activity : Option W
  deriving DecidableEq

abbrev Member := Candidate W × AxisValue

structure SupportingObservation where
  observationId : String
  token : String
  percent : ℚ
  rawResetsAt : Int
  receivedAt : Int
  witness : Option W
  deriving DecidableEq

structure RetainedLow where
  percent : ℚ
  rawResetsAt : Int
  canonicalKey : Int
  observations : List (SupportingObservation W)
  deriving DecidableEq

structure PendingDrop where
  canonicalKey : Int
  reducedPercent : ℚ
  firstSeenAt : Int
  kernelStage : KernelStage
  attempts : Nat
  contributors : Dict String Contributor
  retrySignature : Option RetrySignature
  deadlineAt : Int
  retained : Option (RetainedLow W)

structure ControlState where
  pendingDrops : Axis → Option (PendingDrop W)

structure PublicationPlan where
  sevenDay : Option AxisValue
  fiveHour : Option AxisValue
  deriving DecidableEq

structure AxisDecision where
  action : Action
  candidate : Option AxisValue
  pending : Option (PendingDrop W)
  unknown : Bool

structure ReductionDecision where
  action : Action
  control : ControlState W
  plan : Option PublicationPlan
  unknownAxes : List Axis

/-- What the reducer computes with digests and witnesses: the identity of a reading, the text of a witness, its
digest, and where the drop bound of a support ends. -/
structure Env where
  observationIdentity : String → Axis → AxisValue → String
  witnessJson : Option W → String
  digest : String → String
  boundEnd : Option W → Int → WithTop ℚ

end

variable {W : Type}

def axisValueKey (value : AxisValue) : Int := value.canonicalKey.getD value.rawResetsAt

def candidateAxis (candidate : Candidate W) : Axis → Option AxisValue
  | .fiveHour => candidate.fiveHour
  | .sevenDay => candidate.sevenDay

def projectionAxis (projection : DbProjection) : Axis → Option AxisProjection
  | .fiveHour => projection.fiveHour
  | .sevenDay => projection.sevenDay

def axisEvidence (projection : DbProjection) (axis : Axis) : AxisEvidence :=
  match projectionAxis projection axis with
  | some _ => ⟨.present, none, none, none⟩
  | none => (projection.evidence axis).getD ⟨.unknown, none, none, none⟩

def classifyAbsentAxis (evidence : AxisEvidence) (key : Int) (axis : Axis) : Classification :=
  match evidence.kind, evidence.predecessorKey, evidence.groupKey, evidence.floorEpoch with
  | .provenEmpty, _, _, _ => .publish
  | .expiredPredecessor, some predecessor, _, _ =>
    if key > predecessor then .publish else if axis = .fiveHour then .stale else .unknown
  | .floorRetired, _, some group, some _ => if key > group then .publish else if key < group then .stale else .floor
  | _, _, _, _ => .unknown

def eligibleCandidateAxis (axis : Axis) (tombstone : Option Tombstone) (candidate : Candidate W) :
    Option (Member W) := do
  let value ← candidateAxis candidate axis
  match tombstone with
  | none => return (candidate, value)
  | some ⟨.inflight, _⟩ => none
  | some ⟨.committed, some through⟩ => if candidate.receivedAt ≤ through then none else return (candidate, value)
  | some ⟨.committed, none⟩ => return (candidate, value)

def membersAt (key : Int) (members : List (Member W)) : List (Member W) :=
  members.filter fun m => axisValueKey m.2 = key

def rawAt (key : Int) (dbAxis : Option AxisProjection) (members : List (Member W)) : Option Int :=
  match dbAxis.filter fun db => db.canonicalKey = key with
  | some db => some db.rawResetsAt
  | none => (members.map fun m => m.2.rawResetsAt).min?

def maximumAt (key : Int) (dbAxis : Option AxisProjection) (members : List (Member W)) : Option AxisValue := do
  let maximum ← (members.map fun m => m.2.percent).max?
  let raw ← rawAt key dbAxis (members.filter fun m => m.2.percent = maximum)
  return ⟨maximum, raw, some key⟩

def reducedCandidate (candidates : List (Candidate W)) (axis : Axis) (tombstone : Option Tombstone)
    (dbAxis : Option AxisProjection) : Option (AxisValue × List (Member W)) := do
  let eligible := candidates.filterMap (eligibleCandidateAxis axis tombstone)
  let newestKey ← (eligible.map fun m => axisValueKey m.2).max?
  let reduced ← maximumAt newestKey dbAxis (membersAt newestKey eligible)
  return (reduced, membersAt newestKey eligible)

section
variable (env : Env W)

def observation (axis : Axis) (m : Member W) : SupportingObservation W :=
  ⟨env.observationIdentity m.1.token axis m.2, m.1.token, m.2.percent, m.2.rawResetsAt, m.1.receivedAt, m.1.activity⟩

def see (axis : Axis) (seen : Dict String (SupportingObservation W)) (m : Member W) :
    Dict String (SupportingObservation W) :=
  let seenNow := observation env axis m
  match seen.get? seenNow.observationId with
  | some existing => if m.1.receivedAt > existing.receivedAt then seen.set seenNow.observationId seenNow else seen
  | none => seen.set seenNow.observationId seenNow

def supportingObservations (inWindow : List (Member W)) (axis : Axis) (low : ℚ) : List (SupportingObservation W) :=
  let seen := (inWindow.filter fun m => m.2.percent = low).foldl (see env axis) Dict.empty
  seen.values.insertionSort fun a b => a.observationId ≤ b.observationId

def supportIdentity (obs : SupportingObservation W) : String × String :=
  match obs.witness with
  | none => (obs.observationId, "")
  | some witness => (obs.observationId, env.digest (env.witnessJson (some witness)))

def supportBoundEnd (obs : SupportingObservation W) : WithTop ℚ := env.boundEnd obs.witness obs.receivedAt

def offer (merged : Dict String (SupportingObservation W)) (item : SupportingObservation W) :
    Dict String (SupportingObservation W) :=
  match merged.get? item.observationId with
  | none => merged.set item.observationId item
  | some current =>
    if supportIdentity env current ≠ supportIdentity env item ∧ supportBoundEnd env item > supportBoundEnd env current then
      merged.set item.observationId item
    else merged

def alreadyRetained (previous : Option (RetainedLow W)) (canonicalKey : Int) (low : ℚ) :
    List (SupportingObservation W) :=
  match previous with
  | some r => if r.canonicalKey = canonicalKey ∧ r.percent = low then r.observations else []
  | none => []

def mergedRetained (previous : Option (RetainedLow W)) (canonicalKey : Int) (low : ℚ)
    (observations : List (SupportingObservation W)) : RetainedLow W :=
  let merged := (alreadyRetained previous canonicalKey low ++ observations).foldl (offer env) Dict.empty
  -- one support for each identity, so the identity alone decides the order
  let ordered := merged.values.insertionSort fun a b => a.observationId ≤ b.observationId
  ⟨low, ((ordered.map SupportingObservation.rawResetsAt).min?).getD 0, canonicalKey, ordered⟩

def unrefuted (refuted : List (String × String)) (r : RetainedLow W) : RetainedLow W :=
  let kept := r.observations.filter fun o => supportIdentity env o ∉ refuted
  if kept.length = r.observations.length then r
  else { r with
    rawResetsAt := ((kept.map SupportingObservation.rawResetsAt).min?).getD r.rawResetsAt
    observations := kept }

def pruneRetained (pending : Option (PendingDrop W)) (refuted : List (String × String)) : Option (PendingDrop W) :=
  pending.map fun p => { p with retained := p.retained.map (unrefuted env refuted) }

end

def supports (pending : Option (PendingDrop W)) : Nat :=
  ((pending.bind PendingDrop.retained).map fun r => r.observations.length).getD 0

def retainedAxisValue (retained : RetainedLow W) (dbAxis : AxisProjection) : AxisValue :=
  ⟨retained.percent, if dbAxis.canonicalKey = retained.canonicalKey then dbAxis.rawResetsAt else retained.rawResetsAt,
    some retained.canonicalKey⟩

def newPending (reduced : AxisValue) (contributors : List (Member W)) (nowEpoch : Int) (retained : RetainedLow W) :
    PendingDrop W where
  canonicalKey := axisValueKey reduced
  reducedPercent := reduced.percent
  firstSeenAt := nowEpoch
  kernelStage := .settling
  attempts := 0
  contributors := Dict.ofList (contributors.map fun m => (m.1.token, ⟨m.1.receivedAt, false⟩))
  retrySignature := none
  deadlineAt := nowEpoch + pendingDropDeadlineSeconds
  retained := some retained

def reconciled (old : Dict String Contributor) (candidate : Candidate W) : Contributor :=
  match old.get? candidate.token with
  | none => ⟨candidate.receivedAt, false⟩
  | some c => ⟨c.baselineReceivedAt, c.satisfied || candidate.receivedAt > c.baselineReceivedAt⟩

def reconcilePending (pending : PendingDrop W) (contributors : List (Member W)) : PendingDrop W :=
  { pending with
    contributors :=
      (Dict.ofList (contributors.map fun m => (m.1.token, m.1))).mapValues (reconciled pending.contributors) }

def buildRetrySignature (reduced : AxisValue) (dbAxis : AxisProjection) (scope : Option Scope) : RetrySignature :=
  ⟨axisValueKey reduced, reduced.percent, some dbAxis.canonicalKey, some dbAxis.percent, some dbAxis.resetGeneration,
    scope⟩

def pendingKernelAttempt (pending : PendingDrop W) (reduced : AxisValue) (dbAxis : AxisProjection)
    (scope : Option Scope) : Option (PendingDrop W) :=
  let signature := buildRetrySignature reduced dbAxis scope
  let first := { pending with
    kernelStage := if reduced.percent = 0 then .zeroArmed else .ready
    attempts := 1
    retrySignature := some signature }
  if pending.kernelStage = .suppressed then
    if pending.retrySignature = some signature then none else some first
  else if pending.kernelStage = .settling ∨ pending.retrySignature ≠ some signature then some first
  else some { pending with kernelStage := .suppressed, attempts := 2, retrySignature := some signature }

def evidence (retained : Option (RetainedLow W)) : Option (RetainedLow W) :=
  retained.filter fun r => r.observations ≠ []

def supportersRetracted (retained : RetainedLow W) (inWindow : List (Member W)) (dbAxis : AxisProjection) : Bool :=
  let present := Dict.ofList (inWindow.map fun m => (m.1.token, m.2))
  let live := ((retained.observations.map SupportingObservation.token).dedup).filterMap present.get?
  !live.isEmpty && live.all fun value => dbAxis.percent ≤ value.percent

def holdPending (pending : Option (PendingDrop W)) (dbAxis : Option AxisProjection) (nowEpoch : Int)
    (scope : Option Scope) (dropAllowed : Bool) : AxisDecision W :=
  match pending with
  | none => ⟨.noop, none, none, false⟩
  | some p =>
    match evidence p.retained with
    | none => ⟨.writeControl, none, none, false⟩
    | some r =>
      match dbAxis.filter fun db => db.canonicalKey = p.canonicalKey with
      | none => ⟨.noop, none, some p, false⟩
      | some db =>
        if db.percent ≤ r.percent then ⟨.writeControl, none, none, false⟩
        else if nowEpoch < p.deadlineAt ∨ dropAllowed = false then ⟨.noop, none, some p, false⟩
        else
          let publish := retainedAxisValue r db
          match pendingKernelAttempt p publish db scope with
          | some attempted => ⟨.publishDb, some publish, some attempted, false⟩
          | none => ⟨.writeControl, none, none, false⟩

/-! ## Reducing an axis -/

abbrev Facts := Dict String MemberFacts

def dropRefused (facts : Facts) (m : Member W) : Bool := (facts.get? m.1.token).any MemberFacts.dropRefused

def riseIneligible (facts : Facts) (m : Member W) : Bool :=
  (facts.get? m.1.token).any fun f => f.refused || f.dropRefused

def dropWindow (facts : Facts) (inWindow : List (Member W)) : List (Member W) :=
  inWindow.filter fun m => !dropRefused facts m

def riseWindow (facts : Facts) (inWindow : List (Member W)) : List (Member W) :=
  inWindow.filter fun m => !riseIneligible facts m

def eligibleRise (reduced : AxisValue) (inWindow : List (Member W)) (facts : Facts) (dbAxis : AxisProjection) :
    Option AxisValue :=
  if inWindow.any (riseIneligible facts) then
    (((riseWindow facts inWindow).map fun m => m.2.percent).max?).map
      fun maximum => ⟨maximum, dbAxis.rawResetsAt, reduced.canonicalKey⟩
  else some reduced

def dropSide (reduced : AxisValue) (inWindow dropMembers : List (Member W)) (dbAxis : AxisProjection) :
    Option AxisValue :=
  if dropMembers.length = inWindow.length then some reduced
  else maximumAt (axisValueKey reduced) (some dbAxis) dropMembers

def armed (pending : Option (PendingDrop W)) (key : Int) : Option (PendingDrop W × RetainedLow W) := do
  let p ← pending
  let r ← evidence p.retained
  if p.canonicalKey = key then return (p, r) else none

def samePending [DecidableEq W] : Option (PendingDrop W) → Option (PendingDrop W) → Bool
  | none, none => true
  | some p, some q =>
    p.canonicalKey = q.canonicalKey && p.reducedPercent = q.reducedPercent && p.firstSeenAt = q.firstSeenAt &&
      p.kernelStage = q.kernelStage && p.attempts = q.attempts && p.retrySignature = q.retrySignature &&
      p.deadlineAt = q.deadlineAt && p.retained = q.retained &&
      p.contributors.entries.length = q.contributors.entries.length &&
      p.contributors.entries.all fun e => q.contributors.get? e.1 = some e.2
  | _, _ => false

section
variable (env : Env W)

def reduceAbsent (axis : Axis) (reduced : AxisValue) (inWindow : List (Member W)) (pending : Option (PendingDrop W))
    (nowEpoch : Int) (scope : Option Scope) (dropAllowed : Bool) (axisEvidence : AxisEvidence) (facts : Facts) :
    AxisDecision W :=
  let key := axisValueKey reduced
  let publish := fun value : AxisValue =>
    let newer := pending.filter fun p => axisEvidence.kind = .floorRetired ∧ p.canonicalKey > axisEvidence.groupKey.getD 0
    (⟨.publishDb, some value, newer, false⟩ : AxisDecision W)
  match classifyAbsentAxis axisEvidence key axis with
  | .publish => publish reduced
  | .stale => holdPending pending none nowEpoch scope dropAllowed
  | .unknown => ⟨.noop, none, pending, true⟩
  | .floor =>
    match maximumAt key none ((riseWindow facts inWindow).filter fun m => axisEvidence.floorEpoch.getD 0 ≤ m.1.receivedAt) with
    | none => holdPending pending none nowEpoch scope dropAllowed
    | some value => publish value

def reduceUnarmed (axis : Axis) (key : Int) (rise dropReduced : Option AxisValue) (dropMembers : List (Member W))
    (dbAxis : AxisProjection) (pending : Option (PendingDrop W)) (nowEpoch : Int) : AxisDecision W :=
  match rise with
  | some value => ⟨.publishDb, some value, none, false⟩
  | none =>
    match ((dropMembers.map fun m => m.2.percent).min?).filter fun low => low < dbAxis.percent with
    | none => ⟨if pending.isSome then .writeControl else .noop, none, none, false⟩
    | some low =>
      let retained := mergedRetained env none key low (supportingObservations env dropMembers axis low)
      ⟨.writeControl, none, dropReduced.map fun d => newPending d dropMembers nowEpoch retained, false⟩

def updatedPending (axis : Axis) (key : Int) (dropReduced : Option AxisValue) (dropMembers : List (Member W))
    (dbAxis : AxisProjection) (pending : PendingDrop W) (retained : RetainedLow W) : PendingDrop W × RetainedLow W :=
  let low := ((dropMembers.map fun m => m.2.percent).min?).filter fun low => low < dbAxis.percent
  let kept := match low with
    | some low => mergedRetained env (some retained) key low (supportingObservations env dropMembers axis low)
    | none => retained
  let after := reconcilePending pending dropMembers
  ({ after with
    reducedPercent := (dropReduced.map AxisValue.percent).getD after.reducedPercent
    retained := some kept }, kept)

def unanimous (dropReduced : Option AxisValue) (riseMembers : List (Member W)) (dbAxis : AxisProjection)
    (updated : PendingDrop W) : Option AxisValue :=
  dropReduced.filter fun d =>
    d.percent < dbAxis.percent && !(riseMembers.any fun m => dbAxis.percent ≤ m.2.percent) &&
      !updated.contributors.entries.isEmpty && updated.contributors.values.all Contributor.satisfied

variable [DecidableEq W]

def reduceArmed (axis : Axis) (key : Int) (rise dropReduced : Option AxisValue)
    (inWindow dropMembers riseMembers : List (Member W)) (dbAxis : AxisProjection) (pending : PendingDrop W)
    (retained : RetainedLow W) (nowEpoch : Int) (scope : Option Scope) (dropAllowed : Bool) : AxisDecision W :=
  if supportersRetracted retained inWindow dbAxis ∨ dbAxis.percent ≤ retained.percent then
    ⟨if rise.isSome then .publishDb else .writeControl, rise, none, false⟩
  else
    let (updated, kept) := updatedPending env axis key dropReduced dropMembers dbAxis pending retained
    let unchanged : AxisDecision W :=
      ⟨if samePending (some pending) (some updated) then .noop else .writeControl, none, some updated, false⟩
    match rise with
    | some value => ⟨.publishDb, some value, some updated, false⟩
    | none =>
      if dropAllowed = false then unchanged
      else
        match unanimous dropReduced riseMembers dbAxis updated with
        | some d =>
          match pendingKernelAttempt updated d dbAxis scope with
          | some attempted => ⟨.publishDb, some d, some attempted, false⟩
          | none => unchanged
        | none =>
          if updated.deadlineAt ≤ nowEpoch then
            let publish := retainedAxisValue kept dbAxis
            match pendingKernelAttempt updated publish dbAxis scope with
            | some attempted => ⟨.publishDb, some publish, some attempted, false⟩
            | none => ⟨.writeControl, none, none, false⟩
          else unchanged

def reducePrunedAxis (axis : Axis) (candidates : List (Candidate W)) (dbAxis : Option AxisProjection)
    (pending : Option (PendingDrop W)) (tombstone : Option Tombstone) (nowEpoch : Int) (scope : Option Scope)
    (dropAllowed : Bool) (axisEvidence : AxisEvidence) (facts : Facts) : AxisDecision W :=
  match reducedCandidate candidates axis tombstone dbAxis with
  | none => holdPending pending dbAxis nowEpoch scope dropAllowed
  | some (reduced, inWindow) =>
    let key := axisValueKey reduced
    match dbAxis with
    | none => reduceAbsent axis reduced inWindow pending nowEpoch scope dropAllowed axisEvidence facts
    | some db =>
      if key > db.canonicalKey then ⟨.publishDb, some reduced, none, false⟩
      else if key < db.canonicalKey then holdPending pending (some db) nowEpoch scope dropAllowed
      else
        let rise := (eligibleRise reduced inWindow facts db).filter fun value => value.percent > db.percent
        let dropMembers := dropWindow facts inWindow
        let dropReduced := dropSide reduced inWindow dropMembers db
        match armed pending key with
        | none => reduceUnarmed env axis key rise dropReduced dropMembers db pending nowEpoch
        | some (p, r) =>
          reduceArmed env axis key rise dropReduced inWindow dropMembers (riseWindow facts inWindow) db p r nowEpoch scope
            dropAllowed

def reduceAxis (axis : Axis) (candidates : List (Candidate W)) (dbAxis : Option AxisProjection)
    (pending : Option (PendingDrop W)) (tombstone : Option Tombstone) (nowEpoch : Int) (scope : Option Scope)
    (dropAllowed : Bool) (axisEvidence : AxisEvidence) (facts : Facts) (refuted : List (String × String)) :
    AxisDecision W :=
  let pruned := pruneRetained env pending refuted
  let decided := reducePrunedAxis env axis candidates dbAxis pruned tombstone nowEpoch scope dropAllowed axisEvidence facts
  if supports pruned ≠ supports pending ∧ decided.action = .noop ∧ samePending decided.pending pending = false then
    { decided with action := .writeControl }
  else decided

structure Call (W : Type) where
  candidates : List (Candidate W)
  db : DbProjection
  tombstones : Axis → Option Tombstone
  nowEpoch : Int
  accountKey : Option String
  dropConsensusAllowed : DropConsensus
  memberFacts : Axis → Facts
  refutedSupports : Axis → List (String × String)

def active (call : Call W) : List (Candidate W) :=
  call.candidates.filter fun c => -5 ≤ call.nowEpoch - c.receivedAt ∧ call.nowEpoch - c.receivedAt < 90

def decideAxis (call : Call W) (control : ControlState W) (axis : Axis) : AxisDecision W :=
  reduceAxis env axis (active call) (projectionAxis call.db axis) (control.pendingDrops axis) (call.tombstones axis)
    call.nowEpoch (call.accountKey.map fun account => (protocolGeneration, account, axis))
    (call.dropConsensusAllowed.allows axis) (axisEvidence call.db axis) (call.memberFacts axis)
    (call.refutedSupports axis)

def reduceCandidates (call : Call W) (control : ControlState W) : ReductionDecision W :=
  let decided := decideAxis env call control
  let five := decided .fiveHour
  let seven := decided .sevenDay
  let nextControl : ControlState W := ⟨fun axis => (decided axis).pending⟩
  let unknown := [Axis.fiveHour, Axis.sevenDay].filter fun axis => (decided axis).unknown
  if five.action = .publishDb ∨ seven.action = .publishDb then
    ⟨.publishDb, nextControl, some ⟨seven.candidate, five.candidate⟩, unknown⟩
  else if five.action = .writeControl ∨ seven.action = .writeControl then ⟨.writeControl, nextControl, none, unknown⟩
  else ⟨.noop, nextControl, none, unknown⟩

end

end Cctally.Statusline
