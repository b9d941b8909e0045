import Cctally.QuarantineFold

/-!
# The quarantine tables

The state at rest is five tables; the table of bounds is taken one column of its
axis at a time. A cycle loads the state, folds its records and writes back the rows
that are marked. A document that cannot be verified is `none`.
-/

namespace Cctally.Quarantine

structure AxisRow where
  state : String
  waitingFor : Option Wait
  coverageId : Option String
  witnessId : Option String
  releaseId : Option String
  revocation : Option Revocation
  since : Option String
  recoveredAt : Option String
  notBefore : Option Int
  witnessKey : Option WitnessKey
  deriving DecidableEq

structure Meta where
  cohort : Option Cohort
  expired : Bool
  maxAdmittedAt : Option Int
  deriving DecidableEq

structure Tables where
  triggers : Dict Nat Trigger
  episodes : List Episode
  weekly : Dict String (Option WeeklyBounds)
  fiveHour : Dict String (Option FiveHourBounds)
  control : Dict String (Option ControlWitness)
  metaRow : Option (Option Meta)
  axisState : Dict Nat (Dict String (Dict Axis AxisRow))

def Tables.empty : Tables := ⟨.empty, [], .empty, .empty, .empty, none, .empty⟩

/-- `INSERT` of a key that is taken, or a document that cannot be verified. -/
inductive DatabaseError where
  | integrity
  | unverifiable

def STATE_PAUSED : String := "paused"
def STATE_RELEASED : String := "recovered"

def axisRow (s : State) (accountKey : String) (x : Axis) : AxisRow :=
  let rec_ := s.axis accountKey x
  { state := match rec_.state with | .paused => STATE_PAUSED | .recovered => STATE_RELEASED
    waitingFor := s.waitingFor accountKey x
    coverageId := rec_.coverageId, witnessId := rec_.witnessId, releaseId := rec_.releaseId
    revocation := rec_.revocation, since := rec_.since, recoveredAt := rec_.recoveredAt
    notBefore := rec_.notBefore, witnessKey := rec_.witnessKey }

def axisFromRow (row : AxisRow) : Option AxisRecovery :=
  if row.state ≠ STATE_PAUSED ∧ row.state ≠ STATE_RELEASED then none
  else if row.state = STATE_RELEASED ∧ (row.releaseId = none ∨ row.witnessId = none ∨ row.coverageId = none) then none
  else
    some
      { state := if row.state = STATE_RELEASED then .recovered else .paused
        coverageId := row.coverageId, witnessId := row.witnessId, releaseId := row.releaseId
        revocation := row.revocation, since := row.since, recoveredAt := row.recoveredAt
        notBefore := row.notBefore, witnessKey := row.witnessKey }

def verified {α : Type*} (rows : Dict String (Option α)) : Option (Dict String α) :=
  if rows.values.all Option.isSome then
    some (Dict.ofList (rows.entries.filterMap fun p => p.2.map fun v => (p.1, v)))
  else none

def loadBounds (weekly : Dict String WeeklyBounds) (fiveHour : Dict String FiveHourBounds) : Dict String ScopeBounds :=
  Dict.ofList ((weekly.keys ++ fiveHour.keys).dedup.map fun scope =>
    (scope, ⟨(weekly.get? scope).getD .empty, (fiveHour.get? scope).getD .empty⟩))

def latestOf (triggers : Dict Nat Trigger) : Option Trigger := triggers.keys.max?.bind triggers.get?

/-- A witness that cannot be verified is no witness. -/
def loadControl (rows : Dict String (Option ControlWitness)) : Dict String ControlWitness :=
  Dict.ofList (rows.entries.filterMap fun p => p.2.map fun v => (p.1, v))

/-- A row that cannot be verified reads as paused, with no coverage. -/
def loadAccounts (axisState : Dict Nat (Dict String (Dict Axis AxisRow))) (trigger : Option Trigger) :
    Dict String (Dict Axis AxisRecovery) :=
  match trigger with
  | none => .empty
  | some trigger =>
    if trigger.seq = 0 then .empty
    else
      (axisState.sub trigger.seq).mapValues fun rows =>
        rows.mapValues fun row => (axisFromRow row).getD { since := trigger.time }

def loadState (nonInertCrossPeriod : Bool) (db : Tables) : Except DatabaseError State := do
  let trigger := latestOf db.triggers
  let (some weekly, some fiveHour) := (verified db.weekly, verified db.fiveHour) | throw .unverifiable
  let metaRow ←
    match db.metaRow with
    | none => pure ⟨none, false, none⟩
    | some (some m) => pure m
    | some none => throw .unverifiable
  pure
    { generation := (trigger.map Trigger.seq).getD 0, latestTrigger := trigger, episodes := db.episodes
      cohort := metaRow.cohort, expired := metaRow.expired, maxAdmittedAt := metaRow.maxAdmittedAt
      bounds := loadBounds weekly fiveHour, accounts := loadAccounts db.axisState trigger
      control := loadControl db.control, nonInertCrossPeriod := nonInertCrossPeriod
      newTriggers := [], dirtyEpisodes := [], dirtyBounds := [], dirtyAccounts := [], dirtyMeta := false
      dirtyControl := [] }

def insertTrigger (rows : Dict Nat Trigger) (trig : Trigger) : Except DatabaseError (Dict Nat Trigger) :=
  if (rows.get? trig.seq).isSome then throw .integrity else pure (rows.set trig.seq trig)

/-- `INSERT … ON CONFLICT DO UPDATE`: the row of the key takes the closer, or a row is added. -/
def upsertEpisode : List Episode → Episode → List Episode
  | [], e => [e]
  | row :: rows, e =>
    if row.opener = e.opener then { row with closer := e.closer, closedAt := e.closedAt } :: rows
    else row :: upsertEpisode rows e

def persistEpisodes (rows : List Episode) (dirty : List Coordinate) (episodes : List Episode) : List Episode :=
  episodes.foldl (fun rows e => if e.opener ∈ dirty then upsertEpisode rows e else rows) rows

def writeMarked {α : Type*} (dirty : List String) (value : String → α) (rows : Dict String α) : Dict String α :=
  (sortedSet dirty).foldl (fun rows key => rows.set key (value key)) rows

def persistControl (dirty : List String) (control : Dict String ControlWitness) (rows : Dict String (Option ControlWitness)) :
    Dict String (Option ControlWitness) :=
  (sortedSet dirty).foldl
    (fun rows key =>
      match control.get? key with
      | none => rows.erase key
      | some witness => rows.set key (some witness)) rows

def persistAxes (s : State) (rows : Dict String (Dict Axis AxisRow)) : Dict String (Dict Axis AxisRow) :=
  (sortedSet s.dirtyAccounts).foldl
    (fun rows key => AXES.foldl (fun rows x => rows.setSub key x (axisRow s key x)) rows) rows

def persistState (db : Tables) (s : State) : Except DatabaseError Tables := do
  let triggers ← s.newTriggers.foldlM insertTrigger db.triggers
  pure
    { triggers := triggers
      episodes := persistEpisodes db.episodes s.dirtyEpisodes s.episodes
      weekly := writeMarked s.dirtyBounds (fun scope => some (s.scope scope).weekly) db.weekly
      fiveHour := writeMarked s.dirtyBounds (fun scope => some (s.scope scope).fiveHour) db.fiveHour
      control := persistControl s.dirtyControl s.control db.control
      metaRow := if s.dirtyMeta then some (some ⟨s.cohort, s.expired, s.maxAdmittedAt⟩) else db.metaRow
      axisState :=
        if s.generation = 0 then db.axisState
        else db.axisState.set s.generation (persistAxes s (db.axisState.sub s.generation)) }

section
variable (cal : Calendar) (nonInertCrossPeriod : Bool)

def cycle (db : Tables) (entries : List Entry) : Except DatabaseError Tables := do
  let s ← loadState nonInertCrossPeriod db
  persistState db (fold cal s entries)

def runCycles (cycles : List (List Entry)) : Except DatabaseError Tables :=
  cycles.foldlM (cycle cal nonInertCrossPeriod) Tables.empty

end

end Cctally.Quarantine
