import Cctally.Quarantine

/-!
# The quarantine fold

One pass over the records of the journal, in its order. A record is given by what
the fold reads off it: whether a current binary stamped it, its clock, and the
fields of its kind. The deletions a live pass withholds for are left out: no
record adds to them, and only a pass's own gates read them.
-/

namespace Cctally.Quarantine

def UNATTRIBUTED : String := "unattributed"

inductive Event where
  | snapshotAccept (weekStartDate : Option String) (weekEndEpoch captureEpoch : Option Int) (captureText : Option String)
      (fiveHourKey rawReset : Option Int)
  | weekReset (effectiveEpoch newWeekEndEpoch : Option Int) (observedPreCredit : Bool)
  | fiveHourCredit (fiveHourKey : Option Int)
  | weeklyCreditEffects (suppression : Bool)
  | other

inductive Op where
  | legacySpoolActivity (reason : String)
  | boundary (expectedId inventoryFailure : Bool) (inventoryEpisode : Option Coordinate)
  | inventoryCompletion (episode : Option Coordinate)
  | authorityCompletion (account : Option String) (generation : Option Int) (observation : Option String)
      (axes : List String)
  | axisRelease (account : Option String) (axis : Option Axis) (generation : Option Int)
      (witness authority : Option String)
  | weeklyCreditFloor (effectiveEpoch : Option Int) (weekStartDate : Option String) (captureEpoch : Option Int)
      (captureText : Option String)
  | administrative
  | other

/-- An observation holds its reading, `none` where it contributes none, and the axes it is a
control witness of. -/
inductive Body where
  | observation (isClaude : Bool) (clock : Option Int) (reading : Option Reading) (controlAxes : List Axis)
  | op (op : Op)
  | event (event : Event)
  | administrative
  | other

structure Rec where
  id : String
  time : Option String
  epoch : Option Int
  stamped : Bool
  account : Option String
  family : String
  body : Body

structure Entry where
  at_ : Coordinate
  excluded : Bool
  rec_ : Rec

/-- `or`, where an empty text is false. -/
def orDefault (s : Option String) (default : String) : String := (s.filter (· ≠ "")).getD default

def scopeOf (rec_ : Rec) : String := if !rec_.stamped then EXCLUDED_SCOPE else orDefault rec_.account UNATTRIBUTED

namespace State

def absorbEvent (s : State) (scope : String) (event : Event) (excluded : Bool) : State :=
  match event with
  | .snapshotAccept weekStartDate weekEndEpoch captureEpoch captureText fiveHourKey rawReset =>
    let s := s.absorbWeeklyEffect scope
      { weekStartDate := weekStartDate, weekEndEpoch := weekEndEpoch, captureEpoch := captureEpoch
        captureText := captureText, effectiveEpoch := if excluded then captureEpoch else none }
    match fiveHourKey with
    | some key =>
      s.absorbFiveHourEffect scope
        { fiveHourKey := some key, rawReset := rawReset, captureEpoch := captureEpoch, captureText := captureText }
    | none => s
  | .weekReset effectiveEpoch newWeekEndEpoch _ =>
    s.absorbWeeklyEffect scope { effectiveEpoch := effectiveEpoch, weekEndEpoch := newWeekEndEpoch }
  | .fiveHourCredit (some key) => s.absorbFiveHourEffect scope { fiveHourKey := some key }
  | .fiveHourCredit none => s
  | .weeklyCreditEffects _ => s
  | .other => s

end State

def deletionAxis : Event → Option Axis
  | .weekReset _ _ true => some .sevenDay
  | .fiveHourCredit _ => some .fiveHour
  | .weeklyCreditEffects true => some .sevenDay
  | _ => none

def isWeeklyCreditEffects : Event → Bool
  | .weeklyCreditEffects _ => true
  | _ => false

def creditEffect (effectiveEpoch : Option Int) (weekStartDate : Option String) (captureEpoch : Option Int)
    (captureText : Option String) : WeeklyEffect :=
  { effectiveEpoch := effectiveEpoch, weekStartDate := weekStartDate, captureEpoch := captureEpoch
    captureText := captureText }

def INVENTORY_INCOMPLETE_REASON : String := "inventory-incomplete"
def CLOSING_REASONS : List String := ["inventory-complete", "changed", "baseline-unavailable"]

section
variable (cal : Calendar)

def onExcluded (s : State) (at_ : Coordinate) (rec_ : Rec) : State :=
  let s := s.onTrigger .excluded rec_.family at_ rec_.time
  match rec_.body with
  | .observation true _ (some reading) _ => s.absorbReading EXCLUDED_SCOPE reading true true
  | .event event => s.absorbEvent EXCLUDED_SCOPE event true
  | .op (.weeklyCreditFloor effectiveEpoch weekStartDate captureEpoch captureText) =>
    s.absorbWeeklyEffect EXCLUDED_SCOPE (creditEffect effectiveEpoch weekStartDate captureEpoch captureText)
  | _ => s

def onOp (s : State) (at_ : Coordinate) (rec_ : Rec) (op : Op) : State :=
  match op with
  | .legacySpoolActivity reason =>
    if !rec_.stamped then s
    else
      let s := s.onTrigger .legacySpool reason at_ rec_.time
      if reason = INVENTORY_INCOMPLETE_REASON then s.onEpisodeOpen at_ rec_.time
      else
        let s := if reason ∈ CLOSING_REASONS then (s.onEpisodeClose at_ rec_.time none).2 else s
        s.setPosition cal
  | .boundary expectedId inventoryFailure inventoryEpisode =>
    if !rec_.stamped || !expectedId then s
    else if !inventoryFailure then
      match s.onEpisodeClose at_ rec_.time none with
      | (true, s) => s.setPosition cal
      | (false, s) => s
    else if inventoryEpisode.any s.onEpisodeContinue then s
    else
      let s := s.onTrigger .legacySpool INVENTORY_INCOMPLETE_REASON at_ rec_.time
      s.onEpisodeOpen (inventoryEpisode.getD at_) rec_.time
  | .inventoryCompletion episode =>
    if !rec_.stamped then s
    else
      match s.onEpisodeClose at_ rec_.time episode with
      | (true, s) => s.setPosition cal
      | (false, s) => s
  | .authorityCompletion (some account) generation observation axes =>
    if !rec_.stamped then s else (s.onAuthorityCompletion account rec_.id generation observation axes).2
  | .authorityCompletion none _ _ _ => s
  | .axisRelease (some account) axis generation witness authority =>
    if !rec_.stamped then s else (s.onRelease account axis generation witness authority rec_.id rec_.time).2
  | .axisRelease none _ _ _ _ => s
  | .weeklyCreditFloor effectiveEpoch weekStartDate captureEpoch captureText =>
    let scope := scopeOf rec_
    let s :=
      if scope = EXCLUDED_SCOPE then s.revokeAll .manualCredit rec_.time [.sevenDay] false
      else State.revokeAxis .manualCredit rec_.time false s scope .sevenDay
    s.absorbWeeklyEffect scope (creditEffect effectiveEpoch weekStartDate captureEpoch captureText)
  | .administrative => s.revokeAll .administrative rec_.time AXES true
  | .other => s

def noteTimes (s : State) (rec_ : Rec) : State :=
  let clock :=
    match rec_.body with
    | .observation _ clock _ _ => clock
    | .op _ => rec_.epoch
    | _ => none
  (s.noteClock clock).noteAdmitted rec_.epoch

def onReading (s : State) (r : Reading) (controlAxes : List Axis) : (Axis → GateDecision) × State :=
  let (gates, s) := s.evaluateReading cal r.accountKey r
  let axes := AXES.filter (· ∈ controlAxes)
  match r.accountKey with
  | some account =>
    if axes = [] then (gates, s)
    else (gates, s.onControlWitness account ⟨r.observationId, r.captureEpoch, axes, r.weeklyEndEpoch⟩)
  | none => (gates, s)

def onEvent (s : State) (rec_ : Rec) (event : Event) : State :=
  let scope := scopeOf rec_
  let s := s.absorbEvent scope event false
  match deletionAxis event with
  | some _ =>
    let account := if scope = EXCLUDED_SCOPE then none else if isWeeklyCreditEffects event then none else some scope
    s.onDeletionOutcome account rec_.time
  | none => s

def onRecord (s : State) (at_ : Coordinate) (rec_ : Rec) : State :=
  match rec_.body with
  | .observation false _ _ _ => s
  | .observation true _ reading controlAxes =>
    match reading with
    | some r => (onReading cal (noteTimes s rec_) r controlAxes).2
    | none => noteTimes s rec_
  | .op op => onOp cal (noteTimes s rec_) at_ rec_ op
  | .administrative => (noteTimes s rec_).revokeAll .administrative rec_.time AXES true
  | .event event => onEvent (noteTimes s rec_) rec_ event
  | .other => noteTimes s rec_

def onEntry (s : State) (entry : Entry) : State :=
  if entry.excluded then onExcluded s entry.at_ entry.rec_ else onRecord cal s entry.at_ entry.rec_

def fold (s : State) (entries : List Entry) : State := entries.foldl (onEntry cal) s

def accepted (s : State) (entry : Entry) : Bool :=
  !entry.excluded && entry.rec_.stamped &&
    match entry.rec_.body with
    | .op (.authorityCompletion (some account) generation observation axes) =>
      ((noteTimes s entry.rec_).onAuthorityCompletion account entry.rec_.id generation observation axes).1
    | .op (.axisRelease (some account) axis generation witness authority) =>
      ((noteTimes s entry.rec_).onRelease account axis generation witness authority entry.rec_.id entry.rec_.time).1
    | _ => false

end

end Cctally.Quarantine
