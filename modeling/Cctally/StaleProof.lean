import Cctally.Bisect
import Cctally.Calls
import Cctally.Dict
import Cctally.Except
import Cctally.Lineage
import Mathlib

/-!
# Provider samples that prove a member stale

An instant stands for the interval of nanoseconds that its digits leave open, and
one follows another only where the intervals say so. The samples of one snapshot
are prepared once: their intervals are read, and the entries of a window are
selected, sorted and converted when a call first needs them. Identities are of an
ordered type, so the sort does not fail. Of a receipt's credits only what it takes
from them is here.
-/

namespace Cctally.StaleProof

inductive Raised
  | valueError
  | overflow
  | osError
  | typeError
  deriving DecidableEq, Repr

/-- What the standard library answers: the value of a digit of any script,
`datetime.fromisoformat` with `none` for a `ValueError`, `int(t.timestamp())` of
an instant in microseconds, and what `fromtimestamp` raises outside the years of
`datetime`. -/
structure Env where
  digit : Char → Option Nat
  fromisoformat : String → Option Stamp
  timestamp : Int → Int
  outOfRange : Int → Raised

structure Numbers (R V : Type) where
  /-- `type(raw) in (float, int, bool)` -/
  plain : R → Bool
  float : R → Except Raised V
  lt : V → V → Bool
  eq : V → V → Bool
  add : V → V → V
  sub : V → V → V
  tolerance : V

def NS : Int := 1000000000

section
variable (env : Env)

def number (acc : Nat) : Nat → List Char → Option (Nat × List Char)
  | 0, cs => some (acc, cs)
  | _ + 1, [] => none
  | k + 1, c :: cs =>
    match env.digit c with
    | none => none
    | some d => number (10 * acc + d) k cs

def literal (c : Char) : List Char → Option (List Char)
  | [] => none
  | d :: cs => if d = c then some cs else none

/-- `(?:\.(\d{1,9}))?` -/
def fraction : List Char → Option (List Nat × List Char)
  | [] => some ([], [])
  | c :: cs =>
    if c = '.' then
      let ds := cs.takeWhile fun c => (env.digit c).isSome
      if 1 ≤ ds.length ∧ ds.length ≤ 9 then some (ds.filterMap env.digit, cs.drop ds.length) else none
    else some ([], c :: cs)

structure Fields where
  year : Nat
  month : Nat
  day : Nat
  hour : Nat
  minute : Nat
  second : Nat
  fraction : List Nat

/-- `_INSTANT_RE.fullmatch` with the zone `Z`. -/
def matched (text : String) : Option Fields := do
  let year ← number env 0 4 text.toList
  let month ← (literal '-' year.2).bind (number env 0 2)
  let day ← (literal '-' month.2).bind (number env 0 2)
  let hour ← (literal 'T' day.2).bind (number env 0 2)
  let minute ← (literal ':' hour.2).bind (number env 0 2)
  let second ← (literal ':' minute.2).bind (number env 0 2)
  let digits ← fraction env second.2
  if digits.2 = ['Z'] then some ⟨year.1, month.1, day.1, hour.1, minute.1, second.1, digits.1⟩ else none

def isLeap (year : Int) : Bool := year % 4 = 0 ∧ (year % 100 ≠ 0 ∨ year % 400 = 0)

def daysBeforeYear (year : Int) : Int :=
  (year - 1) * 365 + (year - 1) / 4 - (year - 1) / 100 + (year - 1) / 400

def daysBeforeMonth (year : Int) (month : Nat) : Int :=
  ([0, 0, 31, 59, 90, 120, 151, 181, 212, 243, 273, 304, 334].getD month 0 : Int) +
    if 2 < month ∧ isLeap year then 1 else 0

def EPOCH_ORD : Int := 719163

/-- `calendar.timegm`: the month is a date's, the day and the time are only counted. -/
def timegm (f : Fields) : Option Int :=
  if 1 ≤ f.year ∧ 1 ≤ f.month ∧ f.month ≤ 12 then
    let days := daysBeforeYear f.year + daysBeforeMonth f.year f.month + 1 - EPOCH_ORD + f.day - 1
    some (((days * 24 + f.hour) * 60 + f.minute) * 60 + f.second)
  else none

def instantKey (f : Fields) : Option Int :=
  (timegm f).map fun seconds =>
    seconds * NS + ((f.fraction ++ List.replicate 9 0).take 9).foldl (fun (n : Int) d => 10 * n + d) 0

def interval (text : Option String) : Option (Int × Int) := do
  let f ← matched env (← text)
  let start ← instantKey f
  pure (start, start + 10 ^ (9 - min f.fraction.length 9))

def after (a b : Option String) : Bool :=
  match interval env a, interval env b with
  | some ia, some ib => ib.2 ≤ ia.1
  | _, _ => false

def beforeEpoch (text : Option String) (epoch : Int) : Bool :=
  match interval env text with
  | some i => i.2 ≤ epoch * NS
  | none => false

def atOrAfterEpoch (text : Option String) (epoch : Int) : Bool :=
  match interval env text with
  | some i => epoch * NS ≤ i.1
  | none => false

def instantOrder (text : Option String) : Int :=
  match interval env text with
  | some i => i.1
  | none => -1

/-! ## Windows -/

/-- A value of `weekly_resets_at_utc`; `other` is a bool or a value of another type. -/
inductive Reset
  | missing
  | int (epoch : Int)
  | text (s : String)
  | other
  deriving DecidableEq

/-- The first and the last second of the years of `datetime`. -/
def MIN_SECOND : Int := -62135596800

def MAX_SECOND : Int := 253402300799

/-- `normalize_weekly_reset`; the text that it formats is kept as the hour that it names. -/
def normalizeWeeklyReset (epoch : Int) : Except Raised Int :=
  if MIN_SECOND ≤ epoch ∧ epoch ≤ MAX_SECOND then
    let normalized := epoch - epoch % 3600
    if 30 ≤ epoch % 3600 / 60 then
      if normalized + 3600 ≤ MAX_SECOND then .ok (normalized + 3600) else .error .overflow
    else .ok normalized
  else .error (env.outOfRange epoch)

/-- `_parse_aware`, in microseconds. -/
def parseAware (s : String) : Except Raised (Option Int) :=
  if s = "" then .ok none
  else
    match env.fromisoformat (if s.endsWith "Z" then (s.dropEnd 1).toString ++ "+00:00" else s) with
    | some (.aware t) => if MIN_INSTANT ≤ t ∧ t ≤ MAX_INSTANT then .ok (some t) else .error .overflow
    | _ => .ok none

def weeklyWindow : Reset → Except Raised Int
  | .int epoch => normalizeWeeklyReset env epoch
  | .text s => do
    match ← parseAware env s with
    | some t => normalizeWeeklyReset env (env.timestamp t)
    | none => .error .valueError
  | _ => .error .valueError

def windowIdentity (value : Reset) : Except Raised (Option Int) :=
  if value = .missing then .ok none
  else
    match weeklyWindow env value with
    | .ok text => .ok (some text)
    | .error .valueError => .ok none
    | .error e => .error e

end

inductive Axis
  | weekly
  | fiveHour
  | other (name : String)
  deriving DecidableEq

def Axis.known : Axis → Bool
  | .other _ => false
  | _ => true

structure Sample (I R : Type) where
  observationId : I
  requestedAt : Option String
  capturedAt : Option String
  weeklyPercent : Option R
  weeklyResetsAt : Reset
  fiveHourPercent : Option R
  fiveHourWindowKey : Option Int
  deriving DecidableEq

/-- An `int`; of a bool or of another subclass the type is not `int` itself. -/
structure PyInt where
  value : Int
  exact : Bool
  deriving DecidableEq

section
variable {I R V : Type} [LinearOrder I] (env : Env) (num : Numbers R V)

def rawValue (axis : Axis) (s : Sample I R) : Option R :=
  if axis = .fiveHour then s.fiveHourPercent else s.weeklyPercent

def axisValue (axis : Axis) (s : Sample I R) : Except Raised V :=
  match rawValue axis s with
  | some raw => num.float raw
  | none => .error .typeError

def sampleWindow (s : Sample I R) : Except Raised (Option Int) := windowIdentity env s.weeklyResetsAt

def inFiveHour (window : Int) (s : Sample I R) : Bool :=
  s.fiveHourPercent.isSome ∧ s.fiveHourWindowKey = some window

def inWeekly (text : Int) (s : Sample I R) : Except Raised Bool :=
  if s.weeklyPercent.isSome then return (← sampleWindow env s) = some text else pure false

def axisWindow (samples : List (Sample I R)) (axis : Axis) (window : PyInt) : Except Raised (List (Sample I R)) :=
  if axis = .fiveHour then pure (samples.filter (inFiveHour window.value))
  else do
    let text ← normalizeWeeklyReset env window.value
    samples.filterM (inWeekly env text)

def requestKey (s : Sample I R) : Int ×ₗ I := toLex (instantOrder env s.requestedAt, s.observationId)

def latest (samples : List (Sample I R)) : Option (Sample I R) :=
  samples.foldl (fun best s =>
    match best with
    | none => some s
    | some b => if requestKey env b < requestKey env s then some s else some b) none

/-! ## The prepared view -/

structure Entry (I R : Type) where
  place : Nat
  sample : Sample I R
  request : Option (Int × Int)
  capture : Option (Int × Int)
  order : Int

def entryOf (p : Sample I R × Nat) : Entry I R where
  place := p.2
  sample := p.1
  request := interval env p.1.requestedAt
  capture := interval env p.1.capturedAt
  order := instantOrder env p.1.requestedAt

def prepare (samples : List (Sample I R)) : List (Entry I R) := samples.zipIdx.map (entryOf env)

/-- `_Window`; a `values` of `some none` is `False`. -/
structure Window (I R V : Type) where
  positions : List (Entry I R)
  ordered : Option (List (Entry I R))
  keys : Option (List Int)
  values : Option (Option (Dict Nat V))

inductive Key
  | fiveHour (window : Int)
  | weekly (text : Int)
  deriving DecidableEq

abbrev Windows (I R V : Type) := Dict Key (Window I R V)

structure Held (I R V : Type) where
  key : Option Key
  window : Window I R V

abbrev View (I R V : Type) := Call (Windows I R V) Raised

def save (h : Held I R V) : View I R V Unit :=
  match h.key with
  | some key => modify fun windows => windows.set key h.window
  | none => pure ()

def newWindow (positions : List (Entry I R)) : Window I R V := ⟨positions, none, none, none⟩

def fivePositions (view : List (Entry I R)) (window : Int) : List (Entry I R) :=
  view.filter fun e => inFiveHour window e.sample

def weeklyPositions (view : List (Entry I R)) (text : Int) : Except Raised (List (Entry I R)) :=
  view.filterM fun e => inWeekly env text e.sample

def memoized (key : Key) (positions : Except Raised (List (Entry I R))) : View I R V (Held I R V) := do
  match (← get).get? key with
  | some window => pure ⟨some key, window⟩
  | none => do
    let h := ⟨some key, newWindow (← Call.ofExcept positions)⟩
    save h
    pure h

def windowOf (view : List (Entry I R)) (axis : Axis) (window : PyInt) : View I R V (Held I R V) :=
  if axis = .fiveHour then
    if window.exact then memoized (.fiveHour window.value) (pure (fivePositions view window.value))
    else pure ⟨none, newWindow (fivePositions view window.value)⟩
  else do
    let text ← Call.ofExcept (normalizeWeeklyReset env window.value)
    memoized (.weekly text) (weeklyPositions env view text)

def entryKey (e : Entry I R) : Int ×ₗ (I ×ₗ Int) := toLex (e.order, toLex (e.sample.observationId, -(e.place : Int)))

def sortedEntries (positions : List (Entry I R)) : List (Entry I R) :=
  positions.insertionSort fun a b => entryKey a ≤ entryKey b

def ordered (h : Held I R V) : View I R V (Held I R V) :=
  match h.window.ordered with
  | some _ => pure h
  | none => do
    let sorted := sortedEntries h.window.positions
    let h := { h with window := { h.window with ordered := some sorted, keys := some (sorted.map (·.order)) } }
    save h
    pure h

/-- The values by place; `none` where one is not a plain number or is too large for a float. -/
def convert (axis : Axis) (values : Dict Nat V) : List (Entry I R) → Except Raised (Option (Dict Nat V))
  | [] => .ok (some values)
  | e :: rest =>
    match rawValue axis e.sample with
    | none => .ok none
    | some raw =>
      if num.plain raw then
        match num.float raw with
        | .ok v => convert axis (values.set e.place v) rest
        | .error .overflow => .ok none
        | .error err => .error err
      else .ok none

def proofValues (axis : Axis) (h : Held I R V) : View I R V (Held I R V × Option (Dict Nat V)) := do
  let h ← ordered h
  match h.window.values with
  | some values => pure (h, values)
  | none => do
    let values ← Call.ofExcept (convert num axis Dict.empty h.window.positions)
    let h := { h with window := { h.window with values := some values } }
    save h
    pure (h, values)

/-- `_latest_requested_after`; a window whose entries were not sorted has none to scan. -/
def latestRequestedAfter (w : Window I R V) (boundEnd : Int) (accept : Entry I R → Bool) : Option (Sample I R) :=
  let sorted := w.ordered.getD []
  let start := Bisect.bisectLeft (w.keys.getD []) boundEnd
  ((sorted.drop start).reverse.find? fun e =>
    (e.request.any fun r => decide (boundEnd ≤ r.1)) && accept e).map (·.sample)

/-- `values[i]` passes the limit; every place of the window has a value. -/
def valueAt (values : Dict Nat V) (e : Entry I R) (p : V → Bool) : Bool := (values.get? e.place).any p

def capturedBefore (resetNs : Int) (e : Entry I R) : Bool := e.capture.any fun c => decide (c.2 ≤ resetNs)

structure SampleIdentity (V : Type) where
  token : String
  activityAt : String
  axis : Axis
  percent : V
  window : PyInt
  evidenceRevision : Int
  parserRevision : Int
  deriving DecidableEq

def provenStale (view : List (Entry I R)) (sigma : SampleIdentity V) (afterUtc : Option String)
    (advertisedResetEpoch : Option Int) : View I R V (Option (Sample I R)) :=
  if !sigma.axis.known then pure none
  else do
    let reset := advertisedResetEpoch.getD sigma.window.value
    let h ← windowOf env view sigma.axis sigma.window
    let limit := num.sub sigma.percent num.tolerance
    match ← proofValues num sigma.axis h with
    | (h, none) => do
      let proving ← Call.ofExcept ((h.window.positions.map (·.sample)).filterM fun s => do
        let v ← axisValue num sigma.axis s
        pure (num.lt v limit && after env s.requestedAt (some sigma.activityAt) && after env s.requestedAt afterUtc &&
          beforeEpoch env s.capturedAt reset))
      pure (latest env proving)
    | (h, some values) =>
      if h.window.positions = [] then pure none
      else
        match interval env (some sigma.activityAt), interval env afterUtc with
        | some t, some bound =>
          pure (latestRequestedAfter h.window (max t.2 bound.2) fun e =>
            valueAt values e (fun v => num.lt v limit) && capturedBefore (reset * NS) e)
        | _, _ => pure none

def provenStaleLow (view : List (Entry I R)) (boundUtc : Option String) (axis : Axis) (window : PyInt) (percent : V)
    (advertisedResetEpoch : Option Int) : View I R V (Option (Sample I R)) :=
  match interval env boundUtc with
  | none => pure none
  | some bound =>
    if !axis.known then pure none
    else do
      let reset := advertisedResetEpoch.getD window.value
      let h ← windowOf env view axis window
      let limit := num.add percent num.tolerance
      match ← proofValues num axis h with
      | (h, none) => do
        let proving ← Call.ofExcept ((h.window.positions.map (·.sample)).filterM fun s => do
          let v ← axisValue num axis s
          pure (num.lt limit v && after env s.requestedAt boundUtc && beforeEpoch env s.capturedAt reset))
        pure (latest env proving)
      | (h, some values) =>
        if h.window.positions = [] then pure none
        else pure (latestRequestedAfter h.window bound.2 fun e =>
          valueAt values e (fun v => num.lt limit v) && capturedBefore (reset * NS) e)

/-! ## Receipts -/

structure CreditTransition where
  axis : Axis
  eventId : String
  eventRevision : String
  deriving DecidableEq

structure Accounted (V : Type) where
  accountKey : String
  axis : Axis
  window : PyInt
  percent : Option V
  supportId : Option String
  supportHash : Option String
  floorEpoch : Option Int
  credits : List CreditTransition
  coverage : Option String
  detectorPolicy : Option Int

inductive Path
  | maximal
  | providerSupport
  deriving DecidableEq

structure Receipt (I V : Type) where
  sigma : SampleIdentity V
  path : Path
  accountKey : String
  window : PyInt
  supportId : Option String
  supportHash : Option String
  accountedPercent : V
  providerObservationId : Option I
  providerPercent : Option V
  providerRequestedAt : Option String
  providerWindow : Option Int
  detectorPolicy : Option Int
  credits : List (String × String)
  coverage : Option String
  completedAt : String
  indexIdentity : String

def atFloor (floorEpoch : Option Int) (e : Entry I R) : Bool :=
  match floorEpoch with
  | none => true
  | some floor => e.capture.any fun c => decide (floor * NS ≤ c.1)

/-- The support of a member below the accounted value, `none` where it earns nothing. -/
def supported (accountedPercent : V) (support : Option (Sample I R)) (sigma : SampleIdentity V) :
    Except Raised (Option (Sample I R)) := do
  match support with
  | none => pure none
  | some b =>
    if num.lt accountedPercent sigma.percent then pure none
    else if num.lt (← axisValue num .weekly b) sigma.percent then pure none
    else if after env b.requestedAt (some sigma.activityAt) then pure (some b)
    else pure none

def receipt (acc : Accounted V) (accountedPercent : V) (completedAt indexIdentity : String) (sigma : SampleIdentity V)
    (path : Path) (support : Option (Sample I R)) : Except Raised (Receipt I V) := do
  let providerPercent ← support.mapM (axisValue num .weekly)
  let providerWindow ← support.mapM (sampleWindow env)
  pure
    { sigma := sigma
      path := path
      accountKey := acc.accountKey
      window := acc.window
      supportId := acc.supportId
      supportHash := acc.supportHash
      accountedPercent := accountedPercent
      providerObservationId := support.map (·.observationId)
      providerPercent := providerPercent
      providerRequestedAt := support.bind (·.requestedAt)
      providerWindow := providerWindow.join
      detectorPolicy := acc.detectorPolicy
      credits := (acc.credits.filter fun c => c.axis = acc.axis).map fun c => (c.eventId, c.eventRevision)
      coverage := acc.coverage
      completedAt := completedAt
      indexIdentity := indexIdentity }

def earn (acc : Accounted V) (accountedPercent : V) (completedAt indexIdentity : String) (support : Option (Sample I R))
    (earned : List (Receipt I V)) (sigma : SampleIdentity V) : Except Raised (List (Receipt I V)) :=
  if sigma.axis ≠ acc.axis ∨ sigma.window.value ≠ acc.window.value then pure earned
  else if num.eq sigma.percent accountedPercent then do
    let r ← receipt env num acc accountedPercent completedAt indexIdentity sigma .maximal (none : Option (Sample I R))
    pure (earned ++ [r])
  else if acc.axis = .fiveHour then pure earned
  else do
    match ← supported env num accountedPercent support sigma with
    | none => pure earned
    | some b => do
      let r ← receipt env num acc accountedPercent completedAt indexIdentity sigma .providerSupport (some b)
      pure (earned ++ [r])

def earnReceipts (view : List (Entry I R)) (members : List (SampleIdentity V)) (acc : Accounted V)
    (completedAt indexIdentity : String) : View I R V (List (Receipt I V)) :=
  match acc.percent with
  | none => pure []
  | some accountedPercent =>
    if !acc.axis.known then pure []
    else do
      let h ← windowOf env view .weekly acc.window
      let h ← ordered h
      let support := ((h.window.ordered.getD []).reverse.find? (atFloor acc.floorEpoch)).map (·.sample)
      Call.ofExcept (members.foldlM (earn env num acc accountedPercent completedAt indexIdentity support) [])

def RESET_MARGIN_SECONDS : Int := 3600

structure Kept (I R V : Type) where
  keep : Dict I (Entry I R)
  latest : Dict V (Entry I R)
  latestFloor : Dict V (Entry I R)

def orderKey (e : Entry I R) : Int ×ₗ I := toLex (e.order, e.sample.observationId)

def later (prev : Option (Entry I R)) (e : Entry I R) : Entry I R :=
  match prev with
  | none => e
  | some p => if orderKey p < orderKey e then e else p

variable [DecidableEq V]

def compactStep (axis : Axis) (marginNs : Int) (floorEpoch : Option Int) (k : Kept I R V) (e : Entry I R) :
    Except Raised (Kept I R V) :=
  if !capturedBefore marginNs e then pure { k with keep := k.keep.set e.sample.observationId e }
  else do
    let v ← axisValue num axis e.sample
    let k := { k with latest := k.latest.set v (later (k.latest.get? v) e) }
    pure (if atFloor floorEpoch e then { k with latestFloor := k.latestFloor.set v (later (k.latestFloor.get? v) e) } else k)

/-- What `compact_samples` keeps of the entries of a window. -/
def compacted (positions : List (Entry I R)) (window : PyInt) (floorEpoch : Option Int) (axis : Axis) :
    Except Raised (List (Sample I R)) := do
  let margin := window.value - RESET_MARGIN_SECONDS
  let k ← positions.foldlM (compactStep num axis (margin * NS) floorEpoch) ⟨Dict.empty, Dict.empty, Dict.empty⟩
  let keep := (k.latest.values ++ k.latestFloor.values).foldl (fun d e => d.set e.sample.observationId e) k.keep
  pure ((keep.values.insertionSort fun a b => orderKey a ≤ orderKey b).map (·.sample))

def compactSamples (view : List (Entry I R)) (window : PyInt) (floorEpoch : Option Int) (axis : Axis) :
    View I R V (List (Sample I R)) := do
  let h ← windowOf env view axis window
  Call.ofExcept (compacted num h.window.positions window floorEpoch axis)

end

end Cctally.StaleProof
