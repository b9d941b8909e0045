import Mathlib

/-!
# Subscription weeks and their reset events

A reset event moves the end of the week before it, the start of the week after
it, or credits a week in place: then one billing cycle ends and another begins
inside the week, which comes back as one `SubWeek` a cycle. Instants are
microseconds, within the years of `datetime`.
-/

namespace Cctally.SubWeeks

/-- What the weeks take from outside: `parse_iso_datetime`, `none` for a `ValueError`;
the `unixepoch` of SQLite, `none` for `NULL`; the local date of an instant; and its
`isoformat` in UTC. The parser refuses the empty text and reads back what was formatted. -/
structure Clock (D : Type) where
  parseIsoDatetime : String → Option Int
  unixepoch : String → Option Int
  date : Int → D
  isoformat : Int → String
  refuses_empty : parseIsoDatetime "" = none
  reads_back : ∀ s t, parseIsoDatetime s = some t → parseIsoDatetime (isoformat t) = some t

def SECOND : Int := 1000000

inductive Source where
  | snapshot
  | extrapolated
  deriving DecidableEq

structure SubWeek (D : Type) where
  startTs : String
  endTs : String
  startDate : D
  endDate : D
  source : Source
  displayStartDate : D
  deriving DecidableEq

/-- A row of `week_reset_events`; a table lists its rows in the order of their `id`. -/
structure ResetEvent where
  accountKey : String
  oldWeekEndAt : String
  newWeekEndAt : String
  effectiveResetAtUtc : String
  deriving DecidableEq

structure ParsedEvent where
  oldDt : Int
  newDt : Int
  effDt : Int
  resetAt : String
  isInPlaceCredit : Bool
  deriving DecidableEq

abbrev Moment := Int × String

section
variable {D : Type} (ck : Clock D)

def SubWeek.segmentKey (w : SubWeek D) : Option String := (ck.parseIsoDatetime w.startTs).map ck.isoformat

/-- The second an event is ordered by; `NULL` comes before every other. -/
def epoch (r : ResetEvent) : WithBot Int := ck.unixepoch r.effectiveResetAtUtc

def accountRows (accountKey : Option String) (table : List ResetEvent) : List ResetEvent :=
  match accountKey with
  | none => table
  | some key => table.filter fun r => r.accountKey = key

/-- `ORDER BY unixepoch(effective_reset_at_utc) DESC, id DESC` -/
def fetched (accountKey : Option String) (table : List ResetEvent) : List ResetEvent :=
  (accountRows accountKey table).reverse.insertionSort fun r r' => epoch ck r' ≤ epoch ck r

def parsedEvent (r : ResetEvent) : Option ParsedEvent := do
  let oldDt ← ck.parseIsoDatetime r.oldWeekEndAt
  let newDt ← ck.parseIsoDatetime r.newWeekEndAt
  let effDt ← ck.parseIsoDatetime r.effectiveResetAtUtc
  return ⟨oldDt, newDt, effDt, r.effectiveResetAtUtc, r.oldWeekEndAt = r.effectiveResetAtUtc⟩

structure Roles where
  endShift : Option Moment
  startShift : Option Moment
  cuts : List Moment

def Roles.step (endDt : Int) (r : Roles) (e : ParsedEvent) : Roles :=
  let endShift := if endDt = e.oldDt ∧ r.endShift = none then some (e.effDt, e.resetAt) else r.endShift
  if endDt = e.newDt then
    if e.isInPlaceCredit then { r with endShift, cuts := r.cuts ++ [(e.effDt, e.resetAt)] }
    else if r.startShift = none then { r with endShift, startShift := some (e.effDt, e.resetAt) }
    else { r with endShift }
  else { r with endShift }

def rolesOf (endDt : Int) (events : List ParsedEvent) : Roles :=
  events.foldl (Roles.step endDt) ⟨none, none, []⟩

def effStartRaw (w : SubWeek D) (r : Roles) : String :=
  match r.startShift with
  | none => w.startTs
  | some (_, raw) => raw

def keepCuts (startDt : Option Int) (weekEndDt : Int) : List Int → List Moment → List Moment
  | _, [] => []
  | seen, (cutDt, cutRaw) :: cuts =>
    if cutDt ∈ seen then keepCuts startDt weekEndDt seen cuts
    else if weekEndDt ≤ cutDt then keepCuts startDt weekEndDt seen cuts
    else if ∃ s ∈ startDt, cutDt ≤ s then keepCuts startDt weekEndDt seen cuts
    else (cutDt, cutRaw) :: keepCuts startDt weekEndDt (cutDt :: seen) cuts

def orderedInPlaceCuts (cuts : List Moment) (weekStartAt : String) (weekEndDt : Int) : List Moment :=
  let startDt := if weekStartAt = "" then none else ck.parseIsoDatetime weekStartAt
  keepCuts startDt weekEndDt [] (cuts.insertionSort fun c c' => c.1 ≤ c'.1)

def shifted (w : SubWeek D) (r : Roles) : SubWeek D :=
  let w := match r.endShift with
    | none => w
    | some (shiftDt, shiftRaw) => { w with endTs := shiftRaw, endDate := ck.date (shiftDt - SECOND) }
  match r.startShift with
  | none => w
  | some (shiftDt, shiftRaw) => { w with startTs := shiftRaw, displayStartDate := ck.date shiftDt }

def closedAt (base : SubWeek D) (cut : Moment) : SubWeek D :=
  { base with endTs := cut.2, endDate := ck.date (cut.1 - SECOND) }

def openedAt (base : SubWeek D) (cut : Moment) : SubWeek D :=
  { base with startTs := cut.2, displayStartDate := ck.date cut.1 }

def segmentsFrom (base : SubWeek D) (prev : Moment) : List Moment → List (SubWeek D)
  | [] => [openedAt ck base prev]
  | cut :: cuts => closedAt ck (openedAt ck base prev) cut :: segmentsFrom base cut cuts

def segments (base : SubWeek D) : List Moment → List (SubWeek D)
  | [] => [base]
  | cut :: cuts => closedAt ck base cut :: segmentsFrom ck base cut cuts

def cutsOf (events : List ParsedEvent) (w : SubWeek D) (endDt : Int) : List Moment :=
  let r := rolesOf endDt events
  orderedInPlaceCuts ck r.cuts (effStartRaw w r) endDt

def weekSegments (events : List ParsedEvent) (w : SubWeek D) : List (SubWeek D) × Bool :=
  match ck.parseIsoDatetime w.endTs with
  | none => ([w], false)
  | some endDt =>
    let ordered := cutsOf ck events w endDt
    (segments ck (shifted ck w (rolesOf endDt events)) ordered, !ordered.isEmpty)

def startKey (s : SubWeek D) : WithBot Int := ck.parseIsoDatetime s.startTs

/-- `sorted(out, key=…)`, which leaves the list when a start does not parse. -/
def sortedByStart (out : List (SubWeek D)) : List (SubWeek D) :=
  if out.all fun s => (ck.parseIsoDatetime s.startTs).isSome then
    out.insertionSort fun s s' => startKey ck s ≤ startKey ck s'
  else out

def applyToWeeks (events : List ParsedEvent) (weeks : List (SubWeek D)) : List (SubWeek D) :=
  let out := weeks.flatMap fun w => (weekSegments ck events w).1
  if weeks.any fun w => (weekSegments ck events w).2 then sortedByStart ck out else out

def parsedEvents (accountKey : Option String) (table : List ResetEvent) : List ParsedEvent :=
  (fetched ck accountKey table).filterMap (parsedEvent ck)

def applyResetEventsToSubweeks (accountKey : Option String) (table : List ResetEvent)
    (weeks : List (SubWeek D)) : List (SubWeek D) :=
  if fetched ck accountKey table = [] then weeks
  else
    let events := parsedEvents ck accountKey table
    if events = [] then weeks else applyToWeeks ck events weeks

end

end Cctally.SubWeeks
