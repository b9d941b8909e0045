import Cctally.Bisect
import Cctally.Except
import Cctally.Json
import Mathlib.Data.Finset.Basic

/-!
# Correction-to-fit lineage

The footprints of correction batches, the verdict on one lineage against the
correction facts, and what a set of lineages needs from the correction rows.
Journal coordinates are of any type that a key orders linearly.
-/

namespace Cctally

/-! ## Footprints -/

/-- `(provider, account_key)` -/
abbrev Owner := String × String

def UNKNOWN_OWNER : Owner := ("*", "*")

inductive ActionKind where
  | replace
  | tombstone
  | new
deriving DecidableEq

structure Action where
  eventId : String
  rev : Nat
  kind : ActionKind
  payloadOwner : Option Owner

inductive RevisionStatus where
  | active
  | tombstone
deriving DecidableEq

structure Revision where
  status : RevisionStatus
  owner : Option Owner
deriving DecidableEq

def activeOwner (revision : Revision) : Option Owner :=
  if revision.status = .active then some (revision.owner.getD UNKNOWN_OWNER) else none

structure FootprintState where
  touched : Finset Owner
  produced : Dict String Revision

namespace FootprintState

def touch (s : FootprintState) (owner : Option Owner) : FootprintState :=
  match owner with
  | none => s
  | some owner => { s with touched := insert owner s.touched }

def produce (s : FootprintState) (eventId : String) (revision : Revision) : FootprintState :=
  { s with produced := s.produced.set eventId revision }

def predecessor (predecessorOf : String → Nat → Option Revision) (s : FootprintState) (action : Action) :
    Option Revision :=
  match s.produced.get? action.eventId with
  | some revision => some revision
  | none => if action.kind = .new then none else predecessorOf action.eventId action.rev

def act (predecessorOf : String → Nat → Option Revision) (s : FootprintState) (action : Action) : FootprintState :=
  let replaced := (s.predecessor predecessorOf action).bind activeOwner
  if action.kind = .tombstone then (s.touch replaced).produce action.eventId ⟨.tombstone, none⟩
  else
    ((s.touch replaced).touch (some (action.payloadOwner.getD UNKNOWN_OWNER))).produce action.eventId
      ⟨.active, action.payloadOwner⟩

end FootprintState

def batchFootprint (actions : List Action) (predecessorOf : String → Nat → Option Revision) : Finset Owner :=
  (actions.foldl (FootprintState.act predecessorOf) ⟨∅, Dict.empty⟩).touched

structure CorrectionRow (C : Type) where
  opId : String
  observationId : String
  accountKey : Option String
  capturedAt : Option String
  opCoord : C

structure BatchFact (C : Type) where
  batchId : String
  commitCoord : C
  footprint : Finset Owner

structure CorrectionFacts (C : Type) where
  corrections : List (CorrectionRow C)
  batches : List (BatchFact C)

inductive AssessmentState where
  | clean
  | tainted
  | unavailable
deriving DecidableEq

structure Assessment where
  state : AssessmentState
  corrections : List (String × Nat)
deriving DecidableEq

def CLEAN : Assessment := ⟨.clean, []⟩

def UNAVAILABLE : Assessment := ⟨.unavailable, []⟩

inductive LineageError where
  | type
  | overflow
deriving DecidableEq

abbrev Instant := Int

/-- What a text stands for: a naive time, or an instant, which may lie outside the
years that the `datetime` type can write in UTC. -/
inductive Stamp where
  | naive
  | aware (instant : Instant)

def MIN_INSTANT : Instant := -62135596800000000

def MAX_INSTANT : Instant := 253402300799999999

/-- What the assessment takes from outside: `datetime.fromisoformat`, `none` for a
`ValueError`; the `str` of a value that is no string; the order of coordinates. -/
structure Reader (C K : Type) where
  fromisoformat : String → Option Stamp
  repr : Json → String
  coordKey : C → K

section
variable {C K : Type} [LinearOrder K] (rd : Reader C K)

def Reader.str : Json → String
  | .str s => s
  | value => rd.repr value

def replaceZ (s : String) : String :=
  String.ofList (s.toList.flatMap fun c => if c = 'Z' then "+00:00".toList else [c])

def instantOf (s : String) : Except LineageError (Option Instant) :=
  if s = "" then .ok none
  else
    match rd.fromisoformat (replaceZ s) with
    | none => .ok none
    | some .naive => .ok none
    | some (.aware t) => if MIN_INSTANT ≤ t ∧ t ≤ MAX_INSTANT then .ok (some t) else .error .overflow

def instant : Json → Except LineageError (Option Instant)
  | .str s => instantOf rd s
  | _ => .ok none

/-- `for x in value or ()` -/
def iterate (value : Json) : Except LineageError (List Json) :=
  if value.truthy = false then .ok []
  else
    match value with
    | .arr items => .ok items
    | .obj fields => .ok (fields.map fun p => .str p.1)
    | .str s => .ok (s.toList.map fun c => .str (String.ofList [c]))
    | _ => .error .type

structure LineageWindow where
  start : Option Instant
  untilAt : Option Instant
  inclusive : Bool
deriving DecidableEq

def parsedWindow (w : Json.Fields) : Except LineageError LineageWindow := do
  let start ← instant rd (Json.field w "from")
  let untilAt ← instant rd (Json.field w "until")
  pure ⟨start, untilAt, (Json.field w "untilInclusive").truthy⟩

def windowFields : Json → Option Json.Fields
  | .obj fields => some fields
  | _ => none

def parsedWindows (windows : Json) : Except LineageError (List LineageWindow) := do
  let items ← iterate windows
  (items.filterMap windowFields).mapM (parsedWindow rd)

def inWindow (t : Instant) (w : LineageWindow) : Bool :=
  if w.start.any (t < ·) then false
  else if w.untilAt.any fun u => u < t || (t == u && !w.inclusive) then false
  else true

def inWindows (t : Instant) (windows : List LineageWindow) : Bool := windows.any (inWindow t)

/-! ## The verdict -/

def touches (footprint : Finset Owner) (accountKey : String) : Bool :=
  ("claude", accountKey) ∈ footprint || ("claude", "*") ∈ footprint || ("*", "*") ∈ footprint

def touchesClaude (footprint : Finset Owner) : Bool := decide (∃ o ∈ footprint, o.1 = "claude" ∨ o.1 = "*")

structure PreparedRow (C K : Type) where
  opOrder : K
  row : CorrectionRow C
  captured : Option Instant

def capturedInstant (row : CorrectionRow C) : Except LineageError (Option Instant) :=
  match row.capturedAt with
  | none => .ok none
  | some text => instantOf rd text

def preparedRow (row : CorrectionRow C) : Except LineageError (PreparedRow C K) := do
  let captured ← capturedInstant rd row
  pure ⟨rd.coordKey row.opCoord, row, captured⟩

def preparedBatches (batches : List (BatchFact C)) : List (K × BatchFact C) :=
  (batches.map fun b => (rd.coordKey b.commitCoord, b)).insertionSort (·.1 ≤ ·.1)

def basisOf (lineage : Json.Fields) : Except LineageError (List String) := do
  let entries ← iterate (Json.field lineage "basis")
  pure (entries.map rd.str)

def scopeOf (lineage : Json.Fields) : String :=
  let scope := Json.field lineage "accountScope"
  if scope.truthy then rd.str scope else "*"

def outsideOf (batches : List (BatchFact C)) (basis : List String) : List (K × Finset Owner) :=
  ((preparedBatches rd batches).filter (·.2.batchId ∉ basis)).map fun p => (p.1, p.2.footprint)

def suffixFootprints : List (K × Finset Owner) → List (Finset Owner)
  | [] => [∅]
  | (_, footprint) :: outside =>
    let suffix := suffixFootprints outside
    (suffix.headD ∅ ∪ footprint) :: suffix

structure Findings where
  tainted : Dict String (List String)
  unresolved : Bool

def Findings.taint (f : Findings) (opId observationId : String) : Findings :=
  { f with tainted := f.tainted.set opId (((f.tainted.get? opId).getD []).insert observationId) }

def assessRow (outside : List (K × Finset Owner)) (scope : String) (windows : List LineageWindow)
    (found : Findings) (r : PreparedRow C K) : Findings :=
  let first := Bisect.bisectRight (outside.map Prod.fst) r.opOrder
  if first = outside.length then found
  else
    let later := (suffixFootprints outside).getD first ∅
    match r.row.accountKey, r.captured with
    | some accountKey, some captured =>
      if scope ≠ "*" ∧ accountKey ≠ scope then found
      else if inWindows captured windows = false then found
      else if touches later accountKey then found.taint r.row.opId r.row.observationId
      else found
    | _, _ => if touchesClaude later then { found with unresolved := true } else found

def Findings.assessment (f : Findings) : Assessment :=
  if f.tainted.entries ≠ [] then ⟨.tainted, f.tainted.entries.map fun p => (p.1, p.2.length)⟩
  else if f.unresolved then UNAVAILABLE
  else CLEAN

def lineageFields : Option Json → Option Json.Fields
  | some (.obj fields) => some fields
  | _ => none

def assessLineage (lineage : Json.Fields) (facts : CorrectionFacts C) : Except LineageError Assessment := do
  let basis ← basisOf rd lineage
  let rows ← facts.corrections.mapM (preparedRow rd)
  let outside := outsideOf rd facts.batches basis
  if outside = [] then pure CLEAN
  else do
    let windows ← parsedWindows rd (Json.field lineage "dependencyWindows")
    pure (rows.foldl (assessRow outside (scopeOf rd lineage) windows) ⟨Dict.empty, false⟩).assessment

/-- `assess`: a missing lineage or missing facts are `None`. -/
def assess (lineage : Option Json) (facts : Option (CorrectionFacts C)) : Except LineageError Assessment :=
  match lineageFields lineage, facts with
  | some fields, some facts => assessLineage rd fields facts
  | _, _ => .ok UNAVAILABLE

structure RowDemand (K : Type) where
  opBefore : K
  start : Option Instant
  untilAt : Option Instant
  empty : Bool
  account : Option String
deriving DecidableEq

structure Needs (K : Type) where
  latest : Option K
  starts : List Instant
  untils : List Instant
  openStart : Bool
  openUntil : Bool
  scopes : List String

def Needs.addWindow (needs : Needs K) (w : LineageWindow) : Needs K :=
  let needs := match w.start with
    | none => { needs with openStart := true }
    | some start => { needs with starts := needs.starts ++ [start] }
  match w.untilAt with
  | none => { needs with openUntil := true }
  | some u => { needs with untils := needs.untils ++ [u] }

def outsideCommits (batches : List (BatchFact C)) (basis : List String) : List K :=
  (batches.filter fun b => b.batchId ∉ basis ∧ touchesClaude b.footprint).map fun b => rd.coordKey b.commitCoord

def needsOf (batches : List (BatchFact C)) (needs : Needs K) (lineage : Json.Fields) :
    Except LineageError (Needs K) := do
  let basis ← basisOf rd lineage
  match (outsideCommits rd batches basis).max? with
  | none => pure needs
  | some newest => do
    let windows ← parsedWindows rd (Json.field lineage "dependencyWindows")
    pure (windows.foldl Needs.addWindow
      { needs with
        latest := some (needs.latest.elim newest fun latest => if latest < newest then newest else latest)
        scopes := needs.scopes.insert (scopeOf rd lineage) })

def Needs.demand (needs : Needs K) : Option (RowDemand K) :=
  needs.latest.map fun latest =>
    { opBefore := latest
      start := if needs.openStart || needs.starts = [] then none else needs.starts.min?
      untilAt := if needs.openUntil || needs.untils = [] then none else needs.untils.max?
      empty := !(needs.starts ≠ [] || needs.openStart)
      account := match needs.scopes with
        | [scope] => if scope = "*" then none else some scope
        | _ => none }

def rowDemand (lineages : List (Option Json)) (batches : List (BatchFact C)) :
    Except LineageError (Option (RowDemand K)) := do
  let needs ← (lineages.filterMap lineageFields).foldlM (needsOf rd batches) ⟨none, [], [], false, false, []⟩
  pure needs.demand

end

end Cctally
