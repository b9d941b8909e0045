import Cctally.Dict
import Cctally.Except
import Cctally.Journal

/-!
# The account-bound admission fence

A durable cutover and its two revisions each freeze the extents of the segments
that exist when they are appended. A record after an extent needs the stamps of
the fences it lies behind, unless its fields prove it Codex-only.
-/

namespace Cctally

open Json (field)

namespace AccountProtocol

def PROTOCOL_GENERATION : String := "account-bound-v1"
def PROTOCOL_REVISION : Int := 2
def SUCCESSOR_REVISION : Int := 3

def ADMIN_RECORD_TYPES : List String := ["correction", "correction_batch"]

def CLAUDE_OP_KINDS : List String :=
  ["account_observe", "account_label", "accounts_cutover", "weekly_credit_floor", "sync_week", "claude_cost_account"]

def CODEX_OP_KINDS : List String :=
  ["codex_file_account", "codex_window_attribution", "codex_window_attribution_retract"]

def ADMIN_OP_KINDS : List String :=
  ["journal_protocol_resolution", "claude_weekly_observation_decision", "journal_protocol_resolution_v2",
   "journal_protocol_resolution_v3", "journal_protocol_resolution_v4", "claude_weekly_observation_decision_v2"]

def PROTOCOL_OP_KINDS : List String :=
  ["account_bound_cutover", "legacy_spool_activity", "account_bound_revision", "account_bound_revision_v3",
   "legacy_spool_inventory_completion", "outcome_authority_completion", "outcome_axis_release"]

def CLAUDE_EVT_KINDS : List String :=
  ["snapshot_accept", "weekly_cost_snapshot", "week_reset", "five_hour_credit", "five_hour_block_close",
   "percent_milestone", "five_hour_milestone", "weekly_credit_effects", "projected", "project_budget",
   "meter_rate_change", "meter_rate_change_supersession"]

def QUOTA_EVT_KINDS : List String := ["quota_alert_arming", "quota_threshold_event"]

inductive Family
  | claudeObservation
  | claudeOp
  | claudeEvent
  | administrative
  | protocol
  | codex
  | unknown
  deriving DecidableEq, Repr

inductive Reason
  | noCutover
  | historical
  | stamped
  | codexOnly
  | excluded
  | revisionUnstamped
  | revision3Unstamped
  deriving DecidableEq, Repr

structure Coordinate where
  segment : String
  offset : Int
  deriving DecidableEq

structure RevisionBoundary where
  segment : String
  endOffset : Int
  frozenExtents : Dict String Int
  cutoverSegment : String
  cutoverOffset : Int

structure Revision3Boundary where
  segment : String
  endOffset : Int
  frozenExtents : Dict String Int
  cutoverSegment : String
  cutoverOffset : Int
  revision2Segment : String
  revision2Offset : Int

structure CutoverBoundary where
  segment : String
  endOffset : Int
  frozenExtents : Dict String Int
  revision : Option RevisionBoundary
  revision3 : Option Revision3Boundary

structure Admission where
  admitted : Bool
  family : Family
  reason : Reason
  deriving DecidableEq

/-- `value == text` -/
def textIs (text : String) : Json → Bool
  | .str s => s = text
  | _ => false

/-- `type(value) is int and value == n` -/
def intIs (n : Int) : Json → Bool
  | .num m => m = n
  | _ => false

theorem textIs_iff {text : String} {value : Json} : textIs text value = true ↔ value = .str text := by
  cases value <;> simp [textIs]

theorem intIs_iff {n : Int} {value : Json} : intIs n value = true ↔ value = .num n := by
  cases value <;> simp [intIs]

def isStamped : Json → Bool
  | .obj record => textIs PROTOCOL_GENERATION (field record "wpg")
  | _ => false

def hasCurrentRevision : Json → Bool
  | .obj record => intIs PROTOCOL_REVISION (field record "wpr")
  | _ => false

def hasSuccessorRevision : Json → Bool
  | .obj record => intIs SUCCESSOR_REVISION (field record "wpx")
  | _ => false

/-- `is_historical`, of a boundary with these extents. -/
def isHistorical (coord : Coordinate) (frozenExtents : Dict String Int) : Bool :=
  match frozenExtents.get? coord.segment with
  | some extent => coord.offset < extent
  | none => false

/-- `value in kinds` for a frozen set of strings; a list or an object has no hash. -/
def memberOf (value : Json) (kinds : List String) : Py Bool :=
  if value.hashable then pure (kinds.any fun kind => textIs kind value) else throw .type

def codexOr (codex : Bool) (family : Family) : Family × Bool := if codex then (.codex, true) else (family, false)

def opFamily (payload : Json.Fields) (kind : Json) : Py (Family × Bool) := do
  if ← memberOf kind CODEX_OP_KINDS then return (.codex, true)
  if textIs "account_observe" kind || textIs "account_label" kind then
    return codexOr (textIs "codex" (field payload "provider")) .claudeOp
  if ← memberOf kind CLAUDE_OP_KINDS then return (.claudeOp, false)
  if ← memberOf kind ADMIN_OP_KINDS then return (.administrative, false)
  if ← memberOf kind PROTOCOL_OP_KINDS then return (.protocol, false)
  return (.unknown, false)

def evtFamily (payload : Json.Fields) (kind : Json) : Py (Family × Bool) := do
  if ← memberOf kind CLAUDE_EVT_KINDS then return (.claudeEvent, false)
  if textIs "budget" kind then
    return codexOr (textIs "codex" (field payload "vendor")) .claudeEvent
  if ← memberOf kind QUOTA_EVT_KINDS then
    return codexOr (textIs "codex" (field payload "source")) .claudeEvent
  return (.unknown, false)

def obsFamily (record : Json.Fields) (kind : Json) : Family × Bool :=
  let provider := field record "provider"
  if textIs "claude" provider then (.claudeObservation, false)
  else codexOr (textIs "codex" provider && textIs "quota_window_snapshot" kind) .unknown

/-- `_family`: the family of a record and whether it is proven Codex-only. -/
def family : Json → Py (Family × Bool)
  | .obj record => do
    let t := field record "t"
    if ← memberOf t ADMIN_RECORD_TYPES then return (.administrative, false)
    match field record "payload" with
    | .obj payload =>
      let kind := field payload "kind"
      if textIs "obs" t then return obsFamily record kind
      if textIs "op" t then opFamily payload kind
      else if textIs "evt" t then evtFamily payload kind
      else return (.unknown, false)
    | _ => return (.unknown, false)
  | _ => pure (.unknown, false)

def passes (coord : Coordinate) (frozenExtents : Option (Dict String Int)) (stamped : Bool) : Bool :=
  match frozenExtents with
  | none => true
  | some extents => isHistorical coord extents || stamped

def classifyAdmission (record : Json) (coord : Coordinate) (boundary : Option CutoverBoundary)
    (revisionBoundary : Option RevisionBoundary) (revision3Boundary : Option Revision3Boundary) : Py Admission := do
  let (family, codexOnly) ← family record
  match boundary with
  | none => return ⟨true, family, .noCutover⟩
  | some boundary =>
    if isHistorical coord boundary.frozenExtents then return ⟨true, family, .historical⟩
    if isStamped record then
      let revision := revisionBoundary.or boundary.revision
      if !passes coord (revision.map (·.frozenExtents)) (hasCurrentRevision record) then
        if codexOnly then return ⟨true, family, .codexOnly⟩
        return ⟨false, family, .revisionUnstamped⟩
      let revision3 := revision3Boundary.or boundary.revision3
      if passes coord (revision3.map (·.frozenExtents)) (hasSuccessorRevision record) then
        return ⟨true, family, .stamped⟩
      if codexOnly then return ⟨true, family, .codexOnly⟩
      return ⟨false, family, .revision3Unstamped⟩
    if codexOnly then return ⟨true, family, .codexOnly⟩
    return ⟨false, family, .excluded⟩

def withRevision : Option CutoverBoundary → Option RevisionBoundary → Py (Option CutoverBoundary)
  | none, _ => pure none
  | some boundary, none => pure (some { boundary with revision := none, revision3 := none })
  | some boundary, some revision => do
    if (revision.cutoverSegment, revision.cutoverOffset) ≠ (boundary.segment, boundary.endOffset) then
      throw (.value "revision boundary names a different cutover")
    -- a revision-3 boundary never outlives the revision-2 boundary it extends
    let revision3 := boundary.revision3.filter fun r =>
      (r.revision2Segment, r.revision2Offset) = (revision.segment, revision.endOffset)
    return some { boundary with revision := some revision, revision3 := revision3 }

def withRevision3 : Option CutoverBoundary → Option Revision3Boundary → Py (Option CutoverBoundary)
  | none, _ => pure none
  | some boundary, none => pure (some { boundary with revision3 := none })
  | some boundary, some revision3 => do
    if (revision3.cutoverSegment, revision3.cutoverOffset) ≠ (boundary.segment, boundary.endOffset) then
      throw (.value "revision-3 boundary names a different cutover")
    match boundary.revision with
    | none => throw (.value "revision-3 boundary names a different revision-2 op")
    | some revision =>
      if (revision3.revision2Segment, revision3.revision2Offset) ≠ (revision.segment, revision.endOffset) then
        throw (.value "revision-3 boundary names a different revision-2 op")
      return some { boundary with revision3 := some revision3 }

def originalBoundary (boundary : Option CutoverBoundary) : Option CutoverBoundary :=
  boundary.map fun b => { b with revision := none, revision3 := none }

end AccountProtocol

end Cctally
