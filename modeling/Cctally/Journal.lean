import Cctally.Json
import Mathlib.Data.Finset.Insert
import Mathlib.Data.Prod.Lex

/-!
# The journal kernel: records, batches and effective events

The selector reads a list of decoded journal entries. Phase 1 validates each
entry and accumulates candidates, batch markers, batch actions and protocol
resolutions; phase 2 decides completion or taint of each batch; the last pass
selects one effective revision for each event id.
-/

namespace Cctally

open Json (field fieldD hasField keysAre)

/-- What the kernel takes from outside: the SHA-256 hex digest of the canonical
text of a value, and whether `int(text, 16)` accepts a text. -/
structure Runtime where
  sha256 : Json → String
  isBase16 : String → Bool

inductive PyError
  /-- `JournalProtocolError` -/
  | protocol (msg : String)
  | value (msg : String)
  | type
  deriving DecidableEq, Repr

abbrev Py := Except PyError

def LINE_VERSION : Int := 1

def STAMP_KEYS : List String := ["wpg", "wpr", "wpx"]

def PROTOCOL_RESOLUTION_KINDS : List String :=
  ["journal_protocol_resolution", "journal_protocol_resolution_v2", "journal_protocol_resolution_v3",
   "journal_protocol_resolution_v4"]

inductive Phase
  | begin
  | commit
  deriving DecidableEq, Repr

def Phase.text : Phase → String
  | .begin => "begin"
  | .commit => "commit"

inductive ActionType
  | replace
  | tombstone
  deriving DecidableEq, Repr

def ActionType.text : ActionType → String
  | .replace => "replace"
  | .tombstone => "tombstone"

inductive Status
  | active
  | tombstone
  deriving DecidableEq, Repr

/-- The selected state for one logical event id. The sequence is missing only
for a durable row the live emit path wrote. -/
structure EffectiveEvent where
  eventId : String
  rev : Nat
  status : Status
  contentHash : String
  batchId : Option String
  record : Option Json
  sequence : Option Nat

structure EventConflict where
  eventId : String
  rev : Nat
  contentHashes : List String
  selectedHash : String
  deriving DecidableEq

inductive Evidence
  | markerConflict (phase : Phase) (firstRecordHash conflictingRecordHash : String)
  | actionSequenceConflict (actionSequence : Nat) (firstRecordHash conflictingRecordHash : String)
  | commitWithoutBegin (commitSequence : Nat) (commitRecordHash : String)
  | markerManifestMismatch (beginSequence commitSequence : Nat) (beginIdentityHash commitIdentityHash : String)
  | recordOrderViolation (beginSequence commitSequence : Nat) (recordOrderHash : String)
  | manifestActionSequenceMismatch (expectedActionCount actualActionCount : Nat) (presentSequencesHash : String)
  | manifestActionsHashMismatch (expectedActionsHash actualActionsHash : String)
  deriving DecidableEq

namespace Evidence

def kind : Evidence → String
  | markerConflict .. => "marker_conflict"
  | actionSequenceConflict .. => "action_sequence_conflict"
  | commitWithoutBegin .. => "commit_without_begin"
  | markerManifestMismatch .. => "marker_manifest_mismatch"
  | recordOrderViolation .. => "record_order_violation"
  | manifestActionSequenceMismatch .. => "manifest_action_sequence_mismatch"
  | manifestActionsHashMismatch .. => "manifest_actions_hash_mismatch"

def fields : Evidence → Json.Fields
  | markerConflict p a b =>
    [("phase", .str p.text), ("firstRecordHash", .str a), ("conflictingRecordHash", .str b)]
  | actionSequenceConflict n a b =>
    [("actionSequence", .num n), ("firstRecordHash", .str a), ("conflictingRecordHash", .str b)]
  | commitWithoutBegin n a => [("commitSequence", .num n), ("commitRecordHash", .str a)]
  | markerManifestMismatch m n a b =>
    [("beginSequence", .num m), ("commitSequence", .num n), ("beginIdentityHash", .str a),
     ("commitIdentityHash", .str b)]
  | recordOrderViolation m n a =>
    [("beginSequence", .num m), ("commitSequence", .num n), ("recordOrderHash", .str a)]
  | manifestActionSequenceMismatch m n a =>
    [("expectedActionCount", .num m), ("actualActionCount", .num n), ("presentSequencesHash", .str a)]
  | manifestActionsHashMismatch a b => [("expectedActionsHash", .str a), ("actualActionsHash", .str b)]

end Evidence

structure ProtocolViolation where
  batchId : String
  evidence : Evidence
  deriving DecidableEq

def ProtocolViolation.kind (v : ProtocolViolation) : String := v.evidence.kind

structure ResolutionRef where
  batchId : String
  kind : String
  fingerprint : String
  deriving DecidableEq

structure Resolution where
  auditId : String
  journalHighWater : String × Nat
  journalPrefixHash : String
  violations : List ResolutionRef

structure AcknowledgedProtocolViolation where
  violation : ProtocolViolation
  auditId : String
  journalHighWater : String × Nat
  journalPrefixHash : String
  deriving DecidableEq

/-! ## Record validation -/

section
variable (rt : Runtime)

def sha256Canonical (value : Json) : String := "sha256:" ++ rt.sha256 value

def contentId (core : Json) : String := "o:" ++ String.ofList ((rt.sha256 core).toList.take 16)

/-- A string that is not empty, else a `JournalProtocolError`. -/
def nonEmptyStr (msg : String) : Json → Py String
  | .str s => if s = "" then throw (.protocol msg) else pure s
  | _ => throw (.protocol msg)

def nonNegInt (msg : String) : Json → Py Nat
  | .num n => if 0 ≤ n then pure n.toNat else throw (.protocol msg)
  | _ => throw (.protocol msg)

def validateRevision (rev : Json) : Py Nat := nonNegInt "event rev must be a non-negative integer" rev

def eventRevision (record : Json.Fields) : Py Nat := validateRevision (fieldD record "rev" (.num 0))

def stripStamp (record : Json.Fields) : Json.Fields := Json.without record STAMP_KEYS

def eventContentHash (record : Json.Fields) : String := sha256Canonical rt (.obj (stripStamp record))

/-- The fields of a correction action the manifest hash covers; `src` is always
`rederive`. -/
structure ActionCore where
  action : ActionType
  id : String
  rev : Nat
  at_ : String
  payload : Option Json.Fields

def ActionCore.payloadJson (core : ActionCore) : Json :=
  match core.payload with
  | some fields => .obj fields
  | none => .null

def correctionActionCore (core : ActionCore) : Json :=
  Json.dict [("action", .str core.action.text), ("id", .str core.id), ("rev", .num core.rev),
    ("at", .str core.at_), ("src", .str "rederive"), ("payload", core.payloadJson)]

/-- `value not in {"replace", "tombstone"}` raises on a value that cannot be hashed. -/
def readActionType : Json → Py ActionType
  | .str "replace" => pure .replace
  | .str "tombstone" => pure .tombstone
  | other =>
    if other.hashable then throw (.protocol "correction action must be replace or tombstone") else throw .type

def readActionPayload : ActionType → Json → Py (Option Json.Fields)
  | .replace, .obj fields =>
    match field fields "kind" with
    | .str _ => pure (some fields)
    | _ => throw (.protocol "replacement correction payload must contain a string kind")
  | .replace, _ => throw (.protocol "replacement correction payload must contain a string kind")
  | .tombstone, .null => pure none
  | .tombstone, _ => throw (.protocol "tombstone correction payload must be null")

def validateActionCore (action : Json.Fields) : Py ActionCore := do
  if !keysAre action ["action", "id", "rev", "at", "payload"] then
    throw (.protocol "correction action must contain action,id,rev,at,payload")
  let actionType ← readActionType (field action "action")
  let eventId ← nonEmptyStr "correction action id must be a non-empty string" (field action "id")
  let rev ← validateRevision (field action "rev")
  let at_ ← nonEmptyStr "correction action at must be a non-empty string" (field action "at")
  let payload ← readActionPayload actionType (field action "payload")
  pure { action := actionType, id := eventId, rev := rev, at_ := at_, payload := payload }

structure MarkerCore where
  actionCount : Option Nat
  actionsHash : Option String
  deriving DecidableEq

def validActionsHash (text : String) : Bool :=
  "sha256:".toList.isPrefixOf text.toList && text.toList.length == 71 &&
    rt.isBase16 (String.ofList (text.toList.drop 7))

def readPhase : Json → Py Phase
  | .str "begin" => pure .begin
  | .str "commit" => pure .commit
  | other =>
    if other.hashable then throw (.protocol "correction batch phase must be begin or commit") else throw .type

def requireRederive (msg : String) : Json → Py Unit
  | .str "rederive" => pure ()
  | _ => throw (.protocol msg)

def readActionsHash : Json → Py String
  | .str text =>
    if validActionsHash rt text then pure text else throw (.protocol "correction batch actions_hash is invalid")
  | _ => throw (.protocol "correction batch actions_hash is invalid")

def validateBatchMarker (record : Json.Fields) : Py (String × Phase × MarkerCore) := do
  let batchId ← nonEmptyStr "correction batch id must be a non-empty string" (field record "id")
  let phase ← readPhase (field record "phase")
  let _family ← nonEmptyStr "correction batch family must be a non-empty string" (field record "family")
  let _at ← nonEmptyStr "correction batch at must be a non-empty string" (field record "at")
  requireRederive "correction batch src must be rederive" (field record "src")
  let count ← nonNegInt "correction batch action_count must be a non-negative integer" (field record "action_count")
  let actionsHash ← readActionsHash rt (field record "actions_hash")
  pure (batchId, phase, { actionCount := some count, actionsHash := some actionsHash })

structure Correction where
  core : ActionCore
  batch : String
  seq : Nat

def validateCorrectionRecord (record : Json.Fields) : Py Correction := do
  let batchId ← nonEmptyStr "correction batch must be a non-empty string" (field record "batch")
  let seq ← nonNegInt "correction seq must be a non-negative integer" (field record "seq")
  requireRederive "correction src must be rederive" (field record "src")
  let core ← validateActionCore [("action", field record "action"), ("id", field record "id"),
    ("rev", field record "rev"), ("at", field record "at"), ("payload", field record "payload")]
  pure { core := core, batch := batchId, seq := seq }

def candidateFromEvt (record : Json.Fields) (sequence : Nat) : Py EffectiveEvent := do
  let eventId ← nonEmptyStr "event id must be a non-empty string" (field record "id")
  let rev ← eventRevision record
  if rev ≠ 0 then
    throw (.protocol "ordinary evt revision must be 0; use a completed correction batch")
  if !(field record "payload").isObj then
    throw (.protocol "event payload must be an object")
  pure { eventId := eventId, rev := rev, status := .active, contentHash := eventContentHash rt record,
         batchId := none, record := some (.obj record), sequence := some sequence }

def correctionEvent (core : ActionCore) : Json :=
  Json.dict [("v", .num LINE_VERSION), ("t", .str "evt"), ("id", .str core.id), ("rev", .num core.rev),
    ("at", .str core.at_), ("src", .str "rederive"), ("payload", core.payloadJson)]

def candidateFromCorrection (record : Correction) (sequence : Nat) : EffectiveEvent :=
  match record.core.action with
  | .tombstone =>
    { eventId := record.core.id, rev := record.core.rev, status := .tombstone,
      contentHash := sha256Canonical rt (correctionActionCore record.core),
      batchId := some record.batch, record := none, sequence := some sequence }
  | .replace =>
    { eventId := record.core.id, rev := record.core.rev, status := .active,
      contentHash := sha256Canonical rt (correctionEvent record.core),
      batchId := some record.batch, record := some (correctionEvent record.core), sequence := some sequence }

/-- A pre-revision quota arming record, whose natural id is reused on purpose. -/
def isLegacyQuotaArmingRecord : Option Json → Bool
  | some (.obj record) =>
    fieldD record "rev" (.num 0) matches .num 0 &&
      match field record "payload" with
      | .obj payload => field payload "kind" matches .str "quota_alert_arming" && !hasField payload "journal_identity_version"
      | _ => false
  | _ => false

def isLegacyQuotaArmingState (candidate : EffectiveEvent) : Bool :=
  candidate.status = .active && isLegacyQuotaArmingRecord candidate.record

def isProtocolResolution : Json → Bool
  | .obj record =>
    field record "t" matches .str "op" &&
      match field record "payload" with
      | .obj payload =>
        match field payload "kind" with
        | .str kind => kind ∈ PROTOCOL_RESOLUTION_KINDS
        | _ => false
      | _ => false
  | _ => false

def isLowerHex (text : String) : Bool := text.toList.all fun c => c ∈ "0123456789abcdef".toList

def validPrefixHash (text : String) : Bool :=
  "sha256:".toList.isPrefixOf text.toList && text.toList.length == 71 &&
    isLowerHex (String.ofList (text.toList.drop 7))

def validateResolutionRef : Json → Py ResolutionRef
  | .obj ref => do
    if !keysAre ref ["batch_id", "kind", "fingerprint"] then
      throw (.protocol "journal protocol resolution violation shape is invalid")
    let msg := "journal protocol resolution violation identity is invalid"
    let batchId ← nonEmptyStr msg (field ref "batch_id")
    let kind ← nonEmptyStr msg (field ref "kind")
    let fingerprint ← nonEmptyStr msg (field ref "fingerprint")
    pure { batchId := batchId, kind := kind, fingerprint := fingerprint }
  | _ => throw (.protocol "journal protocol resolution violation shape is invalid")

def resolutionCore (record : Json.Fields) : Json :=
  Json.dict (["t", "at", "src", "payload"].map (fun key => (key, field record key)) ++
    (STAMP_KEYS.filter (hasField record)).map fun key => (key, field record key))

def readAuditId (record : Json.Fields) : Py String :=
  let msg := "journal protocol resolution record id does not match its content"
  match field record "id" with
  | .str id => if id = contentId rt (resolutionCore record) then pure id else throw (.protocol msg)
  | _ => throw (.protocol msg)

def requireShape (msg : String) (keys : List String) : Json → Py Json.Fields
  | .obj fields => if keysAre fields keys then pure fields else throw (.protocol msg)
  | _ => throw (.protocol msg)

def readPrefixHash : Json → Py String
  | .str text =>
    if validPrefixHash text then pure text
    else throw (.protocol "journal protocol resolution prefix hash is invalid")
  | _ => throw (.protocol "journal protocol resolution prefix hash is invalid")

def readResolutionRefs : Json → Py (List ResolutionRef)
  | .arr (ref :: refs) => (ref :: refs).mapM validateResolutionRef
  | _ => throw (.protocol "journal protocol resolution requires exact violations")

def validateProtocolResolution (record : Json.Fields) : Py Resolution := do
  let required := ["v", "t", "id", "at", "src", "payload"]
  if !(keysAre record required || keysAre record (required ++ ["wpg"]) ||
      keysAre record (required ++ ["wpg", "wpr"]) || keysAre record (required ++ STAMP_KEYS)) then
    throw (.protocol "journal protocol resolution record shape is invalid")
  let identity := "journal protocol resolution record identity is invalid"
  if !((field record "v").eqInt LINE_VERSION && field record "t" matches .str "op" &&
      field record "src" matches .str "journal-repair") then
    throw (.protocol identity)
  let _at ← nonEmptyStr identity (field record "at")
  let auditId ← readAuditId rt record
  let payload ← requireShape "journal protocol resolution payload shape is invalid"
    ["kind", "violations", "journal_high_water", "journal_prefix_hash"] (field record "payload")
  if !isProtocolResolution (.obj record) then
    throw (.protocol "journal protocol resolution kind is invalid")
  let highWater ← requireShape "journal protocol resolution high-water shape is invalid" ["segment", "offset"]
    (field payload "journal_high_water")
  let segment ← nonEmptyStr "journal protocol resolution high-water is invalid" (field highWater "segment")
  let offset ← nonNegInt "journal protocol resolution high-water is invalid" (field highWater "offset")
  let prefixHash ← readPrefixHash (field payload "journal_prefix_hash")
  let refs ← readResolutionRefs (field payload "violations")
  if !decide (refs.map (·.fingerprint)).Nodup then
    throw (.protocol "journal protocol resolution violations must be unique")
  pure { auditId := auditId, journalHighWater := (segment, offset), journalPrefixHash := prefixHash,
         violations := refs }

/-! ## Phase 1: the record fold -/

namespace ProtocolViolation

def fingerprint (v : ProtocolViolation) : String :=
  sha256Canonical rt (Json.dict [("batchId", .str v.batchId), ("kind", .str v.kind),
    ("evidence", Json.dict v.evidence.fields)])

def toDict (v : ProtocolViolation) : Json :=
  Json.dict [("batchId", .str v.batchId), ("kind", .str v.kind), ("evidence", Json.dict v.evidence.fields),
    ("fingerprint", .str (v.fingerprint rt))]

end ProtocolViolation

structure Marker where
  core : MarkerCore
  digest : String
  identity : String
  sequence : Nat

/-- A retained action. The durable rows of a completed batch keep no core. -/
structure BatchAction where
  normalized : Option Correction
  digest : String
  sequence : Nat

structure SelectorFold where
  candidates : List EffectiveEvent
  markers : Dict String (Dict Phase Marker)
  actions : Dict String (Dict Nat BatchAction)
  resolutions : List (Nat × Resolution)
  taintedBatches : Finset String
  violations : Dict (String × String × String) ProtocolViolation
  violationAvailableAfter : Dict String Nat
  completed : Finset String

inductive Reading
  | skip
  | evt (candidate : EffectiveEvent)
  | resolution (resolution : Resolution)
  | marker (batchId : String) (phase : Phase) (core : MarkerCore) (digest identity : String)
  | action (correction : Correction) (digest : String)

def readEntry (entry : Json) (sequence : Nat) : Py Reading :=
  match entry with
  | .obj record =>
    match field record "t" with
    | .str "evt" => Reading.evt <$> candidateFromEvt rt record sequence
    | .str "op" =>
      match field record "payload" with
      | .obj payload =>
        if !(field payload "kind").hashable then throw .type
        else if isProtocolResolution entry then Reading.resolution <$> validateProtocolResolution rt record
        else pure .skip
      | _ => pure .skip
    | .str "correction_batch" => do
      let (batchId, phase, core) ← validateBatchMarker rt record
      pure (.marker batchId phase core (sha256Canonical rt (.obj record))
        (sha256Canonical rt (.obj (Json.without record ["phase"]))))
    | .str "correction" => do
      let correction ← validateCorrectionRecord record
      pure (.action correction (sha256Canonical rt (.obj record)))
    | _ => pure .skip
  | _ => pure .skip

namespace SelectorFold

def empty : SelectorFold := ⟨[], .empty, .empty, [], ∅, .empty, .empty, ∅⟩

def taint (fold : SelectorFold) (violation : ProtocolViolation) (availableAfter : Nat) : SelectorFold :=
  let fingerprint := violation.fingerprint rt
  { fold with
    taintedBatches := insert violation.batchId fold.taintedBatches
    violations := fold.violations.set (violation.batchId, violation.kind, fingerprint) violation
    violationAvailableAfter := fold.violationAvailableAfter.set fingerprint
      (min availableAfter ((fold.violationAvailableAfter.get? fingerprint).getD availableAfter)) }

def marker (fold : SelectorFold) (batchId : String) (phase : Phase) : Option Marker :=
  fold.markers.getSub? batchId phase

def action (fold : SelectorFold) (batchId : String) (seq : Nat) : Option BatchAction :=
  fold.actions.getSub? batchId seq

/-- The first marker of a phase stays; a different later one taints the batch. -/
def addMarker (fold : SelectorFold) (batchId : String) (phase : Phase) (marker : Marker) : SelectorFold :=
  match fold.marker batchId phase with
  | some prior =>
    if prior.digest ≠ marker.digest then
      fold.taint rt ⟨batchId, .markerConflict phase prior.digest marker.digest⟩
        (max prior.sequence marker.sequence)
    else fold
  | none => { fold with markers := fold.markers.setSub batchId phase marker }

def addAction (fold : SelectorFold) (batchId : String) (seq : Nat) (action : BatchAction) : SelectorFold :=
  match fold.action batchId seq with
  | some prior =>
    if prior.digest ≠ action.digest then
      fold.taint rt ⟨batchId, .actionSequenceConflict seq prior.digest action.digest⟩
        (max prior.sequence action.sequence)
    else fold
  | none => { fold with actions := fold.actions.setSub batchId seq action }

def apply (fold : SelectorFold) (sequence : Nat) : Reading → SelectorFold
  | .skip => fold
  | .evt candidate => { fold with candidates := fold.candidates ++ [candidate] }
  | .resolution resolution => { fold with resolutions := fold.resolutions ++ [(sequence, resolution)] }
  | .marker batchId phase core digest identity =>
    fold.addMarker rt batchId phase ⟨core, digest, identity, sequence⟩
  | .action correction digest =>
    fold.addAction rt correction.batch correction.seq ⟨some correction, digest, sequence⟩

end SelectorFold

def foldOne (fold : SelectorFold) (entry : Json) (sequence : Nat) : Py SelectorFold :=
  fold.apply rt sequence <$> readEntry rt entry sequence

def foldRecords (fold : SelectorFold) : List Json → Nat → Py (SelectorFold × Nat)
  | [], sequence => pure (fold, sequence)
  | entry :: entries, sequence => do
    let fold ← foldOne rt fold entry sequence
    foldRecords fold entries (sequence + 1)

/-! ## Phase 2: completion or taint of each batch -/

def natList (l : List Nat) : Json := .arr (l.map fun n => .num n)

def orderedActions (actions : Dict Nat BatchAction) (count : Nat) : List BatchAction :=
  (List.range count).filterMap actions.get?

/-- The core of a retained action; a dropped core is `None` and cannot be read. -/
def readCore (action : BatchAction) : Py Correction :=
  match action.normalized with
  | some correction => pure correction
  | none => throw .type

def actionOrderViolations (batchId : String) (begin commit : Marker) (sequences : List Nat) :
    List (ProtocolViolation × Nat) :=
  if sequences.Pairwise (· ≤ ·) ∧ ∀ s ∈ sequences, begin.sequence < s ∧ s < commit.sequence then []
  else [(⟨batchId, .recordOrderViolation begin.sequence commit.sequence
      (sha256Canonical rt (natList (begin.sequence :: sequences ++ [commit.sequence])))⟩,
    (begin.sequence :: commit.sequence :: sequences).foldl max 0)]

def completeViolations (batchId : String) (begin commit : Marker) (ordered : List BatchAction) :
    Py (List (ProtocolViolation × Nat)) := do
  let sequences := ordered.map (·.sequence)
  let last := (begin.sequence :: commit.sequence :: sequences).foldl max 0
  let corrections ← ordered.mapM readCore
  let actual := sha256Canonical rt (.arr (corrections.map fun c => correctionActionCore c.core))
  match begin.core.actionsHash with
  | some expected =>
    pure (actionOrderViolations rt batchId begin commit sequences ++
      if actual = expected then [] else [(⟨batchId, .manifestActionsHashMismatch expected actual⟩, last)])
  | none => throw (.value "protocol violation evidence must be bounded scalars")

def markerViolations (batchId : String) (begin commit : Marker) : List (ProtocolViolation × Nat) :=
  let last := max begin.sequence commit.sequence
  (if begin.identity = commit.identity then []
    else [(⟨batchId, .markerManifestMismatch begin.sequence commit.sequence begin.identity commit.identity⟩, last)]) ++
  (if begin.sequence < commit.sequence then []
    else [(⟨batchId, .recordOrderViolation begin.sequence commit.sequence
      (sha256Canonical rt (natList [begin.sequence, commit.sequence]))⟩, last)])

/-- The violation of a batch whose action sequences are not `0 .. count - 1`. -/
def actionSetViolation (batchId : String) (begin commit : Marker) (actions : Dict Nat BatchAction) (count : Nat) :
    ProtocolViolation × Nat :=
  let present := sortedSet actions.keys
  (⟨batchId, .manifestActionSequenceMismatch count present.length (sha256Canonical rt (natList present))⟩,
    (begin.sequence :: commit.sequence :: actions.values.map (·.sequence)).foldl max 0)

def batchViolations (batchId : String) (begin? commit? : Option Marker) (actions : Dict Nat BatchAction) :
    Py (List (ProtocolViolation × Nat)) :=
  match begin?, commit? with
  | none, some commit =>
    pure [(⟨batchId, .commitWithoutBegin commit.sequence commit.digest⟩, commit.sequence)]
  | some begin, some commit =>
    match begin.core.actionCount with
    | none => throw .type
    | some count =>
      if sortedSet actions.keys = List.range count then do
        let rest ← completeViolations rt batchId begin commit (orderedActions actions count)
        pure (markerViolations rt batchId begin commit ++ rest)
      else
        pure (markerViolations rt batchId begin commit ++
          [actionSetViolation rt batchId begin commit actions count])
  | _, none => pure []

namespace SelectorFold

def taintAll (fold : SelectorFold) (log : List (ProtocolViolation × Nat)) : SelectorFold :=
  log.foldl (fun f entry => f.taint rt entry.1 entry.2) fold

def batchCandidates (fold : SelectorFold) (batchId : String) (count : Nat) : Py (List EffectiveEvent) :=
  (orderedActions (fold.actions.sub batchId) count).mapM fun action =>
    (fun correction => candidateFromCorrection rt correction action.sequence) <$> readCore action

end SelectorFold

def resolveBatch (fold : SelectorFold) (batchId : String) : Py SelectorFold := do
  let begin? := fold.marker batchId .begin
  let commit? := fold.marker batchId .commit
  let log ← batchViolations rt batchId begin? commit? (fold.actions.sub batchId)
  let fold := fold.taintAll rt log
  match begin?, commit? with
  | some begin, some _ =>
    if batchId ∈ fold.taintedBatches then pure fold
    else do
      let candidates ← fold.batchCandidates rt batchId (begin.core.actionCount.getD 0)
      pure { fold with completed := insert batchId fold.completed, candidates := fold.candidates ++ candidates }
  | _, _ => pure fold

def resolveBatches (fold : SelectorFold) (batchIds : List String) : Py SelectorFold :=
  (sortedSet batchIds).foldlM (resolveBatch rt) fold

def SelectorFold.batchIds (fold : SelectorFold) : List String := fold.markers.keys ++ fold.actions.keys

/-- What grouping keeps for one `(event id, revision)`: the provisional winner
of each key and the hashes of each divergent group. -/
structure Grouping where
  byRevision : Dict (String × Nat) EffectiveEvent
  divergent : Dict (String × Nat) (List String)

def precedes (candidate prior : EffectiveEvent) : Bool :=
  match candidate.sequence, prior.sequence with
  | some a, some b => a < b
  | _, _ => false

def Grouping.replaceIfEarlier (g : Grouping) (key : String × Nat) (candidate prior : EffectiveEvent) : Grouping :=
  if precedes candidate prior then { g with byRevision := g.byRevision.set key candidate } else g

def Grouping.add (g : Grouping) (candidate : EffectiveEvent) : Grouping :=
  let key := (candidate.eventId, candidate.rev)
  match g.byRevision.get? key with
  | none => { g with byRevision := g.byRevision.set key candidate }
  | some prior =>
    if prior.contentHash ≠ candidate.contentHash ∨ prior.status ≠ candidate.status then
      if isLegacyQuotaArmingState prior && isLegacyQuotaArmingState candidate then
        { g with byRevision := g.byRevision.set key candidate }
      else
        let hashes := (g.divergent.get? key).getD [] ++ [prior.contentHash, candidate.contentHash]
        Grouping.replaceIfEarlier { g with divergent := g.divergent.set key hashes } key candidate prior
    else g.replaceIfEarlier key candidate prior

def groupCandidates (candidates : List EffectiveEvent) : Grouping :=
  candidates.foldl Grouping.add ⟨.empty, .empty⟩

def takeHigherRevision (winners : Dict String EffectiveEvent) (candidate : EffectiveEvent) :
    Dict String EffectiveEvent :=
  match winners.get? candidate.eventId with
  | none => winners.set candidate.eventId candidate
  | some prior => if prior.rev < candidate.rev then winners.set candidate.eventId candidate else winners

def Grouping.winners (g : Grouping) : Dict String EffectiveEvent :=
  g.byRevision.values.foldl takeHigherRevision .empty

def sortBySequence (events : List EffectiveEvent) : List EffectiveEvent :=
  events.insertionSort fun a b => a.sequence.getD 0 ≤ b.sequence.getD 0

def Grouping.conflicts (g : Grouping) : List EventConflict :=
  (g.divergent.entries.insertionSort fun a b => toLex a.1 ≤ toLex b.1).filterMap fun entry =>
    let (key, hashes) := entry
    match g.winners.get? key.1, g.byRevision.get? key with
    | some winner, some selected =>
      if winner.rev = key.2 then
        some { eventId := key.1, rev := key.2, contentHashes := sortedSet hashes,
               selectedHash := selected.contentHash }
      else none
    | _, _ => none

structure EffectiveSelection where
  active : List Json
  byId : Dict String EffectiveEvent
  completedBatches : Finset String
  conflicts : List EventConflict
  protocolViolations : List ProtocolViolation
  acknowledgedProtocolViolations : List AcknowledgedProtocolViolation

structure PrefixEvidence where
  highWater : String × Nat
  prefixHash : String
  deriving DecidableEq

def SelectorFold.violationByFingerprint (fold : SelectorFold) : Dict String ProtocolViolation :=
  Dict.ofList (fold.violations.values.map fun v => (v.fingerprint rt, v))

abbrev Acknowledged := Dict String AcknowledgedProtocolViolation

def acknowledgeRef (fold : SelectorFold) (sequence : Nat) (resolution : Resolution) (acknowledged : Acknowledged)
    (ref : ResolutionRef) : Py Acknowledged :=
  match (fold.violationByFingerprint rt).get? ref.fingerprint with
  | none => throw (.protocol "journal protocol resolution references an unknown violation")
  | some violation =>
    if violation.batchId ≠ ref.batchId ∨ violation.kind ≠ ref.kind then
      throw (.protocol "journal protocol resolution references an unknown violation")
    else if sequence ≤ (fold.violationAvailableAfter.get? ref.fingerprint).getD 0 then
      throw (.protocol "journal protocol resolution precedes the violation it resolves")
    else
      pure (acknowledged.setdefault ref.fingerprint
        ⟨violation, resolution.auditId, resolution.journalHighWater, resolution.journalPrefixHash⟩)

def acknowledgeOne (fold : SelectorFold) (acknowledged : Acknowledged)
    (item : (Nat × Resolution) × PrefixEvidence) : Py Acknowledged :=
  let ((sequence, resolution), evidence) := item
  if evidence.highWater ≠ resolution.journalHighWater ∨ evidence.prefixHash ≠ resolution.journalPrefixHash then
    throw (.protocol "journal protocol resolution raw-prefix binding does not match")
  else resolution.violations.foldlM (acknowledgeRef rt fold sequence resolution) acknowledged

def acknowledge (fold : SelectorFold) (evidence : List PrefixEvidence) : Py Acknowledged :=
  let ordered := fold.resolutions.insertionSort fun a b => a.1 ≤ b.1
  if !ordered.isEmpty && evidence.length != ordered.length then
    throw (.protocol "journal protocol resolution requires verified raw-prefix evidence")
  else (ordered.zip evidence).foldlM (acknowledgeOne rt fold) .empty

def ProtocolViolation.sortKey (v : ProtocolViolation) : String ×ₗ String ×ₗ String :=
  toLex (v.batchId, toLex (v.kind, v.fingerprint rt))

def SelectorFold.select (fold : SelectorFold) (acknowledged : Acknowledged) : EffectiveSelection :=
  let grouping := groupCandidates fold.candidates
  { active := (sortBySequence grouping.winners.values).filterMap fun candidate =>
      if candidate.status = .active then candidate.record else none
    byId := grouping.winners
    completedBatches := fold.completed
    conflicts := grouping.conflicts
    protocolViolations :=
      (fold.violations.values.filter fun v => (acknowledged.get? (v.fingerprint rt)).isNone).insertionSort
        fun a b => a.sortKey rt ≤ b.sortKey rt
    acknowledgedProtocolViolations :=
      acknowledged.values.insertionSort fun a b => a.violation.sortKey rt ≤ b.violation.sortKey rt }

def accumulate (records : List Json) : Py SelectorFold := do
  let (fold, _) ← foldRecords rt .empty records 0
  resolveBatches rt fold fold.batchIds

/-- Validate correction batches and select one highest revision for each event
id; the fold is returned as the accumulators. -/
def resolveEffectiveEvents (records : List Json) (evidence : List PrefixEvidence) :
    Py (EffectiveSelection × SelectorFold) := do
  let fold ← accumulate rt records
  let acknowledged ← acknowledge rt fold evidence
  pure (fold.select rt acknowledged, fold)

def writerStamps : Json.Fields := [("wpg", .str "account-bound-v1"), ("wpr", .num 2), ("wpx", .num 3)]

def makeOp (at_ src : String) (payload : Json) : Json :=
  let core : Json.Fields :=
    [("t", .str "op"), ("at", .str at_), ("src", .str src), ("payload", payload)] ++ writerStamps
  Json.dict ([("v", .num LINE_VERSION)] ++ core ++ [("id", .str (contentId rt (Json.dict core)))])

def makeProtocolResolution (at_ : String) (violations : List ProtocolViolation) (highWater : String × Nat)
    (prefixHash : String) : Py Json := do
  if at_ = "" then throw (.value "protocol resolution at must be a non-empty string")
  if violations.isEmpty then throw (.value "protocol resolution requires at least one violation")
  let ordered := violations.insertionSort fun a b => a.fingerprint rt ≤ b.fingerprint rt
  if !decide (ordered.map (ProtocolViolation.fingerprint rt)).Nodup then
    throw (.value "protocol resolution violations must be unique")
  if highWater.1 = "" then throw (.value "protocol resolution high-water is invalid")
  if !validPrefixHash prefixHash then throw (.value "protocol resolution prefix hash is invalid")
  let refs := ordered.map fun v =>
    Json.dict [("batch_id", .str v.batchId), ("kind", .str v.kind), ("fingerprint", .str (v.fingerprint rt))]
  pure (makeOp rt at_ "journal-repair" (Json.dict [("kind", .str "journal_protocol_resolution_v4"),
    ("violations", .arr refs),
    ("journal_high_water", Json.dict [("segment", .str highWater.1), ("offset", .num highWater.2)]),
    ("journal_prefix_hash", .str prefixHash)]))

def markerFields (batchId family at_ : String) (cores : List ActionCore) : Json.Fields :=
  [("v", .num LINE_VERSION), ("t", .str "correction_batch"), ("id", .str batchId), ("at", .str at_),
    ("src", .str "rederive"), ("family", .str family), ("action_count", .num cores.length),
    ("actions_hash", .str (sha256Canonical rt (.arr (cores.map correctionActionCore))))] ++ writerStamps

def batchMarker (batchId family at_ : String) (cores : List ActionCore) (phase : Phase) : Json :=
  Json.dict (markerFields rt batchId family at_ cores ++ [("phase", .str phase.text)])

def correctionFields (batchId : String) (core : ActionCore) (seq : Nat) : Json.Fields :=
  [("v", .num LINE_VERSION), ("t", .str "correction"), ("action", .str core.action.text),
    ("id", .str core.id), ("rev", .num core.rev), ("at", .str core.at_), ("src", .str "rederive"),
    ("payload", core.payloadJson), ("batch", .str batchId), ("seq", .num seq)] ++ writerStamps

def correctionRecord (batchId : String) (core : ActionCore) (seq : Nat) : Json :=
  Json.dict (correctionFields batchId core seq)

def batchRecords (batchId family at_ : String) (cores : List ActionCore) : List Json :=
  batchMarker rt batchId family at_ cores .begin ::
    cores.mapIdx (fun seq core => correctionRecord batchId core seq) ++
    [batchMarker rt batchId family at_ cores .commit]

def readAction : Json → Py ActionCore
  | .obj fields => validateActionCore fields
  | _ => throw (.protocol "correction action must contain action,id,rev,at,payload")

def makeCorrectionBatch (batchId family at_ : String) (actions : List Json) : Py (List Json) := do
  let batchId ← nonEmptyStr "correction batch id must be a non-empty string" (.str batchId)
  let family ← nonEmptyStr "correction family must be a non-empty string" (.str family)
  let at_ ← nonEmptyStr "correction batch at must be a non-empty string" (.str at_)
  let cores ← actions.mapM readAction
  pure (batchRecords rt batchId family at_ cores)

end

end Cctally
