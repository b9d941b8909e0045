import Cctally.LineReader
import Cctally.QuotaLedger
import Mathlib.Algebra.Order.Ring.Rat

/-!
# The fused reader of Codex rollouts

Each complete line of a rollout is read once: a valid object yields its physical
event, its accounting row, its quota observations and its thread update. What
one line leaves to the next is the iterator state, and two locals of a run.
Instants are microseconds; a naive time is read in UTC.
-/

namespace Cctally.CodexIter

open Json (field)

/-- What the reader takes from outside: `str.strip`; `json.loads` with its constants rejected,
`none` for an error; `datetime.fromisoformat`; `isoformat` in UTC, with a `Z`;
`datetime.fromtimestamp`; `float` of a number, `none` when it is not finite; `int` of the text
of a float and of a text; the encoded identity; and the UUID in a file name. -/
structure Env where
  texts : QuotaLedger.Texts
  strip : String → String
  loads : String → Option Json
  fromisoformat : String → Option Int
  isoformatZ : Int → String
  fromtimestamp : ℚ → Option Int
  float : Json → Option ℚ
  trunc : String → Int
  int : String → Option Int
  encodeIdentity : Json → String
  filenameUuid : String → Option String

inductive Raised where
  | value
  | overflow
  deriving DecidableEq

structure CodexThreadMetadata where
  sourceRootKey : Option String
  sourcePath : String
  nativeThreadId : Option String
  rootThreadId : Option String
  parentThreadId : Option String
  conversationKey : Option String
  cwd : Option String
  gitJson : Option String
  sourceKind : Option String
  threadSourceJson : Option String
  modelProvider : Option String
  contextWindow : Option Int
  deriving DecidableEq

structure CodexEntry where
  timestamp : Int
  sessionId : String
  model : String
  inputTokens : Int
  cachedInputTokens : Int
  outputTokens : Int
  reasoningOutputTokens : Int
  totalTokens : Int
  sourcePath : String
  deriving DecidableEq

structure CodexQuotaObservation where
  source : String
  sourceRootKey : Option String
  sourcePath : String
  lineOffset : Nat
  capturedAtUtc : String
  observedSlot : String
  logicalLimitKey : String
  limitId : Option String
  limitName : Option String
  windowMinutes : Int
  usedPercent : ℚ
  resetsAtUtc : String
  planType : Option String
  individualLimitJson : Option String
  reachedType : Option String
  deriving DecidableEq

structure CodexPhysicalEvent where
  sourcePath : String
  lineOffset : Nat
  sourceRootKey : Option String
  conversationKey : Option String
  nativeThreadId : Option String
  rootThreadId : Option String
  parentThreadId : Option String
  timestampUtc : Option String
  recordType : Option String
  eventType : Option String
  turnId : Option String
  callId : Option String
  payloadJson : String
  deriving DecidableEq

structure CodexFusedEmission where
  lineOffset : Nat
  event : CodexPhysicalEvent
  accounting : Option CodexEntry
  quotas : List CodexQuotaObservation
  thread : Option CodexThreadMetadata
  deriving DecidableEq

structure CodexIterState where
  sessionId : Option String
  model : Option String
  totalTokens : Int
  lastAccountingTimestamp : Option Int
  generationTransitionPending : Bool
  linesSeen : Nat
  linesMalformed : Nat
  tokenEventsSkipped : Nat
  skipReasons : Dict String Nat
  thread : Option CodexThreadMetadata

def CodexIterState.fresh : CodexIterState := ⟨none, none, 0, none, false, 0, 0, 0, Dict.empty, none⟩

structure Locals where
  lastTotalTokens : Int
  filenameSessionIdWarned : Bool

def CodexIterState.skip (state : CodexIterState) (reason : String) : CodexIterState :=
  { state with
    tokenEventsSkipped := state.tokenEventsSkipped + 1
    skipReasons := state.skipReasons.set reason ((state.skipReasons.get? reason).getD 0 + 1) }

/-! ## Values -/

section
variable (env : Env)

def codexString : Json → Option String
  | .str s => if env.strip s = "" then none else some s
  | _ => none

def firstValidString (values : List Json) : Option String := values.findSome? (codexString env)

def replaceZ (s : String) : String :=
  String.ofList (s.toList.flatMap fun c => if c = 'Z' then "+00:00".toList else [c])

def parseCodexTimestamp : Json → Option Int
  | .str s => if env.strip s = "" then none else env.fromisoformat (replaceZ (env.strip s))
  | _ => none

def MIN_INSTANT : Int := -62135596800000000

def MAX_INSTANT : Int := 253402300799999999

/-- `astimezone(utc)` leaves the years of `datetime` with an `OverflowError`. -/
def formatCodexTimestamp (value : Int) : Except Raised String :=
  if MIN_INSTANT ≤ value ∧ value ≤ MAX_INSTANT then .ok (env.isoformatZ value) else .error .overflow

def finiteNumber : Json → Option ℚ
  | .num n => env.float (.num n)
  | .float r => env.float (.float r)
  | _ => none

def positiveWholeNumber (value : Json) : Option Int := do
  let number ← finiteNumber env value
  if number ≤ 0 ∨ number.den ≠ 1 then none else some number.num

def quotaResetAt (value : Json) : Except Raised (Option String) :=
  match finiteNumber env value with
  | some numeric => .ok ((env.fromtimestamp numeric).map env.isoformatZ)
  | none =>
    match parseCodexTimestamp env value with
    | some parsed => some <$> formatCodexTimestamp env parsed
    | none => .ok none

def canonicalContainer : Json → Option String
  | .arr items => some (env.texts.canonicalJson (.arr items))
  | .obj fields => some (env.texts.canonicalJson (.obj fields))
  | _ => none

def intOf : Json → Option Int
  | .num n => some n
  | .bool b => some (if b then 1 else 0)
  | .float r => some (env.trunc r)
  | .str s => env.int s
  | _ => none

/-- `int(value or 0)`, and `0` when it raises. -/
def intOrZero (value : Json) : Int := if value.truthy then (intOf env value).getD 0 else 0

def dictOrEmpty : Json → Json.Fields
  | .obj fields => fields
  | _ => []

mutual

def jsonValueIsFinite : Json → Bool
  | .float r => r ∉ ["inf", "-inf", "nan"]
  | .arr items => itemsAreFinite items
  | .obj fields => fieldsAreFinite fields
  | _ => true

def itemsAreFinite : List Json → Bool
  | [] => true
  | item :: items => jsonValueIsFinite item && itemsAreFinite items

def fieldsAreFinite : List (String × Json) → Bool
  | [] => true
  | (_, item) :: fields => jsonValueIsFinite item && fieldsAreFinite fields

end

def IDENTITY_VERSION : Int := 1

def CODEX_DEFAULT_THREAD_SOURCE : String := "user"

def inferredCodexThreadSource (payload : Json.Fields) : String :=
  match codexString env (field payload "thread_source") with
  | some explicit => explicit
  | none =>
    match field payload "source" with
    | .obj [(key, _)] => (codexString env (.str key)).getD CODEX_DEFAULT_THREAD_SOURCE
    | _ => CODEX_DEFAULT_THREAD_SOURCE

/-- `_SOURCE_ROOT_KEY_RE.fullmatch` -/
def isRootKey (s : String) : Bool := s.length = 32 ∧ s.toList.all fun c => c ∈ "0123456789abcdef".toList

def textOrNone : Option String → Json
  | none => .null
  | some s => .str s

/-- `canonical_identity_from_root_key("codex", "conversation", …)`. -/
def conversationIdentity (sourceRootKey : Option String) (nativeKey parentKey : String) : Except Raised String :=
  if nativeKey = "" ∨ parentKey = "" then .error .value
  else if sourceRootKey.any fun key => !isRootKey key then .error .value
  else .ok ("v1." ++ env.encodeIdentity (Json.dict
    [("nativeKey", .str nativeKey), ("parentKey", .str parentKey), ("resourceKind", .str "conversation"),
      ("source", .str "codex"), ("sourceRootKey", textOrNone sourceRootKey), ("version", .num IDENTITY_VERSION)]))

variable (path : String) (sourceRootKey : Option String)

def threadMetadataFromSessionMeta (payload : Json.Fields) : Except Raised CodexThreadMetadata := do
  let accountingId := codexString env (field payload "id")
  let nativeThreadId := (codexString env (field payload "session_id")).or accountingId
  let rootThreadId := inferredCodexThreadSource env payload
  let conversationKey ← match nativeThreadId with
    | none => pure none
    | some nativeKey => some <$> conversationIdentity env sourceRootKey nativeKey rootThreadId
  return {
    sourceRootKey, sourcePath := path, nativeThreadId, rootThreadId := some rootThreadId
    parentThreadId := codexString env (field payload "forked_from_id")
    conversationKey
    cwd := codexString env (field payload "cwd")
    gitJson := canonicalContainer env (field payload "git")
    sourceKind := codexString env (field payload "source")
    threadSourceJson := canonicalContainer env (field payload "thread_source")
    modelProvider := codexString env (field payload "model_provider")
    contextWindow := positiveWholeNumber env (field payload "context_window") }

def QUOTA_ENVELOPE_FIELDS : List String :=
  ["credits", "plan_type", "limit_id", "limit_name", "individual_limit", "rate_limit_reached_type"]

def firstValidQuotaNumber (direct fallback : Json.Fields) (key : String) (minimum maximum : ℚ) : Option ℚ :=
  [direct, fallback].findSome? fun window => do
    let number ← finiteNumber env (field window key)
    if number < minimum ∨ maximum < number then none else some number

def firstValidWindowMinutes (direct fallback : Json.Fields) : Option Int :=
  [direct, fallback].findSome? fun window => positiveWholeNumber env (field window "window_minutes")

def firstValidResetAt (direct fallback : Json.Fields) : Except Raised (Option String) := do
  match ← quotaResetAt env (field direct "resets_at") with
  | some resetAt => return some resetAt
  | none => quotaResetAt env (field fallback "resets_at")

def firstValidIndividualLimitJson (direct fallback : Json.Fields) : Option String :=
  [direct, fallback].findSome? fun envelope =>
    match field envelope "individual_limit" with
    | .obj fields => some (env.texts.canonicalJson (.obj fields))
    | value => (finiteNumber env value).map fun _ => env.texts.canonicalJson value

def slotsOf (envelope : Json.Fields) : List String :=
  (envelope.filter fun p => p.1 ∉ QUOTA_ENVELOPE_FIELDS ∧ p.2.isObj).map Prod.fst

def observationOf (direct fallback : Json.Fields) (capturedAt : Int) (lineOffset : Nat) (model : Option String)
    (slot : String) : Except Raised (Option CodexQuotaObservation) := do
  let directWindow := dictOrEmpty (field direct slot)
  let fallbackWindow := dictOrEmpty (field fallback slot)
  let resets ← firstValidResetAt env directWindow fallbackWindow
  match firstValidQuotaNumber env directWindow fallbackWindow "used_percent" 0 100,
    firstValidWindowMinutes env directWindow fallbackWindow, resets with
  | some usedPercent, some windowMinutes, some resetsAtUtc =>
    let limitId := firstValidString env [field direct "limit_id", field fallback "limit_id"]
    let capturedAtUtc ← formatCodexTimestamp env capturedAt
    return some {
      source := "codex", sourceRootKey, sourcePath := path, lineOffset, capturedAtUtc, observedSlot := slot
      logicalLimitKey := QuotaLedger.codexLogicalLimitKey env.texts sourceRootKey limitId slot windowMinutes model
      limitId
      limitName := firstValidString env [field direct "limit_name", field fallback "limit_name"]
      windowMinutes, usedPercent, resetsAtUtc
      planType := firstValidString env [field direct "plan_type", field fallback "plan_type"]
      individualLimitJson := firstValidIndividualLimitJson env direct fallback
      reachedType :=
        firstValidString env [field direct "rate_limit_reached_type", field fallback "rate_limit_reached_type"] }
  | _, _, _ => return none

def codexQuotaObservations (obj payload : Json.Fields) (lineOffset : Nat) (model : Option String) :
    Except Raised (List CodexQuotaObservation) :=
  match parseCodexTimestamp env (field obj "timestamp") with
  | none => .ok []
  | some capturedAt => do
    let direct := dictOrEmpty (field payload "rate_limits")
    let fallback := dictOrEmpty (field (dictOrEmpty (field payload "info")) "rate_limits")
    if direct = [] ∧ fallback = [] then return []
    let slots := sortedSet (slotsOf direct ++ slotsOf fallback)
    let observations ← slots.mapM
      (observationOf env path sourceRootKey direct fallback capturedAt lineOffset model)
    return observations.filterMap id

/-! ## One record -/

def eventFromRecord (obj : Json.Fields) (lineOffset : Nat) (thread : Option CodexThreadMetadata) :
    Except Raised CodexPhysicalEvent := do
  let payload := dictOrEmpty (field obj "payload")
  let timestampUtc ← match parseCodexTimestamp env (field obj "timestamp") with
    | some timestamp => some <$> formatCodexTimestamp env timestamp
    | none => pure none
  return {
    sourcePath := path, lineOffset, sourceRootKey
    conversationKey := thread.bind CodexThreadMetadata.conversationKey
    nativeThreadId := thread.bind CodexThreadMetadata.nativeThreadId
    rootThreadId := thread.bind CodexThreadMetadata.rootThreadId
    parentThreadId := thread.bind CodexThreadMetadata.parentThreadId
    timestampUtc
    recordType := (codexString env (field obj "type")).or (codexString env (field obj "record_type"))
    eventType := codexString env (field payload "type")
    turnId := codexString env (field payload "turn_id")
    callId := codexString env (field payload "call_id")
    payloadJson := env.texts.canonicalJson (.obj obj) }

/-- What `session_meta`, `turn_context` and `task_started` leave in the state. A raised error
leaves what was assigned before it. -/
def observe (obj payload : Json.Fields) (state : CodexIterState) :
    CodexIterState × Except Raised (Option CodexThreadMetadata) :=
  if field obj "type" = .str "session_meta" then
    let state := { state with
      sessionId := (codexString env (field payload "id")).or state.sessionId
      model := ((codexString env (field payload "model")).map env.strip).or state.model }
    match threadMetadataFromSessionMeta env path sourceRootKey payload with
    | .error e => (state, .error e)
    | .ok thread => ({ state with thread := some thread }, .ok (some thread))
  else if field obj "type" = .str "turn_context" then
    ({ state with
      model := ((codexString env (field payload "model")).map env.strip).or state.model
      generationTransitionPending := true }, .ok none)
  else if field obj "type" = .str "event_msg" ∧ field payload "type" = .str "task_started" then
    ({ state with generationTransitionPending := true }, .ok none)
  else (state, .ok none)

def startsGeneration (state : CodexIterState) (lastTotalTokens cumulative lastUsageTotal timestamp : Int) : Bool :=
  state.generationTransitionPending ∧ cumulative < lastTotalTokens ∧ 0 < cumulative ∧ cumulative = lastUsageTotal ∧
    ∃ last ∈ state.lastAccountingTimestamp, last < timestamp

def accept (usage : Json.Fields) (timestamp : Int) (cumulative : Option Int) (state : CodexIterState) (locals : Locals) :
    Option CodexEntry × CodexIterState × Locals :=
  let warned := locals.filenameSessionIdWarned ∨ state.sessionId = none ∧ (env.filenameUuid path).isSome
  match state.sessionId.or (env.filenameUuid path) with
  | none => (none, state.skip "no-session-id", locals)
  | some sessionId =>
    let entry := {
      timestamp, sessionId
      model := match state.model with
        | some model => if model = "" then "unknown" else model
        | none => "unknown"
      inputTokens := intOrZero env (field usage "input_tokens")
      cachedInputTokens := intOrZero env (field usage "cached_input_tokens")
      outputTokens := intOrZero env (field usage "output_tokens")
      reasoningOutputTokens := intOrZero env (field usage "reasoning_output_tokens")
      totalTokens := intOrZero env (field usage "total_tokens")
      sourcePath := path }
    let lastAccountingTimestamp := match state.lastAccountingTimestamp with
      | none => timestamp
      | some last => if last < timestamp then timestamp else last
    (some entry,
      { state with
        totalTokens := cumulative.getD state.totalTokens
        lastAccountingTimestamp := some lastAccountingTimestamp
        generationTransitionPending := false },
      ⟨cumulative.getD locals.lastTotalTokens, warned⟩)

def accountingFromRecord (obj payload : Json.Fields) (state : CodexIterState) (locals : Locals) :
    Option CodexEntry × CodexIterState × Locals :=
  if ¬(field obj "type" = .str "event_msg" ∧ field payload "type" = .str "token_count") then (none, state, locals)
  else
    match field payload "info" with
    | .null => (none, state, locals)
    | .obj info =>
      match field info "last_token_usage" with
      | .obj lastTokenUsage =>
        if state.model = none ∧ (state.thread.bind CodexThreadMetadata.parentThreadId).isSome then (none, state, locals)
        else
          match parseCodexTimestamp env (field obj "timestamp") with
          | none => (none, state.skip "bad-timestamp", locals)
          | some timestamp =>
            match field info "total_token_usage" with
            | .obj totalTokenUsage =>
              let cumulative := intOrZero env (field totalTokenUsage "total_tokens")
              let lastUsageTotal := intOrZero env (field lastTokenUsage "total_tokens")
              if cumulative ≤ locals.lastTotalTokens ∧
                  ¬startsGeneration state locals.lastTotalTokens cumulative lastUsageTotal timestamp then
                (none, state, locals)
              else accept env path lastTokenUsage timestamp (some cumulative) state locals
            | _ => accept env path lastTokenUsage timestamp none state locals
      | _ => (none, state.skip "no-last-token-usage", locals)
    | _ => (none, state.skip "info-non-dict", locals)

def record (lineOffset : Nat) (obj : Json.Fields) (state : CodexIterState) (locals : Locals) :
    (CodexIterState × Locals) × Except Raised CodexFusedEmission :=
  let payload := dictOrEmpty (field obj "payload")
  match observe env path sourceRootKey obj payload state with
  | (state, .error e) => ((state, locals), .error e)
  | (state, .ok thread) =>
    match eventFromRecord env path sourceRootKey obj lineOffset state.thread with
    | .error e => ((state, locals), .error e)
    | .ok event =>
      let (accounting, state, locals) := accountingFromRecord env path obj payload state locals
      match codexQuotaObservations env path sourceRootKey obj payload lineOffset state.model with
      | .error e => ((state, locals), .error e)
      | .ok quotas => ((state, locals), .ok ⟨lineOffset, event, accounting, quotas, thread⟩)

def newline : UInt8 := 10

def decode (line : List UInt8) : Option String := String.fromUTF8? ⟨line.toArray⟩

def malformed (state : CodexIterState) : CodexIterState :=
  { state with linesSeen := state.linesSeen + 1, linesMalformed := state.linesMalformed + 1 }

def consume (lineOffset : Nat) (line : List UInt8) (s : CodexIterState × Locals) :
    (CodexIterState × Locals) × Option (Except Raised CodexFusedEmission) :=
  match decode line with
  | none => ((malformed s.1, s.2), none)
  | some text =>
    let stripped := env.strip text
    if stripped = "" then (s, none)
    else
      match env.loads stripped with
      | some (.obj obj) =>
        if jsonValueIsFinite (.obj obj) then
          let (s, out) := record env path sourceRootKey lineOffset obj { s.1 with linesSeen := s.1.linesSeen + 1 } s.2
          (s, some out)
        else ((malformed s.1, s.2), none)
      | _ => ((malformed s.1, s.2), none)

structure Initial where
  sessionId : Option String
  model : Option String
  totalTokens : Int

def seed (initial : Initial) (state : CodexIterState) : CodexIterState :=
  { state with
    sessionId := state.sessionId.or initial.sessionId
    model := state.model.or initial.model
    totalTokens := if state.totalTokens = 0 then initial.totalTokens else state.totalTokens }

def start (initial : Initial) (s : CodexIterState × Locals) : CodexIterState × Locals :=
  let state := seed initial s.1
  (state, ⟨state.totalTokens, state.sessionId.isSome⟩)

/-- `_iter_codex_fused_records_with_offsets` from an offset of the file, run once for each
session with one state. -/
def iterCodexFusedRecordsWithOffsets (initial : Initial) (file : List UInt8) (sessions : List LineReader.Session)
    (offset : Nat) (state : CodexIterState) : LineReader.Run (CodexIterState × Locals) CodexFusedEmission Raised :=
  LineReader.resume newline (consume env path sourceRootKey) (start initial) file sessions offset (state, ⟨0, false⟩)

end

end Cctally.CodexIter
