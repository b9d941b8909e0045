import Cctally.CanonicalText
import Cctally.JsonEq
import Cctally.RecordStamps
import Mathlib

/-!
# Batches of cost decisions

The decisions of one group are journaled in lines under a budget. The line of a
growing batch is sized by arithmetic from a one-item skeleton; the reference
rebuilds the batch for every member. Both split where the greedy rule splits.
-/

namespace Cctally.CostBatches

open AccountProtocol (PROTOCOL_GENERATION)
open RecordStamps (put lineOf prepareRecord)
open Json (field hasField setField sortFields InOrder jsonLen encodeLine)

/-! ## The record of a batch -/

def BASIS_AGREEMENT : String := "timeline_agreement"
def BASIS_FALLBACK : String := "fallback"
def BASIS_PRESERVED : String := "preserved_history"
def BASES : List String := [BASIS_AGREEMENT, BASIS_FALLBACK, BASIS_PRESERVED]

def FALLBACK_REASONS : List String :=
  ["missing_timestamp", "invalid_timestamp", "clock_order", "pre_timeline", "ambiguous_instant", "open_tail",
   "switch_window"]

def FORM_KEYED : String := "k1"
def FORM_PHYSICAL : String := "p1"
def FORM_LEGACY : String := "l1"

def PROJECTION_FIELDS : List String :=
  ["timestamp_utc", "model", "input_tokens", "output_tokens", "cache_create_tokens", "cache_read_tokens",
   "cache_create_1h_tokens", "cache_create_5m_tokens", "speed", "cost_usd_raw"]

def RULE_VERSION : Int := 1

def CLAUDE_COST_ACCOUNT_KIND : String := "claude_cost_account"
def CLAUDE_COST_ACCOUNT_SRC : String := "claude-cost-account"
def CLAUDE_COST_ACCOUNT_VERSION : Int := 1

def CLAUDE_COST_ACCOUNT_KEYS : List String :=
  ["kind", "v", "rule", "basis", "reason", "account_key", "decided_at", "journal_hw", "closing_capture", "evidence",
   "items"]

def ATTRIBUTION_SENTINEL : String := "unattributed"

structure Texts where
  instant : Json → Bool
  projectionSha256 : List Json → String
  isoFromUs : Int → String
  repr : Json → String

def isHex (length : Nat) : Json → Bool
  | .str s => s.length == length && s.toList.all fun c => "0123456789abcdef".toList.contains c
  | _ => false

def nonnegInt : Json → Bool
  | .num n => 0 ≤ n
  | _ => false

def nonemptyStr : Json → Bool
  | .str s => s != ""
  | _ => false

def noneOrStr : Json → Bool
  | .null => true
  | .str _ => true
  | _ => false

/-- A present account is a real key. -/
def validStamp : Json → Bool
  | .str s => s != "" && s != ATTRIBUTION_SENTINEL
  | _ => false

def require (ok : Bool) (msg : String) : Py Unit := if ok then pure () else throw (.value msg)

section
variable (tx : Texts)

def validProjection (digest : Json) : Json → Bool
  | .arr projection => digest == .str (tx.projectionSha256 projection)
  | _ => false

def projectionShape : Json → Bool
  | .arr projection => projection.length == PROJECTION_FIELDS.length
  | _ => false

def validateClaudeCostItem (basis : Json) : Json → Py Unit
  | .arr (form :: rest) =>
    let item (i : Nat) : Json := (form :: rest).getD i .null
    let size := rest.length + 1
    let preserved := basis == .str BASIS_PRESERVED
    if form = .str FORM_KEYED then do
      require (size == if preserved then 3 else 4) "keyed item has the wrong shape"
      require (nonemptyStr (item 1) && nonemptyStr (item 2)) "keyed item ids must be non-empty strings"
      require (preserved || noneOrStr (item 3)) "keyed item timestamp must be a string"
    else if form = .str FORM_PHYSICAL then do
      require (!preserved && size == 5) "physical item has the wrong shape"
      require (isHex 32 (item 1)) "physical item location is not a location digest"
      require (nonnegInt (item 2) && isHex 64 (item 3)) "physical item offset or digest is invalid"
      require (noneOrStr (item 4)) "physical item timestamp must be a string"
    else if form = .str FORM_LEGACY then do
      require (preserved && size == 5) "legacy item has the wrong shape"
      require (isHex 32 (item 1)) "legacy item location is not a location digest"
      require (nonnegInt (item 2) && isHex 64 (item 3)) "legacy item offset or digest is invalid"
      require (projectionShape (item 4)) "legacy item projection has the wrong shape"
      require (validProjection tx (item 3) (item 4)) "legacy item digest does not match its projection"
    else
      let shown := tx.repr form
      throw (.value s!"unknown claude_cost_account item form {shown}")
  | _ => throw (.value "claude_cost_account item must be a non-empty list")

def positiveInt : Json → Bool
  | .num n => 1 ≤ n
  | _ => false

def validHighWater : Json → Bool
  | .arr [segment, offset] => nonemptyStr segment && nonnegInt offset
  | _ => false

def validCapture : Json → Bool
  | .obj capture =>
    (capture.map Prod.fst).all (fun key => ["at", "account_key"].contains key) && tx.instant (field capture "at")
  | _ => false

def captureStamp : Json → Bool
  | .obj capture => !hasField capture "account_key" || validStamp (field capture "account_key")
  | _ => true

def validateHeader (payload : Json.Fields) : Py Unit := do
  let unknown := (payload.map Prod.fst).filter fun key => !CLAUDE_COST_ACCOUNT_KEYS.contains key
  let shown := tx.repr (.arr (unknown.map .str))
  require unknown.isEmpty s!"unknown claude_cost_account keys {shown}"
  require (field payload "kind" == .str CLAUDE_COST_ACCOUNT_KIND) "payload is not a claude_cost_account op"
  require (field payload "v" == .num CLAUDE_COST_ACCOUNT_VERSION) "claude_cost_account version is invalid"
  require (positiveInt (field payload "rule")) "claude_cost_account rule is invalid"
  let basis := field payload "basis"
  require ((BASES.map Json.str).contains basis) "claude_cost_account basis is invalid"
  require (basis != .str BASIS_FALLBACK || (FALLBACK_REASONS.map Json.str).contains (field payload "reason"))
    "a fallback decision needs a known reason"
  require (basis == .str BASIS_FALLBACK || !hasField payload "reason") "only a fallback decision carries a reason"
  require (!hasField payload "account_key" || validStamp (field payload "account_key"))
    "claude_cost_account account_key is invalid"
  require (tx.instant (field payload "decided_at")) "claude_cost_account decided_at is invalid"
  require (validHighWater (field payload "journal_hw")) "claude_cost_account journal_hw is invalid"
  if hasField payload "closing_capture" then
    let capture := field payload "closing_capture"
    require (basis == .str BASIS_AGREEMENT) "only an agreement uses a closing capture"
    require (validCapture tx capture) "claude_cost_account closing_capture is invalid"
    require (captureStamp capture) "closing capture account_key is invalid"

def validEntry : Json → Bool
  | .arr [capturedAt, segment, offset] => tx.instant capturedAt && nonemptyStr segment && nonnegInt offset
  | _ => false

def isList : Json → Bool
  | .arr _ => true
  | _ => false

def elements : Json → List Json
  | .arr items => items
  | _ => []

def validateEvidence (payload : Json.Fields) : Py Unit := do
  if hasField payload "evidence" then
    let evidence := field payload "evidence"
    require (field payload "basis" != .str BASIS_PRESERVED) "preserved history carries no evidence"
    require (isList evidence) "claude_cost_account evidence must be a list"
    require ((elements evidence).all (validEntry tx)) "claude_cost_account evidence is invalid"

def validateItems (payload : Json.Fields) : Py Unit := do
  let items := elements (field payload "items")
  require (!items.isEmpty) "claude_cost_account needs at least one item"
  forM items (validateClaudeCostItem tx (field payload "basis"))

def validateClaudeCostAccount (payload : Json.Fields) : Py Unit := do
  validateHeader tx payload
  validateEvidence tx payload
  validateItems tx payload

end

structure Header where
  basis : String
  reason : Option String
  accountKey : Option String
  decidedAt : String
  journalHw : String × Int
  closingCapture : Option Json.Fields

structure Member (Identity : Type) where
  identity : Identity
  item : List Json
  evidence : List (List Json)

def payloadOf (h : Header) (evidence items : List (List Json)) : Json.Fields :=
  put "evidence" (if evidence = [] then none else some (.arr (evidence.map .arr)))
    (put "closing_capture" (h.closingCapture.map .obj) (put "account_key" (h.accountKey.map .str)
      (put "reason" (h.reason.map .str) (sortFields [("kind", .str CLAUDE_COST_ACCOUNT_KIND),
        ("v", .num CLAUDE_COST_ACCOUNT_VERSION), ("rule", .num RULE_VERSION), ("basis", .str h.basis),
        ("decided_at", .str h.decidedAt), ("journal_hw", .arr [.str h.journalHw.1, .num h.journalHw.2]),
        ("items", .arr (items.map .arr))]))))

abbrev Factory := Header → List (List Json) → List (List Json) → Py Json.Fields

section
variable (rt : Runtime) (tx : Texts) (fl : Json.Floats)

def claudeCostAccountOpUnvalidated : Factory := fun h evidence items =>
  return RecordStamps.makeOp rt h.decidedAt CLAUDE_COST_ACCOUNT_SRC (payloadOf h evidence items) (some PROTOCOL_GENERATION)
    .default .default

def makeClaudeCostAccount : Factory := fun h evidence items => do
  let record ← claudeCostAccountOpUnvalidated rt h evidence items
  validateClaudeCostAccount tx (payloadOf h evidence items)
  return record

def encodedLen (record : Json.Fields) : Py Nat := do
  let prepared ← prepareRecord rt tx.repr (.obj record)
  return (encodeLine prepared).length

abbrev Marker := List Json.Scalar

/-- `tuple(entry)`, which a set looks up: a list or a dictionary has no hash. -/
def markerOf (entry : List Json) : Py Marker :=
  entry.mapM fun v => match Json.key fl v with
    | some k => pure k
    | none => throw .type

def addFresh (seen : List Marker) (acc : List Marker × List (List Json)) (entry : List Json) :
    Py (List Marker × List (List Json)) := do
  let marker ← markerOf fl entry
  return if marker ∉ seen ∧ marker ∉ acc.1 then (marker :: acc.1, acc.2 ++ [entry]) else acc

variable {Identity : Type}

def build (agreement : Bool) (factory : Factory) (h : Header) (chunk : List (Member Identity)) : Py Json.Fields := do
  let (_, chunkEvidence) ← (chunk.flatMap (·.evidence)).foldlM (addFresh fl []) ([], [])
  factory h (if agreement then chunkEvidence else []) (chunk.map (·.item))

/-! ## Packing -/

abbrev Batches (Identity : Type) := List (Json.Fields × List (Member Identity))

def EVIDENCE_KEY_LEN : Nat := ",\"evidence\":[]".length - 1

variable (budget : Nat) (agreement : Bool) (h : Header)

structure Growing (Identity : Type) where
  out : Batches Identity
  chunk : List (Member Identity)
  seen : List Marker
  length : Nat

def emit (s : Growing Identity) : Py (Option (Batches Identity)) := do
  let record ← build fl agreement (makeClaudeCostAccount rt tx) h s.chunk
  let actual ← encodedLen rt tx record
  if actual ≠ s.length ∨ (1 < s.chunk.length ∧ budget < actual) then return none
  return some (s.out ++ [(record, s.chunk)])

def start (out : Batches Identity) (member : Member Identity) : Py (Growing Identity) := do
  let itemEvidence := if agreement then member.evidence else []
  let seen ← itemEvidence.mapM (markerOf fl)
  let skeleton ← build fl agreement (claudeCostAccountOpUnvalidated rt) h [member]
  return ⟨out, [member], seen, ← encodedLen rt tx skeleton⟩

def grow (s : Growing Identity) (member : Member Identity) : Py (Growing Identity) := do
  let itemEvidence := if agreement then member.evidence else []
  let (freshSeen, fresh) ← itemEvidence.foldlM (addFresh fl s.seen) ([], [])
  let grown := s.length + jsonLen (.arr member.item) + 1
  let grown := if fresh = [] then grown else
    let grown := grown + (fresh.map fun entry => jsonLen (.arr entry) + 1).sum
    if s.seen = [] then grown + EVIDENCE_KEY_LEN else grown
  return ⟨s.out, s.chunk ++ [member], s.seen ++ freshSeen, grown⟩

def linearStep (s : Growing Identity) (member : Member Identity) : Py (Option (Growing Identity)) := do
  if s.chunk = [] then return some (← start rt tx fl agreement h s.out member)
  let grown ← grow fl agreement s member
  if grown.length ≤ budget then return some grown
  match ← emit rt tx fl budget agreement h s with
  | none => return none
  | some out => return some (← start rt tx fl agreement h out member)

def linearFrom (s : Growing Identity) : List (Member Identity) → Py (Option (Batches Identity))
  | [] => if s.chunk = [] then return some s.out else emit rt tx fl budget agreement h s
  | member :: rest => do
    match ← linearStep rt tx fl budget agreement h s member with
    | none => return none
    | some s => linearFrom s rest

def linearBatches (members : List (Member Identity)) : Py (Option (Batches Identity)) :=
  linearFrom rt tx fl budget agreement h ⟨[], [], [], 0⟩ members

def greedyStep (s : Batches Identity × List (Member Identity)) (member : Member Identity) :
    Py (Batches Identity × List (Member Identity)) := do
  let chunk := s.2 ++ [member]
  if 1 < chunk.length then
    let record ← build fl agreement (makeClaudeCostAccount rt tx) h chunk
    if budget < (← encodedLen rt tx record) then
      return (s.1 ++ [(← build fl agreement (makeClaudeCostAccount rt tx) h s.2, s.2)], [member])
  return (s.1, chunk)

def greedyBatches (members : List (Member Identity)) : Py (Batches Identity) := do
  let (out, chunk) ← members.foldlM (greedyStep rt tx fl budget agreement h) ([], [])
  if chunk = [] then return out
  return out ++ [(← build fl agreement (makeClaudeCostAccount rt tx) h chunk, chunk)]

end

structure Group where
  basis : String
  reason : Option String
  account : Option String
  usesCapture : Bool
  deriving DecidableEq

structure ClosingCapture where
  accountKey : Option String
  atUs : Int

section
variable (rt : Runtime) (tx : Texts) (fl : Json.Floats) {Identity : Type}

def captureDoc (capture : ClosingCapture) : Json.Fields :=
  put "account_key" (capture.accountKey.map .str) [("at", .str (tx.isoFromUs capture.atUs))]

def headerOf (decidedAt : String) (journalHw : String × Int) (closingCapture : Option ClosingCapture) (group : Group) :
    Header :=
  ⟨group.basis, group.reason, group.account, decidedAt, journalHw,
    if group.usesCapture then closingCapture.map (captureDoc tx) else none⟩

def buildGroup (budget : Nat) (h : Header) (members : List (Member Identity)) : Py (Batches Identity) := do
  let agreement := h.basis == BASIS_AGREEMENT
  match ← linearBatches rt tx fl budget agreement h members with
  | some out => return out
  | none => greedyBatches rt tx fl budget agreement h members

def buildBatches (budget : Nat) (decidedAt : String) (journalHw : String × Int)
    (closingCapture : Option ClosingCapture) (groups : Dict Group (List (Member Identity))) :
    Py (Batches Identity) := do
  let outs ← groups.entries.mapM fun p =>
    buildGroup rt tx fl budget (headerOf tx decidedAt journalHw closingCapture p.1) p.2
  return outs.flatten

end

end Cctally.CostBatches
