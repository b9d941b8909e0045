import Cctally.Record

/-!
# Preserving what replay cannot derive

A replayed record against the one the journal holds. Offset spellings of one
instant are no correction, a close's money is frozen unless its own marker says
a card was missing, and a dispatched alert stays latched.
-/

namespace Cctally.Rederive

open Json (field fieldD hasField setField)

def BLOCK_TOKEN_KEYS : List String := ["input_tokens", "output_tokens", "cache_create_tokens", "cache_read_tokens"]

def CLOSE_MONEY_EXTRA_KEYS : List String := ["_models", "_projects", "_pricing", "pricing_provenance_json"]

def CLOSE_POPULATION_TOTALS : List String :=
  ["total_input_tokens", "total_output_tokens", "total_cache_create_tokens", "total_cache_read_tokens"]

def RECORDED_CLOSE_CORRECTION_BASIS : String := "computation-time-missing-card"

def alertLatched (r : Record) : Bool := r.isKind "percent_milestone" || r.isKind "five_hour_milestone"

def closeMoneyKey (key : String) : Bool :=
  key ∈ CLOSE_MONEY_EXTRA_KEYS || "total_".toList.isPrefixOf key.toList

def withoutMoney (payload : Json.Fields) : Json.Fields := payload.filter fun p => !closeMoneyKey p.1

/-- `desired` with `current`'s money group. -/
def closeMoneyOverlay (desired current : Record) : Record :=
  desired.withPayload ((current.payload.filter fun p => closeMoneyKey p.1).foldl (fun d p => setField p.1 p.2 d)
    (withoutMoney desired.payload))

/-- What became of a replayed record: the journal's own is kept, and perhaps disclosed as drifted, or the replayed
one stands, or a new record does. -/
inductive Preserved where
  | current (drifted : Bool)
  | desired
  | revised (record : Record)

def Preserved.record (current desired : Record) : Preserved → Record
  | .current _ => current
  | .desired => desired
  | .revised record => record

section
variable (env : Env)

def instantText : Json → Option Json
  | .str s => (env.instant s).map Json.str
  | _ => none

def withInstants (names : List String) (payload : Json.Fields) : Json.Fields :=
  names.foldl (fun facts name =>
    match instantText env (field facts name) with
    | some instant => setField name instant facts
    | none => facts) payload

def costStructure (payload : Json.Fields) : Json.Fields :=
  withInstants env ["range_start_iso", "range_end_iso"] payload

def openingStructure (payload : Json.Fields) : Json.Fields :=
  withInstants env ["block_start_at", "five_hour_resets_at", "first_observed_at_utc", "created_at_utc",
    "weekly_basis_captured_at_utc"] payload

def closeStructure (payload : Json.Fields) : Json.Fields := withInstants env ["block_start_at"] (withoutMoney payload)

def children (payload : Json.Fields) (key : String) : Py (List Json.Fields) := do
  (← items (fieldD payload key (.arr []))).mapM asDict

def positiveTokens (child : Json.Fields) : Py Bool := BLOCK_TOKEN_KEYS.anyM fun key => positiveInt env (field child key)

def positiveTokenModels (payload : Json.Fields) : Py (Finset Json.Scalar) := do
  let models ← (← children payload "_models").filterM (positiveTokens env)
  hashedSet env (models.map (field · "model"))

def sortByDumps (rows : List Json) : List Json := rows.insertionSort fun a b => env.dumps a ≤ env.dumps b

def childPopulation (payload : Json.Fields) (key : String) : Py (List Json) := do
  return sortByDumps env ((← children payload key).map fun child => .obj (Json.without child ["cost_usd"]))

def sameChildPopulation (current desired : Json.Fields) : Py Bool := do
  if Json.sameItems env.fl (← childPopulation env current "_models") (← childPopulation env desired "_models") then
    return Json.sameItems env.fl (← childPopulation env current "_projects") (← childPopulation env desired "_projects")
  else return false

def withCloseMarker (r : Record) (marker : Json.Fields) : Record :=
  r.withPayload (setField "pricing_provenance_json" (.str (env.compact (.obj marker)))
    (setField "_pricing" (.obj marker) r.payload))

def preserveClose (current desired : Record) (historicalMarker : Option Json.Fields) : Py Preserved := do
  let currentPricing ← dictOr (field current.payload "_pricing")
  let unmarked := currentPricing.isEmpty && (field current.payload "pricing_provenance_json") matches .null
  match historicalMarker.filter fun _ => unmarked with
  | some marker =>
    if ← sameChildPopulation env current.payload desired.payload then return .revised (withCloseMarker env desired marker)
    else return .current true
  | none =>
    let missing ← itemsOr (field currentPricing "unpricedModels")
    if missing.isEmpty then return .current false
    -- project children have no model axis, so a priced model beside a missing one keeps the whole close
    if (← hashedSet env missing) ≠ (← positiveTokenModels env current.payload) ||
        (field currentPricing "uncertainModels").truthy then return .current false
    let desiredPricing ← dictOr (field desired.payload "_pricing")
    if ← missing.anyM (contains env (field desiredPricing "unpricedModels")) then return .current false
    else if ← sameChildPopulation env current.payload desired.payload then
      return .revised (withCloseMarker env desired
        (setField "basis" (.str RECORDED_CLOSE_CORRECTION_BASIS) desiredPricing))
    else return .current true

def preserveNonDerivableState (current desired : Record) (historicalMarker : Option Json.Fields) : Py Preserved := do
  let sameTime := Json.eq env.fl current.at_ desired.at_
  let both (kind : String) : Bool := current.isKind kind && desired.isKind kind && sameTime
  if both "weekly_cost_snapshot" &&
      Json.sameFields env.fl (costStructure env current.payload) (costStructure env desired.payload) then
    return .current false
  else if both "five_hour_block_open" &&
      Json.sameFields env.fl (openingStructure env current.payload) (openingStructure env desired.payload) then
    return .current false
  else if both "five_hour_block_close" && current.isClosed && desired.isClosed &&
      Json.sameFields env.fl (closeStructure env current.payload) (closeStructure env desired.payload) then
    preserveClose env current desired historicalMarker
  else if !current.kind.hashable then throw .type
  else if alertLatched current && Json.eq env.fl desired.kind current.kind && hasField current.payload "alerted_at" then
    return .revised (desired.withPayload (setField "alerted_at" (field current.payload "alerted_at") desired.payload))
  else return .desired

def preserved (current desired : Record) : Py Record := do
  return (← preserveNonDerivableState env current desired none).record current desired

def populationRows (payload : Json.Fields) (key name : String) : Py (List Json) := do
  let rows := (← itemsOr (field payload key)).filterMap fun child =>
    match child with
    | .obj child => some (Json.arr ([field child name, field child "account_key"] ++
        BLOCK_TOKEN_KEYS.map (field child) ++ [field child "entry_count"]))
    | _ => none
  return sortByDumps env rows

def closePopulation (payload : Json.Fields) : Py Json := do
  return .arr [.arr (CLOSE_POPULATION_TOTALS.map (field payload)), .arr (← populationRows env payload "_models" "model"),
    .arr (← populationRows env payload "_projects" "project_path")]

end

end Cctally.Rederive
