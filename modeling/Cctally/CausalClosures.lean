import Cctally.ClosedMilestones
import Cctally.Reach
import Mathlib.Data.Rat.Floor

/-!
# The closures of a causal plan

A reviewed plan, less what a baseline plan does as well, leaves actions that others depend
on. Six closures put the dependencies back: a block with its replaced close, the chain of
marginals, the snapshots a milestone names, the retained milestones that name a removed
event, the parents of a window, and the milestones a removal leaves without one. The third
also cancels the removal of what a kept milestone names.
-/

namespace Cctally.Rederive

open Json (field fieldD)
open FiveHour (usableAmount)

inductive Disposition where
  | add
  | supersede
  | tombstone
  deriving DecidableEq

structure PlanAction where
  disposition : Disposition
  eventId : String
  revision : Int
  at_ : String
  payload : Option Json.Fields
  payloadHash : String
  kind : String
  deriving DecidableEq

namespace PlanAction

def isTombstone (a : PlanAction) : Bool := a.disposition = .tombstone

def fields (a : PlanAction) : Json.Fields := a.payload.getD []

end PlanAction

def actionIds (actions : List PlanAction) : Finset String := (actions.map PlanAction.eventId).toFinset

def byId (actions : List PlanAction) (eventId : String) : Option PlanAction :=
  actions.reverse.find? (·.eventId = eventId)

/-- `datetime.timestamp() // 1` of a text that names an instant with its offset, beside what the planner takes. -/
structure CausalEnv extends planner : Env where
  second : String → Py (Option Int)

abbrev Payloads := Dict String Json.Fields

abbrev Current := Dict String Record

def payloads (current : Current) : Payloads := current.mapValues Record.payload

def currentPayload (current : Current) (eventId : String) : Json.Fields :=
  ((current.get? eventId).map Record.payload).getD []

def actionPayload (current : Current) (a : PlanAction) : Json.Fields :=
  if a.isTombstone then currentPayload current a.eventId else a.fields

def applied (events : Payloads) (a : PlanAction) : Payloads :=
  if a.isTombstone then events.erase a.eventId else events.set a.eventId a.fields

def kindIs (payload : Json.Fields) (kind : String) : Bool :=
  match field payload "kind" with
  | .str k => k = kind
  | _ => false

/-- `value in frozenset(texts)`, which hashes the value. -/
def inTexts (texts : List String) (value : Json) : Py Bool :=
  match value with
  | .str s => .ok (s ∈ texts)
  | v => if v.hashable then .ok false else .error .type

def CREDIT_PAIR_KINDS : List String := ["five_hour_credit", "five_hour_credit_boundary"]
def BLOCK_PARENT_KINDS : List String := ["five_hour_block_open", "five_hour_block_close"]
def SNAPSHOT_DEPENDENT_KINDS : List String := ["percent_milestone", "five_hour_milestone"]
def OPENING_ID_PREFIX : String := "fhbo:"

def milestoneDependencies (kind : String) : List (String × String) :=
  [("usage_snapshot_ref", "snapshot_accept"), ("cost_snapshot_ref", "weekly_cost_snapshot"),
    ("reset_event_ref", if kind = "percent_milestone" then "week_reset" else "five_hour_credit")]

/-- Each candidate that is wanted and whose event has no action yet, put after what is included. -/
def appendMissing (wanted : PlanAction → Py Bool) (included candidates : List PlanAction) : Py (List PlanAction) :=
  candidates.foldlM (fun out a => do
    if a.eventId ∈ actionIds out then return out
    else if ← wanted a then return out ++ [a]
    else return out) included

section
variable (env : CausalEnv)

def closeKeepsItsMoney (current final : Json.Fields) : Bool :=
  (field current "is_closed").eqInt 1 && (field final "is_closed").eqInt 1 &&
    usableAmount env.planner.toEnv (field current "total_cost_usd") &&
    usableAmount env.planner.toEnv (field final "total_cost_usd") &&
    !env.fl.drifts (field current "total_cost_usd") (field final "total_cost_usd")

/-- A supersede of a close that is frozen: a revival, a reaffirmation, or one that keeps the money. -/
def closeFrozen (now : Option Record) (a : PlanAction) : Bool :=
  match now with
  | none => true
  | some now =>
    Json.same env.fl (semanticEvent now) (.obj [("at", .str a.at_), ("id", .str a.eventId), ("payload", .obj a.fields)]) ||
      closeKeepsItsMoney env now.payload a.fields

def closeRole (current : Current) (a : PlanAction) : Py (Option (BlockKey × Bool)) :=
  if a.kind ≠ "five_hour_block_close" || a.isTombstone || !(field a.fields "is_closed").eqInt 1 then .ok none
  else do
    let block ← fiveHourBlock env.planner a.fields
    return some (block, a.disposition = .supersede && closeFrozen env (current.get? a.eventId) a)

def replacedBlockClosure (current : Current) (reviewed included : List PlanAction) : Py (List PlanAction) := do
  let acted := actionIds reviewed
  let kept ← (current.entries.filter fun p =>
    p.1 ∉ acted && kindIs p.2.payload "five_hour_block_close" && p.2.isClosed).mapM fun p =>
      fiveHourBlock env.planner p.2.payload
  let roles ← reviewed.mapM fun a => do return (← closeRole env current a).map fun role => (a.eventId, role)
  let closes := roles.reduceOption
  let frozen := kept ++ (closes.filter (·.2.2)).map (·.2.1)
  let replacing := closes.filter fun c => !c.2.2 && c.2.1 ∉ frozen
  let named ← (included.filter fun a => a.kind = "five_hour_milestone" || a.kind = "five_hour_block_close").mapM fun a =>
    fiveHourBlock env.planner (actionPayload current a)
  let triggered := named.filter (· ∈ replacing.map (·.2.1))
  if triggered = [] then return included
  else
    let closeIds := (replacing.filter (·.2.1 ∈ triggered)).map (·.1)
    appendMissing (fun a => do
      if a.eventId ∈ closeIds then return true
      else if a.kind = "five_hour_milestone" then
        return (← fiveHourBlock env.planner (actionPayload current a)) ∈ triggered
      else return false) included reviewed

/-! ## The chain of marginals -/

structure Position where
  account : Json
  window : Json
  reference : String
  threshold : Int
  cost : Json

def monetaryPosition (payload : Json.Fields) : Py (Option Position) :=
  if !kindIs payload "five_hour_milestone" then .ok none
  else
    match usableThreshold (field payload "percent_threshold") with
    | none => .ok none
    | some threshold => do
      let reference := field payload "reset_event_ref"
      let empty ← emptyReference reference
      return some ⟨field payload "account_key", field payload "five_hour_window_key",
        if empty then "0" else env.str reference, threshold, field payload "block_cost_usd"⟩

def samePosition : Option Position → Option Position → Bool
  | none, none => true
  | some p, some q =>
    Json.same env.fl p.account q.account && Json.same env.fl p.window q.window && p.reference = q.reference &&
      p.threshold = q.threshold && Json.same env.fl p.cost q.cost
  | _, _ => false

abbrev Segment := Json.Scalar × Json.Scalar × String

def segmentOf (p : Position) : Py Segment := do
  return (← hashed env.planner p.account, ← hashed env.planner p.window, p.reference)

structure Taken where
  segment : Segment
  threshold : Int
  id : String

def occupiedThresholds (events : Payloads) (ids : List String) : Py (List Taken) := do
  let rows ← ids.mapM fun id => do
    match ← monetaryPosition env ((events.get? id).getD []) with
    | none => return none
    | some p => return some (⟨← segmentOf env p, p.threshold, id⟩ : Taken)
  return rows.reduceOption

/-- What a present marginal is drawn from: the changed rows at the nearest lower threshold, and those that
enter or leave between. -/
def monetaryDependencies (occupied changedOther : List Taken) (changed : List String) (payload : Json.Fields) :
    Py (List String) := do
  match ← monetaryPosition env payload with
  | none => return []
  | some p =>
    if (field payload "marginal_cost_usd") matches .null || !usableAmount env.planner.toEnv (field payload "block_cost_usd") then
      return []
    else
      let segment ← segmentOf env p
      let lower := (occupied.filter fun o => o.segment = segment && o.threshold < p.threshold).map (·.threshold)
      let nearest := lower.max?
      let at_ := occupied.filter fun o => o.segment = segment && nearest = some o.threshold && o.id ∈ changed
      let between := changedOther.filter fun o =>
        o.segment = segment && o.threshold < p.threshold && nearest.all (· ≤ o.threshold)
      return at_.map (·.id) ++ between.map (·.id)

def monetaryEdges (population other : Payloads) (changed : List String) : Py (List (String × String)) := do
  let occupied ← occupiedThresholds env population population.keys
  let changedOther ← occupiedThresholds env other changed
  let edges ← population.entries.mapM fun p => do
    return (← monetaryDependencies env occupied changedOther changed p.2).map fun id => (p.1, id)
  return edges.flatten

def neighbours (edges : List (String × String)) (id : String) : List String :=
  (edges.filter (·.1 = id)).map (·.2) ++ (edges.filter (·.2 = id)).map (·.1)

def nodes (edges : List (String × String)) : List String := edges.map (·.1) ++ edges.map (·.2)

theorem mem_nodes {edges : List (String × String)} {id b : String} (h : b ∈ neighbours edges id) : b ∈ nodes edges := by
  rcases List.mem_append.1 h with h | h
  · obtain ⟨e, he, rfl⟩ := List.mem_map.1 h
    exact List.mem_append_right _ (List.mem_map_of_mem (List.mem_filter.1 he).1)
  · obtain ⟨e, he, rfl⟩ := List.mem_map.1 h
    exact List.mem_append_left _ (List.mem_map_of_mem (List.mem_filter.1 he).1)

def requiredIds (edges : List (String × String)) (seeds : List String) : Finset String :=
  Reach.search (seeds ++ nodes edges).toFinset (neighbours edges)
    (fun _ _ h => List.mem_toFinset.2 (List.mem_append_right _ (mem_nodes h))) (fun _ => false) seeds
    (fun _ h => List.mem_toFinset.2 (List.mem_append_left _ h)) ∅

def monetaryChainClosure (current : Current) (reviewed included : List PlanAction) : Py (List PlanAction) := do
  let now := payloads current
  let final := reviewed.foldl applied now
  let moved ← (reviewed.filter (·.kind = "five_hour_milestone")).filterM fun a => do
    return !samePosition env (← monetaryPosition env ((now.get? a.eventId).getD []))
      (← monetaryPosition env ((final.get? a.eventId).getD []))
  let changed := moved.map PlanAction.eventId
  if changed = [] then return included
  else
    let edges := (← monetaryEdges env final now changed) ++ (← monetaryEdges env now final changed)
    let required := requiredIds edges (included.map PlanAction.eventId)
    return reviewed.filter (·.eventId ∈ required)

end

def references (a : PlanAction) : List (String × String) :=
  if a.isTombstone || a.kind ∉ SNAPSHOT_DEPENDENT_KINDS then [] else milestoneDependencies a.kind

def referencePairs (actions : List PlanAction) : List (PlanAction × String × String) :=
  actions.flatMap fun a => (references a).map fun d => (a, d)

section
variable (current : Current) (reviewed : List PlanAction) (shielded : Finset String)

def cancelled (actions : List PlanAction) (a : PlanAction) (name expected : String) : Py (Option String) := do
  let reference := field a.fields name
  if ← emptyReference reference then return none
  else
    match reference with
    | .str target =>
      match byId actions target with
      | none => return none
      | some dependency =>
        if !dependency.isTombstone then return none
        else if target ∈ shielded then
          throw (.value ("a retracted dependency's tombstone would be cancelled by milestone: " ++ a.eventId))
        else if !kindIs (currentPayload current target) expected then
          throw (.value ("causal milestone dependency cannot be retained: " ++ a.eventId))
        else return some target
    -- no action has an id that is no text
    | _ => return none

def required (target : Payloads) (a : PlanAction) (name expected : String) : Py (Option PlanAction) := do
  let reference := field a.fields name
  if ← emptyReference reference then return none
  else
    let missing := .value ("causal milestone dependency is missing: " ++ a.eventId)
    match reference with
    | .str event =>
      if kindIs ((target.get? event).getD []) expected then return none
      else
        match byId reviewed event with
        | none => throw missing
        | some dependency =>
          if dependency.isTombstone || dependency.kind ≠ expected || !kindIs dependency.fields expected then throw missing
          else return some dependency
    | _ => throw missing

def requireAll (target : Payloads) (actions : List PlanAction) : Py (List PlanAction × Payloads) :=
  (referencePairs actions).foldlM (fun (out, target) (a, name, expected) => do
    match ← required reviewed target a name expected with
    | none => return (out, target)
    | some dependency => return (out ++ [dependency], target.set dependency.eventId dependency.fields)) ([], target)

def causalSnapshotClosure (included : List PlanAction) : Py (List PlanAction) := do
  let tombstones ← (referencePairs included).mapM fun (a, name, expected) =>
    cancelled current shielded included a name expected
  let actions := included.filter (·.eventId ∉ tombstones.reduceOption)
  let (appended, target) ← requireAll reviewed (actions.foldl applied (payloads current)) actions
  let (further, _) ← requireAll reviewed target appended
  return actions ++ appended ++ further

end

section
variable (env : CausalEnv) (current : Current) (reviewed : List PlanAction)

def namesTombstoned (tombstoned : List String) (payload : Json.Fields) : Py Bool :=
  match field payload "kind" with
  | .str kind => (milestoneDependencies kind).anyM fun d => do
    return (← hashed env.planner (field payload d.1)) ∈ tombstoned.map Json.Scalar.str
  | _ => .ok false

def retainedReferenceClosure (included : List PlanAction) : Py (List PlanAction) :=
  let tombstoned := (included.filter PlanAction.isTombstone).map PlanAction.eventId
  if tombstoned = [] then .ok included
  else
    (sortedSet current.keys).foldlM (fun out id => do
      let payload := currentPayload current id
      if id ∈ actionIds out then return out
      else if !(← inTexts SNAPSHOT_DEPENDENT_KINDS (field payload "kind")) then return out
      else if ← namesTombstoned env tombstoned payload then
        match byId reviewed id with
        | none => throw (.value ("a retained milestone would name a tombstoned event: " ++ id))
        | some a => return out ++ [a]
      else return out) included

/-! ## Windows and their parents -/

abbrev Window := Json.Scalar × Int

/-- `int(value)`, nothing where it raises a type or a value error. -/
def intOf (value : Json) : Py (Option Int) :=
  match value with
  | .num n => .ok (some n)
  | .float r =>
    match env.fl.value r with
    | some q => .ok (some (if 0 ≤ q then ⌊q⌋ else ⌈q⌉))
    | none => if r = "nan" then .ok none else .error (.value "cannot convert float infinity to integer")
  | .str s => .ok (env.int? s)
  | _ => .ok none

def windowOf (payload : Json.Fields) : Py (Option (Json × Int)) := do
  return (← intOf env (field payload "five_hour_window_key")).map fun w => (field payload "account_key", w)

def hashedWindow (window : Option (Json × Int)) : Py (Option Window) := do
  match window with
  | none => return none
  | some (account, window) => return some (← hashed env.planner account, window)

def windowKey (payload : Json.Fields) : Py (Option Window) := do hashedWindow env (← windowOf env payload)

/-- `text.rpartition(sep)`, without the separator. -/
def rpartition (sep : Char) (text : List Char) : List Char × List Char :=
  let last := (text.reverse.takeWhile (· ≠ sep)).reverse
  (text.take (text.length - last.length - 1), last)

/-- The window of an `fhbo` id. -/
def openingWindow (eventId : String) : Option Window :=
  if !OPENING_ID_PREFIX.toList.isPrefixOf eventId.toList then none
  else
    let (account, window) := rpartition ':' (eventId.toList.drop OPENING_ID_PREFIX.length)
    (env.int? (String.ofList window)).map fun w => (.str (String.ofList account), w)

def suppressed (payload : Json.Fields) : List String :=
  if kindIs payload "five_hour_credit" &&
      fieldD payload "suppression_table" (.str "weekly_usage_snapshots") = .str "weekly_usage_snapshots" then
    match field payload "suppression" with
    | .arr items => items.filterMap fun
      | .str s => some s
      | _ => none
    | _ => []
  else []

abbrev Rank := Int × String

def Rank.below (a b : Rank) : Bool := a.1 < b.1 || a.1 = b.1 && a.2 < b.2

def rankedReading (hidden : List String) (id : String) (payload : Json.Fields) : Py (Option (Rank × Window)) := do
  if !kindIs payload "snapshot_accept" || id ∈ hidden || (field payload "five_hour_percent") matches .null then return none
  else
    let window ← windowOf env payload
    let instant ← match field payload "captured_at_utc" with
      | .str captured => env.second captured
      | _ => pure none
    match window, instant with
    | some (account, window), some second => return some ((second, id), (← hashed env.planner account, window))
    | _, _ => return none

def latestWith (latest : Dict Json.Scalar (Rank × Window)) (reading : Rank × Window) : Dict Json.Scalar (Rank × Window) :=
  match latest.get? reading.2.1 with
  | none => latest.set reading.2.1 reading
  | some prior => if prior.1.below reading.1 then latest.set reading.2.1 reading else latest

def fiveHourParentPresence (events : Payloads) (retired : Finset Window) : Py (Finset Window) := do
  let blocks ← events.entries.mapM fun p => do
    if ← inTexts BLOCK_PARENT_KINDS (field p.2 "kind") then windowKey env p.2 else return none
  let hidden := events.values.flatMap suppressed
  let readings ← events.entries.mapM fun p => rankedReading env hidden p.1 p.2
  let latest := readings.reduceOption.foldl latestWith .empty
  return (blocks.reduceOption ++ (latest.values.map Prod.snd).filter (· ∉ retired)).toFinset

def postPlanState (actions : List PlanAction) (retired : Finset Window) : Payloads × Finset Window :=
  (actions.foldl applied (payloads current),
    actions.foldl (fun retired a =>
      match openingWindow env a.eventId with
      | none => retired
      | some window => if a.isTombstone then insert window retired else retired.erase window) retired)

/-- `_window_of(payload) in windows` -/
def hasBlock (windows : Finset Window) (payload : Json.Fields) : Py Bool := do
  return (← windowKey env payload).any (· ∈ windows)

inductive Parent where
  | orphaned
  | lost
  | fine
  deriving DecidableEq

def parentOf (before after : Finset Window) (events : Payloads) (id : String) : Py Parent := do
  let payload := currentPayload current id
  if !kindIs payload "five_hour_milestone" then return .fine
  else if !(← hasBlock env before payload) then return .orphaned
  else
    match events.get? id with
    | none => return .fine
    | some survivor => if ← hasBlock env after survivor then return .fine else return .lost

def fiveHourParentReport (actions : List PlanAction) (retired : Finset Window) : Py (List String × List String) := do
  let before ← fiveHourParentPresence env (payloads current) retired
  let (events, retiredAfter) := postPlanState env current actions retired
  let after ← fiveHourParentPresence env events retiredAfter
  let verdicts ← (sortedSet current.keys).mapM fun id => do
    return (id, ← parentOf env current before after events id)
  return ((verdicts.filter (·.2 = .orphaned)).map (·.1), (verdicts.filter (·.2 = .lost)).map (·.1))

abbrev CreditPair := Json.Scalar × Json.Scalar × Json.Scalar

def creditPairKey (payload : Json.Fields) : Py CreditPair := do
  return (← hashed env.planner (field payload "account_key"), ← hashed env.planner (field payload "five_hour_window_key"),
    ← hashed env.planner (field payload "effective_reset_at_utc"))

inductive Need where
  | parent (window : Option Window)
  | openingTombstone (window : Option Window)
  | pair (key : CreditPair)
  deriving DecidableEq

def offered (a : PlanAction) : Py (Option Need) := do
  let payload := actionPayload current a
  if a.kind ∈ BLOCK_PARENT_KINDS then
    let window ← windowOf env payload
    if !a.isTombstone then return some (.parent (← hashedWindow env window))
    else if a.kind = "five_hour_block_open" then return some (.openingTombstone (← hashedWindow env window))
    else return none
  else if a.kind ∈ CREDIT_PAIR_KINDS then return some (.pair (← creditPairKey env payload))
  else return none

def needed (present : Py (Finset Window)) (a : PlanAction) : Py (Option Need) := do
  let payload := actionPayload current a
  if a.kind = "five_hour_milestone" && !a.isTombstone then
    if ← hasBlock env (← present) payload then return none else return some (.parent (← windowKey env payload))
  else if a.kind ∈ CREDIT_PAIR_KINDS then return some (.pair (← creditPairKey env payload))
  else if a.kind = "five_hour_block_close" && a.isTombstone then
    return some (.openingTombstone (← windowKey env payload))
  else return none

/-- One included action, and the reviewed actions it needs put after the rest. -/
def bringNeeded (offers : List (PlanAction × Option Need)) (present : Py (Finset Window)) (out : List PlanAction)
    (a : PlanAction) : Py (List PlanAction) := do
  match ← needed env current present a with
  | none => return out
  | some need => appendMissing (fun _ => .ok true) out ((offers.filter (·.2 = some need)).map Prod.fst)

def fiveHourParentClosure (retired : Finset Window) (included : List PlanAction) : Py (List PlanAction) := do
  let offers ← reviewed.mapM fun a => do return (a, ← offered env current a)
  let (events, retiredAfter) := postPlanState env current included retired
  included.foldlM (bringNeeded env current offers (fiveHourParentPresence env events retiredAfter)) included

def parentValidationCompletion (retired : Finset Window) (included : List PlanAction) : Py (List PlanAction) := do
  let (_, lost) ← fiveHourParentReport env current included retired
  appendMissing (fun a => .ok a.isTombstone) included (lost.filterMap (byId reviewed))

end

end Cctally.Rederive
