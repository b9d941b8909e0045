import Cctally.Preserve

/-!
# The milestones of closed blocks

Under a frozen close an unchanged crossing keeps its block cost, every other
crossing takes replay's. A marginal is its block cost less the one at the
nearest lower threshold of its segment in the final state.
-/

namespace Cctally.Rederive

open Json (field hasField setField)
open FiveHour (Lineage Restoration usableAmount)

def FAMILY_BATCH_PREFIX : String := "rederive:claude-usage:"

def FIVE_HOUR_MILESTONE_MONETARY_KEYS : List String := ["block_cost_usd", "marginal_cost_usd"]

def milestoneIdentity (payload : Json.Fields) : Json.Fields := Json.without payload FIVE_HOUR_MILESTONE_MONETARY_KEYS

def usableThreshold : Json → Option Int
  | .num n => some n
  | _ => none

def revivedByThisFamily (selected : Option EffectiveEvent) : Bool :=
  selected.any fun e => e.status = .tombstone && FAMILY_BATCH_PREFIX.toList.isPrefixOf (e.batchId.getD "").toList

def emptyReference : Json → Py Bool
  | .null => .ok true
  | .str s => .ok (s = "" || s = "0")
  | .arr _ => .error .type
  | .obj _ => .error .type
  | .float r => .ok (r = "0.0" || r = "-0.0")
  | v => .ok (v.eqInt 0)

inductive Role
  | unchanged
  | corrected
  | added
  deriving DecidableEq

structure Placed where
  id : String
  record : Record
  role : Option Role

structure Occupied where
  segment : BlockKey × String
  threshold : Int
  id : String
  cost : Json

/-- `(desired or current or preserved).get("payload") or {}` -/
def kindPayload (desired current preserved : Option Record) : Py Json.Fields :=
  let present (r : Record) : Bool := !r.fields.isEmpty
  match (desired.filter present).or ((current.filter present).or preserved) with
  | some r => .ok r.payload
  | none => .error .type

def predecessorCost (env : Env) (occupied : List Occupied) (segment : BlockKey × String) (threshold : Int) :
    Option Json :=
  let lower := occupied.filter fun o => o.segment = segment && o.threshold < threshold
  match (lower.map (·.threshold)).max? with
  | none => none
  | some nearest =>
    let rows := lower.filter (·.threshold = nearest)
    if rows.all fun o => usableAmount env.toEnv o.cost then (rows.argmax (·.id)).map (·.cost) else none

section
variable (env : Env)

def segmentKey (payload : Json.Fields) : Py (BlockKey × String) := do
  let reference := field payload "reset_event_ref"
  let empty ← emptyReference reference
  let block ← fiveHourBlock env payload
  return (block, if empty then "0" else env.str reference)

section
variable (current desired kept : Dict String Record) (frozenBlocks replacedBlocks : Finset BlockKey)
variable (selection : EffectiveSelection) (lineage : Option Lineage)

/-- A matched crossing of a settled block: its record, its role, and the decision that withholds a restoration. -/
def matchedCrossing (id : String) (now then_ : Record) (block : BlockKey) :
    Py (Record × Role × Option Restoration) := do
  let carried ← preserved env now then_
  if block ∈ frozenBlocks && Json.eq env.fl now.at_ then_.at_ &&
      Json.sameFields env.fl (milestoneIdentity now.payload) (milestoneIdentity carried.payload) then
    let keep := setField "block_cost_usd" (field now.payload "block_cost_usd") carried.payload
    match lineage with
    | none => return (carried.withPayload keep, .unchanged, none)
    | some lineage =>
      let decision ← lineage.restoration env.toEnv id now.fields
      match decision.action with
      | .restore => return (carried.withPayload (setField "block_cost_usd" decision.value keep), .unchanged, none)
      | .withhold =>
        return (carried.withPayload keep, .unchanged, if decision.reported then some decision else none)
      | .keep => return (carried.withPayload keep, .unchanged, none)
  else return (carried, .corrected, none)

def placeMilestone (id : String) : Py (Option Placed × Option Restoration) := do
  let payload ← kindPayload (desired.get? id) (current.get? id) (kept.get? id)
  if !FiveHour.isMilestone (field payload "kind") then return (none, none)
  else
    match kept.get? id with
    | some retained =>
      match current.get? id with
      | some now => return (some ⟨id, now, none⟩, none)
      | none => return (if revivedByThisFamily (selection.byId.get? id) then some ⟨id, retained, none⟩ else none, none)
    | none =>
      let block ← fiveHourBlock env payload
      if block ∉ frozenBlocks ∧ block ∉ replacedBlocks then
        return ((desired.get? id).map fun r => ⟨id, r, none⟩, none)
      else
        match current.get? id, desired.get? id with
        | some now, some then_ =>
          let (record, role, withheld) ← matchedCrossing env frozenBlocks lineage id now then_ block
          return (some ⟨id, record, some role⟩, withheld)
        | none, some then_ => return (some ⟨id, then_.withPayload then_.payload, some .added⟩, none)
        -- current only: the plan tombstones it
        | _, none => return (none, none)

def occupy (placed : Placed) : Py (Option Occupied) :=
  match usableThreshold (field placed.record.payload "percent_threshold") with
  | none => .ok none
  | some threshold => do
    let segment ← segmentKey env placed.record.payload
    return some ⟨segment, threshold, placed.id, field placed.record.payload "block_cost_usd"⟩

def marginal (occupied : List Occupied) (id : String) (record : Record) (role : Role) : Py Json := do
  let payloadIn (table : Dict String Record) : Json.Fields := ((table.get? id).map Record.payload).getD []
  let chosen := field (if role = .unchanged then payloadIn current else payloadIn desired) "marginal_cost_usd"
  let cost := field record.payload "block_cost_usd"
  match chosen with
  | .null => return .null
  | _ =>
    let prior ← match usableThreshold (field record.payload "percent_threshold") with
      | some threshold =>
        if usableAmount env.toEnv cost then do
          let segment ← segmentKey env record.payload
          pure (predecessorCost env occupied segment threshold)
        else pure none
      | none => pure none
    match prior with
    | none => return chosen
    | some prior =>
      let value := env.minus cost prior
      let reference :=
        field (if (current.get? id).isSome then payloadIn current else payloadIn desired) "marginal_cost_usd"
      return if usableAmount env.toEnv reference && !env.fl.drifts reference value then reference else value

def resolveClosedBlockMilestones : Py (Dict String Record × Dict String Restoration) := do
  let ids := sortedSet (current.keys ++ desired.keys ++ kept.keys)
  let places ← ids.mapM fun id => do
    return (id, ← placeMilestone env current desired kept frozenBlocks replacedBlocks selection lineage id)
  let placed := places.filterMap (·.2.1)
  let occupied ← placed.mapM (occupy env)
  let resolved ← (placed.filterMap fun p => p.role.map fun role => (p, role)).mapM fun (p, role) => do
    let value ← marginal env current desired occupied.reduceOption p.id p.record role
    return (p.id, p.record.withPayload (setField "marginal_cost_usd" value p.record.payload))
  return (Dict.ofList resolved, Dict.ofList (places.filterMap fun p => p.2.2.map fun decision => (p.1, decision)))

end

end

end Cctally.Rederive
