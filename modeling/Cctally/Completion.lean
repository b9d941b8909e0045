import Cctally.ClosedMilestones

/-!
# Completing a block

What derivation completion proposes for one closed block: the target and the
class of each of its closes, and the records of its milestones under each
treatment.
-/

namespace Cctally.Completion

open Json (field hasField setField)
open FiveHour (Lineage usableAmount)
open Rederive

inductive BlockClass
  | frozen
  | replaced
  | added
  | open
  deriving DecidableEq

structure CompletionClose where
  blockClass : BlockClass
  target : Option Record
  frozenForm : Option Record

def closedRecord (record : Option Record) : Bool := record.any Record.isClosed

section
variable (env : Env)

/-- A preserved result that is neither record and moves the first one's total. -/
def isMissingCardCorrection (preserved : Preserved) (current : Record) : Bool :=
  match preserved with
  | .revised record => totalMoves env current record
  | _ => false

def populationChanged (current desired : Record) (reference : Option Record) : Py Bool := do
  match reference.filter Record.isClosed with
  | none => return false
  | some reference =>
    if usableAmount env.toEnv (field current.payload "total_cost_usd") &&
        usableAmount env.toEnv (field desired.payload "total_cost_usd") then
      let now ← closePopulation env current.payload
      if Json.same env.fl now (← closePopulation env reference.payload) then
        return !Json.same env.fl (← closePopulation env desired.payload) now && totalMoves env current desired
      else return false
    else return false

def frozenFormOf (kept : Preserved) (current desired : Record) : Record :=
  match kept with
  | .desired => closeMoneyOverlay desired current
  | _ => current

def classifyBoth (current desired : Record) (reference : Option Record) (severalCloseIds : Bool) :
    Py CompletionClose := do
  let kept ← preserveNonDerivableState env current desired none
  let frozen := frozenFormOf kept current desired
  if severalCloseIds then return ⟨.frozen, some frozen, some frozen⟩
  else if ← populationChanged env current desired reference then return ⟨.replaced, some desired, some frozen⟩
  else if isMissingCardCorrection env kept current then
    return ⟨.replaced, some (kept.record current desired), some frozen⟩
  else if !sameEvent env frozen current then
    let second ← preserveNonDerivableState env frozen desired none
    if isMissingCardCorrection env second frozen then
      return ⟨.replaced, some (second.record frozen desired), some frozen⟩
    else return ⟨.frozen, some frozen, some frozen⟩
  else return ⟨.frozen, some frozen, some frozen⟩

def classifyCompletionClose (current desired reference : Option Record) (acted hasPhysical severalCloseIds : Bool) :
    Py CompletionClose :=
  if !acted then .ok ⟨if closedRecord current then .frozen else .open, current, none⟩
  else
    match desired.filter Record.isClosed with
    | none => .ok ⟨.open, desired, none⟩
    | some closed =>
      match current with
      | none =>
        .ok ⟨if !hasPhysical then .added else if severalCloseIds then .frozen else .replaced, some closed, none⟩
      | some now =>
        if now.isClosed then classifyBoth env now closed reference severalCloseIds else .ok ⟨.open, desired, none⟩

end

inductive Treatment
  | frozen
  | replaced
  | marginal
  | none
  | main
  deriving DecidableEq

def MILESTONE_KEPT_KEYS : List String :=
  ["block_cost_usd", "marginal_cost_usd"] ++ BLOCK_TOKEN_KEYS.map ("block_" ++ ·)

/-- `desired` with `current`'s money and block tokens. -/
def milestoneOverlay (desired current : Record) : Record :=
  desired.withPayload (MILESTONE_KEPT_KEYS.foldl (fun payload key =>
    if hasField current.payload key then setField key (field current.payload key) payload
    else Json.without payload [key]) desired.payload)

section
variable (env : Env)
variable (current withGap fixed : Dict String Record) (acted retired : List String)
variable (lineage : Lineage) (selection : EffectiveSelection)

def mainRecords : Py (Dict String Record) := do
  let out ← (sortedSet (acted.filter (· ∈ withGap.keys))).mapM fun id => do
    match withGap.get? id, current.get? id with
    | some desired, some existing => do
      let record ← preserved env existing desired
      return if sameEvent env record existing then Option.none else some (id, record)
    | some desired, Option.none => return some (id, desired)
    | Option.none, _ => return Option.none
  return Dict.ofList out.reduceOption

def desiredOf (treatment : Treatment) (id : String) (existing : Record) : Py Record :=
  match treatment, withGap.get? id with
  | .replaced, some candidate => .ok candidate
  | .frozen, some candidate => do
    if id ∉ acted then return existing
    else
      let record := milestoneOverlay candidate existing
      if !Json.eq env.fl record.at_ existing.at_ ||
          !Json.sameFields env.fl (FiveHour.lineageIdentity record.payload) (FiveHour.lineageIdentity existing.payload) then
        let decision ← lineage.restoration env.toEnv id existing.fields
        return if decision.action = .restore then
          record.withPayload (setField "block_cost_usd" decision.value record.payload) else record
      else return record
  | _, _ => .ok existing

def required (id : String) : Bool :=
  id ∉ current.keys && id ∈ acted && (selection.byId.get? id).isNone

def additions (treatment : Treatment) : List (String × Record) :=
  withGap.entries.filter fun p => p.1 ∉ current.keys && p.1 ∈ acted &&
    ((selection.byId.get? p.1).isNone || treatment ≠ .marginal && treatment ≠ .none)

/-- One block's milestones under a treatment: the records that differ from the retained ones. -/
def completionBlockMilestones (treatment : Treatment) (blockClass : BlockClass) : Py (Dict String Record) := do
  if treatment = .replaced ∧ blockClass ≠ .replaced then
    throw (.value "the replaced treatment needs a REPLACED block")
  else if treatment = .main then mainRecords env current withGap acted
  else
    let retained ← (current.entries.filter (·.1 ∉ retired)).mapM fun p => do
      return (p.1, ← desiredOf env withGap acted lineage treatment p.1 p.2)
    let desired :=
      (Dict.ofList (retained ++ additions current withGap acted selection treatment)).merge fixed
    match desired.values.head? with
    | Option.none => return Dict.empty
    | some first =>
      let block ← Rederive.fiveHourBlock env first.payload
      let settled : Finset BlockKey := {block}
      let (resolved, _) ← resolveClosedBlockMilestones env (current.filter fun id _ => id ∉ fixed.keys) desired Dict.empty
        (if treatment = .replaced then ∅ else settled) (if treatment = .replaced then settled else ∅) selection Option.none
      return resolved.filter fun id record => id ∉ fixed.keys &&
        (treatment ≠ .none || required current acted selection id && id ∈ withGap.keys) &&
        match current.get? id with
        | Option.none => true
        | some existing => !sameEvent env record existing

end

end Cctally.Completion
