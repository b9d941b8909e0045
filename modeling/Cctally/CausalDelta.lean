import Cctally.CausalClosures
import Cctally.Settling

/-!
# The causal plan

What a reviewed plan does and a baseline plan does not, closed over its dependencies until
a round of the six closures leaves the same events acted on, and the reviewed plan cut
down to it.
-/

namespace Cctally.Rederive

open Json (field)
open Settling (settle)

structure Counts where
  retain : Int
  supersede : Int
  tombstone : Int
  add : Int

/-- An action that is left out: the record it would have rewritten or removed is retained. -/
def Counts.without (c : Counts) : Disposition → Counts
  | .add => { c with add := c.add - 1 }
  | .supersede => { c with supersede := c.supersede - 1, retain := c.retain + 1 }
  | .tombstone => { c with tombstone := c.tombstone - 1, retain := c.retain + 1 }

/-- A plan. The planner visits the sorted set of its events, each once. -/
structure RederivePlan where
  journalHighWater : Option (String × Int)
  cacheFingerprint : String
  configFingerprint : String
  counts : Counts
  actions : List PlanAction
  once : (actions.map PlanAction.eventId).Nodup
  actionCountsByEventKind : Dict String Counts
  retractionEventIds : Finset String
  retiredOpenings : Finset Window
  orphanedMilestoneIds : Finset String

section
variable (env : CausalEnv)

/-- `to_correction_action()` of both is equal. -/
def sameCorrection (a b : PlanAction) : Bool :=
  a.isTombstone = b.isTombstone && a.eventId = b.eventId && a.revision = b.revision && a.at_ = b.at_ &&
    (a.isTombstone || Json.sameFields env.fl a.fields b.fields)

section
variable (current : Current) (authorized : Finset Json.Scalar) (baseline reviewed : RederivePlan)

def caused (a : PlanAction) : Py Bool := do
  if !(byId baseline.actions a.eventId).any fun b => sameCorrection env b a then return true
  else if a.kind = "week_reset" && !a.isTombstone then
    if (← hashed env.planner (field a.fields "origin_observation_id")) ∈ authorized then return true
    else return a.eventId ∈ reviewed.retractionEventIds
  else return a.eventId ∈ reviewed.retractionEventIds

def closureRound (included : List PlanAction) : Py (List PlanAction) := do
  let included ← replacedBlockClosure env current reviewed.actions included
  let included ← monetaryChainClosure env current reviewed.actions included
  let included ← causalSnapshotClosure current reviewed.actions reviewed.retractionEventIds included
  let included ← if reviewed.retractionEventIds = ∅ then pure included
    else retainedReferenceClosure env current reviewed.actions included
  let included ← fiveHourParentClosure env current reviewed.actions reviewed.retiredOpenings included
  parentValidationCompletion env current reviewed.actions reviewed.retiredOpenings included

/-- The `while True` of the closures, by so many rounds at most. -/
def closed (fuel : Nat) (included : List PlanAction) : Option (Py (List PlanAction)) :=
  settle (closureRound env current reviewed) actionIds fuel included

def withoutAction (counts : Dict String Counts) (a : PlanAction) : Py (Dict String Counts) :=
  match counts.get? a.kind with
  | none => .error (.value a.kind)
  | some c => .ok (counts.set a.kind (c.without a.disposition))

def cutDown (included : List PlanAction) : Py RederivePlan := do
  let (orphaned, lost) ← fiveHourParentReport env current included reviewed.retiredOpenings
  if lost ≠ [] then
    throw (.value ("a five-hour block removal would orphan a retained milestone: " ++ ", ".intercalate (lost.take 10)))
  let ids := actionIds included
  let removed := reviewed.actions.filter (·.eventId ∉ ids)
  let counts ← removed.foldlM withoutAction reviewed.actionCountsByEventKind
  return { reviewed with
    counts := removed.foldl (fun c a => c.without a.disposition) reviewed.counts
    actions := reviewed.actions.filter (·.eventId ∈ ids)
    once := reviewed.once.sublist (List.filter_sublist.map PlanAction.eventId)
    actionCountsByEventKind := counts
    orphanedMilestoneIds := orphaned.toFinset }

def causalDeltaPlan (fuel : Nat) : Option (Py RederivePlan) :=
  if baseline.journalHighWater ≠ reviewed.journalHighWater ∨ baseline.cacheFingerprint ≠ reviewed.cacheFingerprint then
    some (.error (.value "baseline and reviewed plans do not share stable inputs"))
  else
    match reviewed.actions.filterM (caused env authorized baseline reviewed) with
    | .error e => some (.error e)
    | .ok included => (closed env current reviewed fuel included).map fun result => result >>= cutDown env current reviewed

end

end

end Cctally.Rederive
