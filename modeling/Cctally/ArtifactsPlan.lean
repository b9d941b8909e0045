import Cctally.Artifacts
import Cctally.Topological

/-!
# Planning the deletion of artifacts

Roots are selected oldest first, against one bound after another. A member is deleted
once every root that reaches it is selected; a countdown for each member finds the
ones that a newly selected root completes.
-/

namespace Cctally.Artifacts

structure RetentionPolicy where
  maxAgeSeconds : Option Int
  maxCountPerFamily : Option Int
  maxTotalBytes : Option Int
  minFreeBytes : Option Int
  maxShapeExamples : Int

structure RetentionState where
  graph : Graph
  nowEpoch : Rat
  freeDiskBytes : Option Int

structure RetentionPlan where
  deleteIds : List String
  deleteGroups : List (String × List String)
  keepIds : List String
  protectedIds : List String
  reasons : Dict String String
  beforeBytes : Int
  projectedBytes : Int
  reclaimableBytes : Int
  referencePinnedBytes : Int
  unsatisfiedRules : List String
  floorRetainedIds : List String
  floorRetainedBytes : Int

def NON_SHAPE_TOKEN : String := "none"

def BOUND_ORDER : List String := ["max_age_seconds", "max_count_per_family", "max_total_bytes", "min_free_bytes"]

section
variable (graph : Graph)

def bytesOf (memberId : String) : Int := ((graph.members.get? memberId).map fun member => (member.diskBytes : Int)).getD 0

def inboundOf (memberId : String) : Finset String := (graph.inboundRoots.get? memberId).getD ∅

def deletionClosure (selected : Finset String) : Finset String :=
  let reached := selected.biUnion fun id => ((graph.rootsById.get? id).map Root.reachableIds).getD ∅
  reached.filter fun memberId => inboundOf graph memberId ⊆ selected

/-- The walk of `_closure_order`: a pre-order through the closure that starts at the root. -/
def closureCandidates (rootId : String) (closure : Finset String) : List String :=
  Reach.walk (insert rootId (known graph.members)) (fun id => (knownReferences graph.members id).reverse)
    (fun a b hb => Finset.mem_insert_of_mem (mem_known_of_knownReferences graph.members a b (List.mem_reverse.1 hb)))
    (· ∉ closure) [rootId] (fun _ hc => List.mem_singleton.1 hc ▸ Finset.mem_insert_self _ _) []

def referrers (candidates : List String) (memberId : String) : Finset String :=
  (candidates.filter fun id =>
    memberId ∈ candidates ∧ memberId ≠ id ∧ (graph.members.get? id).any (memberId ∈ ·.references)).toFinset

def closureOrder (rootId : String) (closure : Finset String) : List String :=
  let candidates := closureCandidates graph rootId closure
  Topological.emit (referrers graph candidates) candidates ∅

def noteShape (eligible : Finset String) (newest : Dict String Root) (root : Root) : Dict String Root :=
  match root.shapeToken with
  | none => newest
  | some token =>
    if token = "" ∨ token = NON_SHAPE_TOKEN ∨ root.id ∉ eligible then newest
    else
      match newest.get? token with
      | none => newest.set token root
      | some current => if current.age < root.age then newest.set token root else newest

def shapeFloorIds (eligible : Finset String) (maxShapeExamples : Int) : Finset String :=
  if maxShapeExamples ≤ 0 then ∅
  else
    let newest := graph.roots.foldl (noteShape eligible) .empty
    let ranked := newest.values.insertionSort fun r r' =>
      (toLex (-r.createdAtEpoch, r.id) : Rat ×ₗ String) ≤ toLex (-r'.createdAtEpoch, r'.id)
    ((ranked.take maxShapeExamples.toNat).map Root.id).toFinset

/-- `_Selection`; `closed` is its `closure` and `bytes` its `bytes_reclaimed`. -/
structure Selection where
  rootIds : List String
  order : List String
  groups : List (String × List String)
  reasons : Dict String String
  pending : Dict String Int
  closed : Finset String
  bytes : Int
  counts : Dict String Int

def reachedBy (rootId : String) : List String := graph.inboundRoots.keys.filter fun id => rootId ∈ inboundOf graph id

def countRoot (counts : Dict String Int) (root : Root) : Dict String Int :=
  counts.set root.family ((counts.get? root.family).getD 0 + 1)

def Selection.init : Selection where
  rootIds := []
  order := []
  groups := []
  reasons := .empty
  pending := (graph.inboundRoots.filter fun _ inbound => inbound ≠ ∅).mapValues fun inbound => (inbound.card : Int)
  closed := ∅
  bytes := 0
  counts := graph.roots.foldl countRoot .empty

def countDown (memberId : String) (counts : Dict String Int) : Dict String Int :=
  match graph.rootsById.get? memberId with
  | none => counts
  | some root =>
    match counts.get? root.family with
    | none => counts
    | some count => if count = 0 then counts else counts.set root.family (count - 1)

/-- One turn of the countdown; the second component collects what it closes. -/
def Selection.touch (s : Selection × Finset String) (memberId : String) : Selection × Finset String :=
  let remaining := (s.1.pending.get? memberId).getD 0 - 1
  let pending := s.1.pending.set memberId remaining
  if remaining ≠ 0 then ({ s.1 with pending := pending }, s.2)
  else
    ({ s.1 with
        pending := pending
        closed := insert memberId s.1.closed
        bytes := s.1.bytes + bytesOf graph memberId
        counts := countDown graph memberId s.1.counts },
      insert memberId s.2)

def Selection.add (s : Selection) (rootId reason : String) : Selection :=
  let s₁ := { s with rootIds := s.rootIds ++ [rootId], reasons := s.reasons.set rootId reason }
  let (s₂, newly) := (reachedBy graph rootId).foldl (Selection.touch graph) (s₁, ∅)
  let added := (closureOrder graph rootId s₂.closed).filter (· ∈ newly)
  { s₂ with
    order := s₂.order ++ added
    reasons := added.foldl (fun reasons id => reasons.setdefault id "closure") s₂.reasons
    groups := if added = [] then s₂.groups else s₂.groups ++ [(rootId, added)] }

def Selection.survivingRootCounts (s : Selection) : Dict String Int := s.counts.filter fun _ count => count ≠ 0

def sweep (reason : String) (exceeds : Selection → Root → Bool) : List Root → Selection → Selection × List Root
  | [], s => (s, [])
  | root :: rest, s =>
    if exceeds s root then sweep reason exceeds rest (s.add graph root.id reason)
    else ((sweep reason exceeds rest s).1, root :: (sweep reason exceeds rest s).2)

def drain (reason : String) (exceeds : Selection → Bool) : List Root → Selection → Selection × List Root
  | [], s => (s, [])
  | root :: rest, s => if exceeds s then drain reason exceeds rest (s.add graph root.id reason) else (s, root :: rest)

end

def Graph.bytes (graph : Graph) : Int := (graph.members.values.map fun member => (member.diskBytes : Int)).sum

section
variable (state : RetentionState) (policy : RetentionPolicy)

def overAge (root : Root) : Bool :=
  policy.maxAgeSeconds.any fun max : Int => (max : Rat) < state.nowEpoch - root.createdAtEpoch

def overCount (s : Selection) (root : Root) : Bool :=
  policy.maxCountPerFamily.any fun max => max < (s.survivingRootCounts.get? root.family).getD 0

def overBytes (s : Selection) : Bool := policy.maxTotalBytes.any fun max => max < state.graph.bytes - s.bytes

def underFree (s : Selection) : Bool :=
  match state.freeDiskBytes, policy.minFreeBytes with
  | some free, some min => free + s.bytes < min
  | _, _ => false

def selectable (floored : Finset String) : List Root :=
  state.graph.roots.filter fun root => root.protectedReasons = [] ∧ root.id ∉ floored

def runSelection (floored : Finset String) : Selection :=
  let (s₁, rest₁) := sweep state.graph "max_age_seconds" (fun _ => overAge state policy) (selectable state floored)
    (.init state.graph)
  let (s₂, rest₂) := sweep state.graph "max_count_per_family" (overCount policy) rest₁ s₁
  let (s₃, rest₃) := drain state.graph "max_total_bytes" (overBytes state policy) rest₂ s₂
  (drain state.graph "min_free_bytes" (underFree state policy) rest₃ s₃).1

def unsatisfiedRules (s : Selection) : List String :=
  (if state.graph.roots.any fun root => root.id ∉ s.closed ∧ overAge state policy root then ["max_age_seconds"] else []) ++
  (if policy.maxCountPerFamily.any fun max => s.survivingRootCounts.values.any fun count => max < count then
    ["max_count_per_family"] else []) ++
  (if overBytes state policy s then ["max_total_bytes"] else []) ++
  (if underFree state policy s then ["min_free_bytes"] else [])

def eligibleIds : Finset String :=
  ((state.graph.roots.filter fun root => root.protectedReasons = []).map Root.id).toFinset

def flooredIds : Finset String := shapeFloorIds state.graph (eligibleIds state) policy.maxShapeExamples

def keepRoot (selection : Selection) (floored : Finset String) (kept : List String × Dict String String) (root : Root) :
    List String × Dict String String :=
  if root.id ∈ selection.closed ∨ root.protectedReasons ≠ [] then kept
  else if root.id ∈ selection.rootIds then (kept.1 ++ [root.id], kept.2.set root.id "reference-pinned")
  else (kept.1 ++ [root.id], kept.2.setdefault root.id (if root.id ∈ floored then "shape-floor" else "retained"))

def planArtifactRetention : RetentionPlan :=
  let graph := state.graph
  let protected_ := graph.roots.filter (·.protectedReasons ≠ [])
  let floored := flooredIds state policy
  let selection := runSelection state policy floored
  let pinned := (graph.inboundRoots.keys.filter fun id =>
    id ∉ selection.closed ∧ inboundOf graph id ∩ selection.rootIds.toFinset ≠ ∅).map (bytesOf graph)
  let unfloored := runSelection state policy ∅
  let floorRetained := graph.roots.filter fun root => root.id ∈ floored ∧ root.id ∈ unfloored.closed
  let floorRetainedIds := if floored = ∅ then [] else floorRetained.map Root.id
  let unsatisfied := unsatisfiedRules state policy (if floored = ∅ then selection else unfloored)
  let reasons := protected_.foldl (fun reasons root => reasons.set root.id (",".intercalate root.protectedReasons))
    selection.reasons
  let kept := graph.roots.foldl (keepRoot selection floored) ([], reasons)
  { deleteIds := selection.order
    deleteGroups := selection.groups
    keepIds := kept.1
    protectedIds := protected_.map Root.id
    reasons := kept.2
    beforeBytes := graph.bytes
    projectedBytes := graph.bytes - selection.bytes
    reclaimableBytes := selection.bytes
    referencePinnedBytes := pinned.sum
    unsatisfiedRules := BOUND_ORDER.filter (· ∈ unsatisfied)
    floorRetainedIds := floorRetainedIds
    floorRetainedBytes := if floored = ∅ then 0 else
      ∑ id ∈ deletionClosure graph (selection.rootIds.toFinset ∪ floorRetainedIds.toFinset) \ selection.closed, bytesOf graph id }

end

end Cctally.Artifacts
