import Cctally.Dict
import Cctally.Reach
import Mathlib.Data.Finset.Max
import Mathlib.Data.Prod.Lex
import Mathlib.Data.Rat.Defs
import Mathlib.Data.String.Basic
import Mathlib.Algebra.Order.Ring.Rat

/-!
# The graph of retained artifacts

Members refer to one another by id. Some are roots whatever refers to them, some
because nothing does, and the rest are promoted until every member is reached; what a
root reaches stops at every other root. A root carries each reason that protects a
member it reaches.
-/

namespace Cctally.Artifacts

def RETENTION_KINDS : List String := ["incident", "bundle", "wal_evidence", "rebuild_record", "backup", "backup_member"]

def ROOT_WHATEVER_REFERENCES_IT : List String := ["incident", "backup"]

def UNDECIDED_CONFIDENCES : List String := ["unknown", ""]

def isClassified (confidence : Option String) : Bool := confidence.any (· ∉ UNDECIDED_CONFIDENCES)

def KIND_REQUIRES_CLASSIFICATION : Dict String Bool :=
  .ofList [("incident", true), ("bundle", true), ("wal_evidence", true), ("rebuild_record", true), ("backup", true),
    ("backup_member", true)]

structure Member where
  id : String
  kind : String
  family : String
  createdAtEpoch : Rat
  diskBytes : Nat
  references : List String
  isSymlink : Bool
  inRoot : Bool
  exists_ : Bool
  valid : Bool
  classification : Option String
  shapeToken : Option String
  finalized : Bool
  active : Bool
  deriving DecidableEq

structure Root where
  id : String
  kind : String
  family : String
  createdAtEpoch : Rat
  reachableIds : Finset String
  ownMemberIds : Finset String
  requiresClassification : Bool
  classification : Option String
  shapeToken : Option String
  protectedReasons : List String
  deriving DecidableEq

structure Graph where
  roots : List Root
  members : Dict String Member
  inboundRoots : Dict String (Finset String)
  rootsById : Dict String Root

def memberProtectionReasons (member : Member) (knownIds : Finset String) : List String :=
  (if member.kind ∉ KIND_REQUIRES_CLASSIFICATION.keys then ["unrecognized-kind"] else []) ++
  (if !member.exists_ then ["missing"] else []) ++
  (if !member.valid then ["invalid"] else []) ++
  (if !member.finalized then ["unfinished"] else []) ++
  (if member.active then ["active"] else []) ++
  (if member.isSymlink then ["symlink"] else []) ++
  (if !member.inRoot then ["outside-root"] else []) ++
  (if member.references.any (· ∉ knownIds) then ["dangling-reference"] else [])

section
variable (byId : Dict String Member)

def known : Finset String := byId.keys.toFinset

/-- `[ref for ref in by_id[member_id].references if ref in known_ids]` -/
def knownReferences (memberId : String) : List String :=
  match byId.get? memberId with
  | some member => member.references.filter (· ∈ known byId)
  | none => []

theorem mem_known_of_knownReferences (a : String) : ∀ b ∈ knownReferences byId a, b ∈ known byId := by
  intro b hb
  unfold knownReferences at hb
  split at hb
  · exact of_decide_eq_true (List.mem_filter.1 hb).2
  · cases hb

def reachableFrom (rootIds : Finset String) (memberId : String) : Finset String :=
  Reach.search (known byId) (knownReferences byId) (mem_known_of_knownReferences byId) (· ∈ rootIds)
    (knownReferences byId memberId).reverse
    (fun c hc => mem_known_of_knownReferences byId memberId c (List.mem_reverse.1 hc)) {memberId}

theorem self_mem_reachableFrom (rootIds : Finset String) (memberId : String) :
    memberId ∈ reachableFrom byId rootIds memberId := by
  rw [reachableFrom, Reach.mem_search]
  · exact ⟨memberId, .inl (Finset.mem_singleton_self _), .refl⟩
  · intro a ha b hb
    rw [Finset.mem_singleton] at ha
    subst ha
    exact .inr (.inr (List.mem_reverse.2 hb))

def referenced : Finset String := (known byId).biUnion fun id => (knownReferences byId id).toFinset

def isBaseRoot (member : Member) : Bool :=
  member.kind ∈ ROOT_WHATEVER_REFERENCES_IT ∨ member.kind ∉ KIND_REQUIRES_CLASSIFICATION.keys ∨
    member.id ∉ referenced byId

def baseRoots : Finset String := (known byId).filter fun id => (byId.get? id).any (isBaseRoot byId)

def stranded (rootIds : Finset String) : Finset String := known byId \ rootIds.biUnion (reachableFrom byId rootIds)

def promoted (rootIds : Finset String) (h : (stranded byId rootIds).Nonempty) : Finset String :=
  let inner := (stranded byId rootIds).biUnion fun id => (knownReferences byId id).toFinset.filter (· ∈ stranded byId rootIds)
  let outer := stranded byId rootIds \ inner
  if outer = ∅ then {(stranded byId rootIds).min' h} else outer

theorem promoted_subset (rootIds : Finset String) (h : (stranded byId rootIds).Nonempty) :
    promoted byId rootIds h ⊆ stranded byId rootIds := by
  unfold promoted
  dsimp only
  split
  · exact Finset.singleton_subset_iff.2 (Finset.min'_mem _ h)
  · exact Finset.sdiff_subset

theorem promoted_nonempty (rootIds : Finset String) (h : (stranded byId rootIds).Nonempty) :
    (promoted byId rootIds h).Nonempty := by
  unfold promoted
  dsimp only
  split
  · exact Finset.singleton_nonempty _
  · rename_i hne
    exact Finset.nonempty_iff_ne_empty.2 hne

theorem notMem_of_stranded {rootIds : Finset String} {id : String} (h : id ∈ stranded byId rootIds) :
    id ∈ known byId ∧ id ∉ rootIds := by
  obtain ⟨hk, hc⟩ := Finset.mem_sdiff.1 h
  exact ⟨hk, fun hr => hc (Finset.mem_biUnion.2 ⟨id, hr, self_mem_reachableFrom byId rootIds id⟩)⟩

theorem card_promote (rootIds : Finset String) (h : (stranded byId rootIds).Nonempty) :
    (known byId \ (rootIds ∪ promoted byId rootIds h)).card < (known byId \ rootIds).card := by
  obtain ⟨id, hid⟩ := promoted_nonempty byId rootIds h
  obtain ⟨hk, hr⟩ := notMem_of_stranded byId (promoted_subset byId rootIds h hid)
  refine Finset.card_lt_card (Finset.ssubset_iff_of_subset ?_ |>.2 ⟨id, Finset.mem_sdiff.2 ⟨hk, hr⟩, fun hm => ?_⟩)
  · exact Finset.sdiff_subset_sdiff (Finset.Subset.refl _) Finset.subset_union_left
  · exact (Finset.mem_sdiff.1 hm).2 (Finset.mem_union_right _ hid)

/-- The completion loop of `_resolve_root_ids`. -/
def completeRoots (rootIds : Finset String) : Finset String :=
  if h : (stranded byId rootIds).Nonempty then completeRoots (rootIds ∪ promoted byId rootIds h) else rootIds
termination_by (known byId \ rootIds).card
decreasing_by exact card_promote byId rootIds h

def resolveRootIds : Finset String := completeRoots byId (baseRoots byId)

def ownReasons (rootIds : Finset String) (memberId : String) : List String :=
  match byId.get? memberId with
  | some member =>
    memberProtectionReasons member (known byId) ++
      if memberId ∈ rootIds ∧ member.kind = "wal_evidence" then ["unreferenced-evidence"] else []
  | none => []

def rootOf (rootIds : Finset String) (member : Member) : Root :=
  let reachable := reachableFrom byId rootIds member.id
  let requiresClassification := (KIND_REQUIRES_CLASSIFICATION.get? member.kind).getD true
  let reasons := reachable.biUnion (fun reached => (ownReasons byId rootIds reached).toFinset) ∪
    if requiresClassification && !isClassified member.classification then {"unclassified"} else ∅
  { id := member.id, kind := member.kind, family := member.family, createdAtEpoch := member.createdAtEpoch
    reachableIds := reachable, ownMemberIds := reachable \ rootIds, requiresClassification := requiresClassification
    classification := member.classification, shapeToken := member.shapeToken, protectedReasons := inOrder reasons }

/-- `for reached in reachable: inbound[reached].add(root_id)` -/
def addInbound (inbound : Dict String (Finset String)) (root : Root) : Dict String (Finset String) :=
  inbound.mapEntries fun id found => if id ∈ root.reachableIds then insert root.id found else found

end

def indexMembers : List Member → Dict String Member → Except String (Dict String Member)
  | [], byId => pure byId
  | member :: members, byId =>
    if (byId.get? member.id).isSome then throw ("duplicate retained-artifact id: " ++ member.id)
    else indexMembers members (byId.set member.id member)

def Root.age (root : Root) : Rat ×ₗ String := toLex (root.createdAtEpoch, root.id)

def graphOf (byId : Dict String Member) : Graph :=
  let rootIds := resolveRootIds byId
  let roots := (inOrder rootIds).filterMap fun id => (byId.get? id).map (rootOf byId rootIds)
  let sorted := roots.insertionSort fun r r' => r.age ≤ r'.age
  { roots := sorted, members := byId
    inboundRoots := roots.foldl addInbound (byId.mapValues fun _ => ∅)
    rootsById := .ofList (sorted.map fun root => (root.id, root)) }

def buildGraph (members : List Member) : Except String Graph := do
  let byId ← indexMembers members .empty
  pure (graphOf byId)

end Cctally.Artifacts
