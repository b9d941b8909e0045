import Cctally.Journal
import Cctally.JsonEq
import Mathlib.Data.List.MinMax
import Mathlib.Data.Finset.Dedup

/-!
# The lineage of five-hour milestones

Every admissible candidate of a milestone or of a block close, summarized. The
walk over a block's close events finds the revision that last set a milestone's
block cost, and the lineage can be read as it would be after a further batch.
-/

namespace Cctally.FiveHour

open Json (Floats field)

/-- What the lineage takes from outside: the journal's digests, floating point, and the canonical
text of a value. -/
structure Env where
  rt : Runtime
  fl : Floats
  canonical : Json → String

def LINEAGE_HIDDEN_REVISION : String := "hidden-revision"
def LINEAGE_REVISION_GAP : String := "revision-gap"
def LINEAGE_DIVERGENT_REVISION : String := "divergent-revision"
def LINEAGE_INVALID_PAYLOAD : String := "invalid-payload"
def LINEAGE_ORDER_INVERSION : String := "order-inversion"
def LINEAGE_SELECTION_MISMATCH : String := "selection-mismatch"
def LINEAGE_CLOSE_LINEAGE_UNCERTAIN : String := "close-lineage-uncertain"
def LINEAGE_CLOSE_PAIRING_UNCERTAIN : String := "close-pairing-uncertain"
def LINEAGE_REWRITE_WITHOUT_CLOSED_BOUNDARY : String := "rewrite-without-closed-boundary"
def LINEAGE_UNPAIRED_CLOSE_CHANGE : String := "unpaired-close-change"

def MILESTONE : Json := .str "five_hour_milestone"
def CLOSE : Json := .str "five_hour_block_close"

def lineageKind : Json → Bool
  | .str k => k = "five_hour_milestone" || k = "five_hour_block_close"
  | _ => false

def MONETARY_KEYS : List String := ["block_cost_usd", "marginal_cost_usd"]

abbrev Block := Json × Json

def fiveHourBlock (payload : Json.Fields) : Block :=
  (field payload "account_key", field payload "five_hour_window_key")

def Block.hashable (b : Block) : Bool := b.1.hashable && b.2.hashable

def lineageIdentity (payload : Json.Fields) : Json.Fields := Json.without payload (MONETARY_KEYS ++ ["alerted_at"])

/-- One candidate. A missing value and a kind that is no text read as `null`. -/
structure Occurrence where
  rev : Nat
  status : Status
  contentHash : String
  batchId : Option String
  availableAt : Nat
  kind : Json
  block : Option Block
  at_ : Json
  identity : Option Json.Fields
  blockCost : Json
  isClosed : Json
  totalCost : Json
  closeView : Option String

inductive Decision where
  | keep
  | withhold
  | restore
  deriving DecidableEq

structure Restoration where
  action : Decision
  value : Json
  reasonCodes : List String
  candidateRevisions : List Nat
  reported : Bool

def LINEAGE_KEEP : Restoration := ⟨.keep, .null, [], [], false⟩

/-- The ids of a block; a block is looked up by `==`. -/
abbrev BlockIndex := List (Block × List String)

structure Lineage where
  milestones : Dict String (List Occurrence)
  closes : Dict String (List Occurrence)
  closeIdsEverInBlock : BlockIndex
  hiddenIds : Finset String
  selected : Dict String (Nat × String)
  uncertain : Dict String (List String)

section
variable (env : Env)

/-- A finite `int` or `float`; an `int` past every float is unusable. -/
def usableAmount : Json → Bool
  | .num n => decide (n.natAbs < 2 ^ 1024 - 2 ^ 970)
  | .float r => (env.fl.value r).isSome
  | _ => false

def blockEq (a b : Block) : Bool := Json.eq env.fl a.1 b.1 && Json.eq env.fl a.2 b.2

namespace BlockIndex

def ids (index : BlockIndex) (block : Block) : List String :=
  ((List.find? (fun p => blockEq env p.1 block) index).map Prod.snd).getD []

def add (block : Block) (eventId : String) : BlockIndex → BlockIndex
  | [] => [(block, [eventId])]
  | (b, ids) :: rest =>
    if blockEq env b block then (b, if eventId ∈ ids then ids else ids ++ [eventId]) :: rest
    else (b, ids) :: add block eventId rest

def sorted (index : BlockIndex) : BlockIndex := List.map (fun p => (p.1, sortedSet p.2)) index

end BlockIndex

def divergenceKey (close : Bool) (o : Occurrence) : Status × Option String :=
  if !close then (o.status, some o.contentHash)
  else if o.status ≠ .active then (o.status, none)
  else (o.status, o.closeView)

def topRevision (occurrences : List Occurrence) : Nat := (occurrences.map (·.rev)).foldr max 0

def ofRevision (occurrences : List Occurrence) (rev : Nat) : List Occurrence := occurrences.filter (·.rev = rev)

def earliest (occurrences : List Occurrence) (rev : Nat) : Option Nat :=
  ((ofRevision occurrences rev).map (·.availableAt)).min?

def hasGap (occurrences : List Occurrence) (selected : Option (Nat × String)) : Bool :=
  let upper := max (topRevision occurrences) ((selected.map Prod.fst).getD 0)
  (List.range (upper + 1)).any fun rev => (ofRevision occurrences rev).isEmpty

def diverges (close : Bool) (occurrences : List Occurrence) : Bool :=
  occurrences.any fun a => occurrences.any fun b => a.rev = b.rev && divergenceKey close a != divergenceKey close b

def inverted (occurrences : List Occurrence) : Bool :=
  occurrences.any fun o =>
    match earliest occurrences o.rev, if o.rev = 0 then none else earliest occurrences (o.rev - 1) with
    | some late, some early => late < early
    | _, _ => false

def mismatched (occurrences : List Occurrence) : Option (Nat × String) → Bool
  | none => true
  | some (rev, hash) => rev ≠ topRevision occurrences || (ofRevision occurrences rev).all (·.contentHash ≠ hash)

def historyUncertainty (occurrences : List Occurrence) (hidden invalid : Bool) (selected : Option (Nat × String))
    (close : Bool) : List String :=
  sortedSet ((if hidden then [LINEAGE_HIDDEN_REVISION] else []) ++
    (if invalid then [LINEAGE_INVALID_PAYLOAD] else []) ++
    (if hasGap occurrences selected then [LINEAGE_REVISION_GAP] else []) ++
    (if diverges close occurrences then [LINEAGE_DIVERGENT_REVISION] else []) ++
    (if inverted occurrences then [LINEAGE_ORDER_INVERSION] else []) ++
    if mismatched occurrences selected then [LINEAGE_SELECTION_MISMATCH] else [])

def firstPerRevision (occurrences : List Occurrence) : Dict Nat Occurrence :=
  occurrences.foldl (fun chain o => chain.setdefault o.rev o) .empty

/-- An occurrence that is nowhere. A certain history has every revision up to its last, so this is never read. -/
def noOccurrence : Occurrence :=
  ⟨0, .tombstone, "", none, 0, .null, none, .null, none, .null, .null, .null, none⟩

def link (chain : Dict Nat Occurrence) (rev : Nat) : Occurrence := (chain.get? rev).getD noOccurrence

inductive CloseState where
  | ambiguous
  | absent
  | open
  | closed (total : Json)

inductive CloseEvent where
  | uncertain
  | metadata
  | monetary
  | noBoundary
  deriving DecidableEq

structure Moment where
  coordinate : Nat
  state : CloseState
  changed : Bool
  liveWriter : Bool

def winnerAt (coordinate : Nat) (chain : Dict Nat Occurrence) : Option Occurrence :=
  (chain.values.filter (·.availableAt ≤ coordinate)).argmax (·.rev)

def sameBlock : Option Block → Option Block → Bool
  | none, none => true
  | some a, some b => blockEq env a b
  | _, _ => false

def counts (block : Option Block) (o : Occurrence) : Bool := o.status = .active && sameBlock env o.block block

def stateOf : List Occurrence → CloseState
  | [] => .absent
  | [o] => if o.isClosed.eqInt 1 then .closed o.totalCost else .open
  | _ => .ambiguous

def momentAt (histories : List (List Occurrence)) (block : Option Block) (coordinate : Nat) : Moment :=
  let winners := histories.filterMap fun history => winnerAt coordinate (firstPerRevision history)
  { coordinate := coordinate
    state := stateOf (winners.filter (counts env block))
    changed := winners.any (·.availableAt = coordinate)
    liveWriter := histories.flatten.all fun o => o.availableAt ≠ coordinate || o.batchId.isNone && o.rev = 0 }

namespace Lineage

def closeIds (lineage : Lineage) (block : Option Block) : List String :=
  (block.map (lineage.closeIdsEverInBlock.ids env)).getD []

def closeHistories (lineage : Lineage) (block : Option Block) : List (List Occurrence) :=
  (lineage.closeIds env block).map fun id => (lineage.closes.get? id).getD []

def blockTimeline (lineage : Lineage) (block : Option Block) : List Moment :=
  let histories := lineage.closeHistories env block
  (sortedSet (histories.flatten.map (·.availableAt))).map (momentAt env histories block)

end Lineage

def CloseState.closedWithMoney : CloseState → Bool
  | .closed total => usableAmount env total
  | _ => false

def CloseState.isClosed : CloseState → Bool
  | .closed _ => true
  | _ => false

def classify (before after : CloseState) (changed : Bool) : CloseEvent :=
  match before, after with
  | .ambiguous, _ => .uncertain
  | _, .ambiguous => .uncertain
  | .closed a, .closed b =>
    if !changed then .metadata
    else if !(usableAmount env a && usableAmount env b) then .uncertain
    else if env.fl.drifts a b then .monetary
    else .metadata
  | _, .closed b => if !changed then .metadata else if usableAmount env b then .monetary else .uncertain
  | .closed a, _ => if !changed then .metadata else if usableAmount env a then .monetary else .uncertain
  | .absent, .absent => .metadata
  | _, _ => if !changed then .metadata else .noBoundary

structure TimedEvent where
  coordinate : Nat
  event : CloseEvent
  firstLiveClose : Bool

def CloseState.notYetClosed : CloseState → Bool
  | .absent => true
  | .open => true
  | _ => false

def closeEvents (start : Nat) : CloseState → Bool → List Moment → List TimedEvent
  | _, _, [] => []
  | before, closedBefore, m :: rest =>
    let later := closeEvents start m.state (closedBefore || m.state.isClosed) rest
    if start ≤ m.coordinate then
      ⟨m.coordinate, classify env before m.state m.changed,
        m.liveWriter && !closedBefore && before.notYetClosed && m.state.isClosed⟩ :: later
    else later

structure WalkState where
  anchor : Nat
  reasons : List String
  marked : Bool

/-- `states[bisect_left(coordinates, coordinate) - 1]`, absent before the first. -/
def stateBefore (timeline : List Moment) (coordinate : Nat) : CloseState :=
  ((timeline.takeWhile (·.coordinate < coordinate)).getLast?.map (·.state)).getD .absent

def revisionsAt (chain : Dict Nat Occurrence) (tail selected coordinate : Nat) : List Nat :=
  (List.range (selected + 1)).filter fun rev => tail < rev && (link chain rev).availableAt = coordinate

def rewrites (chain : Dict Nat Occurrence) (rev : Nat) : Bool :=
  !Json.eq env.fl (link chain rev).blockCost (link chain (rev - 1)).blockCost

/-- The last revision from `tail` on that is in effect at a coordinate. -/
def effectiveAt (chain : Dict Nat Occurrence) (tail selected coordinate : Nat) : Nat :=
  ((List.range (selected + 1)).filter fun rev => tail ≤ rev && (link chain rev).availableAt ≤ coordinate).foldr max 0

def walkStep (chain : Dict Nat Occurrence) (tail selected : Nat) (timeline : List Moment) (events : List TimedEvent)
    (w : WalkState) (coordinate : Nat) : WalkState :=
  let revisions := revisionsAt chain tail selected coordinate
  let changed := revisions.any (rewrites env chain)
  let timed : Option TimedEvent := events.find? fun e => e.coordinate = coordinate
  let event : Option CloseEvent := timed.map (·.event)
  match event with
  | some .monetary =>
    if changed then ⟨revisions.foldr max 0, [], false⟩
    else
      let effective := effectiveAt chain tail selected coordinate
      { w with
        reasons := if Json.eq env.fl (link chain effective).blockCost (link chain w.anchor).blockCost then w.reasons
          else w.reasons ++ [LINEAGE_UNPAIRED_CLOSE_CHANGE]
        marked := w.marked || !(timed.map (·.firstLiveClose)).getD false }
  | some .uncertain => { w with reasons := w.reasons ++ [LINEAGE_CLOSE_PAIRING_UNCERTAIN] }
  | some .noBoundary =>
    if changed then { w with reasons := w.reasons ++ [LINEAGE_REWRITE_WITHOUT_CLOSED_BOUNDARY] } else w
  | _ =>
    -- a price-only rewrite, under a retained closed close and with no mark pending
    if changed then
      { w with reasons := w.reasons ++
        (if (stateBefore timeline coordinate).closedWithMoney env then [] else [LINEAGE_REWRITE_WITHOUT_CLOSED_BOUNDARY]) ++
        if w.marked then [LINEAGE_UNPAIRED_CLOSE_CHANGE] else [] }
    else w

def walkCoordinates (chain : Dict Nat Occurrence) (tail selected : Nat) (events : List TimedEvent) : List Nat :=
  sortedSet (((List.range (selected + 1)).filter (tail < ·)).map (fun rev => (link chain rev).availableAt) ++
    events.map (·.coordinate))

namespace Lineage
variable (lineage : Lineage)

def walk (chain : Dict Nat Occurrence) (tail selected : Nat) (block : Option Block) : WalkState :=
  let timeline := lineage.blockTimeline env block
  let events := closeEvents env (link chain tail).availableAt .absent false timeline
  (walkCoordinates chain tail selected events).foldl (walkStep env chain tail selected timeline events) ⟨tail, [], false⟩

def eqIdentity : Option Json.Fields → Option Json.Fields → Bool
  | none, none => true
  | some a, some b => Json.eqFields env.fl a b
  | _, _ => false

def candidateRevisions (occurrences : List Occurrence) (target : Occurrence) (currentCost : Json)
    (anchor : Option Nat) : List Nat → List Nat
  | [] => []
  | rev :: rest =>
    if anchor.any (rev < ·) then []
    else
      let group := ofRevision occurrences rev
      if group.isEmpty then candidateRevisions occurrences target currentCost anchor rest
      else
        let matching := group.filter fun o =>
          o.status = .active && Json.eq env.fl o.at_ target.at_ && eqIdentity env o.identity target.identity
        if matching.isEmpty then []
        else if matching.any fun o => usableAmount env o.blockCost && !Json.eq env.fl o.blockCost currentCost then
          rev :: candidateRevisions occurrences target currentCost anchor rest
        else candidateRevisions occurrences target currentCost anchor rest

def withhold (eventId : String) (reasons : List String) (currentCost : Json) (anchor : Option Nat) : Restoration :=
  let occurrences := (lineage.milestones.get? eventId).getD []
  let target := occurrences.find? fun o =>
    decide (o.status = .active ∧ lineage.selected.get? eventId = some (o.rev, o.contentHash))
  let candidates := match target with
    | none => []
    | some target =>
      candidateRevisions env occurrences target currentCost anchor (List.range (topRevision occurrences + 1)).reverse
  ⟨.withhold, .null, sortedSet reasons, sortedSet candidates, !candidates.isEmpty⟩

def lifeStart (chain : Dict Nat Occurrence) (selected : Nat) : Nat :=
  (((List.range (selected + 1)).filter fun rev => (link chain rev).status ≠ .active).map (· + 1)).foldr max 0

def tailOf (chain : Dict Nat Occurrence) (selected : Nat) : Nat :=
  ((List.range (selected + 1)).filter fun rev => lifeStart chain selected < rev &&
    (!Json.eq env.fl (link chain rev).at_ (link chain (rev - 1)).at_ ||
      !eqIdentity env (link chain rev).identity (link chain (rev - 1)).identity)).foldr max (lifeStart chain selected)

def restoration (eventId : String) (currentRecord : Json.Fields) : Py Restoration :=
  let occurrences := (lineage.milestones.get? eventId).getD []
  if occurrences.isEmpty then .ok LINEAGE_KEEP
  else
    let currentCost := match field currentRecord "payload" with
      | .obj payload => field payload "block_cost_usd"
      | _ => .null
    let own := (lineage.uncertain.get? eventId).getD []
    if !own.isEmpty then .ok (lineage.withhold env eventId own currentCost none)
    else
      let chain := firstPerRevision occurrences
      let selected := topRevision occurrences
      if (link chain selected).status ≠ .active then .ok LINEAGE_KEEP
      else
        let tail := tailOf env chain selected
        let block := (link chain selected).block
        if !block.all Block.hashable then .error .type
        else if (lineage.closeIds env block).any fun id => (lineage.uncertain.get? id).isSome then
          .ok (lineage.withhold env eventId [LINEAGE_CLOSE_LINEAGE_UNCERTAIN] currentCost (some tail))
        else
          let w := lineage.walk env chain tail selected block
          if !w.reasons.isEmpty then .ok (lineage.withhold env eventId w.reasons currentCost (some w.anchor))
          else
            let value := (link chain w.anchor).blockCost
            if !usableAmount env value || Json.eq env.fl value currentCost then .ok LINEAGE_KEEP
            else .ok ⟨.restore, value, [], [], false⟩

end Lineage

def payloadOf : Option Json → Option Json.Fields
  | some (.obj record) =>
    match field record "payload" with
    | .obj payload => some payload
    | _ => none
  | _ => none

def recordAt : Option Json → Json
  | some (.obj record) => field record "at"
  | _ => .null

def closeView (payload : Json.Fields) : String :=
  env.canonical (.arr [CLOSE, field payload "account_key", field payload "five_hour_window_key",
    field payload "is_closed", field payload "total_cost_usd"])

/-- One candidate summarized. Equal identities of one id share an object, which no comparison sees. -/
def lineageOccurrence (candidate : EffectiveEvent) (availableAt : Nat) : Occurrence :=
  let bare : Occurrence := { noOccurrence with
    rev := candidate.rev, status := candidate.status, contentHash := candidate.contentHash,
    batchId := candidate.batchId, availableAt := availableAt }
  match candidate.status, payloadOf candidate.record with
  | .active, some payload =>
    match field payload "kind" with
    | .str "five_hour_milestone" =>
      { bare with
        kind := MILESTONE, block := some (fiveHourBlock payload), at_ := recordAt candidate.record
        identity := some (lineageIdentity payload), blockCost := field payload "block_cost_usd" }
    | .str "five_hour_block_close" =>
      { bare with
        kind := CLOSE, block := if (fiveHourBlock payload).hashable then some (fiveHourBlock payload) else none
        isClosed := field payload "is_closed", totalCost := field payload "total_cost_usd"
        closeView := some (closeView env payload) }
    | kind => { bare with kind := kind }
  | _, _ => bare

def activeKinds (items : List Occurrence) : List Json := (items.filter (·.status = .active)).map (·.kind)

def isMilestone : Json → Bool
  | .str k => k = "five_hour_milestone"
  | _ => false

def isClose : Json → Bool
  | .str k => k = "five_hour_block_close"
  | _ => false

def oneKind : List Json → Bool
  | [] => false
  | k :: rest => rest.all (Json.eq env.fl k)

def sortKey (o : Occurrence) : Nat ×ₗ Nat ×ₗ Bool ×ₗ String ×ₗ String :=
  toLex (o.rev, toLex (o.availableAt, toLex (decide (o.status = .tombstone), toLex (o.contentHash, o.batchId.getD ""))))

def sortOccurrences (items : List Occurrence) : List Occurrence :=
  items.insertionSort fun a b => sortKey a ≤ sortKey b

def unindexed (o : Occurrence) : Bool := o.status = .active && isClose o.kind && o.block.isNone

def ownUncertainty (items : List Occurrence) (hidden : Bool) (selected : Option (Nat × String)) : List String :=
  let kinds := activeKinds items
  historyUncertainty (sortOccurrences items) hidden (!oneKind env kinds || items.any unindexed) selected
    (!kinds.isEmpty && kinds.all isClose)

namespace Lineage

def indexCloses (eventId : String) (index : BlockIndex) (items : List Occurrence) : BlockIndex :=
  items.foldl (fun index o =>
    match isClose o.kind, o.block with
    | true, some block => index.add env block eventId
    | _, _ => index) index

def setId (lineage : Lineage) (eventId : String) (items : List Occurrence) (selected : Option (Nat × String)) : Lineage :=
  let codes := ownUncertainty env items (eventId ∈ lineage.hiddenIds) selected
  let kinds := activeKinds items
  { lineage with
    selected := match selected with
      | some pair => lineage.selected.set eventId pair
      | none => lineage.selected
    uncertain := if codes.isEmpty then lineage.uncertain.erase eventId else lineage.uncertain.set eventId codes
    closes := if kinds.any isClose then lineage.closes.set eventId (sortOccurrences items) else lineage.closes
    closeIdsEverInBlock :=
      if kinds.any isClose then indexCloses env eventId lineage.closeIdsEverInBlock (sortOccurrences items)
      else lineage.closeIdsEverInBlock
    milestones := if kinds.any isMilestone then lineage.milestones.set eventId (sortOccurrences items)
      else lineage.milestones }

def sealed (lineage : Lineage) : Lineage :=
  { lineage with closeIdsEverInBlock := lineage.closeIdsEverInBlock.sorted }

def allOccurrences (lineage : Lineage) : List Occurrence :=
  (lineage.milestones.values ++ lineage.closes.values).flatten

def nextCoordinate (lineage : Lineage) : Nat := (lineage.allOccurrences.map (·.availableAt + 1)).foldr max 0

def existing (lineage : Lineage) (eventId : String) : List Occurrence :=
  match (lineage.closes.get? eventId).getD [] with
  | [] => (lineage.milestones.get? eventId).getD []
  | o :: rest => o :: rest

/-- The selected pair after candidates in order; a tie keeps the earlier one. -/
def selectedAfter (selected : Option (Nat × String)) (candidates : List EffectiveEvent) : Option (Nat × String) :=
  candidates.foldl (fun pair c =>
    match pair with
    | none => some (c.rev, c.contentHash)
    | some p => if p.1 < c.rev then some (c.rev, c.contentHash) else some p) selected

def touch (origin : Lineage) (lineage : Lineage) (entry : String × List EffectiveEvent) : Py Lineage :=
  let (eventId, candidates) := entry
  let existing := origin.existing eventId
  let items := existing ++ candidates.map fun c => lineageOccurrence env c (c.sequence.getD 0)
  if (activeKinds items).any (!·.hashable) then .error .type
  else if existing.isEmpty && !(activeKinds items).any lineageKind then .ok lineage
  else .ok (lineage.setId env eventId items (selectedAfter (origin.selected.get? eventId) candidates))

def plainCandidates (coordinate : Nat) : List Json → Py (List EffectiveEvent)
  | [] => .ok []
  | .obj record :: rest => do
    let candidate ← candidateFromEvt env.rt record coordinate
    return candidate :: (← plainCandidates (coordinate + 1) rest)
  | _ :: _ => .error .type

def appended (lineage : Lineage) (batchId : Option String) (batchActions plain : List Json) :
    Py (List EffectiveEvent) := do
  let coordinate := lineage.nextCoordinate
  if batchActions.isEmpty then plainCandidates env coordinate plain
  else
    let name := (batchId.filter (· ≠ "")).getD "lineage-extended"
    let cores ← batchActions.mapM readAction
    let actions := cores.mapIdx fun seq core => candidateFromCorrection env.rt ⟨core, name, seq⟩ coordinate
    return actions ++ (← plainCandidates env (coordinate + 1) plain)

def extended (lineage : Lineage) (batchId : Option String) (batchActions plain : List Json) : Py Lineage := do
  let added ← lineage.appended env batchId batchActions plain
  if added.isEmpty then return lineage
  else
    let grouped := Dict.collect EffectiveEvent.eventId id added
    let touched ← grouped.entries.foldlM (lineage.touch env) lineage
    return touched.sealed

end Lineage

def Lineage.empty (hidden : Finset String) : Lineage := ⟨.empty, .empty, [], hidden, .empty, .empty⟩

def wants (candidate : EffectiveEvent) : Py Bool :=
  match candidate.status, payloadOf candidate.record with
  | .active, some payload =>
    if (field payload "kind").hashable then .ok (lineageKind (field payload "kind")) else .error .type
  | _, _ => .ok false

def wantedIds (candidates : List EffectiveEvent) : Py (List String) := do
  let flags ← candidates.mapM wants
  return ((candidates.zip flags).filter (·.2)).map (·.1.eventId)

def availableAt (fold : SelectorFold) (candidate : EffectiveEvent) : Nat :=
  match candidate.batchId with
  | none => candidate.sequence.getD 0
  | some batchId => ((fold.marker batchId .commit).map (·.sequence)).getD 0

def buildFiveHourLineage (fold : SelectorFold) (selection : EffectiveSelection) (physicalRevisions : Finset String) :
    Py Lineage := do
  let wanted ← wantedIds fold.candidates
  let kept := fold.candidates.filter (·.eventId ∈ wanted)
  let groups := Dict.collect EffectiveEvent.eventId (fun c => lineageOccurrence env c (availableAt fold c)) kept
  return (groups.entries.foldl (fun lineage entry =>
    lineage.setId env entry.1 entry.2 ((selection.byId.get? entry.1).map fun w => (w.rev, w.contentHash)))
    (Lineage.empty physicalRevisions)).sealed

end

end Cctally.FiveHour
