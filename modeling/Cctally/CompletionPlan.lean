import Cctally.Completion

/-!
# Planning the completion of five-hour blocks

Which blocks completion decides, what each may land, and which of it does land:
the candidates of blocks that share an id are simulated on the lineage together.
-/

namespace Cctally.Completion

open Json (field)
open FiveHour (Lineage Decision)
open Rederive

inductive CandidateName
  | proposal
  | F
  | P
  | K
  | M
  | A
  deriving DecidableEq

def candidateOrder : BlockClass → List CandidateName
  | .frozen => [.proposal, .K, .M, .A]
  | .replaced => [.proposal, .F, .K, .M, .A]
  | .added => [.proposal, .P, .M, .A]
  | .open => []

def candidateTreatment (blockClass : BlockClass) : CandidateName → Treatment
  | .proposal => if blockClass = .replaced then .replaced else .frozen
  | .F => .frozen
  | .P => .main
  | .K => .frozen
  | .M => .marginal
  | .A => .none

structure Inputs where
  current : Dict String Record
  withGap : Dict String Record
  withoutGap : Dict String Record
  acted : List String
  physical : Dict String Int
  selection : EffectiveSelection
  lineage : Lineage
  retirements : List Json.Fields

structure Classified where
  block : BlockKey
  blockClass : BlockClass
  closes : Dict String CompletionClose
  todays : List String

def fiveHour (r : Record) : Bool := FiveHour.lineageKind r.kind

def blockClassOf : List BlockClass → BlockClass
  | [] => .open
  | [only] => only
  | classes => if classes.all (· = .added) then .added else .frozen

section
variable (env : Env)

def sortBlocks (blocks : List BlockKey) : List BlockKey :=
  blocks.dedup.insertionSort fun a b => env.repr a ≤ env.repr b

section
variable (inp : Inputs)

def Inputs.tables : List (Dict String Record) := [inp.current, inp.withGap, inp.withoutGap]

def inBlock (table : Dict String Record) (block : BlockKey) : Dict String Record :=
  table.filter fun _ r => fiveHour r && r.block env = some block

def touched : List BlockKey :=
  sortBlocks env (inp.acted.flatMap fun id =>
    [inp.withGap.get? id, inp.current.get? id].filterMap fun r => (r.filter fiveHour).bind (Record.block env))

def blocksOf (id : String) : List (Option BlockKey) :=
  inp.tables.filterMap fun table => ((table.get? id).filter fiveHour).map (Record.block env)

def recordedIds : List String :=
  (sortedSet (inp.tables.flatMap Dict.keys)).filter fun id => !(blocksOf env inp id).isEmpty

def inside (blocks : List BlockKey) : Option BlockKey → Bool
  | some block => block ∈ blocks
  | none => false

def todaysRecord (id : String) : Py (Option Record) :=
  if id ∉ inp.acted then .ok (inp.current.get? id)
  else
    match inp.withGap.get? id, inp.current.get? id with
    | none, _ => .ok none
    | some desired, none => .ok (some desired)
    | some desired, some existing => some <$> preserved env existing desired

def closeIds (block : BlockKey) : List String :=
  sortedSet (inp.tables.flatMap fun table =>
    ((inBlock env table block).filter fun _ r => r.isKind "five_hour_block_close").keys)

def classifyClose (several : Bool) (id : String) : Py CompletionClose :=
  classifyCompletionClose env (inp.current.get? id) (inp.withGap.get? id) (inp.withoutGap.get? id) (id ∈ inp.acted)
    (inp.physical.get? id).isSome several

def keepsToday (notOwned : List String) (close : String × CompletionClose) : Bool :=
  close.1 ∈ inp.acted && (close.2.blockClass = .open || close.1 ∈ notOwned)

def classifyBlock (notOwned : List String) (block : BlockKey) : Py Classified := do
  let ids := closeIds env inp block
  let all ← ids.mapM fun id => do return (id, ← classifyClose env inp (1 < ids.length) id)
  let closes := all.filter fun close => !keepsToday inp notOwned close && close.2.blockClass ≠ .open
  return ⟨block, blockClassOf (closes.map (·.2.blockClass)), Dict.ofList closes,
    (all.filter (keepsToday inp notOwned)).map Prod.fst⟩

def decidedBlocks (classified : List Classified) : List BlockKey :=
  (classified.filter fun c => !c.closes.entries.isEmpty).map (·.block)

def reaching (decided : List BlockKey) : List String :=
  (recordedIds env inp).filter fun id =>
    (blocksOf env inp id).any (inside decided) && !(blocksOf env inp id).all (inside decided)

/-- Classify until no id reaches out of the decided blocks; deciding fewer blocks only adds such ids. -/
def settleOwnership : Nat → List String → Py (List Classified × List String)
  | 0, notOwned => do return (← (touched env inp).mapM (classifyBlock env inp notOwned), notOwned)
  | fuel + 1, notOwned => do
    let classified ← (touched env inp).mapM (classifyBlock env inp notOwned)
    let reach := reaching env inp (decidedBlocks classified)
    if reach.all (· ∈ notOwned) then return (classified, notOwned)
    else settleOwnership fuel (notOwned ∪ reach)

structure Ownership where
  owned : List Classified
  notOwned : List String

def Ownership.decided (own : Ownership) : List BlockKey := own.owned.map (·.block)

def ownership : Py Ownership := do
  let (classified, notOwned) ← settleOwnership env inp (recordedIds env inp).length []
  return ⟨classified.filter fun c => !c.closes.entries.isEmpty, notOwned ∪ classified.flatMap (·.todays)⟩

def milestonesCurrent (block : BlockKey) : Dict String Record :=
  (inBlock env inp.current block).filter fun _ r => r.isKind "five_hour_milestone"

def milestonesWith (own : Ownership) (block : BlockKey) : Dict String Record :=
  (inBlock env inp.withGap block).filter fun id r => r.isKind "five_hour_milestone" && id ∉ own.notOwned

def retiredIn (block : BlockKey) : List String :=
  (milestonesCurrent env inp block).keys.filter fun id => id ∈ inp.acted && (inp.withGap.get? id).isNone

def staysIn (block : BlockKey) (id : String) : Py (Option Record) := do
  return (← todaysRecord env inp id).filter fun r => r.isKind "five_hour_milestone" && r.block env = some block

def unowned (own : Ownership) (block : BlockKey) : Py (List (String × Option Record)) :=
  (sortedSet (own.notOwned.filter fun id => some block ∈ blocksOf env inp id)).mapM fun id => do
    return (id, ← staysIn env inp block id)

def closeRecord (name : CandidateName) (id : String) (close : CompletionClose) : Option Record :=
  let existing := inp.current.get? id
  let desired := inp.withGap.get? id
  let acted := id ∈ inp.acted
  let target :=
    match name with
    | .proposal => close.target
    | .F => if existing.isSome then close.frozenForm else if acted then desired else none
    | .P => if acted then desired else none
    | _ => none
  let target := if acted ∧ desired.isSome ∧ (inp.selection.byId.get? id).isNone then desired else target
  target.filter fun record => existing.all fun now => !sameEvent env record now

def closeRecords (name : CandidateName) (closes : Dict String CompletionClose) : Dict String Record :=
  Dict.ofList (closes.entries.filterMap fun p => (closeRecord env inp name p.1 p.2).map (p.1, ·))

def candidate (own : Ownership) (c : Classified) (name : CandidateName) : Py (Dict String Record) := do
  let others ← unowned env inp own c.block
  let fixed := Dict.ofList (others.filterMap fun p => p.2.map (p.1, ·))
  let leaving := (others.filter (·.2.isNone)).map Prod.fst
  let milestones ← completionBlockMilestones env (milestonesCurrent env inp c.block) (milestonesWith env inp own c.block)
    fixed inp.acted (retiredIn env inp c.block ++ leaving) inp.lineage inp.selection
    (candidateTreatment c.blockClass name) c.blockClass
  return (closeRecords env inp name c.closes).merge milestones

structure Candidates where
  block : BlockKey
  blockClass : BlockClass
  records : Dict CandidateName (Dict String Record)

def Candidates.of (c : Candidates) (name : CandidateName) : Dict String Record := c.records.sub name

def candidatesOf (own : Ownership) (c : Classified) : Py Candidates := do
  let records ← (candidateOrder c.blockClass).mapM fun name => do return (name, ← candidate env inp own c name)
  return ⟨c.block, c.blockClass, Dict.ofList records⟩

def handledIds (own : Ownership) : List String :=
  let retired := own.decided.flatMap (retiredIn env inp)
  (recordedIds env inp).filter fun id =>
    (blocksOf env inp id).all (inside own.decided) && id ∉ own.notOwned && id ∉ retired

def todaysRecords (own : Ownership) : Py (Dict String Record) := do
  let reached := sortedSet (own.notOwned.filter fun id =>
    id ∈ inp.acted && (blocksOf env inp id).any (inside own.decided))
  let records ← reached.mapM fun id => do
    let record ← todaysRecord env inp id
    return (record.filter fun r => (inp.current.get? id).all fun now => !sameEvent env r now).map (id, ·)
  return Dict.ofList records.reduceOption

structure Prepared where
  own : Ownership
  blocks : List Candidates
  todays : Dict String Record

def prepare : Py Prepared := do
  let own ← ownership env inp
  let blocks ← own.owned.mapM (candidatesOf env inp own)
  return ⟨own, blocks, ← todaysRecords env inp own⟩

abbrev Link := String × BlockKey

def occurrenceLinks (id : String) (items : List FiveHour.Occurrence) : List Link :=
  (items.filter (·.status = .active)).filterMap fun o =>
    match o.block with
    | some block =>
      match Json.key env.fl block.1, Json.key env.fl block.2 with
      | some account, some window => some (id, (account, window))
      | _, _ => none
    | none => none

def recordLinks (records : Dict String Record) : List Link :=
  records.entries.filterMap fun p => (p.2.block env).map (p.1, ·)

def links (p : Prepared) : List Link :=
  (inp.lineage.milestones.entries ++ inp.lineage.closes.entries).flatMap (fun e => occurrenceLinks env e.1 e.2) ++
    p.blocks.flatMap (fun c => c.records.values.flatMap (recordLinks env)) ++ recordLinks env p.todays

def neighbours (ls : List Link) (blocks : List BlockKey) : List BlockKey :=
  (ls.filter fun l => ls.any fun m => m.1 = l.1 && m.2 ∈ blocks).map Prod.snd

def reachFrom (ls : List Link) : Nat → List BlockKey → List BlockKey
  | 0, blocks => blocks
  | fuel + 1, blocks => reachFrom ls fuel (blocks ∪ neighbours ls blocks)

structure Component where
  blocks : List BlockKey
  touched : List Candidates
  milestoneIds : List String
  retired : List Json.Fields
  todays : Dict String Record

def isMilestoneRecord (record : Option Record) : Bool := record.any (Record.isKind · "five_hour_milestone")

def milestoneIds (p : Prepared) (blocks : List BlockKey) (todays : Dict String Record) : List String :=
  let known (block : BlockKey) (id : String) : Bool :=
    id ∈ inp.lineage.milestones.keys ||
      (p.blocks.filter (·.block = block)).any fun c => c.records.values.any fun r => isMilestoneRecord (r.get? id)
  sortedSet ((((links env inp p).filter fun l => l.2 ∈ blocks && known l.2 l.1).map Prod.fst) ++
    (todays.filter fun _ r => r.isKind "five_hour_milestone").keys)

def retirementBlock (action : Json.Fields) : Py (Option BlockKey) :=
  match field action "id" with
  | .str id => .ok (((inp.current.get? id).filter fiveHour).bind (Record.block env))
  | v => if v.hashable then .ok none else .error .type

def component (p : Prepared) (start : BlockKey) : Py Component := do
  let ls := links env inp p
  let blocks := sortBlocks env (reachFrom ls ls.length [start])
  let retired ← inp.retirements.mapM fun action => do return (action, ← retirementBlock env inp action)
  let todays := p.todays.filter fun id r =>
    (blocksOf env inp id).any (inside blocks) || inside blocks (r.block env)
  return { blocks := blocks
           touched := p.blocks.filter fun c => c.block ∈ blocks
           milestoneIds := milestoneIds env inp p blocks todays
           retired := (retired.filter fun a => inside blocks a.2).map Prod.fst
           todays := todays }

def components (p : Prepared) : List BlockKey → List BlockKey → Py (List Component)
  | [], _ => .ok []
  | start :: rest, done => do
    if start ∈ done then components p rest done
    else
      let c ← component env inp p start
      return c :: (← components p rest (done ++ c.blocks))

/-! ## Simulation -/

inductive ViolationKey
  | action (id : String) (decision : Decision)
  | reason (id code : String)
  | moved (id : String)
  deriving DecidableEq

abbrev Violations := Finset ViolationKey

def restorationRank : Decision → Nat
  | .keep => 0
  | .restore => 1
  | .withhold => 2

def selectedMilestoneView (lineage : Lineage) (id : String) : Json.Fields :=
  let selected := ((lineage.milestones.get? id).getD []).find? fun o =>
    decide (o.status = .active ∧ lineage.selected.get? id = some (o.rev, o.contentHash))
  match selected with
  | some o => [("payload", .obj [("block_cost_usd", o.blockCost)])]
  | none => [("payload", .obj [])]

def violationsOf (id : String) (old new : FiveHour.Restoration) : List ViolationKey :=
  (if restorationRank old.action < restorationRank new.action then [.action id new.action] else []) ++
    (new.reasonCodes.filter (· ∉ old.reasonCodes)).map (.reason id) ++
    if old.action = .restore ∧ new.action = .restore ∧ !Json.eq env.fl old.value new.value then [.moved id] else []

def violationKeys (before after : Lineage) (ids : List String) (records : Dict String Record) : Py Violations := do
  let keys ← ids.mapM fun id => do
    let old ← before.restoration env.toEnv id (selectedMilestoneView before id)
    let new ← after.restoration env.toEnv id (((records.get? id).map Record.fields).getD (selectedMilestoneView after id))
    return violationsOf env id old new
  return keys.flatten.toFinset

def replaceAction (id : String) (rev : Int) (record : Record) : Json.Fields :=
  [("action", .str "replace"), ("at", .str (env.str record.at_)), ("id", .str id), ("payload", .obj record.payload),
    ("rev", .num (rev + 1))]

def actionId (action : Json.Fields) : Py String :=
  match field action "id" with
  | .str id => .ok id
  | _ => .error .type

def sortActions (actions : List Json.Fields) : Py (List Json) := do
  let keyed ← actions.mapM fun action => do return (← actionId action, action)
  return (keyed.insertionSort fun a b => a.1 ≤ b.1).map fun a => .obj a.2

def derivedAt (record : Record) : Py Nat :=
  match record.id with
  | .str id => .ok (inp.withGap.keys.idxOf id)
  | v => if v.hashable then .ok inp.withGap.keys.length else .error .type

def sortPlain (plain : List Record) : Py (List Json) := do
  let keyed ← plain.mapM fun record => do return (← derivedAt inp record, record)
  return (keyed.insertionSort fun a b => a.1 ≤ b.1).map fun r => .obj r.2.fields

def pending (records : Dict String Record) : List (String × Record) :=
  (sortedSet records.keys).filterMap fun id =>
    ((records.get? id).filter fun r => (inp.current.get? id).all fun now => !sameEvent env now r).map (id, ·)

def simulate (c : Component) (records : Dict String Record) : Py Violations := do
  let records := c.todays.merge records
  let appended := pending env inp records
  let actions := appended.filterMap fun p => (inp.physical.get? p.1).map fun rev => replaceAction env p.1 rev p.2
  let plain := (appended.filter fun p => (inp.physical.get? p.1).isNone).map Prod.snd
  if actions.isEmpty && plain.isEmpty && c.retired.isEmpty then return ∅
  else
    let actions ← sortActions (actions ++ c.retired)
    let plain ← sortPlain inp plain
    let after ← inp.lineage.extended env.toEnv none actions plain
    violationKeys env inp.lineage after c.milestoneIds records

abbrev Cache := Dict Json Violations

def eventsKey (records : Dict String Record) : Json :=
  .arr ((sortedSet records.keys).filterMap fun id => (records.get? id).map fun r => .arr [.str id, semanticEvent r])

def violations (c : Component) (cache : Cache) (records : Dict String Record) : Py (Violations × Cache) :=
  let key := eventsKey (c.todays.merge records)
  match cache.get? key with
  | some answer => .ok (answer, cache)
  | none => do
    let answer ← simulate env inp c records
    return (answer, cache.set key answer)

abbrev Found := Dict CandidateName Violations

def Found.of (found : Found) (name : CandidateName) : Violations := (found.get? name).getD ∅

def simulateAll (c : Component) (block : Candidates) (carried : Dict String Record) :
    List CandidateName → Cache → Found → Py (Found × Cache)
  | [], cache, found => .ok (found, cache)
  | name :: rest, cache, found => do
    let (answer, cache) ← violations env inp c cache (carried.merge (block.of name))
    simulateAll c block carried rest cache (found.set name answer)

def acceptable (order : List CandidateName) (found : Found) (name : CandidateName) : Bool :=
  found.of name ⊆ found.of .A && order.all fun other => !(decide (found.of other ⊂ found.of name))

def choose (c : Component) (block : Candidates) (carried : Dict String Record) (cache : Cache) :
    Py ((CandidateName × Found) × Cache) := do
  let order := candidateOrder block.blockClass
  let (first, cache) ← violations env inp c cache (carried.merge (block.of .proposal))
  let found : Found := Dict.empty.set .proposal first
  if first = ∅ then return ((.proposal, found), cache)
  else
    let (found, cache) ← simulateAll env inp c block carried order.tail cache found
    return (((order.find? (acceptable order found)).getD .A, found), cache)

structure Choice where
  candidates : Candidates
  landed : CandidateName
  found : Found

def landedRecords (choices : List (Candidates × CandidateName)) : Dict String Record :=
  choices.foldl (fun out p => out.merge (p.1.of p.2)) Dict.empty

def alone (c : Component) : Dict String Record := landedRecords (c.touched.map fun b => (b, .A))

def landed (choices : List Choice) : Dict String Record :=
  landedRecords (choices.map fun choice => (choice.candidates, choice.landed))

def chooseEach (c : Component) : List Candidates → Cache → Py (List Choice × Cache)
  | [], cache => .ok ([], cache)
  | block :: rest, cache => do
    let others := landedRecords ((c.touched.filter (·.block ≠ block.block)).map fun b => (b, .A))
    let ((name, found), cache) ← choose env inp c block others cache
    let (choices, cache) ← chooseEach c rest cache
    return (⟨block, name, found⟩ :: choices, cache)

def decideComponent (c : Component) : Py (List Choice × Cache) :=
  match c.touched with
  | [block] => do
    let ((name, found), cache) ← choose env inp c block .empty .empty
    return ([⟨block, name, found⟩], cache)
  | blocks => do
    let (choices, cache) ← chooseEach env inp c blocks .empty
    let (union, cache) ← violations env inp c cache (landed choices)
    let (additions, cache) ← violations env inp c cache (alone c)
    return (if union ⊆ additions then choices else choices.map fun choice => { choice with landed := .A }, cache)

structure BlockDecision where
  block : BlockKey
  blockClass : BlockClass
  component : List BlockKey
  landed : CandidateName
  violations : Found

structure CompletionFiveHourPlan where
  targets : Dict String Record
  handled : List String
  decisions : List BlockDecision

inductive PlanError
  | raised (e : PyError)
  /-- The planner and today's path would both write these ids. -/
  | outsideOwned (ids : List String)

structure Decided where
  component : Component
  choices : List Choice
  cache : Cache

def decideAll (p : Prepared) : Py (List Decided) := do
  (← components env inp p p.own.decided []).mapM fun c => do
    let (choices, cache) ← decideComponent env inp c
    return ⟨c, choices, cache⟩

def targetsOf (run : List Decided) : Dict String Record :=
  let all := run.foldl (fun out d => out.merge (landed d.choices)) Dict.empty
  Dict.ofList ((sortedSet all.keys).filterMap fun id => (all.get? id).map (id, ·))

def decisionsOf (run : List Decided) : List BlockDecision :=
  (run.flatMap fun d => d.choices.map fun choice =>
    ⟨choice.candidates.block, choice.candidates.blockClass, d.component.blocks, choice.landed, choice.found⟩).insertionSort
      fun a b => env.repr a.block ≤ env.repr b.block

def planCompletionFiveHour : Except PlanError CompletionFiveHourPlan :=
  if inp.tables.any fun table => table.values.any fun r => !r.kind.hashable then .error (.raised .type)
  else
    match prepare env inp with
    | .error e => .error (.raised e)
    | .ok prepared =>
      let handled := handledIds env inp prepared.own
      match decideAll env inp prepared with
      | .error e => .error (.raised e)
      | .ok run =>
        let outside := (targetsOf run).keys.filter (· ∉ handled)
        if outside.isEmpty then .ok ⟨targetsOf run, handled, decisionsOf env run⟩
        else .error (.outsideOwned outside)

end

end

end Cctally.Completion
