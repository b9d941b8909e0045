import Cctally.Dict
import Cctally.Doubles
import Mathlib.Data.PNat.Defs
import Mathlib.Data.Prod.Lex
import Mathlib.Data.String.Basic

/-!
# Quota observations, histories and blocks

A physical observation reads the used percent of one native quota window. Those of an
identity are ordered by their physical position, runs of one interpreted value are
collapsed to their first, and each native reset makes one block of them. Instants are
microseconds of UTC.
-/

namespace Cctally.Quota

abbrev Name := { s : String // s ≠ "" }

def UNATTRIBUTED : Name := ⟨"unattributed", by decide⟩

/-- The label fields take no part in equality: it is that of `sortKey`. -/
structure QuotaWindowIdentity where
  source : Name
  sourceRootKey : Name
  logicalLimitKey : Name
  observedSlot : Name
  windowMinutes : ℕ+
  accountKey : Name
  limitId : Option String
  limitName : Option String
  deriving DecidableEq

abbrev IdentityKey := String ×ₗ String ×ₗ String ×ₗ String ×ₗ Nat ×ₗ String

/-- `identity_sort_key`, and all that identities are compared by -/
def QuotaWindowIdentity.sortKey (i : QuotaWindowIdentity) : IdentityKey :=
  toLex (i.source.1, toLex (i.sourceRootKey.1, toLex (i.logicalLimitKey.1, toLex (i.observedSlot.1,
    toLex (i.windowMinutes.1, i.accountKey.1)))))

/-- `canonicalResetsAt` is the raw `resetsAt` where nothing else was stored. -/
structure QuotaObservation where
  identity : QuotaWindowIdentity
  capturedAt : Int
  usedPercent : { p : ℚ // 0 ≤ p ∧ p ≤ 100 }
  resetsAt : Int
  sourcePath : { s : String // s.toList.head? = some '/' }
  lineOffset : Nat
  planType : Option String
  individualLimitJson : Option String
  reachedType : Option String
  canonicalResetsAt : Int
  deriving DecidableEq

abbrev OrderKey := Int ×ₗ Int ×ₗ String ×ₗ Nat

def physicalOrderKey (o : QuotaObservation) : OrderKey :=
  toLex (o.capturedAt, toLex (o.canonicalResetsAt, toLex (o.sourcePath.1, o.lineOffset)))

structure LogicalValue where
  source : String
  sourceRootKey : String
  logicalLimitKey : String
  observedSlot : String
  windowMinutes : Nat
  limitId : Option String
  limitName : Option String
  usedPercent : ℚ
  canonicalResetsAt : Int
  planType : Option String
  individualLimitJson : Option String
  reachedType : Option String
  deriving DecidableEq

def logicalValueTuple (o : QuotaObservation) : LogicalValue where
  source := o.identity.source.1
  sourceRootKey := o.identity.sourceRootKey.1
  logicalLimitKey := o.identity.logicalLimitKey.1
  observedSlot := o.identity.observedSlot.1
  windowMinutes := o.identity.windowMinutes
  limitId := o.identity.limitId
  limitName := o.identity.limitName
  usedPercent := o.usedPercent.1
  canonicalResetsAt := o.canonicalResetsAt
  planType := o.planType
  individualLimitJson := o.individualLimitJson
  reachedType := o.reachedType

structure QuotaHistory where
  identity : QuotaWindowIdentity
  physicalObservations : List QuotaObservation
  observations : List QuotaObservation

def inPhysicalOrder (observations : List QuotaObservation) : List QuotaObservation :=
  observations.insertionSort fun a b => physicalOrderKey a ≤ physicalOrderKey b

/-- The loop of `build_history` after a row of that value: a row that repeats it is left out. -/
def interpretAfter (previousValue : Option LogicalValue) : List QuotaObservation → List QuotaObservation
  | [] => []
  | observation :: rest =>
    let value := logicalValueTuple observation
    if some value = previousValue then interpretAfter (some value) rest
    else observation :: interpretAfter (some value) rest

def byIdentity (observations : List QuotaObservation) : Dict IdentityKey (QuotaWindowIdentity × List QuotaObservation) :=
  Dict.gather (·.identity.sortKey) (·.identity) id observations

def buildHistory (observations : List QuotaObservation) : List QuotaHistory :=
  ((byIdentity observations).entries.insertionSort fun a b => a.1 ≤ b.1).map fun item =>
    let physical := inPhysicalOrder item.2.2
    { identity := item.2.1
      physicalObservations := physical
      observations := interpretAfter none physical }

/-! ## Blocks -/

structure QuotaBlock where
  identity : QuotaWindowIdentity
  resetsAt : Int
  nominalStartAt : Int
  observations : List QuotaObservation
  firstObservedAt : Int
  lastObservedAt : Int
  firstPercent : ℚ
  currentPercent : ℚ
  physicalObservations : List QuotaObservation
  deriving DecidableEq

abbrev BlockKey := IdentityKey ×ₗ Int

def MINUTE : Int := 60000000

def MIN_INSTANT : Int := -62135596800000000

/-- `resets_at - timedelta(minutes=...)`, which has to stay within the calendar -/
def nominalStart (identity : QuotaWindowIdentity) (resetsAt : Int) : Option Int :=
  let start := resetsAt - identity.windowMinutes * MINUTE
  if MIN_INSTANT ≤ start then some start else none

def byBlock (points : QuotaHistory → List QuotaObservation) (histories : List QuotaHistory) :
    Dict BlockKey (QuotaWindowIdentity × List QuotaObservation) :=
  Dict.gather (fun p => toLex (p.1.sortKey, p.2.canonicalResetsAt)) (·.1) (·.2)
    (histories.flatMap fun history => (points history).map fun observation => (history.identity, observation))

/-- One round of the loop over the blocks; `none` is an exception. -/
def buildBlock (physicalByBlock : Dict BlockKey (QuotaWindowIdentity × List QuotaObservation))
    (item : BlockKey × QuotaWindowIdentity × List QuotaObservation) : Option QuotaBlock := do
  let (key, identity, points) := item
  let resetsAt := (ofLex key).2
  let ordered := inPhysicalOrder points
  let first ← ordered.head?
  let last ← ordered.getLast?
  let nominalStartAt ← nominalStart identity resetsAt
  let physical ← physicalByBlock.get? key
  some
    { identity
      resetsAt
      nominalStartAt
      observations := ordered
      firstObservedAt := first.capturedAt
      lastObservedAt := last.capturedAt
      firstPercent := first.usedPercent.1
      currentPercent := last.usedPercent.1
      physicalObservations := inPhysicalOrder physical.2 }

def buildBlocks (observations : List QuotaObservation) : Option (List QuotaBlock) :=
  let histories := buildHistory observations
  let physicalByBlock := byBlock (·.physicalObservations) histories
  ((byBlock (·.observations) histories).entries.insertionSort fun a b => a.1 ≤ b.1).mapM (buildBlock physicalByBlock)

structure QuotaPercentMilestone where
  percent : Int
  capturedAt : Int
  observation : QuotaObservation
  deriving DecidableEq

/-- `math.floor(value + 1e-9)` in double precision -/
def integerPercent (value : ℚ) : Int := ⌊Doubles.round (value + Doubles.round (1 / 10 ^ 9))⌋

def crossed (highWater current : Int) : List Int :=
  (List.range (current - highWater).toNat).map fun i : Nat => highWater + 1 + (i : Int)

def milestonesAbove (highWater : Int) : List QuotaObservation → List QuotaPercentMilestone
  | [] => []
  | observation :: rest =>
    let current := integerPercent observation.usedPercent.1
    if current ≤ highWater then milestonesAbove highWater rest
    else ((crossed highWater current).map fun percent =>
        { percent := percent, capturedAt := observation.capturedAt, observation := observation }) ++
      milestonesAbove current rest

def percentMilestones (block : QuotaBlock) : List QuotaPercentMilestone :=
  match block.observations with
  | [] => []
  | first :: observations => milestonesAbove (integerPercent first.usedPercent.1) observations

abbrev WindowKey := String × String × String × String × Nat × Int

def physicalWindowKey (o : QuotaObservation) : WindowKey :=
  (o.identity.source.1, o.identity.sourceRootKey.1, o.identity.logicalLimitKey.1, o.identity.observedSlot.1,
    o.identity.windowMinutes.1, o.canonicalResetsAt)

def identifiedByWindow (values : List QuotaObservation) : Dict WindowKey (List Name) :=
  Dict.group physicalWindowKey (·.identity.accountKey) (values.filter (·.identity.accountKey ≠ UNATTRIBUTED))

def QuotaObservation.adoptedBy (o : QuotaObservation) (account : Name) : QuotaObservation :=
  { o with identity := { o.identity with accountKey := account } }

def adoptOne (identified : Dict WindowKey (List Name)) (o : QuotaObservation) : QuotaObservation :=
  if o.identity.accountKey ≠ UNATTRIBUTED then o
  else
    match identified.get? (physicalWindowKey o) with
    | some [adopted] => o.adoptedBy adopted
    | _ => o

def adoptUnidentifiedObservations (values : List QuotaObservation) : List QuotaObservation :=
  values.map (adoptOne (identifiedByWindow values))

end Cctally.Quota
