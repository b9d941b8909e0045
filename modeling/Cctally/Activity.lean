import Cctally.Dict
import Mathlib.Data.List.MinMax
import Mathlib.Data.Prod.Lex
import Mathlib.Data.String.Basic

/-!
# Provider activity of a transcript

An arrival captures the latest qualifying instant over the main transcript and
its subagent transcripts. A cache document keeps, for each file incarnation,
what a scan of its captured prefix answered, and the latest instant any earlier
arrival found.
-/

namespace Cctally.Activity

def maxInventory : Nat := 4096
def arrivalFileBudget : Nat := 8

structure Instant where
  seconds : Int
  fraction : List (Fin 10)
  digits : fraction.length ≤ 9
  deriving DecidableEq

def instantKey (i : Instant) : Int :=
  i.seconds * 1000000000 + ((i.fraction ++ List.replicate 9 0).take 9).foldl (fun (n : Int) (d : Fin 10) => 10 * n + d.val) 0

def instantPrecision (i : Instant) : Nat := i.fraction.length

local instance preorderInt : Preorder Int := Int.instLinearOrder.toPreorder

def instantOrder (i : Instant) : Int ×ₗ Nat := toLex (instantKey i, instantPrecision i)

def latestOrNone (instants : List Instant) : Option Instant := instants.argmax instantOrder

inductive UnknownReason where
  | noTranscriptPath
  | missing
  | unreadable
  | malformed
  | scanExhausted
  | coverageIncomplete
  | noQualifyingRecord
  deriving DecidableEq

inductive ScanStatus where
  | known (instant : Instant)
  | none
  | unknown (reason : UnknownReason)
  | unexamined
  deriving DecidableEq

structure Scan where
  status : ScanStatus
  linesEnd : Option Nat
  deriving DecidableEq

def Scan.instant (scan : Scan) : Option Instant :=
  match scan.status with
  | .known instant => some instant
  | _ => none

def Scan.refused (reason : UnknownReason) : Scan := ⟨.unknown reason, none⟩

structure FileKey where
  device : Nat
  inode : Nat
  size : Nat
  mtimeNs : Nat
  deriving DecidableEq

structure Record where
  key : FileKey
  scan : Scan
  deriving DecidableEq

structure Cache where
  main : Option Record
  mainPathDigest : Option String
  subagents : Dict String Record
  cursor : Option String
  observedInstant : Option Instant

def Cache.empty : Cache := ⟨none, none, Dict.empty, none, none⟩

/-- What opening a path gives: no regular file, or an incarnation and what a backward scan of a region of it answers. -/
inductive Opened where
  | failed (reason : UnknownReason)
  | regular (key : FileKey) (scanRegion : Nat → Nat → Scan)

inductive Directory where
  | absent
  | failed
  | entries (names : List String)

structure Arrival where
  locked : Bool
  mainStat : Except UnknownReason FileKey
  mainOpened : Opened
  directory : Directory
  stat : String → Except UnknownReason FileKey
  opened : String → Opened

inductive Evidence where
  | known (instant : Instant)
  | unknown (reason : UnknownReason)
  deriving DecidableEq

structure ActivityWitness where
  evidence : Evidence
  filesTotal : Nat
  filesExamined : Nat
  digest : String
  deriving DecidableEq

def isSubagentName (name : String) : Bool :=
  name.startsWith "agent-" && name.endsWith ".jsonl" && "agent-.jsonl".length < name.length &&
    !name.toList.contains '/' && !name.toList.contains '\x00'

def sorted (names : List String) : List String := names.insertionSort (· ≤ ·)

def listSubagents : Directory → List String × Bool
  | .absent => ([], true)
  | .failed => ([], false)
  | .entries entries =>
    let names := entries.filter isSubagentName
    if maxInventory < names.length then (sorted (names.take maxInventory), false) else (sorted names, true)

def changed (cached : Record) (key : FileKey) : Option Scan :=
  if (cached.key.device, cached.key.inode) ≠ (key.device, key.inode) ∨ key.size < cached.key.size then
    some (.refused .coverageIncomplete)
  else none

def examine (opened : Opened) (cached : Option Record) : Option Record × Scan :=
  match opened with
  | .failed reason => (none, .refused reason)
  | .regular key scanRegion =>
    let whole := scanRegion 0 key.size
    match cached with
    | none => (some ⟨key, whole⟩, whole)
    | some c =>
      if c.key = key then (some c, c.scan)
      else
        match changed c key with
        | some refused => (some ⟨key, refused⟩, refused)
        | none =>
          match c.scan.linesEnd with
          | none => (some ⟨key, whole⟩, whole)
          | some linesEnd =>
            if c.scan.status = .unknown .unreadable then (some ⟨key, whole⟩, whole)
            else
              let suffix := scanRegion linesEnd key.size
              let result := if suffix.status = .none then { c.scan with linesEnd := suffix.linesEnd } else suffix
              (some ⟨key, result⟩, result)

/-! ## Capture -/

abbrev Entry := String × Option FileKey × ScanStatus

def forget (pathDigest : String) (cache : Cache) : Cache :=
  if cache.mainPathDigest ≠ some pathDigest then
    { cache with main := none, subagents := Dict.empty, cursor := none, observedInstant := none }
  else cache

def knownInstants (cache : Cache) : List Instant :=
  (cache.main.toList ++ cache.subagents.values).filterMap fun r => r.scan.instant

def foldObserved (cache : Cache) : Cache :=
  { cache with observedInstant := latestOrNone (cache.observedInstant.toList ++ knownInstants cache) }

def captureMain (arrival : Arrival) (cached : Option Record) : Option Record × Scan :=
  match cached, arrival.mainStat with
  | some c, .ok key => if key = c.key then (some c, c.scan) else examine arrival.mainOpened cached
  | _, _ => examine arrival.mainOpened cached

structure Progress where
  subagents : Dict String Record
  results : Dict String (Option FileKey × Scan)
  work : List String

def classify (arrival : Arrival) (p : Progress) (name : String) : Progress :=
  match arrival.stat name with
  | .error reason =>
    let reason := if reason = .missing then .coverageIncomplete else reason
    { p with subagents := p.subagents.erase name, results := p.results.set name (none, .refused reason) }
  | .ok key =>
    match p.subagents.get? name with
    | none => { p with work := p.work ++ [name] }
    | some cached =>
      if cached.key = key then { p with results := p.results.set name (some key, cached.scan) }
      else
        match changed cached key with
        | some refused =>
          { p with
            subagents := p.subagents.set name ⟨key, refused⟩
            results := p.results.set name (some key, refused) }
        | none => { p with work := p.work ++ [name] }

def rotate (cursor : Option String) (work : List String) : List String :=
  match cursor with
  | none => work
  | some cursor => work.filter (cursor < ·) ++ work.filter (· ≤ cursor)

def examineOne (arrival : Arrival) (p : Progress × Option String) (name : String) : Progress × Option String :=
  let (record, scan) := examine (arrival.opened name) (p.1.subagents.get? name)
  match record with
  | none =>
    let scan := if scan.status = .unknown .missing then .refused .coverageIncomplete else scan
    ({ p.1 with subagents := p.1.subagents.erase name, results := p.1.results.set name (none, scan) }, some name)
  | some record =>
    ({ p.1 with
        subagents := p.1.subagents.set name record
        results := p.1.results.set name (some record.key, scan) }, some name)

def leave (p : Progress) (name : String) : Progress :=
  { p with results := p.results.set name (none, ⟨.unexamined, none⟩) }

/-- The subagent files of one arrival: what is cached, then what the budget allows, in rotation. -/
def captureSubagents (arrival : Arrival) (subagents : Dict String Record) (cursor : Option String)
    (names : List String) : Progress × Option String :=
  let classified := names.foldl (classify arrival) ⟨subagents, Dict.empty, []⟩
  let work := rotate cursor classified.work
  let (examined, cursor) := (work.take arrivalFileBudget).foldl (examineOne arrival) (classified, cursor)
  ((work.drop arrivalFileBudget).foldl leave examined, cursor)

def firstUnknown (results : Dict String (Option FileKey × Scan)) (names : List String) : Option UnknownReason :=
  names.findSome? fun name =>
    match results.get? name with
    | some (_, ⟨.unknown reason, _⟩) => some reason
    | _ => none

def verdict (resolved : Bool) (unknown : Option UnknownReason) (covered : Bool) (latest : Option Instant) : Evidence :=
  if !resolved then .unknown .coverageIncomplete
  else
    match unknown with
    | some reason => .unknown reason
    | none =>
      if !covered then .unknown .coverageIncomplete
      else
        match latest with
        | none => .unknown .noQualifyingRecord
        | some latest => .known latest

section
variable (digest : List Entry → Bool → Bool → String) (pathDigest : String)

def capture (cache : Cache) (cacheValid : Bool) (arrival : Arrival) : ActivityWitness × Cache :=
  let cache := foldObserved (forget pathDigest cache)
  let (record, main) := captureMain arrival cache.main
  let cache := { cache with main := record, mainPathDigest := record.map fun _ => pathDigest }
  let mainEntry : Entry := ("main", record.map Record.key, main.status)
  match main.status with
  | .unknown reason => (⟨.unknown reason, 1, 1, digest [mainEntry] true cacheValid⟩, cache)
  | _ =>
    let (names, inventoryComplete) := listSubagents arrival.directory
    let vanished := inventoryComplete && cache.subagents.keys.any fun name => !names.contains name
    let kept := if inventoryComplete then cache.subagents.filter fun name _ => names.contains name else cache.subagents
    let (progress, cursor) := captureSubagents arrival kept cache.cursor names
    let cache := { cache with subagents := progress.subagents, cursor := cursor }
    let entries := names.filterMap fun name => (progress.results.get? name).map fun r => (name, r.1, r.2.status)
    let total := 1 + names.length
    let examined := total - progress.results.values.countP fun r => r.2.status = .unexamined
    let witness := fun evidence : Evidence =>
      (⟨evidence, total, examined, digest (mainEntry :: entries) inventoryComplete cacheValid⟩ : ActivityWitness)
    let instants := main.instant.toList ++ progress.results.values.filterMap (fun r => r.2.instant) ++
      cache.observedInstant.toList
    (witness (verdict (inventoryComplete && !vanished) (firstUnknown progress.results names)
      (!(examined < total) && cacheValid) (latestOrNone instants)), cache)

/-- One arrival of the transcript: without the lock it starts from an empty cache and stores nothing. -/
def captureLocked (cache : Cache) (arrival : Arrival) : ActivityWitness × Cache :=
  if arrival.locked then capture digest pathDigest cache true arrival
  else ((capture digest pathDigest .empty true arrival).1, cache)

def witnesses : Cache → List Arrival → List ActivityWitness
  | _, [] => []
  | cache, arrival :: arrivals =>
    let (witness, next) := captureLocked digest pathDigest cache arrival
    witness :: witnesses next arrivals

end

end Cctally.Activity
