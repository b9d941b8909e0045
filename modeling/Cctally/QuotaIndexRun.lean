import Cctally.QuotaIndex

/-!
# The processes that use the index of quota observations

Appends run under the leaf lock and can crash anywhere. A rebuild scans without the lock while
the segments grow, and publishes under it. What is not synced is lost with the power.
-/

namespace Cctally.QuotaIndex

open Attribution (segmentSortKey)
open Segments (Encoded isSegmentName repairTornTail MAX_LINE_BYTES)
open TornLines

/-- Where a rebuild stands: at a capture, with captured prefixes or grown suffixes to scan, in a
catch-up round, or about to take the leaf lock. -/
inductive Phase
  | capture
  | scan (todo : List Target)
  | measure (round : Nat)
  | grow (round : Nat) (todo : List Target)
  | remaining (round : Nat)
  | lock

structure Rebuild (Key : Type*) where
  attempts : Nat
  coverage : Coverage
  written : List Key
  phase : Phase

/-- The process that holds the rebuild lock has the one rebuild. -/
structure State (Key : Type*) where
  dir : Dir Key
  procs : Nat → Proc Key
  rebuild : Option (Nat × Rebuild Key)

def noJournal {Key : Type*} : State Key := ⟨DurableDir.empty ⊥, fun _ => noKeys, none⟩

/-! ## Appends -/

inductive Halt
  | opened
  | written (n : Nat)
  | synced
  | dirSynced
  | keyTorn (n : Fin 18)
  | keyWritten

inductive Result
  | returned
  | skipped
  | refused
  | crashed
  deriving DecidableEq

structure Append where
  proc : Nat
  segment : String
  named : isSegmentName segment = true
  group : List Encoded
  dedupe : Bool

def Append.data (a : Append) : Bytes := (a.group.map Encoded.bytes).flatten

section
variable {Key : Type*} [LinearOrder Key] (keyOf : Bytes → Option Key)

def Append.key (a : Append) : Option Key :=
  match a.group with
  | [e] => keyOf e.bytes
  | _ => none

def State.setProc (s : State Key) (p : Nat) (proc : Proc Key) : State Key :=
  { s with procs := Function.update s.procs p proc }

def State.exit (s : State Key) (p : Nat) : State Key :=
  ⟨s.dir, Function.update s.procs p noKeys, s.rebuild.filter fun r => r.1 ≠ p⟩

def State.crash (s : State Key) (p : Nat) (dir : Dir Key) : State Key × Result :=
  (State.exit { s with dir := dir } p, .crashed)

def KeyFile.add (file : KeyFile Key) (key : Key) : KeyFile Key :=
  match file.tail with
  | .whole => ⟨file.keys ++ [key], .whole⟩
  | tail => ⟨file.keys, .garbled (tail.length + QUOTA_KEY_LINE_BYTES) true⟩

def KeyFile.tear (file : KeyFile Key) (n : Nat) : KeyFile Key :=
  match file.tail with
  | .whole => ⟨file.keys, .torn n⟩
  | .torn m => ⟨file.keys, .torn (m + n + 1)⟩
  | .garbled m _ => ⟨file.keys, .garbled (m + n + 1) false⟩

def indexKey (s : State Key) (p : Nat) (dir : Dir Key) (key : Key) (halt : Option Halt) : State Key × Result :=
  match contentOf dir .keys with
  | some (i, .keys file) =>
    match halt with
    | some (.keyTorn n) => s.crash p (dir.write i (.keys (file.tear n)))
    | some .keyWritten => s.crash p (dir.write i (.keys (file.add key)))
    | _ =>
      let proc := s.procs p
      let loaded := proc.loaded.map fun l =>
        if l.1 = i ∧ file.size = QUOTA_KEY_LINE_BYTES * l.2 then (l.1, l.2 + 1) else l
      (State.setProc { s with dir := (dir.write i (.keys (file.add key))).sync i } p ⟨loaded, proc.keys ++ [key]⟩, .returned)
  | _ => (State.setProc { s with dir := dir } p noKeys, .returned)

def openSegment (dir : Dir Key) (name : String) : Dir Key × Nat × Bool :=
  match dir.live.get? (.segment name) with
  | some i => (dir, i, false)
  | none => (dir.create (.segment name), dir.fresh, true)

def writeSegment (s : State Key) (a : Append) (key : Option Key) (halt : Option Halt) : State Key × Result :=
  let (dir, i, created) := openSegment s.dir a.segment
  match halt with
  | some .opened => s.crash a.proc dir
  | _ =>
    match repairTornTail (dir.node i).bytes with
    | none => ({ s with dir := dir }, .refused)
    | some valid =>
      match halt with
      | some (.written n) => s.crash a.proc (dir.write i (.segment (valid ++ a.data.take n)))
      | _ =>
        let written := (dir.write i (.segment (valid ++ a.data))).sync i
        match halt with
        | some .synced => s.crash a.proc written
        | _ =>
          let durable := if created then written.syncDir else written
          match halt with
          | some .dirSynced => s.crash a.proc durable
          | _ =>
            match key with
            | none => ({ s with dir := durable }, .returned)
            | some key => indexKey s a.proc durable key halt

/-- `append_record` and `append_records` under the leaf lock. -/
def append (s : State Key) (a : Append) (halt : Option Halt) : State Key × Result :=
  if a.group.any fun e => decide (MAX_LINE_BYTES < e.bytes.length) then (s, .refused)
  else if a.dedupe then
    match loadKeys s.dir (s.procs a.proc) with
    | none => (s.setProc a.proc noKeys, .refused)
    | some proc =>
      match a.key keyOf with
      | none => (s.setProc a.proc proc, .refused)
      | some key =>
        if key ∈ proc.keys then (s.setProc a.proc proc, .skipped)
        else writeSegment (s.setProc a.proc proc) a (some key) halt
  else writeSegment s a none halt

/-! ## Rebuilds -/

def QUOTA_INDEX_MAX_CATCHUP_ROUNDS : Nat := 32

def addNew (written found : List Key) : List Key := found.foldl (fun w k => if k ∈ w then w else w ++ [k]) written

def scanTargets (dir : Dir Key) : List Target → Coverage → List Key → Scan (Coverage × List Key)
  | [], coverage, written => .found (coverage, written)
  | t :: todo, coverage, written =>
    match scanRange keyOf dir t with
    | .found keys => scanTargets dir todo (coverage.set t.name (t.node, t.stop)) (addNew written keys)
    | .changed => .changed
    | .gone => .gone

inductive Progress (Key : Type*)
  | next (r : Rebuild Key)
  | failed
  | publish (coverage : Coverage) (keys : List Key)

def Rebuild.restart (r : Rebuild Key) : Progress Key := .next { r with phase := .capture }

def Rebuild.scanOne (r : Rebuild Key) (dir : Dir Key) (t : Target) (after : Phase) : Progress Key :=
  match scanTargets keyOf dir [t] r.coverage r.written with
  | .found (coverage, written) => .next ⟨r.attempts, coverage, written, after⟩
  | .changed => r.restart
  | .gone => .failed

variable (suffixBound maxAttempts : Nat)

/-- The next step of `_rebuild_quota_index_locked`. -/
def advance (dir : Dir Key) (r : Rebuild Key) : Progress Key :=
  match r.phase with
  | .capture =>
    if r.attempts < maxAttempts then .next ⟨r.attempts + 1, Dict.empty, [], .scan (captureSegments dir)⟩ else .failed
  | .scan [] => .next { r with written := r.written.insertionSort (· ≤ ·), phase := .measure 0 }
  | .scan (t :: todo) => r.scanOne keyOf dir t (.scan todo)
  | .measure n =>
    if QUOTA_INDEX_MAX_CATCHUP_ROUNDS ≤ n then r.restart
    else
      match uncovered dir r.coverage completeLineOffset with
      | .error _ => r.restart
      | .ok targets => .next { r with phase := .grow n targets }
  | .grow n [] => .next { r with phase := .remaining n }
  | .grow n (t :: todo) => r.scanOne keyOf dir t (.grow n todo)
  | .remaining n =>
    match uncovered dir r.coverage List.length with
    | .error _ => r.restart
    | .ok targets =>
      .next { r with phase := if uncoveredBytes targets ≤ suffixBound then .lock else .measure (n + 1) }
  | .lock =>
    match uncovered dir r.coverage completeLineOffset with
    | .error _ => r.restart
    | .ok targets =>
      if suffixBound < uncoveredBytes targets then
        if maxAttempts ≤ r.attempts then r.restart
        else .next { r with attempts := r.attempts + 1, phase := .measure 0 }
      else
        match scanTargets keyOf dir targets r.coverage r.written with
        | .found (coverage, written) => .publish coverage written
        | .changed => r.restart
        | .gone => .failed

inductive PublishHalt
  | keysRenamed
  | sidecarRenamed

def covered (coverage : Coverage) : List Covered :=
  (coverage.entries.map fun e => (⟨e.1, e.2.1, e.2.2⟩ : Covered)).insertionSort fun a b =>
    segmentSortKey a.name ≤ segmentSortKey b.name

def newSidecar (i : Nat) (coverage : Coverage) (keys : List Key) : Sidecar :=
  ⟨i, QUOTA_KEY_LINE_BYTES * keys.length, keys.length, covered coverage⟩

def publishKeys (dir : Dir Key) (coverage : Coverage) (keys : List Key) : Dir Key :=
  ((dir.alloc (.keys ⟨keys, .whole⟩)).alloc (.sidecar (newSidecar dir.fresh coverage keys))).rename .keys dir.fresh

def publishBoth (dir : Dir Key) (coverage : Coverage) (keys : List Key) : Dir Key :=
  (publishKeys dir coverage keys).rename .sidecar (dir.fresh + 1)

/-- `_quota_index_publish`: the keys file, then the sidecar, then the directory's sync. -/
def publish (s : State Key) (p : Nat) (coverage : Coverage) (keys : List Key) (halt : Option PublishHalt) : State Key :=
  match halt with
  | some .keysRenamed => State.exit { s with dir := publishKeys s.dir coverage keys } p
  | some .sidecarRenamed => State.exit { s with dir := publishBoth s.dir coverage keys } p
  | none =>
    State.setProc { s with dir := (publishBoth s.dir coverage keys).syncDir } p ⟨some (s.dir.fresh, keys.length), keys⟩

/-- A rebuild starts when none holds the lock and the index is not valid, and goes on a step at a time. -/
def rebuildStep (s : State Key) (p : Nat) (halt : Option PublishHalt) : State Key :=
  match s.rebuild with
  | none => if (validate s.dir).isSome then s else { s with rebuild := some (p, ⟨0, Dict.empty, [], .capture⟩) }
  | some (q, r) =>
    if q ≠ p then s
    else
      match advance keyOf suffixBound maxAttempts s.dir r with
      | .next r => { s with rebuild := some (p, r) }
      | .failed => { s with rebuild := none }
      | .publish coverage keys => publish { s with rebuild := none } p coverage keys halt

inductive Event
  | append (a : Append) (halt : Option Halt)
  | unlinkEmpty (name : String)
  | syncDir
  | rebuild (p : Nat) (halt : Option PublishHalt)
  | exit (p : Nat)
  | powerLoss
  | replace (name : String) (bytes : Bytes)
  | move (source target : String)
  | remove (name : String)

def step (s : State Key) : Event → State Key
  | .append a halt => (append keyOf s a halt).1
  | .unlinkEmpty name =>
    match contentOf s.dir (.segment name) with
    | some (_, content) => if content.bytes = [] then { s with dir := s.dir.unlink (.segment name) } else s
    | none => s
  | .syncDir => { s with dir := s.dir.syncDir }
  | .rebuild p halt => rebuildStep keyOf suffixBound maxAttempts s p halt
  | .exit p => s.exit p
  | .powerLoss => ⟨s.dir.powerLoss, fun _ => noKeys, none⟩
  | .replace name bytes => { s with dir := (s.dir.alloc (.segment bytes)).rename (.segment name) s.dir.fresh }
  | .move source target =>
    match s.dir.live.get? (.segment source) with
    | some i => { s with dir := (s.dir.unlink (.segment source)).rename (.segment target) i }
    | none => s
  | .remove name => { s with dir := s.dir.unlink (.segment name) }

def run (s : State Key) (events : List Event) : State Key := events.foldl (step keyOf suffixBound maxAttempts) s

end

end Cctally.QuotaIndex
