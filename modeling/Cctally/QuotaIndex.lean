import Cctally.DurableDir
import Cctally.Except
import Cctally.SegmentsRepair
import Mathlib

/-!
# The index of quota observations

A keys file lists the natural keys of the journal's observations, and a sidecar names the
keys file and how far each segment is covered. A deduplicating append reads the index under
the leaf lock, and adds its key after its line is durable.
-/

namespace Cctally.QuotaIndex

open Attribution (segmentSortKey)
open Segments (isSegmentName)
open Segments.Directory (sortSegments)
open TornLines
export Segments (Bytes newline)

variable {Key : Type*}

def QUOTA_KEY_LINE_BYTES : Nat := 19

/-- What follows the whole key lines: nothing, a byte and some more of one, or bytes with a line in them that is no key. -/
inductive Tail
  | whole
  | torn (more : Nat)
  | garbled (bytes : Nat) (ended : Bool)
  deriving DecidableEq

def Tail.length : Tail → Nat
  | whole => 0
  | torn n => n + 1
  | garbled n _ => n

def Tail.ended : Tail → Bool
  | whole => true
  | torn _ => false
  | garbled _ ended => ended

structure KeyFile (Key : Type*) where
  keys : List Key
  tail : Tail

def KeyFile.size (file : KeyFile Key) : Nat := QUOTA_KEY_LINE_BYTES * file.keys.length + file.tail.length

structure Covered where
  name : String
  node : Nat
  extent : Nat
  deriving DecidableEq

structure Sidecar where
  indexNode : Nat
  indexBytes : Nat
  keyCount : Nat
  coverage : List Covered
  deriving DecidableEq

inductive Content (Key : Type*)
  | segment (bytes : Bytes)
  | keys (file : KeyFile Key)
  | sidecar (s : Sidecar)

inductive Entry
  | segment (name : String)
  | keys
  | sidecar
  deriving DecidableEq

def Content.bytes : Content Key → Bytes
  | segment b => b
  | _ => []

def Content.indexed : Content Key → List Key
  | keys file => file.keys
  | _ => []

instance : Preorder (Content Key) where
  le a b := lines newline a.bytes <+: lines newline b.bytes
  le_refl _ := List.prefix_rfl
  le_trans _ _ _ hab hbc := hab.trans hbc

instance : OrderBot (Content Key) where
  bot := .segment []
  bot_le _ := List.nil_prefix

abbrev Dir (Key : Type*) := DurableDir Entry (Content Key)

def contentOf (dir : Dir Key) (e : Entry) : Option (Nat × Content Key) :=
  (dir.live.get? e).map fun i => (i, dir.node i)

def listSegments (dir : Dir Key) : List String :=
  sortSegments (dir.live.keys.filterMap fun
    | .segment name => if isSegmentName name then some name else none
    | _ => none)

/-- `_read_quota_index_meta`: the sidecar agrees with itself. -/
def readMeta (s : Sidecar) : Bool :=
  decide (s.indexBytes = s.keyCount * QUOTA_KEY_LINE_BYTES) && decide (s.coverage.map Covered.name).Nodup &&
    s.coverage.all fun c => ".jsonl".toList.isSuffixOf c.name.toList

def covers (dir : Dir Key) (c : Covered) : Bool :=
  match contentOf dir (.segment c.name) with
  | some (i, content) => decide (i = c.node) && decide (c.extent ≤ content.bytes.length)
  | none => false

def coversFirst (dir : Dir Key) (coverage : List Covered) : Bool :=
  (listSegments dir).all fun name =>
    decide (name ∈ coverage.map Covered.name) || coverage.all fun c => decide (segmentSortKey c.name < segmentSortKey name)

/-- What `_quota_index_validation` asks of a sidecar and the keys file. -/
def validFor (dir : Dir Key) (s : Sidecar) (i : Nat) (file : KeyFile Key) : Prop :=
  readMeta s = true ∧ i = s.indexNode ∧ s.indexBytes ≤ file.size ∧
    (file.size - s.indexBytes) % QUOTA_KEY_LINE_BYTES = 0 ∧ (file.size = 0 ∨ file.tail.ended = true) ∧
    s.coverage.all (covers dir) = true ∧ coversFirst dir s.coverage = true

instance (dir : Dir Key) (s : Sidecar) (i : Nat) (file : KeyFile Key) : Decidable (validFor dir s i file) :=
  inferInstanceAs (Decidable (_ ∧ _ ∧ _ ∧ _ ∧ _ ∧ _ ∧ _))

def validate (dir : Dir Key) : Option (Sidecar × Nat × KeyFile Key) :=
  match contentOf dir .sidecar, contentOf dir .keys with
  | some (_, .sidecar s), some (i, .keys file) => if validFor dir s i file then some (s, i, file) else none
  | _, _ => none

structure Proc (Key : Type*) where
  loaded : Option (Nat × Nat)
  keys : List Key

def noKeys : Proc Key := ⟨none, []⟩

def KeyFile.complete (file : KeyFile Key) : Option (List Key) :=
  match file.tail with
  | .garbled _ _ => none
  | _ => some file.keys

/-- `_catch_up_loaded_quota_keys`: the growth of the file the set came from. -/
def catchUp (dir : Dir Key) (p : Proc Key) : Option (Proc Key) :=
  match p.loaded, contentOf dir .keys with
  | some (i, consumed), some (j, .keys file) =>
    if i = j ∧ QUOTA_KEY_LINE_BYTES * consumed ≤ file.size then
      if file.size = QUOTA_KEY_LINE_BYTES * consumed then some p
      else file.complete.map fun keys => ⟨some (i, max consumed keys.length), p.keys ++ keys.drop consumed⟩
    else none
  | _, _ => none

/-- `_load_quota_dedup_keys`; `none` when the index is unavailable. -/
def loadKeys (dir : Dir Key) (p : Proc Key) : Option (Proc Key) :=
  match catchUp dir p with
  | some p => some p
  | none =>
    match validate dir with
    | none => none
    | some (s, i, file) =>
      match file.complete with
      | none => none
      | some keys =>
        if QUOTA_KEY_LINE_BYTES * keys.length < s.indexBytes then none else some ⟨some (i, keys.length), keys⟩

def COMPLETE_LINE_TAIL_WINDOW : Nat := 2 ^ 20

/-- `_complete_line_offset`: zero for a tail as long as the window. -/
def completeLineOffset (bytes : Bytes) : Nat :=
  if bytes.length = 0 then 0
  else if bytes.getLast? = some newline then bytes.length
  else
    let start := bytes.length - min bytes.length COMPLETE_LINE_TAIL_WINDOW
    match rfind newline (bytes.drop start) with
    | none => 0
    | some i => start + i + 1

structure Target where
  name : String
  node : Nat
  start : Nat
  stop : Nat

inductive Scan (α : Type*)
  | found (a : α)
  | changed
  | gone

section
variable (keyOf : Bytes → Option Key)

def keysOf (bytes : Bytes) : List Key := (lines newline bytes).filterMap keyOf

def scanRange (dir : Dir Key) (t : Target) : Scan (List Key) :=
  if t.stop ≤ t.start then .found []
  else
    match contentOf dir (.segment t.name) with
    | none => .gone
    | some (i, content) =>
      if i ≠ t.node ∨ content.bytes.length < t.stop then .changed
      else
        let range := (content.bytes.take t.stop).drop t.start
        if range.getLast? = some newline then .found (keysOf keyOf range) else .changed

end

/-- `_capture_quota_segments`, as the ranges the captured prefixes are scanned in. -/
def captureSegments (dir : Dir Key) : List Target :=
  (listSegments dir).filterMap fun name =>
    (contentOf dir (.segment name)).map fun found => ⟨name, found.1, 0, completeLineOffset found.2.bytes⟩

abbrev Coverage := Dict String (Nat × Nat)

/-- The growth of one segment past its coverage, up to `measure`; raised when it was replaced or shrunk. -/
def uncoveredOf (dir : Dir Key) (coverage : Coverage) (measure : Bytes → Nat) (name : String) : Except String Target :=
  match contentOf dir (.segment name) with
  | none => .error name
  | some (i, content) =>
    match coverage.get? name with
    | some (node, extent) =>
      if i ≠ node ∨ content.bytes.length < extent ∨ measure content.bytes < extent then .error name
      else .ok ⟨name, i, extent, measure content.bytes⟩
    | none => .ok ⟨name, i, 0, measure content.bytes⟩

/-- `_quota_uncovered`'s targets; their lengths are the uncovered bytes. -/
def uncovered (dir : Dir Key) (coverage : Coverage) (measure : Bytes → Nat) : Except String (List Target) :=
  match coverage.keys.find? fun name => decide (name ∉ listSegments dir) with
  | some name => .error name
  | none => (listSegments dir).mapM (uncoveredOf dir coverage measure)

def uncoveredBytes (targets : List Target) : Nat := (targets.map fun t => t.stop - t.start).sum

end Cctally.QuotaIndex
