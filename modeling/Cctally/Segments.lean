import Cctally.AttributionJournal
import Cctally.TornLines
import Mathlib.Data.List.Sort

/-!
# Appending to the journal directory

An append runs under the leaf lock: it resolves the month's segment, checks that it is the
canonically last one, repairs its torn tail, and writes its lines. It can stop anywhere.
-/

namespace Cctally.Segments

open Attribution (segmentSortKey SEGMENT_PREFIX BOOTSTRAP_PREFIX)
open TornLines

abbrev Bytes := List UInt8

def newline : UInt8 := 10

def TAIL_WINDOW : Nat := 64 * 1024

def MAX_LINE_BYTES : Nat := TAIL_WINDOW

structure Encoded where
  body : Bytes
  clean : newline ∉ body

def Encoded.bytes (e : Encoded) : Bytes := e.body ++ [newline]

structure Month where
  year : Nat
  month : Nat
  year_mem : 1 ≤ year ∧ year ≤ 9999
  month_mem : 1 ≤ month ∧ month ≤ 12

def digit (n : Nat) : Char := Char.ofNat (48 + n % 10)

def segmentName (m : Month) : String :=
  String.ofList (SEGMENT_PREFIX.toList ++
    [digit (m.year / 1000), digit (m.year / 100), digit (m.year / 10), digit m.year, '-',
      digit (m.month / 10), digit m.month] ++ ".jsonl".toList)

def ofDigits (cs : List Char) : Option Nat :=
  if cs.all Char.isDigit then some (cs.foldl (fun n c => 10 * n + (c.toNat - 48)) 0) else none

def observationSegmentMonth (name : String) : Option (Nat ×ₗ Nat) :=
  let chars := name.toList
  if SEGMENT_PREFIX.toList.isPrefixOf chars && ".jsonl".toList.isSuffixOf chars then
    match (chars.take (chars.length - ".jsonl".toList.length)).drop SEGMENT_PREFIX.toList.length with
    | [y, y', y'', y''', '-', m, m'] =>
      match ofDigits [y, y', y'', y'''], ofDigits [m, m'] with
      | some year, some month =>
        if year < 1 then none else if 1 ≤ month ∧ month ≤ 12 then some (toLex (year, month)) else none
      | _, _ => none
    | _ => none
  else none

def isSegmentName (name : String) : Bool :=
  ".jsonl".toList.isSuffixOf name.toList &&
    (BOOTSTRAP_PREFIX.toList.isPrefixOf name.toList || SEGMENT_PREFIX.toList.isPrefixOf name.toList)

/-! ## The directory -/

/-- An entry of the journal directory: a file, a link to a file elsewhere (or to none), or
anything that cannot be opened for appending. No two entries share a file. -/
inductive Node
  | file (bytes : Bytes)
  | link (target : Option Bytes)
  | other
  deriving DecidableEq

def Node.bytes : Node → Bytes
  | file b => b
  | link (some b) => b
  | _ => []

def Node.isFile : Node → Bool
  | file _ => true
  | link (some _) => true
  | _ => false

abbrev Directory := Dict String Node

namespace Directory

def bytesOf (d : Directory) (name : String) : Bytes :=
  match d.get? name with
  | none => []
  | some node => node.bytes

def sortSegments (names : List String) : List String :=
  names.insertionSort fun a b => segmentSortKey a ≤ segmentSortKey b

def candidates (d : Directory) : List String := sortSegments (d.keys.filter isSegmentName)

/-- `list_segments`: those that are files. -/
def listSegments (d : Directory) : List String :=
  sortSegments (d.keys.filter fun name => isSegmentName name && ((d.get? name).map Node.isFile).getD false)

def readLines (d : Directory) : List (String × Bytes) :=
  (listSegments d).flatMap fun name => (lines newline (bytesOf d name)).map fun line => (name, line)

def write (d : Directory) (name : String) (bytes : Bytes) : Directory :=
  match d.get? name with
  | some (.link _) => d.set name (.link (some bytes))
  | _ => d.set name (.file bytes)

def opened (d : Directory) (name : String) : Option Bytes :=
  match d.get? name with
  | some .other => none
  | _ => some (bytesOf d name)

end Directory

open Directory

def validTailOffset (chunk : Bytes) (chunkStart : Nat) : Nat :=
  match rfind newline chunk with
  | none => chunkStart
  | some i => chunkStart + i + 1

/-- What the repair leaves; `none` when it refuses. -/
def repairTornTail (bytes : Bytes) : Option Bytes :=
  if bytes.length = 0 then some bytes
  else if bytes.getLast? = some newline then some bytes
  else
    let chunkStart := bytes.length - min bytes.length TAIL_WINDOW
    let valid := validTailOffset (bytes.drop chunkStart) chunkStart
    if valid ≤ chunkStart ∧ 0 < chunkStart then none else some (bytes.take valid)

def accepts (segments : List String) (name : String) : Bool :=
  segments.isEmpty || decide (segments.getLast? = some name) ||
    (decide (name ∉ segments) && decide ((sortSegments (segments ++ [name])).getLast? = some name))

def later (d : Directory) (name : String) : List String :=
  (candidates d).filter fun s => decide (segmentSortKey name < segmentSortKey s)

def removable (d : Directory) (target : Nat ×ₗ Nat) (name : String) : Bool :=
  match observationSegmentMonth name with
  | none => false
  | some month => decide (target < month) && decide (d.get? name = some (.file []))

/-- `_remove_empty_future_segments`: refused, as is a removal that stops after some of them. -/
def removeEmptyFutureSegments (d : Directory) (name : String) (unlinks : Option Nat) : Except Directory Directory :=
  match observationSegmentMonth name with
  | none => .ok d
  | some target =>
    if (later d name).all (removable d target) then
      match unlinks with
      | none => .ok ((later d name).foldl Dict.erase d)
      | some n => .error (((later d name).take n).foldl Dict.erase d)
    else .error d

def validateAppendTarget (d : Directory) (name : String) (unlinks : Option Nat) : Except Directory Directory :=
  if accepts (candidates d) name then .ok d
  else
    match removeEmptyFutureSegments d name unlinks with
    | .error d' => .error d'
    | .ok d' => if accepts (candidates d') name then .ok d' else .error d'

/-- Where an append stops short: before the target is looked at (a skip, a moved high water), in
the removal, at the open, before the repair, or after some of its bytes. -/
inductive Stop
  | early
  | unlink (n : Nat)
  | open_
  | repair
  | write (n : Nat)

structure Call where
  explicitNow : Bool
  clock : Month
  group : List Encoded
  nonempty : group ≠ []
  stop : Option Stop

inductive Outcome
  | returned (endOffset : Nat)
  | crashed (written : Nat)
  | refused

def Call.name (c : Call) : String := segmentName c.clock

def Call.lines (c : Call) : List Bytes := c.group.map Encoded.bytes

def Call.unlinks (c : Call) : Option Nat :=
  match c.stop with
  | some (.unlink n) => some n
  | _ => none

def writeGroup (d : Directory) (c : Call) : Directory × Outcome :=
  match opened d c.name with
  | none => (d, .refused)
  | some bytes =>
    match c.stop with
    | some .repair => (write d c.name bytes, .crashed 0)
    | _ =>
      match repairTornTail bytes with
      | none => (d, .refused)
      | some valid =>
        match c.stop with
        | some (.write n) => (write d c.name (valid ++ c.lines.flatten.take n), .crashed n)
        | _ => (write d c.name (valid ++ c.lines.flatten), .returned (valid ++ c.lines.flatten).length)

def append (d : Directory) (c : Call) : Directory × Outcome :=
  if c.lines.any fun line => decide (MAX_LINE_BYTES < line.length) then (d, .refused)
  else
    match c.stop with
    | some .early => (d, .refused)
    | _ =>
      match (if c.explicitNow then .ok d else validateAppendTarget d c.name c.unlinks : Except Directory Directory) with
      | .error d' => (d', .refused)
      | .ok d' =>
        match c.stop with
        | some (.unlink _) => (d', .refused)
        | some .open_ => (d', .refused)
        | _ => writeGroup d' c

end Cctally.Segments
