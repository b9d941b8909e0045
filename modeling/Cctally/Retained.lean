import Cctally.Bisect
import Cctally.Except
import Cctally.PySeq

/-!
# Coordinate-backed retained records

A position keeps its line's segment, start and length, and either a retained
object or the marker that its record is decoded again from the line on every
access. Slices, position subsets and appended extras are views of the same
positions.
-/

namespace Cctally.Retained

open PySeq

/-- What a place is looked up by: a `(segment, offset)` pair, or a value that does not unpack into two. -/
inductive Cursor where
  | pair (segment : String) (offset : Int)
  | unpaired (repr : String)
  deriving DecidableEq

def Cursor.of (p : String × Nat) : Cursor := .pair p.1 p.2

inductive Raised (E : Type) where
  | indexError (message : String)
  | valueError (message : String)
  | notInList (cursor : Cursor)
  | attributeError (message : String)
  | overflowError (message : String)
  | caller (error : E)
  deriving DecidableEq

section
variable {E α : Type}

def subscript (what : String) (xs : List α) (i : Int) : Except (Raised E) α :=
  match getItem xs i with
  | some x => .ok x
  | none => .error (.indexError s!"{what} index out of range")

/-! ## Per-position line coordinates -/

structure LineCoordinates where
  starts : List Nat
  lengths : List Nat
  runSegments : List String
  runFirsts : List Nat

structure RunCache where
  first : Nat
  stop : Nat
  segment : String

namespace LineCoordinates

def init : LineCoordinates := ⟨[], [], [], []⟩

/-- An `array('Q')` holds 8-byte integers and an `array('I')` 4-byte ones. -/
def append (c : LineCoordinates) (segment : String) (start length : Nat) : Except (Raised E) LineCoordinates :=
  let opened := if c.runSegments.getLast? = some segment then c else
    { c with runSegments := c.runSegments ++ [segment], runFirsts := c.runFirsts ++ [c.starts.length] }
  if 2 ^ 64 ≤ start then .error (.overflowError "int too big to convert")
  else if 2 ^ 32 ≤ length then .error (.overflowError "unsigned int is greater than maximum")
  else .ok { opened with starts := c.starts ++ [start], lengths := c.lengths ++ [length] }

def len (c : LineCoordinates) : Nat := c.starts.length

def runOf (c : LineCoordinates) (index : Nat) : Int := (Bisect.bisectRight c.runFirsts index : Int) - 1

def normalize (c : LineCoordinates) (index : Int) : Except (Raised E) Nat :=
  let index := place c.len index
  if 0 ≤ index ∧ index < c.len then .ok index.toNat
  else .error (.indexError "line coordinate index out of range")

def line (c : LineCoordinates) (i : Int) : Except (Raised E) (String × Nat × Nat) := do
  let i ← c.normalize i
  let segment ← subscript "list" c.runSegments (c.runOf i)
  let start ← subscript "array" c.starts i
  let length ← subscript "array" c.lengths i
  return (segment, start, length)

def startOf (c : LineCoordinates) (i : Int) : Except (Raised E) (String × Nat) := do
  let i ← c.normalize i
  let segment ← subscript "list" c.runSegments (c.runOf i)
  let start ← subscript "array" c.starts i
  return (segment, start)

def endOf (c : LineCoordinates) (i : Int) : Except (Raised E) (String × Nat) := do
  let i ← c.normalize i
  let segment ← subscript "list" c.runSegments (c.runOf i)
  let start ← subscript "array" c.starts i
  let length ← subscript "array" c.lengths i
  return (segment, start + length + 1)

def runStop (c : LineCoordinates) (run : Int) : Nat := (getItem c.runFirsts (run + 1)).getD c.starts.length

def enterRun (c : LineCoordinates) (i : Nat) : Except (Raised E) RunCache := do
  let segment ← subscript "list" c.runSegments (c.runOf i)
  let first ← subscript "array" c.runFirsts (c.runOf i)
  return ⟨first, c.runStop (c.runOf i), segment⟩

def stayOrEnter (c : LineCoordinates) (i : Nat) : Option RunCache → Except (Raised E) RunCache
  | some r => if r.first ≤ i ∧ i < r.stop then .ok r else c.enterRun i
  | none => c.enterRun i

def iterate (c : LineCoordinates) (isEnd : Bool) : Option RunCache → List Nat → Except (Raised E) (List (String × Nat))
  | _, [] => .ok []
  | cache, i :: positions => do
    let run ← c.stayOrEnter i cache
    let start ← subscript "array" c.starts i
    let length ← subscript "array" c.lengths i
    let rest ← c.iterate isEnd (some run) positions
    return (run.segment, if isEnd then start + length + 1 else start) :: rest

def endAt (c : LineCoordinates) (i : Nat) : Nat := c.starts.getD i 0 + c.lengths.getD i 0 + 1

/-- The halving loop on `[lo, hi)`; `fuel` bounds its rounds. -/
def searchRun (c : LineCoordinates) (target : Int) : Nat → Nat → Nat → Option Nat
  | 0, _, _ => none
  | fuel + 1, lo, hi =>
    if lo < hi then
      let mid := (lo + hi) / 2
      if (c.endAt mid : Int) < target then c.searchRun target fuel (mid + 1) hi
      else if target < (c.endAt mid : Int) then c.searchRun target fuel lo mid
      else some mid
    else none

def indexRun (c : LineCoordinates) (segment : String) (target : Int) (run : Nat) : Option Nat :=
  if c.runSegments[run]? = some segment then
    c.searchRun target c.starts.length (c.runFirsts.getD run 0) (c.runStop run)
  else none

def indexEnd (c : LineCoordinates) (cursor : Cursor) : Except (Raised E) Nat :=
  match cursor with
  | .unpaired _ => .error (.notInList cursor)
  | .pair segment target =>
    match (List.range c.runSegments.length).findSome? (c.indexRun segment target) with
    | some i => .ok i
    | none => .error (.notInList cursor)

end LineCoordinates

structure CoordinateView where
  coords : LineCoordinates
  positions : Option Range
  isEnd : Bool

def LineCoordinates.startsView (c : LineCoordinates) : CoordinateView := ⟨c, none, false⟩

def LineCoordinates.endsView (c : LineCoordinates) : CoordinateView := ⟨c, none, true⟩

namespace CoordinateView

def range (v : CoordinateView) : Range := v.positions.getD (Range.upTo v.coords.len)

def len (v : CoordinateView) : Nat := v.range.length

def getItem (v : CoordinateView) (index : Int) : Except (Raised E) (String × Nat) :=
  match v.range.getItem index with
  | none => .error (.indexError "range object index out of range")
  | some position => if v.isEnd then v.coords.endOf position else v.coords.startOf position

def slice (v : CoordinateView) (s : Slice) : Except (Raised E) CoordinateView :=
  match v.range.slice s with
  | none => .error (.valueError "slice step cannot be zero")
  | some r => .ok { v with positions := some r }

def iter (v : CoordinateView) : Except (Raised E) (List (String × Nat)) :=
  v.coords.iterate v.isEnd none (v.range.toList.map Int.toNat)

/-- `Sequence.index`: item after item, until one is past the end. -/
def scan (v : CoordinateView) (cursor : Cursor) (stop : Option Int) : Nat → Int → Except (Raised E) Int
  | 0, _ => .error (.notInList cursor)
  | fuel + 1, i =>
    if stop.all (i < ·) then
      match (v.getItem i : Except (Raised E) (String × Nat)) with
      | .ok p => if Cursor.of p = cursor then .ok i else v.scan cursor stop fuel (i + 1)
      | .error (.indexError _) => .error (.notInList cursor)
      | .error e => .error e
    else .error (.notInList cursor)

def index (v : CoordinateView) (cursor : Cursor) (start : Int) (stop : Option Int) : Except (Raised E) Int :=
  let from' := if start < 0 then max (v.len + start) 0 else start
  let upTo := stop.map fun s : Int => if s < 0 then s + v.len else s
  if v.isEnd then do
    let position ← v.coords.indexEnd cursor
    match v.range.index position with
    | none => .error (.notInList cursor)
    | some found =>
      if from' ≤ found ∧ (found : Int) < upTo.getD v.len then .ok found else .error (.notInList cursor)
  else v.scan cursor upTo (v.len + 1) from'

end CoordinateView

end

/-! ## Records -/

inductive Slot (Obj : Type) where
  | retained (obj : Obj)
  | streamed
  deriving DecidableEq

def Slot.isStreamed {Obj : Type} : Slot Obj → Bool
  | .retained _ => false
  | .streamed => true

/-- What the reader hands over: how a line decodes, what its digest is, what a changed line
raises, and what is done to every fresh decode. -/
structure Source (Obj Bytes E : Type) where
  decode : Bytes → Option Obj
  lineDigest : Bytes → Nat
  error : String → E
  normalizer : Option (Obj → Obj)

abbrev Reader (Bytes E : Type) := String → Nat → Nat → Except E Bytes

structure RetainedRecords (Obj : Type) where
  coords : LineCoordinates
  slots : List (Slot Obj)
  digests : List Nat

section
variable {Obj Bytes E β : Type}

def Source.normalize (source : Source Obj Bytes E) (record : Obj) : Obj := (source.normalizer.getD id) record

structure Pass (β κ : Type) where
  yielded : List β
  raised : Option κ
  deriving DecidableEq

def Pass.ofList {κ : Type} : List (Except κ β) → Pass β κ
  | [] => ⟨[], none⟩
  | .error e :: _ => ⟨[], some e⟩
  | .ok b :: rest => ⟨b :: (Pass.ofList rest).yielded, (Pass.ofList rest).raised⟩

namespace RetainedRecords

def init : RetainedRecords Obj := ⟨.init, [], []⟩

def appendRetained (r : RetainedRecords Obj) (obj : Obj) (segment : String) (start length : Nat) :
    Except (Raised E) (RetainedRecords Obj) := do
  let coords ← r.coords.append segment start length
  return ⟨coords, r.slots ++ [.retained obj], r.digests ++ [0]⟩

def appendStreamed (source : Source Obj Bytes E) (r : RetainedRecords Obj) (line : Bytes) (segment : String)
    (start length : Nat) : Except (Raised E) (RetainedRecords Obj) := do
  let coords ← r.coords.append segment start length
  return ⟨coords, r.slots ++ [.streamed], r.digests ++ [source.lineDigest line]⟩

variable (source : Source Obj Bytes E) (read : Reader Bytes E) (r : RetainedRecords Obj)

def decodeAt (index : Int) : Except (Raised E) Obj := do
  let (segment, start, length) ← r.coords.line index
  let line ← (read segment start length).mapError .caller
  let digest ← subscript "array" r.digests index
  if source.lineDigest line ≠ digest then
    throw (.caller (source.error s!"{segment}@{start}: the line the read pass saw has changed"))
  match source.decode line with
  | none => throw (.caller (source.error s!"{segment}@{start}: the line the read pass saw no longer decodes"))
  | some record => return source.normalize record

def fetch (index : Int) : Except (Raised E) (Bool × Obj) := do
  match ← subscript "list" r.slots index with
  | .streamed => return (true, ← r.decodeAt source read index)
  | .retained obj => return (false, obj)

def item (index : Int) : Except (Raised E) Obj := (·.2) <$> r.fetch source read index

def iterPositions (emit : Bool × Obj → β) (positions : List Int) : Pass β (Raised E) :=
  Pass.ofList (positions.map fun index => emit <$> r.fetch source read index)

def len : Nat := r.slots.length

def positions : Range := Range.upTo r.slots.length

def getItem (index : Int) : Except (Raised E) Obj :=
  let index := place r.len index
  if 0 ≤ index ∧ index < r.len then r.item source read index
  else .error (.indexError "retained record index out of range")

def slot (i : Int) : Except (Raised E) (Slot Obj) := subscript "list" r.slots i

def isStreamed (i : Int) : Except (Raised E) Bool := Slot.isStreamed <$> r.slot i

end RetainedRecords

/-- The positions of a view: a `range`, or an `array('Q')` of places. -/
inductive Positions where
  | range (r : Range)
  | array (places : List Nat)

namespace Positions

def toList : Positions → List Int
  | .range r => r.toList
  | .array places => places.map Int.ofNat

def len : Positions → Nat
  | .range r => r.length
  | .array places => places.length

def getItem : Positions → Int → Except (Raised E) Int
  | .range r, i =>
    match r.getItem i with
    | some position => .ok position
    | none => .error (.indexError "range object index out of range")
  | .array places, i => Int.ofNat <$> subscript "array" places i

def slice : Positions → Slice → Except (Raised E) Positions
  | .range r, s =>
    match r.slice s with
    | some r => .ok (.range r)
    | none => .error (.valueError "slice step cannot be zero")
  | .array places, s =>
    match PySeq.slice places s with
    | some places => .ok (.array places)
    | none => .error (.valueError "slice step cannot be zero")

end Positions

structure RecordsView (Obj : Type) where
  base : RetainedRecords Obj
  positions : Positions
  extras : List Obj

inductive Records (Obj : Type) where
  | records (r : RetainedRecords Obj)
  | view (v : RecordsView Obj)
  | list (l : List Obj)

/-- `array('Q', positions)`. -/
def placesOf : List Int → Except (Raised E) (List Nat)
  | [] => .ok []
  | i :: rest => do
    if i < 0 then throw (.overflowError "can't convert negative value to unsigned int")
    if 2 ^ 64 ≤ i then throw (.overflowError "int too big to convert")
    return i.toNat :: (← placesOf rest)

namespace RetainedRecords
variable (r : RetainedRecords Obj)

def slice (s : Slice) : Except (Raised E) (RecordsView Obj) := do
  return ⟨r, ← (Positions.range r.positions).slice s, []⟩

def subset (positions : List Int) : Except (Raised E) (RecordsView Obj) := do
  return ⟨r, .array (← placesOf positions), []⟩

def withExtra (obj : Obj) : RecordsView Obj := ⟨r, .range r.positions, [obj]⟩

end RetainedRecords

namespace RecordsView
variable (source : Source Obj Bytes E) (read : Reader Bytes E) (v : RecordsView Obj)

def len : Nat := v.positions.len + v.extras.length

def locate (index : Int) : Except (Raised E) (Bool × Int) :=
  let index := place v.len index
  if 0 ≤ index ∧ index < v.len then
    if index < v.positions.len then (true, ·) <$> v.positions.getItem index
    else .ok (false, index - v.positions.len)
  else .error (.indexError "retained record index out of range")

def getItem (index : Int) : Except (Raised E) Obj := do
  let (inBase, place) ← v.locate index
  if inBase then v.base.item source read place else subscript "tuple" v.extras place

def sliceRising (start stop step : Int) : Except (Raised E) (RecordsView Obj) := do
  let count : Int := v.positions.len
  let basePart ← if start < count then v.positions.slice ⟨some start, some (min stop count), some step⟩
    else v.positions.slice ⟨some 0, some 0, none⟩
  let firstExtra := if start < count then start + -(-(count - start) / step) * step else start
  match PySeq.slice v.extras ⟨some (firstExtra - count), some (max (stop - count) 0), some step⟩ with
  | some extras => return ⟨v.base, basePart, extras⟩
  | none => throw (.valueError "slice step cannot be zero")

def slice (s : Slice) : Except (Raised E) (Records Obj) :=
  match (Range.upTo v.len).slice s with
  | none => .error (.valueError "slice step cannot be zero")
  | some selected =>
    if selected.step < 0 then Records.list <$> selected.toList.mapM (v.getItem source read)
    else Records.view <$> v.sliceRising selected.start selected.stop selected.step

def iter : Pass Obj (Raised E) :=
  let base := v.base.iterPositions source read (·.2) v.positions.toList
  match base.raised with
  | none => ⟨base.yielded ++ v.extras, none⟩
  | some _ => base

def iterMarked : Pass (Bool × Obj) (Raised E) :=
  let base := v.base.iterPositions source read id v.positions.toList
  match base.raised with
  | none => ⟨base.yielded ++ v.extras.map (false, ·), none⟩
  | some _ => base

def isStreamed (i : Int) : Except (Raised E) Bool := do
  let (inBase, place) ← v.locate i
  if inBase then v.base.isStreamed place else return false

def slot (i : Int) : Except (Raised E) (Slot Obj) := do
  let (inBase, place) ← v.locate i
  if inBase then v.base.slot place else .retained <$> subscript "tuple" v.extras place

/-- The selection loop over what is left of `positions`; a base position after an extra gives the
whole selection up for a list. -/
def select (positions : List Int) (basePart : List Nat) (extras : List Obj) :
    List Int → Except (Raised E) (Records Obj)
  | [] => .ok (.view ⟨v.base, .array basePart, extras⟩)
  | i :: rest =>
    if i < 0 ∨ (v.len : Int) ≤ i then .error (.indexError "retained record index out of range")
    else if i < v.positions.len then
      if extras.isEmpty then do
        let place ← v.positions.getItem i
        select positions (basePart ++ [place.toNat]) extras rest
      else Records.list <$> positions.mapM (v.getItem source read)
    else do
      let obj ← subscript "tuple" v.extras (i - v.positions.len)
      select positions basePart (extras ++ [obj]) rest

def subset (positions : List Int) : Except (Raised E) (Records Obj) := v.select source read positions [] [] positions

def withExtra (obj : Obj) : RecordsView Obj := ⟨v.base, v.positions, v.extras ++ [obj]⟩

end RecordsView

inductive Op (Obj : Type) where
  | slice (s : Slice)
  | subset (positions : List Int)
  | withExtra (obj : Obj)

namespace Records
variable (source : Source Obj Bytes E) (read : Reader Bytes E)

def missing (name : String) : Raised E := .attributeError s!"'list' object has no attribute '{name}'"

def step : Records Obj → Op Obj → Except (Raised E) (Records Obj)
  | .records r, .slice s => .view <$> r.slice s
  | .records r, .subset positions => .view <$> r.subset positions
  | .records r, .withExtra obj => .ok (.view (r.withExtra obj))
  | .view v, .slice s => v.slice source read s
  | .view v, .subset positions => v.subset source read positions
  | .view v, .withExtra obj => .ok (.view (v.withExtra obj))
  | .list l, .slice s =>
    match PySeq.slice l s with
    | some l => .ok (.list l)
    | none => .error (.valueError "slice step cannot be zero")
  | .list _, .subset _ => .error (missing "subset")
  | .list _, .withExtra _ => .error (missing "with_extra")

def run (q : Records Obj) (ops : List (Op Obj)) : Except (Raised E) (Records Obj) := ops.foldlM (step source read) q

def len : Records Obj → Nat
  | .records r => r.len
  | .view v => v.len
  | .list l => l.length

def getItem : Records Obj → Int → Except (Raised E) Obj
  | .records r, i => r.getItem source read i
  | .view v, i => v.getItem source read i
  | .list l, i => subscript "list" l i

def iter : Records Obj → Pass Obj (Raised E)
  | .records r => r.iterPositions source read (·.2) r.positions.toList
  | .view v => v.iter source read
  | .list l => ⟨l, none⟩

def iterMarked : Records Obj → Except (Raised E) (Pass (Bool × Obj) (Raised E))
  | .records r => .ok (r.iterPositions source read id r.positions.toList)
  | .view v => .ok (v.iterMarked source read)
  | .list _ => .error (missing "iter_marked")

def isStreamed : Records Obj → Int → Except (Raised E) Bool
  | .records r, i => r.isStreamed i
  | .view v, i => v.isStreamed i
  | .list _, _ => .error (missing "is_streamed")

def slot : Records Obj → Int → Except (Raised E) (Slot Obj)
  | .records r, i => r.slot i
  | .view v, i => v.slot i
  | .list _, _ => .error (missing "slot")

end Records

inductive Call (Obj Bytes : Type) where
  | retained (obj : Obj) (segment : String) (start length : Nat)
  | streamed (line : Bytes) (record : Obj) (segment : String) (start length : Nat)

def Call.apply (source : Source Obj Bytes E) (r : RetainedRecords Obj) :
    Call Obj Bytes → Except (Raised E) (RetainedRecords Obj)
  | .retained obj segment start length => r.appendRetained obj segment start length
  | .streamed line _ segment start length => r.appendStreamed source line segment start length

def build (source : Source Obj Bytes E) (calls : List (Call Obj Bytes)) : Except (Raised E) (RetainedRecords Obj) :=
  calls.foldlM (Call.apply source) .init

end

end Cctally.Retained
