import Cctally.PySeq
import Cctally.ReclaimGeometry
import Cctally.ReclaimFreelist
import Mathlib.Data.Finset.Sort
import Mathlib.Data.Finset.Image

/-!
# References between pages, and the plan of a chunk

What the planner reads off a page image: a page's pointer-map entry, and the
children and overflow chains of a b-tree page by the local-payload rule.

`plan_chunk` takes from one snapshot what its tail pages say, then grows the
chunk step by step while its reservation stays within the budget. The plan's
digest, a hash of other fields of the plan, is left out, and so are the reader's
figures that the helper adds later.
-/

namespace Cctally.Reclaim

def byteAt (image : Bytes) (i : Nat) : Attempt Nat :=
  match image[i]? with
  | some b => pure b.toNat
  | none => throw .indexError

/-- `struct.unpack(">I", image[i:i + 4])`, where `i` may lie before the image's start. -/
def unpackFrom (image : Bytes) (i : Int) : Attempt Nat :=
  unpack 4 ((PySeq.slice image ⟨some i, some (i + 4), none⟩).getD []) 0

/-- The turns of `_varint` that are left, the bits so far and the next byte's place. -/
def varintFrom (image : Bytes) : Nat → Nat → Nat → Attempt (Nat × Nat)
  | 0, value, i => do return ((value <<< 8) ||| (← byteAt image i), i + 1)
  | k + 1, value, i => do
    let byte ← byteAt image i
    let value := (value <<< 7) ||| (byte &&& 0x7F)
    if byte &&& 0x80 = 0 then pure (value, i + 1) else varintFrom image k value (i + 1)

def varint (image : Bytes) (i : Nat) : Attempt (Nat × Nat) := varintFrom image 8 0 i

section
variable (usable : Nat)

def minLocal : Int := ((usable : Int) - 12) * 32 / 255 - 23

def maxLocal (kind : Nat) : Int := if kind = 13 then (usable : Int) - 35 else ((usable : Int) - 12) * 64 / 255 - 23

def isInterior (kind : Nat) : Bool := kind = 2 || kind = 5

def overflowHead (image : Bytes) (kind payload cursor : Nat) : Attempt (List Nat) := do
  if maxLocal usable kind < payload then
    if usable = 4 then throw .zeroDivision
    let fit := minLocal usable + ((payload : Int) - minLocal usable).fmod ((usable : Int) - 4)
    let fit := if maxLocal usable kind < fit then minLocal usable else fit
    let end_ : Int := cursor + fit
    if usable < end_ + 4 then refuse .malformedPage "cell overflow"
    return [← unpackFrom image end_]
  if usable < cursor + payload then refuse .malformedPage "cell payload"
  return []

def cellRefs (image : Bytes) (kind header ncell i : Nat) : Attempt (List Nat × List Nat) := do
  let ptr ← unpack 2 image (header + 2 * i)
  if ¬ (header + 2 * ncell ≤ ptr ∧ ptr < usable) then refuse .malformedPage "cell pointer"
  let children ← if isInterior kind then (fun c => [c]) <$> unpack 4 image ptr else pure []
  let cursor := if isInterior kind then ptr + 4 else ptr
  if kind = 5 then return (children, [])
  let payload ← varint image cursor
  let cursor ← if kind = 13 then Prod.snd <$> varint image payload.2 else pure payload.2
  return (children, ← overflowHead usable image kind payload.1 cursor)

def truncated {α : Type} (cell : Attempt α) : Attempt α :=
  match cell with
  | .error .indexError => refuse .malformedPage "truncated cell"
  | .error .structError => refuse .malformedPage "truncated cell"
  | cell => cell

def btreePage (image : Bytes) : Attempt (Nat × List Nat × List Nat) := do
  let kind ← byteAt image 0
  if kind ∉ [2, 5, 10, 13] then refuse .malformedPage s!"page type {kind}"
  let header := if isInterior kind then 12 else 8
  let ncell ← unpack 2 image 3
  if usable < header + 2 * ncell then refuse .malformedPage "cell count"
  let cells ← (List.range ncell).mapM (cellRefs usable image kind header ncell)
  let last ← if isInterior kind then (fun c => [c]) <$> unpack 4 image 8 else pure []
  return (kind, cells.flatMap Prod.fst ++ last, cells.flatMap Prod.snd)

/-- `btree_refs`: the page's type, its children and its overflow heads. -/
def btreeRefs (image : Bytes) (pageCount : Nat) : Attempt (Nat × List Nat × List Nat) := do
  let page ← truncated (btreePage usable image)
  match (page.2.1 ++ page.2.2).find? fun ref => ¬ (2 ≤ ref ∧ ref ≤ pageCount) with
  | some ref => refuse .malformedPage s!"reference {ref}"
  | none => return page

/-- `_ptrmap_entry`: the page's type and its parent. -/
def ptrmapEntry (pageSize : Nat) (readPage : Nat → Attempt Bytes) (page : Nat) : Attempt (Nat × Nat) := do
  let mapPage := ptrmapPageno usable pageSize page
  let image ← readPage mapPage
  let offset : Int := 5 * ((page : Int) - mapPage - 1)
  if offset < 0 ∨ usable < offset + 5 then refuse .malformedPage "pointer-map offset"
  return (← byteAt image offset.toNat, ← unpack 4 image (offset.toNat + 1))

theorem refs_of_btreeRefs {image : Bytes} {pageCount : Nat} {page : Nat × List Nat × List Nat}
    (h : btreeRefs usable image pageCount = .ok page) : ∀ ref ∈ page.2.1 ++ page.2.2, 2 ≤ ref ∧ ref ≤ pageCount := by
  obtain ⟨page', -, h⟩ := Except.bind_eq_ok.mp h
  split at h
  · exact absurd h (by simp [refuse])
  · rename_i hnone
    rw [Except.pure_eq_ok] at h
    subst h
    intro ref href
    have hin := List.find?_eq_none.mp hnone ref href
    rwa [decide_eq_true_eq, not_not] at hin

end

/-! ## The pointer map -/

/-- The entries of a pointer map by their type; another type is refused. -/
inductive PtrmapType
  | rootPage | freePage | overflow1 | overflow2 | btree
  deriving DecidableEq, Repr

def ptrmapType : Nat → Option PtrmapType
  | 1 => some .rootPage
  | 2 => some .freePage
  | 3 => some .overflow1
  | 4 => some .overflow2
  | 5 => some .btree
  | _ => none

inductive Label
  | overflow | interior | leaf
  deriving DecidableEq, Repr

structure Refs where
  label : Label
  children : List Nat
  heads : List Nat
  deriving DecidableEq, Repr

structure Kinds where
  free : Nat
  overflow : Nat
  leaf : Nat
  interior : Nat
  deriving DecidableEq, Repr

def Kinds.none : Kinds := ⟨0, 0, 0, 0⟩

def Kinds.addFree (k : Kinds) : Kinds := { k with free := k.free + 1 }

def Kinds.add (k : Kinds) : Label → Kinds
  | .overflow => { k with overflow := k.overflow + 1 }
  | .interior => { k with interior := k.interior + 1 }
  | .leaf => { k with leaf := k.leaf + 1 }

inductive Detail
  | skipped
  | freeLeaf (page : Nat) (trunk : Option Nat)
  | freeTrunk (page leaves : Nat) (predecessor : Bool)
  | moved (page : Nat) (kind : Label) (children heads regions : Nat) (parentInTail : Bool)
  deriving DecidableEq, Repr

structure ReclaimPlan where
  steps : Nat
  identified : List Nat
  unidentified : Nat
  newEnd : Nat
  pageSize : Nat
  usableSize : Nat
  pageCount : Nat
  freelistCount : Nat
  fixedBytes : Int
  reservationBytes : Int
  kinds : Kinds
  detail : List Detail
  deriving DecidableEq, Repr

def pageFrameBytes (pageSize : Nat) : Nat := 2 * pageSize + 24

def reservationBytes (identified unidentified pageSize : Nat) (fixedBytes : Int) : Int :=
  ((identified + unidentified + 1) * pageFrameBytes pageSize : Nat) + fixedBytes

structure Survey where
  pageSize : Nat
  usable : Nat
  pageCount : Nat
  freelistCount : Nat
  steps : List TailStep
  entries : Dict Nat (PtrmapType × Nat)
  refs : Dict Nat Refs
  leafOf : Dict Nat Nat
  trunks : Dict Nat (Nat × Nat)

def collect {α β : Type} (f : α → Attempt (Option β)) (key : α → Nat) (xs : List α) : Attempt (Dict Nat β) :=
  xs.foldlM (fun d x => do
    match ← f x with
    | some v => return d.set (key x) v
    | none => return d) Dict.empty

def lookup {α : Type} (d : Dict Nat α) (key : Nat) : Attempt α :=
  match d.get? key with
  | some v => pure v
  | none => throw .keyError

theorem lookup_eq_ok {α : Type} {d : Dict Nat α} {key : Nat} {v : α} : lookup d key = .ok v ↔ d.get? key = some v := by
  unfold lookup
  cases d.get? key with
  | none => simp
  | some u => rw [Except.pure_eq_ok, Option.some.injEq, eq_comm]

def MAGIC : Bytes := "SQLite format 3\x00".toList.map fun c => UInt8.ofNat c.toNat

section
variable (readPage : Nat → Attempt Bytes)

def readHeader (pageSize : Nat) : Attempt (Nat × Nat × Nat) := do
  let page1 ← readPage 1
  if page1.take 16 ≠ MAGIC then refuse .malformedPage "page 1 header"
  let headerSize ← unpack 2 page1 16
  let headerSize := if headerSize = 1 then 65536 else headerSize
  if headerSize ≠ pageSize then refuse .unsupportedGeometry "page size"
  if (← byteAt page1 20) ≠ 0 then refuse .unsupportedGeometry "reserved bytes"
  let largestRoot ← unpack 4 page1 52
  let incremental ← unpack 4 page1 64
  if largestRoot = 0 ∨ incremental ≠ 1 then refuse .unsupportedGeometry "auto_vacuum is not INCREMENTAL"
  return (← unpack 4 page1 28, ← unpack 4 page1 32, ← unpack 4 page1 36)

def tailEntry (usable pageSize pageCount page : Nat) : Attempt (PtrmapType × Nat) := do
  let entry ← ptrmapEntry usable pageSize readPage page
  match ptrmapType entry.1 with
  | none => refuse .malformedPage s!"pointer-map type {entry.1}"
  | some kind =>
    if kind ≠ .freePage ∧ kind ≠ .rootPage ∧ ¬ (1 ≤ entry.2 ∧ entry.2 ≤ pageCount) then
      refuse .malformedPage "pointer-map parent"
    else return (kind, entry.2)

/-- What a tail page refers to; `none` for a free page and for a root page. -/
def pageRefs (usable pageCount : Nat) (leafOf : Dict Nat Nat) (trunks : Dict Nat (Nat × Nat)) (page : Nat) :
    PtrmapType → Attempt (Option Refs)
  | .rootPage => pure none
  | .freePage =>
    if (leafOf.get? page).isNone ∧ (trunks.get? page).isNone then
      refuse .malformedPage s!"free page {page} not on the freelist"
    else pure none
  | .btree => do
    let found ← btreeRefs usable (← readPage page) pageCount
    return some ⟨if isInterior found.1 then .interior else .leaf, found.2.1, found.2.2⟩
  | _ => do
    let following ← unpack 4 (← readPage page) 0
    if following ≠ 0 ∧ ¬ (2 ≤ following ∧ following ≤ pageCount) then refuse .malformedPage "overflow link"
    return some ⟨.overflow, if following = 0 then [] else [following], []⟩

def tailPages (steps : List TailStep) : List Nat := (steps.filterMap TailStep.page).toFinset.sort (· ≥ ·)

def survey (pageSize : Nat) (maxSteps : Int) : Attempt Survey := do
  let header ← readHeader readPage pageSize
  let usable := pageSize
  let pageCount := header.1
  let steps ← tailSteps usable pageSize pageCount header.2.2 maxSteps
  if steps = [] then refuse .unsupportedGeometry "no free page below the file's end"
  let tail := (steps.filterMap TailStep.page).toFinset
  let entries ← collect (fun page => some <$> tailEntry readPage usable pageSize pageCount page) id (tailPages steps)
  let freelist ← scanFreelist readPage header.2.2 pageCount usable tail header.2.1
  let refs ← collect (fun entry => pageRefs readPage usable pageCount freelist.1 freelist.2 entry.1 entry.2.1) Prod.fst
    entries.entries
  return ⟨pageSize, usable, pageCount, header.2.2, steps, entries, refs, freelist.1, freelist.2⟩

end

/-! ## Prefixes of the steps -/

namespace Survey
variable (s : Survey)

structure Weighed where
  identified : Finset Nat
  unidentified : Nat
  kinds : Kinds
  detail : List Detail
  changed : Bool

def Weighed.start : Weighed := ⟨{1}, 0, .none, [], false⟩

/-- `if page <= new_end: identified.add(target) else: unidentified += 1` -/
def Weighed.refer (w : Weighed) (newEnd page target : Nat) : Weighed :=
  if page ≤ newEnd then { w with identified := insert target w.identified }
  else { w with unidentified := w.unidentified + 1 }

def weighFree (w : Weighed) (page : Nat) : Weighed :=
  let kinds := w.kinds.addFree
  match w.changed, s.leafOf.get? page with
  | false, some trunk =>
    { w with identified := insert trunk w.identified, kinds := kinds, detail := w.detail ++ [.freeLeaf page (some trunk)] }
  | _, _ =>
    match s.trunks.get? page with
    | some (previous, count) =>
      { w with unidentified := w.unidentified + 2, kinds := kinds, changed := true
               detail := w.detail ++ [.freeTrunk page count (previous ≠ 1)] }
    | none =>
      { w with unidentified := w.unidentified + 2, kinds := kinds, detail := w.detail ++ [.freeLeaf page none] }

def weighMoved (newEnd : Nat) (w : Weighed) (page parent : Nat) (refs : Refs) : Weighed :=
  let w := { w with unidentified := w.unidentified + 4, changed := true }
  let w := w.refer newEnd parent parent
  let w := (refs.children ++ refs.heads).foldl
    (fun w page => w.refer newEnd page (ptrmapPageno s.usable s.pageSize page)) w
  let regions := ((refs.children ++ refs.heads).map (ptrmapPageno s.usable s.pageSize)).toFinset.card
  { w with kinds := w.kinds.add refs.label
           detail := w.detail ++ [.moved page refs.label refs.children.length refs.heads.length regions (newEnd < parent)] }

def weighStep (newEnd : Nat) (w : Weighed) (step : TailStep) : Attempt Weighed :=
  match step.page with
  | none => return { w with detail := w.detail ++ [.skipped] }
  | some page => do
    let entry ← lookup s.entries page
    if entry.1 = .freePage then return s.weighFree w page
    else return s.weighMoved newEnd w page entry.2 (← lookup s.refs page)

def prefixPlan (steps : List TailStep) (newEnd : Nat) : Attempt Weighed := steps.foldlM (s.weighStep newEnd) .start

/-- The file's end after the first `k` steps: `prefix[-1].new_end`. -/
def endAfter (k : Nat) : Nat := ((s.steps.take k).getLast?.map TailStep.newEnd).getD s.pageCount

/-- A root page is among the first `k` steps; every page of theirs has an entry. -/
def rootInTail (k : Nat) : Bool :=
  (s.steps.take k).any fun step => step.page.any fun page => (s.entries.get? page).any fun entry => entry.1 = .rootPage

def belowEnd (k : Nat) : Bool := (s.steps.take k).all fun step => step.nFin ≤ s.endAfter k

def accepted (k : Nat) : Bool := !s.rootInTail k && s.belowEnd k

def reservation (fixedBytes : Int) (w : Weighed) : Int :=
  reservationBytes w.identified.card w.unidentified s.pageSize fixedBytes

/-- `for k in range(k, len(steps) + 1)`, so many turns of it, with the best prefix up to here. -/
def grow (budgetBytes fixedBytes : Int) : Nat → Nat → Option (Nat × Weighed) → Attempt (Option (Nat × Weighed))
  | 0, _, best => pure best
  | turns + 1, k, best =>
    if s.accepted k then do
      let candidate ← s.prefixPlan (s.steps.take k) (s.endAfter k)
      if 1 < k ∧ budgetBytes < s.reservation fixedBytes candidate then pure best
      else grow budgetBytes fixedBytes turns (k + 1) (some (k, candidate))
    else if k = 1 then
      refuse .unsupportedGeometry
        (if s.rootInTail k then "root page in the tail" else "the full-vacuum end reaches the tail")
    else pure best

def plan (fixedBytes : Int) (k : Nat) (w : Weighed) : ReclaimPlan where
  steps := k
  identified := w.identified.sort
  unidentified := w.unidentified
  newEnd := s.endAfter k
  pageSize := s.pageSize
  usableSize := s.usable
  pageCount := s.pageCount
  freelistCount := s.freelistCount
  fixedBytes := fixedBytes
  reservationBytes := s.reservation fixedBytes w
  kinds := w.kinds
  detail := w.detail

end Survey

/-- `plan_chunk`. The loop leaves a best prefix, since there is a step and the first prefix is taken or refused. -/
def planChunk (readPage : Nat → Attempt Bytes) (pageSize : Nat) (maxSteps budgetBytes fixedBytes : Int) :
    Attempt ReclaimPlan := do
  let s ← survey readPage pageSize maxSteps
  match ← s.grow budgetBytes fixedBytes s.steps.length 1 none with
  | some (k, w) => return s.plan fixedBytes k w
  | none => throw .typeError

end Cctally.Reclaim
