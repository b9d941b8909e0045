import Cctally.UnionFind
import Mathlib.Data.Prod.Lex
import Mathlib.Data.String.Basic

/-!
# Tolerance-connected reset anchors

Every distinct raw reset is kept in a bucket and united with the raws of the same
and the adjacent buckets that are near it. A component's anchor is the member with
the smallest order key. `bucket` and `near` are parameters of the components; the
raw resets of the program get theirs from double-precision seconds.
-/

namespace Cctally

structure Nearness (α K : Type) where
  bucket : α → Int
  near : α → α → Bool
  near_comm : ∀ x y, near x y = near y x
  unkeyed : Nat → K

structure ResetAnchorComponents (α K : Type) where
  buckets : Dict Int (List α)
  parent : Dict α α
  rank : Dict α Nat
  anchor : Dict α α
  firstOrder : Dict α K
  memberOrder : Dict α K
  nextOrder : Nat

namespace ResetAnchorComponents

section
variable {α K : Type} [LinearOrder α] [LinearOrder K]

def empty : ResetAnchorComponents α K :=
  ⟨Dict.empty, Dict.empty, Dict.empty, Dict.empty, Dict.empty, Dict.empty, 0⟩

/-- `_find`; ranks bound the pointers it follows, and `none` is a `KeyError`. -/
def find (s : ResetAnchorComponents α K) (value : α) : Option (ResetAnchorComponents α K × α) :=
  (UnionFind.find (UnionFind.height s.rank) s.parent value).map fun r => ({ s with parent := r.1 }, r.2)

def attach (s : ResetAnchorComponents α K) (leftRoot rightRoot : α) : Option (ResetAnchorComponents α K) := do
  let leftRank ← s.rank.get? leftRoot
  let rightRank ← s.rank.get? rightRoot
  let leftOrder ← s.firstOrder.get? leftRoot
  let rightOrder ← s.firstOrder.get? rightRoot
  let rightAnchor ← s.anchor.get? rightRoot
  let anchor := if rightOrder < leftOrder then s.anchor.set leftRoot rightAnchor else s.anchor
  let firstOrder := if rightOrder < leftOrder then s.firstOrder.set leftRoot rightOrder else s.firstOrder
  some { s with
    parent := s.parent.set rightRoot leftRoot
    rank := if leftRank = rightRank then s.rank.set leftRoot (leftRank + 1) else s.rank
    anchor := anchor.erase rightRoot
    firstOrder := firstOrder.erase rightRoot }

def link (s : ResetAnchorComponents α K) (leftRoot rightRoot : α) :
    Option (ResetAnchorComponents α K × α) := do
  let leftRank ← s.rank.get? leftRoot
  let rightRank ← s.rank.get? rightRoot
  if leftRank < rightRank then do
    let s ← s.attach rightRoot leftRoot
    some (s, rightRoot)
  else do
    let s ← s.attach leftRoot rightRoot
    some (s, leftRoot)

def union (s : ResetAnchorComponents α K) (left right : α) : Option (ResetAnchorComponents α K × α) := do
  let (s, leftRoot) ← s.find left
  let (s, rightRoot) ← s.find right
  if leftRoot = rightRoot then some (s, leftRoot) else s.link leftRoot rightRoot

/-- `canonical`; the search compresses paths. -/
def canonical (s : ResetAnchorComponents α K) (raw : α) : Option (ResetAnchorComponents α K × α) := do
  let (s, root) ← s.find raw
  let anchor ← s.anchor.get? root
  some (s, anchor)

/-- `add` of a raw that is already a member: a smaller key may move the anchor to it. -/
def addAgain (s : ResetAnchorComponents α K) (raw : α) (orderKey : K) :
    Option (ResetAnchorComponents α K × α × List α) := do
  let (s, root) ← s.find raw
  let previous ← s.anchor.get? root
  let memberKey ← s.memberOrder.get? raw
  let firstKey ← s.firstOrder.get? root
  if orderKey < memberKey then
    let s := { s with memberOrder := s.memberOrder.set raw orderKey }
    if orderKey < firstKey then
      let s := { s with firstOrder := s.firstOrder.set root orderKey, anchor := s.anchor.set root raw }
      some (s, raw, if previous ≠ raw then [previous] else [])
    else some (s, previous, [])
  else some (s, previous, [])

variable (n : Nearness α K)

def neighbours (s : ResetAnchorComponents α K) (raw : α) : List α :=
  let probe := n.bucket raw
  [probe - 1, probe, probe + 1].flatMap fun bucket => ((s.buckets.get? bucket).getD []).filter (n.near raw)

def insert (s : ResetAnchorComponents α K) (raw : α) (orderKey : K) : ResetAnchorComponents α K :=
  let probe := n.bucket raw
  { s with
    parent := s.parent.set raw raw
    rank := s.rank.set raw 0
    anchor := s.anchor.set raw raw
    firstOrder := s.firstOrder.set raw orderKey
    memberOrder := s.memberOrder.set raw orderKey
    buckets := s.buckets.set probe ((s.buckets.get? probe).getD [] ++ [raw]) }

def anchorsOf (s : ResetAnchorComponents α K) : List α → Option (ResetAnchorComponents α K × List α)
  | [] => some (s, [])
  | candidate :: rest => do
    let (s, anchor) ← s.canonical candidate
    let (s, anchors) ← anchorsOf s rest
    some (s, anchor :: anchors)

def unionAll (s : ResetAnchorComponents α K) (root : α) : List α → Option (ResetAnchorComponents α K × α)
  | [] => some (s, root)
  | candidate :: rest => do
    let (s, root) ← s.union root candidate
    unionAll s root rest

/-- `add` of a raw that is no member yet. -/
def addNew (s : ResetAnchorComponents α K) (raw : α) (orderKey : K) :
    Option (ResetAnchorComponents α K × α × List α) := do
  let neighbours := s.neighbours n raw
  let (s, anchors) ← (s.insert n raw orderKey).anchorsOf neighbours
  let (s, root) ← s.unionAll raw neighbours
  let (s, winner) ← s.canonical root
  some (s, winner, sortedSet ((raw :: anchors).filter (· ≠ winner)))

/-- `add`: the winning anchor and the anchors it retires. -/
def add (s : ResetAnchorComponents α K) (raw : α) (orderKey : Option K) :
    Option (ResetAnchorComponents α K × α × List α) :=
  let orderKey := orderKey.getD (n.unkeyed s.nextOrder)
  let s := { s with nextOrder := s.nextOrder + 1 }
  if raw ∈ s.parent.keys then s.addAgain raw orderKey else s.addNew n raw orderKey

def addAll (s : ResetAnchorComponents α K) : List (α × K) → Option (ResetAnchorComponents α K)
  | [] => some s
  | (raw, orderKey) :: calls => do
    let (s, _) ← s.add n raw (some orderKey)
    addAll s calls

end

end ResetAnchorComponents

abbrev RawReset := Int

/-- `(source_path, line_offset, row_id)` -/
abbrev OrderKey := String ×ₗ Int ×ₗ Int

def roundHalfEven (a b : Nat) : Nat :=
  let q := a / b
  let r := a % b
  if 2 * r < b then q else if b < 2 * r then q + 1 else q + q % 2

/-- The binary places after the point that a double of `micros` microseconds keeps in seconds:
its 53 bits hold `micros * 2 ^ doubleScale micros / 10 ^ 6`. -/
def doubleScale (micros : Nat) : Nat :=
  let scale := 72 - Nat.log2 micros
  if micros * 2 ^ scale < 2 ^ 53 * 10 ^ 6 then scale else scale - 1

/-- `total_seconds()` of that many microseconds, in units of `2 ^ -doubleScale micros`. -/
def totalSeconds (micros : Nat) : Nat := roundHalfEven (micros * 2 ^ doubleScale micros) (10 ^ 6)

/-- `int(value.timestamp() // tolerance)` -/
def bucketOf (tolerance : Nat) (value : RawReset) : Int :=
  let seconds := totalSeconds value.natAbs
  (if value < 0 then -(seconds : Int) else seconds) / (2 ^ doubleScale value.natAbs * tolerance : Nat)

/-- `abs((left - right).total_seconds()) <= tolerance` -/
def nearReset (tolerance : Nat) (left right : RawReset) : Bool :=
  let micros := (left - right).natAbs
  totalSeconds micros ≤ 2 ^ doubleScale micros * tolerance

theorem nearReset_comm (tolerance : Nat) (left right : RawReset) :
    nearReset tolerance left right = nearReset tolerance right left := by
  have hmicros : (left - right).natAbs = (right - left).natAbs := by omega
  unfold nearReset
  rw [hmicros]

def resetNearness (tolerance : Nat) : Nearness RawReset OrderKey :=
  { bucket := bucketOf tolerance
    near := nearReset tolerance
    near_comm := nearReset_comm tolerance
    unkeyed := fun order => toLex ("", toLex (order, 0)) }

def CODEX_RESET_ANCHOR_TOLERANCE_SECONDS : Nat := 600

end Cctally
