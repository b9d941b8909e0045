import Cctally.Dict
import Cctally.ReclaimGeometry
import Mathlib.Data.Finset.Basic

/-!
# The freelist's trunk chain

`scan_freelist` follows the trunk chain from page 1's first trunk to its end and
keeps what it says of the tail pages. The scan is a loop on the walk's state;
beside its result it lists the trunk pages that it asked for.
-/

namespace Cctally.Reclaim

structure Walk where
  leafOf : Dict Nat Nat
  trunks : Dict Nat (Nat × Nat)
  seen : List Nat
  counted : Nat
  trunk : Nat
  previous : Nat

section
variable (readPage : Nat → Attempt Bytes) (freelistCount pageCount usable : Nat) (tail : Finset Nat)

def Walk.start (firstTrunk : Nat) : Walk := ⟨Dict.empty, Dict.empty, [], 0, firstTrunk, 1⟩

/-- `for i in range(count)`: a leaf has to be a page of the file, and one of the tail is kept. -/
def leaves (image : Bytes) (trunk count : Nat) (leafOf : Dict Nat Nat) : Attempt (Dict Nat Nat) :=
  (List.range count).foldlM (fun leafOf i => do
    let leaf ← unpack 4 image (8 + 4 * i)
    if ¬ (2 ≤ leaf ∧ leaf ≤ pageCount) then refuse .cyclicFreelist s!"leaf {leaf}"
    else pure (if leaf ∈ tail then leafOf.set leaf trunk else leafOf)) leafOf

/-- `max_leaves`: a page has no room for more, and none at all below eight bytes. -/
def maxLeaves : Int := (usable / 4 : Nat) - 2

def Walk.follow (w : Walk) (image : Bytes) : Attempt Walk := do
  let following ← unpack 4 image 0
  let count ← unpack 4 image 4
  if maxLeaves usable < count then refuse .cyclicFreelist "trunk leaf count"
  else if freelistCount < w.counted + (1 + count) then refuse .cyclicFreelist "count overflow"
  else do
    let leafOf ← leaves pageCount tail image w.trunk count w.leafOf
    pure ⟨leafOf, if w.trunk ∈ tail then w.trunks.set w.trunk (w.previous, count) else w.trunks,
      w.seen ++ [w.trunk], w.counted + (1 + count), following, w.trunk⟩

/-- `while trunk`, for so many turns, and the pages it read. -/
def Walk.run : Nat → Walk → List Nat × Attempt Walk
  | turns, w =>
    if w.trunk = 0 then ([], pure w)
    else if w.trunk ∈ w.seen ∨ ¬ (2 ≤ w.trunk ∧ w.trunk ≤ pageCount) then
      ([], refuse .cyclicFreelist s!"trunk {w.trunk}")
    else
      match turns with
      | 0 => ([], throw .outOfTurns)
      | turns + 1 =>
        match readPage w.trunk >>= w.follow freelistCount pageCount usable tail with
        | .error e => ([w.trunk], throw e)
        | .ok w' =>
          let rest := Walk.run turns w'
          (w.trunk :: rest.1, rest.2)

/-- The chain has at most a turn for each page of the file. -/
def scan (firstTrunk : Nat) : List Nat × Attempt Walk :=
  Walk.run readPage freelistCount pageCount usable tail pageCount (.start firstTrunk)

def scanFreelist (firstTrunk : Nat) : Attempt (Dict Nat Nat × Dict Nat (Nat × Nat)) := do
  let w ← (scan readPage freelistCount pageCount usable tail firstTrunk).2
  if w.counted ≠ freelistCount then
    refuse .cyclicFreelist s!"{w.counted} pages on the chain, {freelistCount} counted"
  else pure (w.leafOf, w.trunks)

end

end Cctally.Reclaim
