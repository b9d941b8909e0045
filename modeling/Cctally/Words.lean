import Mathlib.Data.List.Basic

/-!
# Words in byte strings

The bytes between two offsets, and the number a run of them spells with its
most or its least significant byte first.
-/

namespace Words

abbrev Bytes := List UInt8

/-- The bytes from `i` on, `width` of them where there are so many. -/
def bytesAt (image : Bytes) (i width : Nat) : Bytes := (image.drop i).take width

def big (bs : Bytes) : Nat := bs.foldl (fun n b => 256 * n + b.toNat) 0

def little (bs : Bytes) : Nat := big bs.reverse

theorem length_bytesAt (image : Bytes) (i width : Nat) :
    (bytesAt image i width).length = min width (image.length - i) := by
  rw [bytesAt, List.length_take, List.length_drop]

end Words
