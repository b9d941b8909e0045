import Cctally.Except
import Cctally.Words
import Mathlib.Data.Int.Init

/-!
# The geometry of a reclaim chunk

Where the pointer-map pages and the pending-byte page lie, where a full vacuum
ends the file, and the pages that one incremental step after another removes
from the file's end.
-/

namespace Cctally.Reclaim

export Words (Bytes bytesAt big little)

def PENDING_BYTE : Nat := 0x40000000

inductive Reason
  | walIndexUnreadable | walChecksumMismatch | walEndpointMismatch | readBudgetExhausted | unsupportedGeometry
  | malformedPage | cyclicFreelist | identityChanged | sqliteUnaudited
  deriving DecidableEq, Repr

/-- What ends a call without a result: a `ReclaimPlanRefused`, or an exception nothing converts into one.
`outOfTurns` is no outcome of the code: a loop that is given too few turns ends in it. -/
inductive Failure
  | refused (reason : Reason) (detail : String)
  | structError
  | indexError
  | keyError
  | typeError
  | zeroDivision
  | outOfTurns
  deriving DecidableEq, Repr

abbrev Attempt := Except Failure

def refuse {α : Type} (reason : Reason) (detail : String) : Attempt α := throw (.refused reason detail)

@[simp] theorem refuse_eq_ok {α : Type} {reason : Reason} {detail : String} {a : α} :
    refuse reason detail = .ok a ↔ False := by
  simp [refuse]

theorem refuse_bind {α β : Type} {reason : Reason} {detail : String} {f : α → Attempt β} :
    (refuse reason detail >>= f) = refuse reason detail := rfl

/-- `struct.unpack(">H", image[i:i + 2])` for a width of 2, `">I"` for 4. -/
def unpack (width : Nat) (image : Bytes) (i : Nat) : Attempt Nat :=
  if (bytesAt image i width).length = width then pure (big (bytesAt image i width)) else throw .structError

def pendingBytePage (pageSize : Nat) : Nat := PENDING_BYTE / pageSize + 1

section
variable (usable pageSize : Nat)

/-- `ptrmap_pageno`: the pointer-map page that holds the page's entry. -/
def ptrmapPageno (page : Nat) : Nat :=
  if page < 2 then 0
  else
    let per := usable / 5 + 1
    let ret := (page - 2) / per * per + 2
    if ret = pendingBytePage pageSize then ret + 1 else ret

def isPtrmap (page : Nat) : Bool := 2 ≤ page && ptrmapPageno usable pageSize page == page

/-- `while is_ptrmap(page) or page == pending: page -= 1` -/
def skipSpecial : Nat → Nat
  | 0 => 0
  | page + 1 =>
    if isPtrmap usable pageSize (page + 1) || page + 1 == pendingBytePage pageSize then skipSpecial page else page + 1

/-- `final_db_size`. A page number below zero is neither a pointer-map page nor the pending-byte page. -/
def finalDbSize (nOrig nFree : Nat) : Attempt Int := do
  let entries := usable / 5
  if entries = 0 then throw .zeroDivision
  let nPtrmap : Int := ((nFree : Int) - nOrig + ptrmapPageno usable pageSize nOrig + entries) / entries
  let fin : Int := nOrig - nFree - nPtrmap
  let pending := pendingBytePage pageSize
  let fin := if pending < nOrig ∧ fin < pending then fin - 1 else fin
  pure (if fin < 0 then fin else skipSpecial usable pageSize fin.toNat)

/-- The page a step moves, `none` where the last page is a pointer-map or the pending-byte page, and the
file's end after it. -/
structure TailStep where
  page : Option Nat
  nFin : Int
  newEnd : Nat
  deriving DecidableEq, Repr

/-- The loop of `tail_steps`, with the steps that are left, the file's last page and the free pages. -/
def tailStepsFrom : Nat → Nat → Nat → Attempt (List TailStep)
  | 0, _, _ => pure []
  | steps + 1, last, free => do
    if free = 0 ∨ last ≤ 1 then return []
    if last ≤ free then refuse .unsupportedGeometry "freelist count >= page count"
    let nFin ← finalDbSize usable pageSize last free
    let newEnd := skipSpecial usable pageSize (last - 1)
    if nFin < last ∧ ¬ (isPtrmap usable pageSize last ∨ last = pendingBytePage pageSize) then
      return ⟨some last, nFin, newEnd⟩ :: (← tailStepsFrom steps newEnd (free - 1))
    if last ≤ nFin then return []
    return ⟨none, nFin, newEnd⟩ :: (← tailStepsFrom steps newEnd free)

def tailSteps (pageCount freelistCount : Nat) (maxSteps : Int) : Attempt (List TailStep) := do
  if pageSize = 0 then throw .zeroDivision
  tailStepsFrom usable pageSize maxSteps.toNat pageCount freelistCount

end

end Cctally.Reclaim
