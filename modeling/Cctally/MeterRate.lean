import Cctally.Calls
import Cctally.JsonEq
import Cctally.Lineage

/-!
# The active pair of metering regimes

A closed regime and one that starts at the instant it ends at are a pair, where
both are of one fingerprint and one coefficient era. The marker is about the
newest pair whose later regime is still open. It is read from a table of all
pairs, or searched for from the newest start, so that a predicate is asked about
few regimes only. A regime is an object of a list: it is compared by identity,
and its fields are those of the value that it holds. What the marker prints of
the pair is left out.
-/

namespace Cctally.MeterRate

open Json (field)

abbrev Ref := Nat

/-- `datetime.fromisoformat`, `none` for a `ValueError`, and `==` of floats. -/
structure Env where
  fromisoformat : String → Option Stamp
  floats : Json.Floats

/-- `OverflowError`: an instant with an offset that leaves the years of `datetime` in UTC. -/
inductive Raised
  | overflow
  deriving DecidableEq, Repr

section
variable (env : Env)

def instant : Json → Except Raised (Option Int)
  | .str s =>
    if s = "" then .ok none
    else
      match env.fromisoformat (replaceZ s) with
      | none => .ok none
      | some .naive => .ok none
      | some (.aware t) => if MIN_INSTANT ≤ t ∧ t ≤ MAX_INSTANT then .ok (some t) else .error .overflow
  | _ => .ok none

variable (value : Ref → Json)

def isDict (r : Ref) : Bool := (value r).isObj

def getField (r : Ref) (key : String) : Json :=
  match value r with
  | .obj d => field d key
  | _ => .null

/-- `str(regime.get("status") or "") == "stale"`: the text of no other value is that. -/
def isStale (r : Ref) : Bool :=
  match getField value r "status" with
  | .str s => s = "stale"
  | _ => false

/-- `regime.get("effectiveUntil") in (None, "")` -/
def isOpen (r : Ref) : Bool :=
  match getField value r "effectiveUntil" with
  | .null => true
  | .str s => s = ""
  | _ => false

def sameMeter (p r : Ref) : Bool :=
  Json.eq env.floats (getField value p "fingerprint") (getField value r "fingerprint") &&
    Json.eq env.floats (getField value p "coefficientEra") (getField value r "coefficientEra")

def startOf (r : Ref) : Except Raised (Option Int) := instant env (getField value r "effectiveFrom")

def untilOf (r : Ref) : Except Raised (Option Int) := instant env (getField value r "effectiveUntil")

def closeStep (closed : Dict Int Ref) (r : Ref) : Except Raised (Dict Int Ref) :=
  if !isDict value r then pure closed
  else if isStale value r then pure closed
  else do
    match ← untilOf env value r with
    | some until_ => pure (closed.setdefault until_ r)
    | none => pure closed

def pairStep (closed : Dict Int Ref) (pairs : Dict Int (Ref × Ref)) (r : Ref) : Except Raised (Dict Int (Ref × Ref)) :=
  if !isDict value r then pure pairs
  else do
    match ← startOf env value r with
    | none => pure pairs
    | some start =>
      match closed.get? start with
      | none => pure pairs
      | some p => pure (if p = r ∨ sameMeter env value p r = false then pairs else pairs.set start (p, r))

def adjacentPairs (regimes : List Ref) : Except Raised (Dict Int (Ref × Ref)) := do
  let closed ← regimes.foldlM (closeStep env value) Dict.empty
  regimes.foldlM (pairStep env value closed) Dict.empty

def activeRateChange (regimes : List Ref) : Except Raised (Option (Ref × Ref)) := do
  let pairs ← adjacentPairs env value regimes
  let openStarts := (pairs.entries.filter fun e => isOpen value e.2.2).map Prod.fst
  match openStarts.max? with
  | none => pure none
  | some start => pure (pairs.get? start)

structure Asked where
  kept : Dict Ref Bool
  calls : List Ref

abbrev Search := Call Asked Raised

variable (keep : Ref → Bool)

def keeps (r : Ref) : Search Bool := do
  match (← get).kept.get? r with
  | some b => pure b
  | none => do
    modify fun s => ⟨s.kept.set r (keep r), s.calls ++ [r]⟩
    pure (keep r)

def findPredecessor (start : Int) : List Ref → Search (Option Ref)
  | [] => pure none
  | r :: rest =>
    if isStale value r then findPredecessor start rest
    else do
      let until_ ← Call.ofExcept (untilOf env value r)
      if until_ = some start then
        if ← keeps keep r then pure (some r) else findPredecessor start rest
      else findPredecessor start rest

def findSuccessor (p : Ref) : List Ref → Search (Option Ref)
  | [] => pure none
  | r :: rest =>
    if r = p then findSuccessor p rest
    else if sameMeter env value p r = false then findSuccessor p rest
    else do
      if ← keeps keep r then pure (if isOpen value r then some r else none) else findSuccessor p rest

def startsStep (starts : Dict Int (List Ref)) (r : Ref) : Except Raised (Dict Int (List Ref)) := do
  match ← startOf env value r with
  | some start => pure (starts.set start ((starts.get? start).getD [] ++ [r]))
  | none => pure starts

def visit (regimes : List Ref) (starts : Dict Int (List Ref)) : List Int → Search (Option (Ref × Ref))
  | [] => pure none
  | start :: rest =>
    let candidates := (starts.get? start).getD []
    if candidates.any (isOpen value) = false then visit regimes starts rest
    else do
      match ← findPredecessor env value keep start regimes with
      | none => visit regimes starts rest
      | some p =>
        match ← findSuccessor env value keep p candidates.reverse with
        | some r => pure (some (p, r))
        | none => visit regimes starts rest

def activePairAmong (regimes : List Ref) : Search (Option (Ref × Ref)) := do
  let regimes := regimes.filter (isDict value)
  let starts ← Call.ofExcept (regimes.foldlM (startsStep env value) Dict.empty)
  visit env value keep regimes starts (starts.keys.insertionSort (· ≥ ·))

end

end Cctally.MeterRate
