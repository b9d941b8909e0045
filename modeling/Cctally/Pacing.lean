import Cctally.MaintenanceLedger

/-!
# The pacing state

The maintenance allowance at rest is one record: a balance, the instant it was
accrued to, and the hourly ledger. A visit loads it, an operation is charged
against it, and the record is stored again within the bounds of its fields.
-/

namespace Cctally.Pacing

open Json (field fieldD Fields hasField setField)
open WriteBudget
export WriteBudget (totalSeconds MAX_INSTANT)

def RETENTION_POLICY_VERSION : Int := 1
def LEGACY_RECORD_KEYS : List String :=
  ["freelist_count", "unreclaimed_bytes", "attempted_at", "made_progress", "deadline_hit"]

def RECLAIM_RECORD_LENGTH : Nat := 3968
def INT64_MIN : Int := -2 ^ 63
def INT64_MAX : Int := 2 ^ 63 - 1
def POLICY_VERSION_MAX : Int := 999
def REASON_MAX_CHARS : Nat := 48
def LEDGER_KEEP : Nat := 25

/-- What the record takes from outside: the texts of instants, and the length in UTF-8 of the
text `json.dumps` makes of a value. -/
structure Env where
  clock : Clock
  length : Json → Nat

structure PacingState where
  balanceBytes : Int
  asOf : Int
  ledger : List Json
  eligible : Bool
  nextAttemptAt : Option Int
  continuationCutoff : Option String
  lastFailure : Option Fields
  progress : Option Fields
  opSeq : Int
  legacy : Fields

section
variable (env : Env)

/-- `none` for an `OverflowError`. -/
def ceilSecond (t : Int) : Option Int :=
  if t % SECOND = 0 then some t
  else if t - t % SECOND + SECOND ≤ MAX_INSTANT then some (t - t % SECOND + SECOND) else none

def isoCeil : Option Int → Option Json
  | none => some .null
  | some t => (ceilSecond t).map fun t => .str (isoZ env.clock t)

def parseUtc : Json → Option Int
  | .str s =>
    match env.clock.fromisoformat s with
    | some (.aware t) => some t
    | some (.naive t) => some t
    | none => none
  | _ => none

def intOrNone : Json → Option Int
  | .num n => some n
  | _ => none

def textOrNone : Json → Option String
  | .str s => some s
  | _ => none

def dictOrNone : Json → Option Fields
  | .obj d => some d
  | _ => none

def isTrue : Json → Bool
  | .bool b => b
  | _ => false

def freshState (now : Int) (legacy : Fields) : PacingState :=
  { balanceBytes := MAINTENANCE_CREDIT_BYTES, asOf := now, ledger := [], eligible := false, nextAttemptAt := none
    continuationCutoff := none, lastFailure := none, progress := none, opSeq := 0, legacy := legacy }

def loadBalance (d : Fields) (now : Int) : Int × Int :=
  match intOrNone (field d "balance_bytes"), parseUtc env (field d "as_of") with
  | some balance, some asOf => (balance, asOf)
  | _, _ => (MAINTENANCE_CREDIT_BYTES, now)

def fromRecord (record : Json) (now : Int) : PacingState :=
  match record with
  | .obj d =>
    let legacy := LEGACY_RECORD_KEYS.filterMap fun k => (Dict.find k d).map fun v => (k, v)
    match field d "policy_version" with
    | .null => freshState now legacy
    | _ =>
      { balanceBytes := min (loadBalance env d now).1 MAINTENANCE_CREDIT_BYTES
        asOf := (loadBalance env d now).2
        ledger := serializeLedger env.clock (parseLedger env.clock (field d "ledger"))
        eligible := isTrue (field d "eligible")
        nextAttemptAt := parseUtc env (field d "next_attempt_at")
        continuationCutoff := textOrNone (field d "continuation_cutoff")
        lastFailure := dictOrNone (field d "last_failure")
        progress := dictOrNone (field d "progress")
        opSeq := max 0 ((intOrNone (field d "op_seq")).getD 0)
        legacy := legacy }
  | _ => freshState now []

def trunc (x : ℚ) : Int := if 0 ≤ x then ⌊x⌋ else ⌈x⌉

/-- What the allowance grows by in so many microseconds: `int(RATE * elapsed / 60.0)`. -/
def accrued (us : Int) : Int :=
  let elapsed := max 0 (totalSeconds us)
  trunc (Doubles.round (Doubles.round (MAINTENANCE_RATE_BYTES_PER_MINUTE * elapsed) / 60))

def PacingState.available (s : PacingState) (now : Int) : Int :=
  min MAINTENANCE_CREDIT_BYTES (s.balanceBytes + accrued (now - s.asOf))

def PacingState.charge (s : PacingState) (reservation now started : Int) : PacingState :=
  { s with
    balanceBytes := s.available now - reservation
    asOf := max now s.asOf
    ledger := ledgerAdd env.clock s.ledger started reservation
    opSeq := s.opSeq + 1 }

def optional {α : Type*} (f : α → Json) : Option α → Json
  | none => .null
  | some a => f a

/-- `none` for an `OverflowError` of one of the instants. -/
def PacingState.toRecord (s : PacingState) : Option Fields := do
  let asOf ← isoCeil env (some s.asOf)
  let nextAttemptAt ← isoCeil env s.nextAttemptAt
  pure <|
    setField "op_seq" (.num s.opSeq) <|
    setField "progress" (optional .obj s.progress) <|
    setField "last_failure" (optional .obj s.lastFailure) <|
    setField "continuation_cutoff" (optional .str s.continuationCutoff) <|
    setField "next_attempt_at" nextAttemptAt <|
    setField "eligible" (.bool s.eligible) <|
    setField "ledger" (.arr s.ledger) <|
    setField "as_of" asOf <|
    setField "balance_bytes" (.num s.balanceBytes) <|
    setField "policy_version" (.num RETENTION_POLICY_VERSION) s.legacy

def clampInt (value : Json) (low high : Int) : Json :=
  match value with
  | .num n => .num (max low (min high n))
  | _ => .null

def boundedInstant (value : Json) (ceil : Bool) : Json :=
  match (parseUtc env value).bind fun t => if ceil then ceilSecond t else some t with
  | some t => if InYears t then .str (isoZ env.clock t) else .null
  | none => .null

def boundedReason (value : Json) : Json :=
  match value with
  | .str s =>
    if 0 < s.length ∧ s.length ≤ REASON_MAX_CHARS ∧ s.toList.all (fun c => c.isLower || c.isDigit || c = '_') then .str s
    else .str "unknown"
  | _ => .str "unknown"

def clampBucket (b : LedgerBucket) : LedgerBucket :=
  { b with charged := max 0 (min INT64_MAX b.charged), largest := max 0 (min INT64_MAX b.largest) }

def boundedLedger (value : Json) : Json :=
  let buckets := parseLedger env.clock value
  .arr (serializeLedger env.clock ((buckets.drop (buckets.length - LEDGER_KEEP)).map clampBucket))

def boundedFailure : Json → Json
  | .obj d => Json.dict [("reason", boundedReason (field d "reason")), ("at", boundedInstant env (field d "at") false)]
  | _ => .null

def boundedProgress : Json → Json
  | .obj d =>
    Json.dict [("freelist_pages", clampInt (field d "freelist_pages") 0 INT64_MAX),
      ("page_size", clampInt (field d "page_size") 0 INT64_MAX),
      ("observed_at", boundedInstant env (field d "observed_at") false)]
  | _ => .null

def keep (record : Fields) (key : String) (f : Json → Json) (out : Fields) : Fields :=
  match Dict.find key record with
  | some value => setField key (f value) out
  | none => out

def nonnegativeInt (value : Json) : Json := clampInt value 0 INT64_MAX

def boundedRecord (record : Fields) : Fields :=
  keep record "progress" (boundedProgress env) <|
  keep record "last_failure" (boundedFailure env) <|
  keep record "ledger" (boundedLedger env) <|
  keep record "eligible" (fun v => .bool (isTrue v)) <|
  keep record "deadline_hit" (fun v => .bool (isTrue v)) <|
  keep record "made_progress" (fun v => .bool (isTrue v)) <|
  keep record "continuation_cutoff" (fun v => boundedInstant env v false) <|
  keep record "next_attempt_at" (fun v => boundedInstant env v true) <|
  keep record "as_of" (fun v => boundedInstant env v true) <|
  keep record "attempted_at" (fun v => boundedInstant env v false) <|
  keep record "policy_version" (fun v => clampInt v 0 POLICY_VERSION_MAX) <|
  keep record "balance_bytes" (fun v => clampInt v INT64_MIN INT64_MAX) <|
  keep record "op_seq" nonnegativeInt <|
  keep record "unreclaimed_bytes" nonnegativeInt <|
  keep record "freelist_count" nonnegativeInt []

/-- What the text of the record holds, its padding left out; `none` for a `StateRecordOversize`. -/
def serializeReclaimRecord (record : Fields) : Option Json :=
  let bounded := Json.obj (boundedRecord env record)
  if RECLAIM_RECORD_LENGTH < env.length bounded then none else some bounded

end

theorem find_keep (record : Fields) (key k : String) (f : Json → Json) (out : Fields) :
    Dict.find k (keep record key f out) =
      if key = k then (Dict.find key record).map f |>.or (Dict.find k out) else Dict.find k out := by
  unfold keep
  cases h : Dict.find key record with
  | none => simp
  | some v => rw [Json.find_setField]; simp

end Cctally.Pacing
