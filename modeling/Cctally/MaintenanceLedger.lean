import Cctally.Doubles
import Cctally.Json
import Mathlib.Algebra.BigOperators.Group.List.Basic
import Mathlib.Algebra.Order.BigOperators.Group.List

/-!
# The maintenance ledger

Every maintenance operation adds its charge to the bucket of the hour it started
in. The statistic compares what was charged in the current hour and the 24 before
it with 4 MiB a minute, one minute of credit and the largest single charge.
Instants are microseconds since the epoch, in UTC.
-/

namespace Cctally.WriteBudget

open Json (field fieldD Fields)

def SECOND : Int := 1000000
def MINUTE : Int := 60 * SECOND
def HOUR : Int := 60 * MINUTE

def MIN_INSTANT : Int := -30610224000 * SECOND
def MAX_INSTANT : Int := 253402300800 * SECOND - 1

def InYears (t : Int) : Prop := MIN_INSTANT ≤ t ∧ t ≤ MAX_INSTANT

instance (t : Int) : Decidable (InYears t) := inferInstanceAs (Decidable (_ ∧ _))

inductive Parsed where
  | aware (t : Int)
  | naive (t : Int)

/-- The texts of instants: `strftime("%Y-%m-%dT%H:%M:%SZ")` of an instant in UTC, and
`datetime.fromisoformat` of a text whose `Z` stands for `+00:00`, `none` for a `ValueError`. -/
structure Clock where
  strftime : Int → String
  fromisoformat : String → Option Parsed
  reads_back : ∀ t, InYears t → fromisoformat (strftime t) = some (.aware (t - t % SECOND))
  reads_aware : ∀ s t, fromisoformat s = some (.aware t) → t ≤ MAX_INSTANT
  reads_naive : ∀ s t, fromisoformat s = some (.naive t) → t ≤ MAX_INSTANT

def MiB : Int := 1024 * 1024
def MAINTENANCE_RATE_BYTES_PER_MINUTE : Int := 4 * MiB
def MAINTENANCE_CREDIT_BYTES : Int := 4 * MiB
def LEDGER_BUCKETS : Nat := 25

structure LedgerBucket where
  hour : Int
  charged : Int
  largest : Int
  deriving DecidableEq

def hourFloor (t : Int) : Int := t - t % HOUR

def sortBuckets (bs : List LedgerBucket) : List LedgerBucket := bs.insertionSort fun a b => a.hour ≤ b.hour

def lastBuckets (bs : List LedgerBucket) : List LedgerBucket := bs.drop (bs.length - LEDGER_BUCKETS)

section
variable (ck : Clock)

def isoZ (t : Int) : String := ck.strftime t

def parseHour : Json → Option Int
  | .str s =>
    match ck.fromisoformat s with
    | some (.aware t) => some (hourFloor t)
    | some (.naive _) => none
    | none => none
  | _ => none

/-- One turn of the loop of `parse_ledger`. -/
def readEntry (buckets : Dict Int LedgerBucket) (entry : Json) : Dict Int LedgerBucket :=
  match entry with
  | .obj d =>
    match parseHour ck (field d "hour"), field d "charged", fieldD d "largest" (field d "charged") with
    | some hour, .num charged, .num largest =>
      if charged < 0 ∨ largest < 0 then buckets
      else
        match buckets.get? hour with
        | some prior => buckets.set hour ⟨hour, charged + prior.charged, max largest prior.largest⟩
        | none => buckets.set hour ⟨hour, charged, largest⟩
    | _, _, _ => buckets
  | _ => buckets

def parseLedger : Json → List LedgerBucket
  | .arr entries => sortBuckets (entries.foldl (readEntry ck) Dict.empty).values
  | _ => []

def serializeBucket (b : LedgerBucket) : Json :=
  Json.dict [("hour", .str (isoZ ck b.hour)), ("charged", .num b.charged), ("largest", .num b.largest)]

def serializeLedger (bs : List LedgerBucket) : List Json := bs.map (serializeBucket ck)

def ledgerAdd (raw : List Json) (atUtc chargeBytes : Int) : List Json :=
  let hour := hourFloor atUtc
  let buckets := Dict.ofList ((parseLedger ck (.arr raw)).map fun b => (b.hour, b))
  let charge := max 0 chargeBytes
  let bucket : LedgerBucket :=
    match buckets.get? hour with
    | some prior => ⟨hour, prior.charged + charge, max prior.largest charge⟩
    | none => ⟨hour, charge, max 0 charge⟩
  let floor := hour - (LEDGER_BUCKETS - 1) * HOUR
  let kept := lastBuckets (sortBuckets ((buckets.set hour bucket).values.filter fun b => floor ≤ b.hour))
  serializeLedger ck kept

inductive Verdict where
  | ok
  | over
  deriving DecidableEq

structure MaintenanceStatistic where
  chargedBytes : Int
  largestChargeBytes : Int
  windowStart : Int
  windowEnd : Int
  windowMinutes : Int
  allowanceBytes : Int
  verdict : Verdict

/-- `timedelta.total_seconds()`: the microseconds over a million, as a double. -/
def totalSeconds (us : Int) : ℚ := Doubles.round (us / 1000000)

def largestCharge (inside : List LedgerBucket) : Int := (inside.map LedgerBucket.largest).max?.getD 0

def maintenanceStatistic (rawLedger : Json) (now : Int) : MaintenanceStatistic :=
  let current := hourFloor now
  let start := current - 24 * HOUR
  let minutes := 1440 + ⌊totalSeconds (now - current) / 60⌋
  let inside := (parseLedger ck rawLedger).filter fun b => start ≤ b.hour ∧ b.hour ≤ current
  let charged := (inside.map LedgerBucket.charged).sum
  let largest := largestCharge inside
  let allowance := MAINTENANCE_RATE_BYTES_PER_MINUTE * (minutes + 1) + largest
  { chargedBytes := charged, largestChargeBytes := largest, windowStart := start, windowEnd := now
    windowMinutes := minutes, allowanceBytes := allowance
    verdict := if allowance < charged then .over else .ok }

end

end Cctally.WriteBudget
