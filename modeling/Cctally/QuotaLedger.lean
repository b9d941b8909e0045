import Cctally.Except
import Cctally.Json

/-!
# Raw quota groups and their loading units

A raw group names stored rows by the limit key and the window length the
provider sent. Jitter of a minute around a native length lives in both, so a
group is closed over the lengths that snap onto one, and its loading unit is the
snapped group. An interpreted identity reaches its unit by dropping the model
pool from its key.
-/

namespace Cctally.QuotaLedger

/-- Members of a limit key: `None`, a text or an integer. -/
def Plain : Json → Prop
  | .null => True
  | .num _ => True
  | .str _ => True
  | _ => False

/-- What the ledger takes from outside: `_codex_canonical_json` and `json.loads`, `none` for
an error; the UTC spelling of a text that names an instant with its offset; and
`strip().lower()`. Canonical text of plain members is read back. -/
structure Texts where
  canonicalJson : Json → String
  loads : String → Option Json
  instant : String → Option String
  normalized : String → String
  loads_canonicalJson : ∀ fields : Json.Fields, Json.InOrder fields → (∀ p ∈ fields, Plain p.2) →
    loads (canonicalJson (.obj fields)) = some (.obj fields)

/-- `range` of a length that is no integer. -/
inductive LedgerError where
  | type
  deriving DecidableEq

structure Group where
  sourceRootKey : String
  logicalLimitKey : String
  observedSlot : String
  windowMinutes : Int
  reset : String
  deriving DecidableEq

section
variable (tx : Texts)

def codexModelScopedQuotaPool : Option String → Option String
  | none => none
  | some model =>
    let normalized := tx.normalized model
    if "-codex-spark".toList <:+: normalized.toList then some normalized else none

def textOrNone : Option String → Json
  | none => .null
  | some s => .str s

def limitFields (sourceRootKey limitId : Option String) (observedSlot : String) (windowMinutes : Int)
    (modelPool : Option String) : Json.Fields :=
  let payload := [("limitId", textOrNone limitId), ("observedSlot", .str observedSlot), ("source", .str "codex"),
    ("sourceRootKey", textOrNone sourceRootKey), ("windowMinutes", .num windowMinutes)]
  match modelPool with
  | none => payload
  | some pool => Json.setField "modelPool" (.str pool) payload

def codexLogicalLimitKey (sourceRootKey limitId : Option String) (observedSlot : String) (windowMinutes : Int)
    (model : Option String) : String :=
  tx.canonicalJson (.obj (limitFields sourceRootKey limitId observedSlot windowMinutes
    (codexModelScopedQuotaPool tx model)))

def CODEX_NATIVE_WINDOW_MINUTES : List Int := [300, 10080]

def CODEX_WINDOW_MINUTES_SNAP_TOLERANCE : Int := 1

def snapMinutes (windowMinutes : Int) : Int :=
  (CODEX_NATIVE_WINDOW_MINUTES.find? fun native =>
    (windowMinutes - native).natAbs ≤ CODEX_WINDOW_MINUTES_SNAP_TOLERANCE).getD windowMinutes

/-- `snap_codex_window_minutes`; no other value than an `int` is moved. -/
def snapCodexWindowMinutes : Json → Json
  | .num windowMinutes => .num (snapMinutes windowMinutes)
  | windowMinutes => windowMinutes

def around (native : Int) : List Int :=
  (List.range (2 * CODEX_WINDOW_MINUTES_SNAP_TOLERANCE + 1).toNat).map fun i : Nat =>
    native - CODEX_WINDOW_MINUTES_SNAP_TOLERANCE + (i : Int)

def snapWindowMinutes (logicalLimitKey : String) : String :=
  match tx.loads logicalLimitKey with
  | some (.obj payload) =>
    let minutes := Json.field payload "windowMinutes"
    let snapped := snapCodexWindowMinutes minutes
    if snapped = minutes then logicalLimitKey
    else tx.canonicalJson (.obj (Json.setField "windowMinutes" snapped payload))
  | _ => logicalLimitKey

def codexSnapEquivalentLimitKeys (logicalLimitKey : String) : Except LedgerError (List String) :=
  match tx.loads (snapWindowMinutes tx logicalLimitKey) with
  | some (.obj payload) =>
    let native := Json.field payload "windowMinutes"
    if CODEX_NATIVE_WINDOW_MINUTES.any fun n => native.eqInt n then
      match native with
      | .num n => .ok ((around n).map fun minutes =>
          tx.canonicalJson (.obj (Json.setField "windowMinutes" (.num minutes) payload)))
      | _ => .error .type
    else .ok [logicalLimitKey]
  | _ => .ok [logicalLimitKey]

def codexSnapEquivalentWindowMinutes (windowMinutes : Int) : List Int :=
  let native := snapMinutes windowMinutes
  if native ∈ CODEX_NATIVE_WINDOW_MINUTES then around native else [windowMinutes]

def widen (g : Group) : Except LedgerError (List Group) := do
  let keys ← codexSnapEquivalentLimitKeys tx g.logicalLimitKey
  return keys.flatMap fun key => (codexSnapEquivalentWindowMinutes g.windowMinutes).map fun equivalent =>
    { g with logicalLimitKey := key, windowMinutes := equivalent }

def snapEquivalentRawGroups (groups : List Group) : Except LedgerError (List Group) := do
  let widened ← groups.mapM (widen tx)
  return widened.flatten

def stripModelPool (logicalLimitKey : String) : String :=
  match tx.loads logicalLimitKey with
  | some (.obj payload) =>
    if Json.hasField payload "modelPool" then tx.canonicalJson (.obj (Json.without payload ["modelPool"]))
    else logicalLimitKey
  | _ => logicalLimitKey

def replaceZ (s : String) : String :=
  String.ofList (s.toList.flatMap fun c => if c = 'Z' then "+00:00".toList else [c])

def normalizeReset (value : String) : String := (tx.instant (replaceZ value)).getD value

def loadingUnitFromRaw (group : Group) : Group :=
  { group with
    logicalLimitKey := snapWindowMinutes tx group.logicalLimitKey
    windowMinutes := snapMinutes group.windowMinutes
    reset := normalizeReset tx group.reset }

def loadingUnitFromIdentity (sourceRootKey logicalLimitKey observedSlot : String) (windowMinutes : Int)
    (canonicalResetIso : String) : Group where
  sourceRootKey := sourceRootKey
  logicalLimitKey := stripModelPool tx logicalLimitKey
  observedSlot := observedSlot
  windowMinutes := windowMinutes
  reset := normalizeReset tx canonicalResetIso

end

def KEY_SEPARATOR : String := "\x1f"

def physicalGroupKeyText (unit : Group) : String :=
  KEY_SEPARATOR.intercalate
    [unit.sourceRootKey, unit.logicalLimitKey, unit.observedSlot, unit.windowMinutes.repr, unit.reset]

end Cctally.QuotaLedger
