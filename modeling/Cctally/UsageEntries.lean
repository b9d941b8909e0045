import Cctally.Json
import Mathlib.Data.List.Forall2

/-!
# Usage entries of transcripts

A line of a transcript that is a billable assistant record is an entry. An
entry in range that carries both of its ids goes to the map the files share,
unless the entry there is worth more; the others are returned file by file.
Instants are microseconds, and a naive time is read in UTC.
-/

namespace Cctally.UsageEntries

open Json (field fieldD)

/-- What escapes a call. A `JSONDecodeError` is also a `ValueError`. -/
inductive Raised where
  | jsonDecode
  | value
  | type
  | overflow
  | attribute
  | recursion
  deriving DecidableEq

/-- What the parser takes from outside: `str.strip`, `json.loads`,
`datetime.fromisoformat`, `int` of the text of a float and of a text, and `float`. -/
structure Env where
  strip : String → String
  loads : String → Except Raised Json
  fromisoformat : String → Option Int
  intOfFloat : String → Except Raised Int
  intOfText : String → Except Raised Int
  float : Json → Except Raised String

structure UsageEntry where
  timestamp : Int
  model : String
  usage : Json.Fields
  costUsd : Option String
  sourcePath : String

inductive SkipReason where
  | notAssistant
  | badTimestamp
  | noUsage
  | noModel
  | synthetic
  deriving DecidableEq

abbrev Parsed := UsageEntry × Option String × Option String

section
variable (env : Env)

def replaceZ (s : String) : String :=
  String.ofList (s.toList.flatMap fun c => if c = 'Z' then "+00:00".toList else [c])

def int : Json → Except Raised Int
  | .num n => .ok n
  | .bool b => .ok (if b then 1 else 0)
  | .float r => env.intOfFloat r
  | .str s => env.intOfText s
  | _ => .error .type

/-- The handler of a `TypeError` or a `ValueError`. -/
def orNone {α : Type} (x : Except Raised α) : Except Raised (Option α) :=
  match x with
  | .ok a => .ok (some a)
  | .error .type => .ok none
  | .error .value => .ok none
  | .error .jsonDecode => .ok none
  | .error raised => .error raised

def coerceSplitToken : Json → Except Raised (Option Int)
  | .null => .ok (some 0)
  | .bool _ => .ok none
  | .arr _ => .ok none
  | .obj _ => .ok none
  | v => orNone ((max 0 ·) <$> int env v)

def validRecordId : Json → Option String
  | .str s => if s = "" then none else some s
  | _ => none

def splitUsage (usage : Json.Fields) : Except Raised Json.Fields :=
  match field usage "cache_creation" with
  | .obj cc => do
    let h ← coerceSplitToken env (field cc "ephemeral_1h_input_tokens")
    let m ← coerceSplitToken env (field cc "ephemeral_5m_input_tokens")
    match h, m with
    | some h, some m =>
      return Json.setField "cache_creation_5m_input_tokens" (.num m)
        (Json.setField "cache_creation_1h_input_tokens" (.num h) usage)
    | _, _ => return usage
  | _ => return usage

def textSpeed (usage : Json.Fields) : Json.Fields :=
  match field usage "speed" with
  | .null => usage
  | .str _ => usage
  | _ => Json.without usage ["speed"]

def classifyCostEntry (obj : Json.Fields) (pathStr : String) : Except Raised (SkipReason ⊕ Parsed) :=
  if field obj "type" ≠ .str "assistant" then .ok (.inl .notAssistant)
  else
    match field obj "timestamp" with
    | .str tsRaw =>
      if env.strip tsRaw = "" then .ok (.inl .badTimestamp)
      else
        let msg := match field obj "message" with
          | .obj msg => msg
          | _ => obj
        match field msg "usage" with
        | .obj usage =>
          match if (field msg "model").truthy then field msg "model" else field obj "model" with
          | .str model =>
            if env.strip model = "" then .ok (.inl .noModel)
            else if env.strip model = "<synthetic>" then .ok (.inl .synthetic)
            else do
              let usage := textSpeed (← splitUsage env usage)
              match env.fromisoformat (replaceZ (env.strip tsRaw)) with
              | none => return .inl .badTimestamp
              | some ts =>
                let costUsd ← match field obj "costUSD" with
                  | .null => pure none
                  | raw => orNone (env.float raw)
                return .inr (⟨ts, env.strip model, usage, costUsd, pathStr⟩,
                  validRecordId (field msg "id"), validRecordId (field obj "requestId"))
          | _ => .ok (.inl .noModel)
        | _ => .ok (.inl .noUsage)
    | _ => .ok (.inl .badTimestamp)

/-- A value that is not an object has no `get`. -/
def parseCostEntry (obj : Json) (pathStr : String) : Except Raised (Option Parsed) :=
  match obj with
  | .obj fields => do
    match ← classifyCostEntry env fields pathStr with
    | .inl _ => return none
    | .inr parsed => return some parsed
  | _ => .error .attribute

def tokens (usage : Json.Fields) (key : String) : Except Raised Int :=
  let value := fieldD usage key (.num 0)
  if value.truthy then int env value else .ok 0

def entryTokenTotal (entry : UsageEntry) : Except Raised Int := do
  let input ← tokens env entry.usage "input_tokens"
  let output ← tokens env entry.usage "output_tokens"
  let creation ← tokens env entry.usage "cache_creation_input_tokens"
  let read ← tokens env entry.usage "cache_read_input_tokens"
  return input + output + creation + read

def hasSpeed (entry : UsageEntry) : Bool :=
  match field entry.usage "speed" with
  | .null => false
  | _ => true

def shouldReplace (candidate existing : UsageEntry) : Except Raised Bool := do
  let cTotal ← entryTokenTotal env candidate
  let eTotal ← entryTokenTotal env existing
  if cTotal ≠ eTotal then return decide (cTotal > eTotal)
  else return hasSpeed candidate && !hasSpeed existing

/-- What reading a file yields: its decoded lines, up to an `OSError` when there is one. -/
structure SourceFile where
  path : String
  lines : List String

variable (rangeStart rangeEnd : Int)

def readLine (pathStr line : String) : Except Raised (Option Parsed) :=
  if env.strip line = "" then .ok none
  else
    match env.loads (env.strip line) with
    | .error .jsonDecode => .ok none
    | .error raised => .error raised
    | .ok obj => do
      match ← parseCostEntry env obj pathStr with
      | none => return none
      | some parsed =>
        return if parsed.1.timestamp < rangeStart ∨ parsed.1.timestamp > rangeEnd then none else some parsed

structure Kept where
  dedupeMap : Dict String UsageEntry
  noKey : List UsageEntry

def Kept.empty : Kept := ⟨Dict.empty, []⟩

def Kept.add (kept : Kept) : Parsed → Except Raised Kept
  | (entry, some msgId, some reqId) =>
    let key := msgId ++ ":" ++ reqId
    match kept.dedupeMap.get? key with
    | none => .ok { kept with dedupeMap := kept.dedupeMap.set key entry }
    | some existing => do
      if ← shouldReplace env entry existing then
        return { kept with dedupeMap := kept.dedupeMap.set key entry }
      else return kept
  | (entry, _, _) => .ok { kept with noKey := kept.noKey ++ [entry] }

def Kept.line (pathStr : String) (kept : Kept) (line : String) : Except Raised Kept := do
  match ← readLine env rangeStart rangeEnd pathStr line with
  | none => return kept
  | some parsed => kept.add env parsed

def parseUsageEntries (kept : Kept) (file : SourceFile) : Except Raised Kept :=
  file.lines.foldlM (Kept.line env rangeStart rangeEnd file.path) kept

def collectEntries (files : List SourceFile) : Except Raised Kept :=
  files.foldlM (parseUsageEntries env rangeStart rangeEnd) Kept.empty

end

end Cctally.UsageEntries
