import Cctally.Maxima
import Cctally.Segments

/-!
# Segment summaries

A pass over the journal keeps for each segment what a later pass must contribute in
its place: its counters, its partial last-seen map and how many records it decoded.
A later pass skips the segment when its extent and its file are as they were.
-/

namespace Cctally

namespace SegmentSummaries

export Segments (Bytes newline)
open TornLines (lines)
open Maxima (later raise)

inductive Provider
  | claude
  | codex
  deriving DecidableEq

/-- `decode_line`, what the pass reads of a decoded record, and `classify_legacy_provider`. -/
structure Decoder (R : Type) where
  decodeLine : Bytes → Option R
  t : R → String
  at_ : R → Option String
  account : R → Option String
  provider : R → Option String
  payloadKind : R → Option String
  payloadAccountKey : R → Option String
  providerOfLegacy : R → Option Provider

def RETAINED_RECORD_TYPES : List String := ["evt", "correction", "correction_batch", "op"]

def QUOTA_OBS_KIND : String := "quota_window_snapshot"

section
variable {R : Type} (d : Decoder R)

def Decoder.retained (r : R) : Bool := RETAINED_RECORD_TYPES.contains (d.t r)

def Decoder.isCodexQuotaObs (r : R) : Bool :=
  d.t r = "obs" && d.provider r = some "codex" && d.payloadKind r = some QUOTA_OBS_KIND

end

structure LastSeen where
  stamped : Dict String String
  legacyClaudeAt : Option String
  legacyCodexAt : Option String

namespace LastSeen

def empty : LastSeen :=
  { stamped := Dict.empty
    legacyClaudeAt := none
    legacyCodexAt := none }

def bump (s : LastSeen) (key at_ : String) : LastSeen := { s with stamped := raise s.stamped key at_ }

def text (value : Option String) : Option String := value.filter (· ≠ "")

def observe {R : Type} (d : Decoder R) (s : LastSeen) (r : R) : LastSeen :=
  match text (d.at_ r) with
  | none => s
  | some at_ =>
    match text (d.account r) with
    | some account => s.bump account at_
    | none =>
      if d.t r = "op" then
        match text (d.payloadAccountKey r) with
        | some key => if d.payloadKind r = some "account_observe" then s.bump key at_ else s
        | none => s
      else if d.t r = "obs" then
        match d.providerOfLegacy r with
        | some .claude => { s with legacyClaudeAt := later s.legacyClaudeAt at_ }
        | some .codex => { s with legacyCodexAt := later s.legacyCodexAt at_ }
        | none => s
      else s

def mergeAt (previous : Option String) : Option String → Option String
  | none => previous
  | some at_ => later previous at_

def merge (s : LastSeen) (stamped : Dict String String) (legacyClaudeAt legacyCodexAt : Option String) : LastSeen :=
  let s := stamped.entries.foldl (fun s p => if p.1 ≠ "" ∧ p.2 ≠ "" then s.bump p.1 p.2 else s) s
  { s with
    legacyClaudeAt := mergeAt s.legacyClaudeAt legacyClaudeAt
    legacyCodexAt := mergeAt s.legacyCodexAt legacyCodexAt }

end LastSeen

/-! ## Summaries -/

/-- What the pass takes of `os.stat`. -/
structure Stat where
  size : Nat
  dev : Int
  ino : Int

structure SegmentSummary where
  segmentName : String
  stDev : Int
  stIno : Int
  summarizedSize : Nat
  completeLineCoveredOffset : Nat
  lines : Nat
  bytes : Nat
  decodes : Nat
  malformed : Nat
  quotaOnly : Bool
  codexQuotaOnly : Bool
  decodedEntryCount : Option Nat
  completePrefixSha256 : Option String
  lastSeenStamped : Dict String String
  lastSeenLegacyClaudeAt : Option String
  lastSeenLegacyCodexAt : Option String

/-- `_SegmentSummaryCollector`; `folded` are the bytes its digest has taken. -/
structure Collector where
  summaries : Dict String SegmentSummary
  lastSeen : Option LastSeen
  name : Option String
  lo : Nat
  stat : Option Stat
  lines : Nat
  bytes : Nat
  decodes : Nat
  malformed : Nat
  retained : Nat
  nonCodexQuota : Nat
  lineEnd : Nat
  folded : Bytes

namespace Collector

def empty : Collector :=
  { summaries := Dict.empty
    lastSeen := none
    name := none
    lo := 0
    stat := none
    lines := 0
    bytes := 0
    decodes := 0
    malformed := 0
    retained := 0
    nonCodexQuota := 0
    lineEnd := 0
    folded := [] }

def summaryOf (sha256 : Bytes → String) (c : Collector) (name : String) (stat : Stat) : SegmentSummary :=
  { segmentName := name
    stDev := stat.dev
    stIno := stat.ino
    summarizedSize := stat.size
    completeLineCoveredOffset := c.lineEnd
    lines := c.lines
    bytes := c.bytes
    decodes := c.decodes
    malformed := c.malformed
    quotaOnly := c.retained = 0
    codexQuotaOnly := c.nonCodexQuota = 0
    decodedEntryCount := some c.decodes
    completePrefixSha256 := some (sha256 c.folded)
    lastSeenStamped := (c.lastSeen.map (·.stamped)).getD Dict.empty
    lastSeenLegacyClaudeAt := c.lastSeen.bind (·.legacyClaudeAt)
    lastSeenLegacyCodexAt := c.lastSeen.bind (·.legacyCodexAt) }

def close (sha256 : Bytes → String) (c : Collector) (running : LastSeen) : Collector × LastSeen :=
  let running := match c.lastSeen with
    | none => running
    | some seen => running.merge seen.stamped seen.legacyClaudeAt seen.legacyCodexAt
  let summaries := match c.name, c.stat with
    | some name, some stat => if c.lo = 0 then c.summaries.set name (c.summaryOf sha256 name stat) else c.summaries
    | _, _ => c.summaries
  ({ c with
    summaries := summaries
    name := none
    lastSeen := none }, running)

def begin_ (sha256 : Bytes → String) (c : Collector) (name : String) (lo : Nat) (stat : Stat) (running : LastSeen) :
    Collector × LastSeen :=
  let (c, running) := c.close sha256 running
  ({ c with
    name := some name
    lo := lo
    stat := some stat
    lines := 0
    bytes := 0
    decodes := 0
    malformed := 0
    retained := 0
    nonCodexQuota := 0
    lineEnd := lo
    folded := []
    lastSeen := some .empty }, running)

def line (c : Collector) (raw : Bytes) (endOffset : Nat) : Collector :=
  { c with
    lines := c.lines + 1
    bytes := c.bytes + raw.length + 1
    lineEnd := endOffset
    folded := c.folded ++ raw ++ [newline] }

def decoded (c : Collector) (retained codexQuota : Bool) : Collector :=
  { c with
    decodes := c.decodes + 1
    retained := if retained then c.retained + 1 else c.retained
    nonCodexQuota := if codexQuota then c.nonCodexQuota else c.nonCodexQuota + 1 }

def malformedLine (c : Collector) : Collector := { c with malformed := c.malformed + 1 }

def observe {R : Type} (d : Decoder R) (c : Collector) (r : R) : Collector :=
  { c with lastSeen := c.lastSeen.map fun seen => seen.observe d r }

def adopt (c : Collector) (summary : SegmentSummary) : Collector :=
  { c with summaries := c.summaries.set summary.segmentName summary }

end Collector

structure Running (R : Type) where
  lines : Nat
  bytes : Nat
  decodes : Nat
  malformed : Nat
  decoded : List (Option R)
  lastSeen : LastSeen

/-- The account-bound fence as it bears on one segment: the frozen extent, and the
records it excludes, of which none is historical and none a quota observation. -/
structure Fence {R : Type} (d : Decoder R) where
  frozenExtent : Option Int
  excluded : R → Nat → Bool
  historical : ∀ extent, frozenExtent = some extent → ∀ r (offset : Nat), (offset : Int) < extent → excluded r offset = false
  quota : ∀ r offset, d.isCodexQuotaObs r = true → excluded r offset = false

section
variable {R : Type} {d : Decoder R} (sha256 : Bytes → String)

/-- `not _is_admitted`, of a boundary that may not exist. -/
def excludes (boundary : Option (Fence d)) (r : R) (offset : Nat) : Bool :=
  match boundary with
  | none => false
  | some fence => fence.excluded r offset

def readLine (boundary : Option (Fence d)) (c : Collector) (running : Running R) (offset : Nat) (raw : Bytes) :
    Collector × Running R :=
  let c := c.line raw (offset + raw.length + 1)
  let running := { running with lines := running.lines + 1, bytes := running.bytes + raw.length + 1 }
  match d.decodeLine raw with
  | none => (c.malformedLine, { running with malformed := running.malformed + 1 })
  | some r =>
    if excludes boundary r offset then
      (c.decoded false false,
        { running with decodes := running.decodes + 1, decoded := running.decoded ++ [none] })
    else
      ((c.observe d r).decoded (d.retained r) (d.isCodexQuotaObs r),
        { running with
          decodes := running.decodes + 1
          decoded := running.decoded ++ [if d.retained r then some r else none] })

def readFrom (boundary : Option (Fence d)) (c : Collector) (running : Running R) (offset : Nat) :
    List Bytes → Collector × Running R
  | [] => (c, running)
  | line :: rest =>
    let (c, running) := readLine boundary c running offset line.dropLast
    readFrom boundary c running (offset + line.length) rest

def readSegment (boundary : Option (Fence d)) (name : String) (c : Collector) (running : Running R) (stat : Stat)
    (bytes : Bytes) (hi : Nat) : Collector × Running R :=
  let (c, seen) := c.begin_ sha256 name 0 stat running.lastSeen
  let (c, running) := readFrom boundary c { running with lastSeen := seen } 0 (lines newline (bytes.take hi))
  let (c, seen) := c.close sha256 running.lastSeen
  (c, { running with lastSeen := seen })

def summarize (boundary : Option (Fence d)) (name : String) (stat : Stat) (bytes : Bytes) (hi : Nat) : SegmentSummary :=
  ((readFrom boundary (Collector.empty.begin_ sha256 name 0 stat .empty).1 ⟨0, 0, 0, 0, [], .empty⟩ 0
    (lines newline (bytes.take hi))).1).summaryOf sha256 name stat

inductive Refusal
  | resolutionSeen
  | lastSegment
  | identityMismatch
  | extentMismatch
  | retainedRecords
  | notCovered
  | decodedCountAbsent
  deriving DecidableEq

/-- `source_identity_replaced`, of inodes that are there. -/
def sourceIdentityReplaced (committedInode observedInode : Int) : Bool := committedInode ≠ observedInode

/-- Whether the summary's digest is that of the bytes now; `none` is no proof, or one that cannot be read. -/
def provesPrefix (summary : SegmentSummary) (prefixProof : Option (Option String)) : Bool :=
  match summary.completePrefixSha256, prefixProof with
  | some digest, some (some observed) => digest ≠ "" && observed = digest
  | _, _ => false

/-- The `(st_dev, st_ino)` condition. -/
def sameIdentity (summary : SegmentSummary) (statIdentity : Option (Int × Int)) (prefixProof : Option (Option String)) :
    Bool :=
  match statIdentity with
  | none => true
  | some (dev, ino) =>
    !sourceIdentityReplaced summary.stIno ino && (summary.stDev = dev || provesPrefix summary prefixProof)

/-- `none` is `REASON_OK`. -/
def summaryIsElidable (summary : SegmentSummary) (pinnedRawExtent : Nat) (isLast certificateCovers resolutionSeen : Bool)
    (statIdentity : Option (Int × Int)) (prefixProof : Option (Option String)) : Option Refusal :=
  if resolutionSeen then some .resolutionSeen
  else if isLast then some .lastSegment
  else if !sameIdentity summary statIdentity prefixProof then some .identityMismatch
  else if ¬ (summary.completeLineCoveredOffset = summary.summarizedSize ∧ summary.summarizedSize = pinnedRawExtent) then
    some .extentMismatch
  else if !summary.quotaOnly then some .retainedRecords
  else if !certificateCovers then some .notCovered
  else if summary.decodedEntryCount = none then some .decodedCountAbsent
  else none

def admissionPermitsElision (boundary : Option (Fence d)) (pinnedRawExtent : Nat) (summary : SegmentSummary) : Bool :=
  match boundary with
  | none => true
  | some fence => fence.frozenExtent.any ((pinnedRawExtent : Int) ≤ ·) || summary.codexQuotaOnly

/-- `_elide_segment`, for a summary that may be used. -/
def elideSegment (c : Collector) (running : Running R) (summary : SegmentSummary) : Collector × Running R :=
  (c.adopt summary,
    { lines := running.lines + summary.lines
      bytes := running.bytes + summary.bytes
      decodes := running.decodes + summary.decodes
      malformed := running.malformed + summary.malformed
      decoded := running.decoded ++ List.replicate (summary.decodedEntryCount.getD 0) none
      lastSeen := running.lastSeen.merge summary.lastSeenStamped summary.lastSeenLegacyClaudeAt
        summary.lastSeenLegacyCodexAt })

end

end SegmentSummaries

end Cctally
