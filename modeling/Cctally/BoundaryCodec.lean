import Cctally.AccountProtocol

/-!
# Boundary codecs

The cutover and its two revisions are recorded as ops. The decoder of a revision
rewrites its payload into the payload of the boundary before it and decodes that,
so the fields the three share are checked in one place.
-/

namespace Cctally.BoundaryCodec

open AccountProtocol (textIs intIs PROTOCOL_REVISION SUCCESSOR_REVISION)
open Json (field keysAre setField sortFields without)

def CUTOVER_OP_KIND : String := "account_bound_cutover"
def REVISION_OP_KIND : String := "account_bound_revision"
def REVISION3_OP_KIND : String := "account_bound_revision_v3"

def INVENTORY_OPERATIONS : List String := ["list", "stat", "read"]

structure CutoverBoundary extends AccountProtocol.CutoverBoundary where
  legacySpoolBaselineDigest : Option String
  legacySpoolInventoryFailure : Option Json.Fields

structure RevisionBoundary extends AccountProtocol.RevisionBoundary where
  legacySpoolBaselineDigest : Option String
  legacySpoolInventoryFailure : Option Json.Fields
  continuedInventoryEpisode : Option (String × Int)

structure Revision3Boundary extends AccountProtocol.Revision3Boundary where
  legacySpoolBaselineDigest : Option String
  legacySpoolInventoryFailure : Option Json.Fields
  continuedInventoryEpisode : Option (String × Int)

def RevisionBoundary.base (b : RevisionBoundary) : CutoverBoundary where
  segment := b.segment
  endOffset := b.endOffset
  frozenExtents := b.frozenExtents
  revision := none
  revision3 := none
  legacySpoolBaselineDigest := b.legacySpoolBaselineDigest
  legacySpoolInventoryFailure := b.legacySpoolInventoryFailure

def Revision3Boundary.base (b : Revision3Boundary) : RevisionBoundary where
  segment := b.segment
  endOffset := b.endOffset
  frozenExtents := b.frozenExtents
  cutoverSegment := b.cutoverSegment
  cutoverOffset := b.cutoverOffset
  legacySpoolBaselineDigest := b.legacySpoolBaselineDigest
  legacySpoolInventoryFailure := b.legacySpoolInventoryFailure
  continuedInventoryEpisode := b.continuedInventoryEpisode

def hexDigit (c : Char) : Bool := c ∈ "0123456789abcdef".toList

/-- `sha256:[0-9a-f]{64}` -/
def digestChars (cs : List Char) : Bool :=
  cs.take 7 == "sha256:".toList && cs.length == 71 && (cs.drop 7).all hexDigit

def isDigest (s : String) : Bool := digestChars s.toList

/-- `_DIGEST_RE.match`: its `$` also holds before a line feed that ends the text. -/
def digestMatches (s : String) : Bool :=
  isDigest s || (s.toList.getLast? == some '\n' && digestChars s.toList.dropLast)

def isStr : Json → Bool
  | .str _ => true
  | _ => false

def nonEmptyText : Json → Bool
  | .str s => s ≠ ""
  | _ => false

def nonnegInt : Json → Bool
  | .num n => 0 ≤ n
  | _ => false

def isInventoryFailure : Json → Bool
  | .obj value =>
    isStr (field value "path") && INVENTORY_OPERATIONS.any (fun op => textIs op (field value "operation")) &&
      nonEmptyText (field value "error") && (field value "message" == .null || isStr (field value "message"))
  | _ => false

def text : Json → String
  | .str s => s
  | _ => ""

def whole : Json → Int
  | .num n => n
  | _ => 0

def coordinateMember : Json → Option (String × Int)
  | .obj value =>
    if keysAre value ["segment", "offset"] && nonEmptyText (field value "segment") && nonnegInt (field value "offset")
    then some (text (field value "segment"), whole (field value "offset"))
    else none
  | _ => none

def coordinate (segment : String) (offset : Int) : Json := Json.dict [("segment", .str segment), ("offset", .num offset)]

def extentsJson (extents : Dict String Int) : Json := Json.dict (extents.entries.map fun p => (p.1, .num p.2))

def extentsOk : Json → Bool
  | .obj extents => extents.all fun p => p.1 ≠ "" && nonnegInt p.2
  | _ => false

def extentsOf : Json → Dict String Int
  | .obj extents => Dict.ofList (extents.map fun p => (p.1, whole p.2))
  | _ => Dict.empty

def orNull {α : Type} (json : α → Json) : Option α → Json
  | none => .null
  | some a => json a

def fenceFields (segment : String) (endOffset : Int) (frozenExtents : Dict String Int) (digest : Option String) :
    Json.Fields :=
  [("segment", .str segment), ("endOffset", .num endOffset), ("frozenExtents", extentsJson frozenExtents),
   ("legacySpoolBaselineDigest", orNull .str digest)]

def failureFields : Option Json.Fields → Json.Fields
  | none => []
  | some failure => [("legacySpoolInventoryFailure", .obj failure)]

def episodeFields : Option Json.Fields → Option (String × Int) → Json.Fields
  | some _, some (segment, offset) => [("inventoryEpisode", coordinate segment offset)]
  | _, _ => []

def boundaryPayload (b : CutoverBoundary) : Json.Fields :=
  sortFields (fenceFields b.segment b.endOffset b.frozenExtents b.legacySpoolBaselineDigest ++
    failureFields b.legacySpoolInventoryFailure)

def revisionBoundaryPayload (b : RevisionBoundary) : Json.Fields :=
  sortFields ([("revision", .num PROTOCOL_REVISION), ("cutover", coordinate b.cutoverSegment b.cutoverOffset)] ++
    fenceFields b.segment b.endOffset b.frozenExtents b.legacySpoolBaselineDigest ++
    failureFields b.legacySpoolInventoryFailure ++
    episodeFields b.legacySpoolInventoryFailure b.continuedInventoryEpisode)

def revision3BoundaryPayload (b : Revision3Boundary) : Json.Fields :=
  sortFields ([("revision", .num SUCCESSOR_REVISION), ("cutover", coordinate b.cutoverSegment b.cutoverOffset),
      ("revision2", coordinate b.revision2Segment b.revision2Offset)] ++
    fenceFields b.segment b.endOffset b.frozenExtents b.legacySpoolBaselineDigest ++
    failureFields b.legacySpoolInventoryFailure ++
    episodeFields b.legacySpoolInventoryFailure b.continuedInventoryEpisode)

def opPayload (kind notOp notKind : String) : Json → Py Json.Fields
  | .obj record =>
    if textIs "op" (field record "t") then
      match field record "payload" with
      | .obj payload => if textIs kind (field payload "kind") then pure payload else throw (.value notKind)
      | _ => throw (.value notKind)
    else throw (.value notOp)
  | _ => throw (.value notOp)

/-- `{"t": "op", "payload": {**payload, "kind": kind}}` -/
def opOf (kind : String) (payload : Json.Fields) : Json :=
  .obj [("payload", .obj (setField "kind" (.str kind) payload)), ("t", .str "op")]

def inventoryOf (payload : Json.Fields) : Py (Option String × Option Json.Fields) :=
  match field payload "legacySpoolInventoryFailure" with
  | .null =>
    match field payload "legacySpoolBaselineDigest" with
    | .str digest =>
      if digestMatches digest then pure (some digest, none)
      else throw (.value "cutover boundary legacy spool digest is invalid")
    | _ => throw (.value "cutover boundary legacy spool digest is invalid")
  | .obj failure =>
    if isInventoryFailure (.obj failure) && field payload "legacySpoolBaselineDigest" == .null then
      pure (none, some failure)
    else throw (.value "cutover boundary legacy spool inventory failure is invalid")
  | _ => throw (.value "cutover boundary legacy spool inventory failure is invalid")

def boundaryFromOp (op : Json) : Py CutoverBoundary := do
  let payload ← opPayload CUTOVER_OP_KIND "cutover boundary must come from an op record"
    "record is not an account_bound_cutover op" op
  if !nonEmptyText (field payload "segment") then throw (.value "cutover boundary segment is invalid")
  if !nonnegInt (field payload "endOffset") then throw (.value "cutover boundary endOffset is invalid")
  if !extentsOk (field payload "frozenExtents") then throw (.value "cutover boundary frozenExtents is invalid")
  let (digest, failure) ← inventoryOf payload
  return {
    segment := text (field payload "segment")
    endOffset := whole (field payload "endOffset")
    frozenExtents := extentsOf (field payload "frozenExtents")
    revision := none
    revision3 := none
    legacySpoolBaselineDigest := digest
    legacySpoolInventoryFailure := failure }

def episodeOf (payload : Json.Fields) : Py (Option (String × Int)) :=
  match field payload "inventoryEpisode" with
  | .null => pure none
  | episode =>
    if field payload "legacySpoolInventoryFailure" = .null then
      throw (.value "revision boundary inventory episode is invalid")
    else
      match coordinateMember episode with
      | some coord => pure (some coord)
      | none => throw (.value "revision boundary inventory episode is invalid")

def revisionBoundaryFromOp (op : Json) : Py RevisionBoundary := do
  let payload ← opPayload REVISION_OP_KIND "revision boundary must come from an op record"
    "record is not an account_bound_revision op" op
  if !intIs PROTOCOL_REVISION (field payload "revision") then
    throw (.value "revision boundary revision is invalid")
  match coordinateMember (field payload "cutover") with
  | none => throw (.value "revision boundary cutover coordinate is invalid")
  | some cutover => do
    let episode ← episodeOf payload
    let base ← boundaryFromOp (opOf CUTOVER_OP_KIND (without payload ["revision", "cutover", "inventoryEpisode"]))
    return {
      segment := base.segment
      endOffset := base.endOffset
      frozenExtents := base.frozenExtents
      cutoverSegment := cutover.1
      cutoverOffset := cutover.2
      legacySpoolBaselineDigest := base.legacySpoolBaselineDigest
      legacySpoolInventoryFailure := base.legacySpoolInventoryFailure
      continuedInventoryEpisode := episode }

def revision3BoundaryFromOp (op : Json) : Py Revision3Boundary := do
  let payload ← opPayload REVISION3_OP_KIND "revision-3 boundary must come from an op record"
    "record is not an account_bound_revision_v3 op" op
  if !intIs SUCCESSOR_REVISION (field payload "revision") then
    throw (.value "revision-3 boundary revision is invalid")
  match coordinateMember (field payload "revision2") with
  | none => throw (.value "revision-3 boundary revision-2 coordinate is invalid")
  | some revision2 => do
    let base ← revisionBoundaryFromOp (opOf REVISION_OP_KIND
      (setField "revision" (.num PROTOCOL_REVISION) (without payload ["revision2"])))
    return {
      segment := base.segment
      endOffset := base.endOffset
      frozenExtents := base.frozenExtents
      cutoverSegment := base.cutoverSegment
      cutoverOffset := base.cutoverOffset
      revision2Segment := revision2.1
      revision2Offset := revision2.2
      legacySpoolBaselineDigest := base.legacySpoolBaselineDigest
      legacySpoolInventoryFailure := base.legacySpoolInventoryFailure
      continuedInventoryEpisode := base.continuedInventoryEpisode }

end Cctally.BoundaryCodec
