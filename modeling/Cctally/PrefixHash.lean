import Cctally.Dict
import Mathlib

/-!
# Streamed prefix evidence

One pass over the journal feeds the bytes of its segments to an accumulator, which
can then give the hash of any prefix that ends in the segment being fed or at a
boundary it registered. Where the streamed state does not describe the prefix, the
segment is read again and the bytes are checked against a hash of those fed.

A SHA-256 object is the bytes it has absorbed; `sha256` is what a digest of them is.
-/

namespace Cctally

namespace PrefixHash

abbrev Bytes := List UInt8

abbrev HighWater := String × Nat

/-- `n.to_bytes(width, "big")`; no segment is so long that it overflows. -/
def toBytes (width n : Nat) : Bytes := ((List.range width).map fun i => UInt8.ofNat (n / 256 ^ i)).reverse

def encode (name : String) : Bytes := name.toUTF8.data.toList

def header (name : String) (length : Nat) : Bytes :=
  toBytes 4 (encode name).length ++ encode name ++ toBytes 8 length

structure PrefixEvidenceUnavailable where
  message : String
  deriving DecidableEq, Repr

structure Boundary where
  before : Bytes
  final : Option Bytes
  consumed : Nat
  witness : String

def MAX_BOUNDARIES : Nat := 16

structure PrefixHashAccumulator where
  running : Bytes
  currentName : Option String
  segment : Bytes
  declared : Nat
  fed : Nat
  witness : Bytes
  poisoned : Option String
  boundaries : Dict HighWater Boundary
  boundaryOrder : List HighWater
  bytesHashed : Nat
  digestsComputed : Nat

/-- What the handle of one opened segment returns, read after read; `none` without an opener. -/
abbrev Reads := Option (List Bytes)

def PrefixHashAccumulator.new : PrefixHashAccumulator :=
  { running := [], currentName := none, segment := [], declared := 0, fed := 0, witness := [], poisoned := none,
    boundaries := Dict.empty, boundaryOrder := [], bytesHashed := 0, digestsComputed := 0 }

/-- The loop of `_verified_rehash`, from the digest, the raw hash and the position. -/
def reread (short : PrefixEvidenceUnavailable) (offset consumed : Nat) (digest raw : Bytes) (pos : Nat) :
    List Bytes → Except PrefixEvidenceUnavailable (Bytes × Bytes)
  | [] => if pos < consumed then throw short else pure (digest, raw)
  | chunk :: reads =>
    if pos < consumed then
      if chunk = [] then throw short
      else
        reread short offset consumed (if pos < offset then digest ++ chunk.take (offset - pos) else digest)
          (raw ++ chunk) (pos + chunk.length) reads
    else pure (digest, raw)

section
variable (sha256 : Bytes → String)

def verifiedRehash (reads : Reads) (before : Bytes) (name : String) (offset consumed : Nat) (witness : String) :
    Except PrefixEvidenceUnavailable Bytes := do
  if consumed < offset then
    throw ⟨s!"prefix evidence {name}@{offset} lies beyond the {consumed} bytes the pass consumed"⟩
  let digest := before ++ header name offset
  if consumed = 0 then return digest
  match reads with
  | none => throw ⟨s!"no segment opener to re-read prefix evidence for {name}@{offset}"⟩
  | some chunks =>
    let (digest, raw) ←
      reread ⟨s!"short re-read of prefix evidence for {name}@{offset}"⟩ offset consumed digest [] 0 chunks
    if sha256 raw ≠ witness then
      throw ⟨s!"segment {name} no longer holds the {consumed} bytes the pass consumed; prefix evidence {name}@{offset} is not certified"⟩
    return digest

namespace PrefixHashAccumulator

def streamedEnd (s : PrefixHashAccumulator) (offset : Nat) : Bool := offset = s.fed ∧ s.fed = s.declared

def evict (boundaries : Dict HighWater Boundary) : List HighWater → Dict HighWater Boundary × List HighWater
  | [] => (boundaries, [])
  | key :: order =>
    if MAX_BOUNDARIES < (key :: order).length then evict (boundaries.erase key) order else (boundaries, key :: order)

def registerBoundary (s : PrefixHashAccumulator) (boundary : HighWater) : PrefixHashAccumulator :=
  if s.currentName ≠ some boundary.1 then s
  else if (s.boundaries.get? boundary).isSome then s
  else
    let final := if s.streamedEnd boundary.2 then some s.segment else none
    let kept := evict (s.boundaries.set boundary ⟨s.running, final, s.fed, sha256 s.witness⟩) (s.boundaryOrder ++ [boundary])
    { s with boundaries := kept.1, boundaryOrder := kept.2 }

/-- `_completed_segment`, for the segment that is open; a failed re-read poisons. -/
def completedSegment (s : PrefixHashAccumulator) (name : String) (reads : Reads) : PrefixHashAccumulator :=
  if s.fed = s.declared ∨ s.poisoned ≠ none then { s with running := s.segment }
  else
    match verifiedRehash sha256 reads s.running name s.fed s.fed (sha256 s.witness) with
    | .ok digest => { s with running := digest }
    | .error e =>
      { s with
        running := s.segment
        poisoned := some s!"short segment {name} could not be re-framed from its consumed bytes ({e.message})" }

/-- The first steps of `begin_segment`: what the outgoing segment leaves behind. -/
def register (s : PrefixHashAccumulator) : Option HighWater → PrefixHashAccumulator
  | some boundary => s.registerBoundary sha256 boundary
  | none => s

def complete (s : PrefixHashAccumulator) (reads : Reads) : PrefixHashAccumulator :=
  match s.currentName with
  | some current => s.completedSegment sha256 current reads
  | none => s

def beginSegment (s : PrefixHashAccumulator) (name : String) (boundary : Option HighWater) (size : Nat) (reads : Reads) :
    PrefixHashAccumulator :=
  let s := (s.register sha256 boundary).complete sha256 reads
  { s with
    currentName := some name
    declared := size
    fed := 0
    witness := []
    segment := s.running ++ header name size }

/-- `extend`; without an open segment it raises. -/
def extend (s : PrefixHashAccumulator) (data : Bytes) : Option PrefixHashAccumulator :=
  match s.currentName with
  | none => none
  | some _ =>
    some { s with segment := s.segment ++ data, witness := s.witness ++ data, fed := s.fed + data.length }

/-- The state whose digest `digest_at` returns. -/
def stateAt (s : PrefixHashAccumulator) (segment : String) (offset : Nat) (reads : Reads) :
    Except PrefixEvidenceUnavailable Bytes :=
  match s.poisoned with
  | some reason => throw ⟨s!"no verified prefix evidence for {segment}@{offset}: {reason}"⟩
  | none =>
    if s.currentName = some segment then
      if s.streamedEnd offset then pure s.segment
      else verifiedRehash sha256 reads s.running segment offset s.fed (sha256 s.witness)
    else
      match s.boundaries.get? (segment, offset) with
      | none => throw ⟨s!"no streamed prefix evidence for {segment}@{offset}"⟩
      | some b =>
        match b.final with
        | some final => pure final
        | none => verifiedRehash sha256 reads b.before segment offset b.consumed b.witness

def digestAt (s : PrefixHashAccumulator) (highWater : Option HighWater) (reads : Reads) :
    Except PrefixEvidenceUnavailable (PrefixHashAccumulator × Option String) :=
  match highWater with
  | none => pure (s, none)
  | some (segment, offset) => do
    let digest ← s.stateAt sha256 segment offset reads
    return ({ s with bytesHashed := s.bytesHashed + offset, digestsComputed := s.digestsComputed + 1 },
      some ("sha256:" ++ sha256 digest))

end PrefixHashAccumulator

inductive Call
  | beginSegment (name : String) (boundary : Option HighWater) (size : Nat) (reads : Reads)
  | extend (data : Bytes)
  | digestAt (highWater : Option HighWater) (reads : Reads)

/-- A call of `digest_at` that raises leaves the accumulator as it was. -/
def Call.apply (s : PrefixHashAccumulator) : Call → Option PrefixHashAccumulator
  | .beginSegment name boundary size reads => some (s.beginSegment sha256 name boundary size reads)
  | .extend data => s.extend data
  | .digestAt highWater reads =>
    match s.digestAt sha256 highWater reads with
    | .ok (s', _) => some s'
    | .error _ => some s

def run (s : PrefixHashAccumulator) : List Call → Option PrefixHashAccumulator
  | [] => some s
  | call :: calls => do
    let s ← call.apply sha256 s
    run s calls

end

end PrefixHash

end Cctally
