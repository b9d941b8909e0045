import Mathlib

/-!
# The decoded stream

A binary reader over one zstd container that speaks decoded offsets. It keeps a
window of decoded bytes, which forward seeks drop, backward seeks restart and
reads refill chunk by chunk; a stop predicate may interrupt it between chunks.
-/

namespace Cctally

abbrev Bytes := List UInt8

def DECODE_CHUNK : Nat := 2 ^ 20

def READ_CHUNK : Nat := 64 * 2 ^ 10

def newline : UInt8 := 10

/-- The container and the world around one stream: the decoded bytes, the answer
to each stop check, and how much each decoder read offers. -/
structure Container where
  bytes : Bytes
  stops : Nat → Bool
  offers : Nat → Nat

/-- `buf` holds the decoded bytes `[bufStart, rawPos)`; `checks` and `reads`
count the stop checks and decoder reads made so far. -/
structure DecodedZstdStream where
  pos : Nat
  rawPos : Nat
  buf : Bytes
  bufStart : Nat
  eof : Bool
  checks : Nat
  reads : Nat

inductive Whence where
  | set
  | cur
  | fromEnd

inductive FileOp where
  | read (size : Int)
  | readline (limit : Option Int)
  | seek (offset : Int) (whence : Whence)
  | tell

inductive Reply where
  | bytes (data : Bytes)
  | position (pos : Nat)
  | negativeSeek
  | unsupported
  | interrupted
deriving DecidableEq

def bound : Option Int → Option Nat
  | none => none
  | some n => if 0 ≤ n then some n.toNat else none

def findNewline (buf : Bytes) (start : Nat) : Option Nat :=
  ((buf.drop start).findIdx? (· == newline)).map (start + ·)

def readStop (len start : Nat) : Option Nat → Nat
  | none => len
  | some size => min len (start + size)

def lineStop (stop start : Nat) : Option Nat → Nat
  | none => stop
  | some limit => if limit < stop - start then start + limit else stop

namespace DecodedZstdStream

def openRaw (s : DecodedZstdStream) : DecodedZstdStream :=
  { s with rawPos := 0, buf := [], bufStart := 0, eof := false }

def init : DecodedZstdStream := ⟨0, 0, [], 0, false, 0, 0⟩

def dropAll (s : DecodedZstdStream) : DecodedZstdStream :=
  { s with buf := [], bufStart := s.rawPos }

def dropBefore (s : DecodedZstdStream) (keepFrom : Nat) : DecodedZstdStream :=
  let keepFrom := min keepFrom s.rawPos
  if s.bufStart < keepFrom then { s with buf := s.buf.drop (keepFrom - s.bufStart), bufStart := keepFrom } else s

section
variable (c : Container)

/-- The decoder returns at least one byte while there is one, and no more than
it was asked for. -/
def nextChunk (s : DecodedZstdStream) (size : Nat) : Bytes :=
  (c.bytes.drop s.rawPos).take (min (max 1 (c.offers s.reads)) (min size DECODE_CHUNK))

/-- The number of bytes read, or `none` when the stop predicate fires. -/
def fill (s : DecodedZstdStream) (size : Nat) : DecodedZstdStream × Option Nat :=
  if s.eof then (s, some 0)
  else
    let s' := { s with checks := s.checks + 1 }
    if c.stops s.checks then (s', none)
    else
      let chunk := s.nextChunk c size
      let s' := { s' with reads := s.reads + 1 }
      if chunk = [] then ({ s' with eof := true }, some 0)
      else ({ s' with buf := s.buf ++ chunk, rawPos := s.rawPos + chunk.length }, some chunk.length)

theorem fill_cases {s s' : DecodedZstdStream} {size : Nat} {r : Option Nat} (h : s.fill c size = (s', r)) :
    (s.eof = true ∧ s' = s ∧ r = some 0) ∨
    (s' = { s with checks := s.checks + 1 } ∧ r = none) ∨
    (s.nextChunk c size = [] ∧ s' = { s with checks := s.checks + 1, reads := s.reads + 1, eof := true } ∧
      r = some 0) ∨
    (s.eof = false ∧ s.nextChunk c size ≠ [] ∧ r = some (s.nextChunk c size).length ∧
      s' = { s with checks := s.checks + 1, reads := s.reads + 1, buf := s.buf ++ s.nextChunk c size,
                    rawPos := s.rawPos + (s.nextChunk c size).length }) := by
  unfold fill at h
  by_cases he : s.eof = true
  · rw [if_pos he] at h
    cases h
    exact .inl ⟨he, rfl, rfl⟩
  · rw [if_neg he] at h
    by_cases hs : c.stops s.checks = true
    · rw [if_pos hs] at h
      cases h
      exact .inr (.inl ⟨rfl, rfl⟩)
    · rw [if_neg hs] at h
      by_cases hc : s.nextChunk c size = []
      · rw [if_pos hc] at h
        cases h
        exact .inr (.inr (.inl ⟨hc, rfl, rfl⟩))
      · rw [if_neg hc] at h
        cases h
        exact .inr (.inr (.inr ⟨by simpa using he, hc, rfl, rfl⟩))

theorem length_nextChunk_le (s : DecodedZstdStream) (size : Nat) :
    (s.nextChunk c size).length ≤ c.bytes.length - s.rawPos := by
  simp only [nextChunk, List.length_take, List.length_drop]
  omega

theorem fill_rawPos {s s' : DecodedZstdStream} {size got : Nat} (h : s.fill c size = (s', some got)) (hgot : got ≠ 0) :
    s.rawPos < s'.rawPos ∧ s'.rawPos ≤ c.bytes.length := by
  obtain ⟨-, -, hr⟩ | ⟨-, hr⟩ | ⟨-, -, hr⟩ | ⟨-, hc, hr, rfl⟩ := fill_cases c h
  · exact absurd (Option.some.inj hr) hgot
  · cases hr
  · exact absurd (Option.some.inj hr) hgot
  · have hle := length_nextChunk_le c s size
    have hpos : 0 < (s.nextChunk c size).length := List.length_pos_iff.2 hc
    simp only
    omega

/-- The discarding loop of a forward seek; `false` when it is interrupted. -/
def discard (s : DecodedZstdStream) (offset : Nat) : DecodedZstdStream × Bool :=
  if s.rawPos < offset then
    match _h : s.fill c (min DECODE_CHUNK (offset - s.rawPos)) with
    | (s', none) => (s', false)
    | (s', some got) => if got = 0 then (s', true) else discard s'.dropAll offset
  else (s, true)
termination_by c.bytes.length - s.rawPos
decreasing_by
  have := fill_rawPos c _h (by assumption)
  show c.bytes.length - s'.rawPos < _
  omega

def seekTo (s : DecodedZstdStream) (offset : Nat) : DecodedZstdStream × Bool :=
  let saved := s.pos
  let s := if offset < s.bufStart then s.openRaw else s
  if s.rawPos < offset then
    match s.dropAll.discard c offset with
    | (s', false) =>
      let s' := if saved < s'.bufStart then s'.openRaw else s'
      ({ s' with pos := saved }, false)
    | (s', true) => ({ s' with pos := offset }, true)
  else ({ s with pos := offset }, true)

def seek (s : DecodedZstdStream) (offset : Int) (whence : Whence) : DecodedZstdStream × Reply :=
  match whence with
  | .fromEnd => (s, .unsupported)
  | .set => go offset
  | .cur => go (s.pos + offset)
where
  go (offset : Int) : DecodedZstdStream × Reply :=
    if offset < 0 then (s, .negativeSeek)
    else
      match s.seekTo c offset.toNat with
      | (s', true) => (s', .position s'.pos)
      | (s', false) => (s', .interrupted)

/-- An interrupted discard may have left the old position beyond the decoder. -/
def prepareRead (s : DecodedZstdStream) : DecodedZstdStream × Bool :=
  if s.rawPos < s.pos ∧ s.eof = false then s.seekTo c s.pos else (s, true)

def want (s : DecodedZstdStream) (start : Nat) : Option Nat → Option Nat
  | none => some DECODE_CHUNK
  | some size =>
    if s.buf.length - start < size then some (max READ_CHUNK (size - (s.buf.length - start))) else none

/-- The filling loop of `read`; `false` when it is interrupted. -/
def fillTo (s : DecodedZstdStream) (start : Nat) (size : Option Nat) : DecodedZstdStream × Bool :=
  match s.want start size with
  | none => (s, true)
  | some want =>
    match _h : s.fill c want with
    | (s', none) => (s', false)
    | (s', some got) => if got = 0 then (s', true) else fillTo s' start size
termination_by c.bytes.length - s.rawPos
decreasing_by
  have := fill_rawPos c _h (by assumption)
  omega

def read (s : DecodedZstdStream) (size : Int) : DecodedZstdStream × Reply :=
  if size = 0 then (s, .bytes [])
  else
    match s.prepareRead c with
    | (s, false) => (s, .interrupted)
    | (s, true) =>
      if s.rawPos ≤ s.pos ∧ s.eof = true then (s, .bytes [])
      else
        let start := s.pos - s.bufStart
        match s.fillTo c start (bound (some size)) with
        | (s, false) => (s, .interrupted)
        | (s, true) =>
          let data := (s.buf.take (readStop s.buf.length start (bound (some size)))).drop start
          (dropBefore { s with pos := s.pos + data.length } (s.pos + data.length), .bytes data)

/-- The scanning loop of `readline`: where the line ends in the buffer, or `none`
when it is interrupted. -/
def lineEnd (s : DecodedZstdStream) (start searchFrom : Nat) (limit : Option Nat) : DecodedZstdStream × Option Nat :=
  match findNewline s.buf searchFrom with
  | some idx => (s, some (lineStop (idx + 1) start limit))
  | none =>
    if limit.any (· ≤ s.buf.length - start) then (s, some (start + limit.getD 0))
    else
      match _h : s.fill c READ_CHUNK with
      | (s', none) => (s', none)
      | (s', some got) =>
        if got = 0 then (s', some s'.buf.length) else lineEnd s' start s.buf.length limit
termination_by c.bytes.length - s.rawPos
decreasing_by
  have := fill_rawPos c _h (by assumption)
  omega

/-- The line is kept in the window, so that a torn line can be sought back. -/
def readline (s : DecodedZstdStream) (limit : Option Int) : DecodedZstdStream × Reply :=
  match s.prepareRead c with
  | (s, false) => (s, .interrupted)
  | (s, true) =>
    if s.rawPos ≤ s.pos ∧ s.eof = true then (s, .bytes [])
    else
      let start := s.pos - s.bufStart
      match s.lineEnd c start start (bound limit) with
      | (s, none) => (s, .interrupted)
      | (s, some stop) =>
        let line := (s.buf.take stop).drop start
        let s := s.dropBefore s.pos
        ({ s with pos := s.pos + line.length }, .bytes line)

def call (s : DecodedZstdStream) : FileOp → DecodedZstdStream × Reply
  | .read size => s.read c size
  | .readline limit => s.readline c limit
  | .seek offset whence => s.seek c offset whence
  | .tell => (s, .position s.pos)

def run (s : DecodedZstdStream) : List FileOp → DecodedZstdStream × List Reply
  | [] => (s, [])
  | op :: ops =>
    let (s, reply) := s.call c op
    let (s, replies) := run s ops
    (s, reply :: replies)

end

end DecodedZstdStream

end Cctally
