import Cctally.Calls
import Cctally.Dict
import Cctally.ReclaimGeometry

/-!
# Reading the published WAL snapshot

The reader checks both copies of the wal-index header, follows the WAL's frames
to exactly the `mxFrame` that the index publishes, and then reads each page from
its last such frame or from the main file. A call either returns or raises, and
leaves the reader's state in both cases. Test hooks are left out.
-/

namespace Cctally.WalSnapshot

export Reclaim (Bytes bytesAt big little Attempt Failure Reason refuse unpack)

def WAL_INDEX_VERSION : Nat := 3007000
def WAL_FORMAT_VERSION : Nat := 3007000
def WAL_MAGIC_LE : Nat := 0x377F0682
def WAL_MAGIC_BE : Nat := 0x377F0683
def WAL_HEADER_BYTES : Nat := 32
def FRAME_HEADER_BYTES : Nat := 24
def WAL_INDEX_HEADER_BYTES : Nat := 48

/-- `_checksum` of a list of words: they are taken two at a time. -/
def checksumWords : List Nat → Nat × Nat → Attempt (Nat × Nat)
  | [], s => pure s
  | [_], _ => throw .indexError
  | a :: b :: rest, s =>
    let s0 := (s.1 + a + s.2) % 2 ^ 32
    checksumWords rest (s0, (s.2 + b + s0) % 2 ^ 32)

def checksum (data : Bytes) (s : Nat × Nat) (bigEndian : Bool) : Attempt (Nat × Nat) :=
  if data.length % 4 ≠ 0 then throw .structError
  else
    checksumWords ((List.range (data.length / 4)).map fun i =>
      if bigEndian then big (bytesAt data (4 * i) 4) else little (bytesAt data (4 * i) 4)) s

structure WalIndexHeader where
  change : Nat
  pageSize : Nat
  maxFrame : Nat
  pageCount : Nat
  frameChecksum : Nat × Nat
  salt : Bytes
  bigEndianChecksum : Bool
  raw : Bytes
  deriving DecidableEq, Repr

/-- `parse_wal_index_header`, in the byte order of the machine. -/
def parseWalIndexHeader (littleEndian : Bool) (raw : Bytes) : Attempt WalIndexHeader := do
  let native (i width : Nat) : Nat := if littleEndian then little (bytesAt raw i width) else big (bytesAt raw i width)
  if raw.length < 2 * WAL_INDEX_HEADER_BYTES then refuse .walIndexUnreadable "short -shm"
  if bytesAt raw 0 48 ≠ bytesAt raw 48 48 then refuse .walIndexUnreadable "header copies differ"
  if native 12 1 = 0 ∨ native 0 4 ≠ WAL_INDEX_VERSION then refuse .walIndexUnreadable "uninitialized or version"
  let found ← checksum (bytesAt raw 0 40) (0, 0) (!littleEndian)
  if found ≠ (native 40 4, native 44 4) then refuse .walIndexUnreadable "header checksum"
  return {
    change := native 8 4
    pageSize := (native 14 2 &&& 0xFF00) ||| ((native 14 2 &&& 1) <<< 16)
    maxFrame := native 16 4
    pageCount := native 20 4
    frameChecksum := (native 24 4, native 28 4)
    salt := bytesAt raw 32 8
    bigEndianChecksum := native 13 1 ≠ 0
    raw := bytesAt raw 0 48 }

/-! ## The reader -/

inductive Which
  | db | wal | shm
  deriving DecidableEq, Repr

def Which.name : Which → String
  | .db => "db"
  | .wal => "wal"
  | .shm => "shm"

inductive File
  | missing
  | special
  | regular (bytes : Bytes)

def File.bytes : File → Bytes
  | .regular bytes => bytes
  | _ => []

structure Source where
  file : Which → File
  pageSize : Nat
  budget : Int
  late : Nat → Bool
  littleEndian : Bool

structure Reader where
  readBytes : Int
  ticks : Nat
  frames : Dict Nat Nat
  header : Option WalIndexHeader
  pages : Dict Nat Bytes

def Reader.new : Reader := ⟨0, 0, Dict.empty, none, Dict.empty⟩

abbrev Session := Call Reader Failure

def ofAttempt {α : Type} (a : Attempt α) : Session α := Call.ofExcept a

section
variable (src : Source)

/-- `_charge`: the clock is read only while the budget lasts. -/
def charge (n : Nat) : Session Unit := do
  modify fun r => { r with readBytes := r.readBytes + n }
  let r ← get
  if src.budget < r.readBytes then ofAttempt (refuse .readBudgetExhausted s!"{r.readBytes} bytes")
  else do
    set { r with ticks := r.ticks + 1 }
    if src.late r.ticks then ofAttempt (refuse .readBudgetExhausted "deadline") else pure ()

def pread (which : Which) (size offset : Nat) : Session Bytes := do
  charge src size
  let data := bytesAt (src.file which).bytes offset size
  if data.length ≠ size then
    ofAttempt (refuse (if which = .wal then .walEndpointMismatch else .malformedPage)
      s!"short read of {which.name} at {offset}")
  else pure data

def openFile (which : Which) : Session Unit :=
  match src.file which with
  | .missing => ofAttempt (refuse .walIndexUnreadable s!"cannot open {which.name}")
  | .special => ofAttempt (refuse .identityChanged s!"{which.name} type")
  | .regular _ => pure ()

def frameSize : Nat := FRAME_HEADER_BYTES + src.pageSize

def frameOffset (index : Nat) : Nat := WAL_HEADER_BYTES + (index - 1) * frameSize src

structure Scanned where
  checksum : Nat × Nat
  frames : Dict Nat Nat
  lastCommit : Option Nat

def scanFrame (salt : Bytes) (bigEndian : Bool) (s : Scanned) (index : Nat) : Session Scanned := do
  let offset := frameOffset src index
  let frame ← pread src .wal (frameSize src) offset
  if bytesAt frame 8 8 ≠ salt then ofAttempt (refuse .walChecksumMismatch s!"frame {index} salt")
  else do
    let c ← ofAttempt (checksum (bytesAt frame 0 8) s.checksum bigEndian)
    let c ← ofAttempt (checksum (frame.drop 24) c bigEndian)
    if c ≠ (big (bytesAt frame 16 4), big (bytesAt frame 20 4)) then
      ofAttempt (refuse .walChecksumMismatch s!"frame {index} checksum")
    else
      pure ⟨c, s.frames.set (big (bytesAt frame 0 4)) offset, some (big (bytesAt frame 4 4))⟩

def scanHeader (index : WalIndexHeader) (header : Bytes) : Attempt ((Nat × Nat) × Bool) := do
  let magic := big (bytesAt header 0 4)
  if (magic ≠ WAL_MAGIC_LE ∧ magic ≠ WAL_MAGIC_BE) ∨ big (bytesAt header 4 4) ≠ WAL_FORMAT_VERSION then
    refuse .walChecksumMismatch "WAL header"
  if big (bytesAt header 8 4) ≠ src.pageSize then refuse .walChecksumMismatch "WAL page size"
  let c ← checksum (bytesAt header 0 24) (0, 0) (magic == WAL_MAGIC_BE)
  if c ≠ (big (bytesAt header 24 4), big (bytesAt header 28 4)) then
    refuse .walChecksumMismatch "WAL header checksum"
  if bytesAt header 16 8 ≠ index.salt then refuse .walChecksumMismatch "WAL salt differs from the wal-index"
  return (c, magic == WAL_MAGIC_BE)

def scan (index : WalIndexHeader) : Session Unit := do
  let header ← pread src .wal WAL_HEADER_BYTES 0
  let start ← ofAttempt (scanHeader src index header)
  if (src.file .wal).bytes.length < WAL_HEADER_BYTES + index.maxFrame * frameSize src then
    ofAttempt (refuse .walEndpointMismatch "WAL too short")
  else do
    let s ← (List.range' 1 index.maxFrame).foldlM (scanFrame src (bytesAt header 16 8) start.2) ⟨start.1, Dict.empty, none⟩
    if s.lastCommit.getD 0 = 0 ∨ s.lastCommit ≠ some index.pageCount ∨ s.checksum ≠ index.frameChecksum then
      ofAttempt (refuse .walEndpointMismatch "the frame at mxFrame is not the index's commit")
    else modify fun r => { r with frames := s.frames }

def openReader : Session Unit := do
  openFile src .db
  openFile src .shm
  let raw ← pread src .shm (2 * WAL_INDEX_HEADER_BYTES) 0
  let index ← ofAttempt (parseWalIndexHeader src.littleEndian raw)
  modify fun r => { r with header := some index }
  if index.maxFrame ≠ 0 ∧ index.pageSize ≠ src.pageSize then ofAttempt (refuse .walIndexUnreadable "page size")
  else if index.maxFrame ≠ 0 then do
    openFile src .wal
    scan src index
  else pure ()

def page (pgno : Nat) : Session Bytes := do
  match (← get).pages.get? pgno with
  | some image => pure image
  | none =>
    if pgno < 1 then ofAttempt (refuse .malformedPage s!"page {pgno}")
    else do
      let image ← match (← get).frames.get? pgno with
        | some offset => pread src .wal src.pageSize (offset + FRAME_HEADER_BYTES)
        | none => pread src .db src.pageSize ((pgno - 1) * src.pageSize)
      modify fun r => { r with pages := r.pages.set pgno image }
      pure image

end

end Cctally.WalSnapshot
