import Cctally.Dict
import Cctally.GroupA
import Cctally.TornLines

/-!
# The session aggregates

The sessions are aggregated from all entries once, and then only those whose entries
changed are aggregated again.
-/

namespace Cctally.SessionCache

open GroupA (Entry Row Store Edit maxId)

/-! ## Identities -/

def basename (path : List Char) : List Char :=
  match TornLines.rfind '/' path with
  | none => path
  | some i => path.drop (i + 1)

/-- `os.path.splitext(name)[0]`, of a name without a separator; leading dots do not begin an extension. -/
def splitextRoot (name : List Char) : List Char :=
  match TornLines.rfind '.' name with
  | none => name
  | some i => if (name.take i).all (· = '.') then name else name.take i

def stem (path : String) : String := String.ofList (splitextRoot (basename path.toList))

structure Usage (U : Type) where
  sourcePath : String
  usage : U

/-- The entries, and the `session_id` of each row of `session_files`. -/
structure Db (U : Type) where
  entries : Store (Usage U)
  files : Dict String (Option String)

def SYNTHETIC : String := "<synthetic>"

section
variable {U V X : Type}

namespace Db

def identity (db : Db U) (path : String) : String := (db.files.get? path).join.getD (stem path)

def rowKey (db : Db U) (r : Row (Usage U)) : String := db.identity r.entry.usage.sourcePath

def live (db : Db U) : List (Row (Usage U)) := db.entries.rows.filter fun r => r.entry.model ≠ SYNTHETIC

def sessionEntries (db : Db U) (key : String) : List (Entry (Usage U)) :=
  (db.live.filter fun r => db.rowKey r = key).map (·.entry)

/-- `affected_session_keys`, of tables that are there. -/
def affectedSessionKeys (db : Db U) (lastSeenSeq : Nat) : List String :=
  ((db.live.filter fun r => lastSeenSeq < r.mutationSeq).map db.rowKey).eraseDups

end Db

structure Session (V : Type) where
  sessionId : String
  usage : V

/-- `_aggregate_claude_sessions`: the entries by session, and what is made of each session's. -/
def aggregateSessions (usageOf : List (Entry (Usage U)) → V) (db : Db U) : List (Session V) :=
  (Dict.collect db.rowKey (·.entry) db.live).entries.map fun p => ⟨p.1, usageOf p.2⟩

def reaggregate (usageOf : List (Entry (Usage U)) → V) (db : Db U) (affected : List String) : List (Session V) :=
  (aggregateSessions usageOf db).filter fun s => s.sessionId ∈ affected

structure LastSeen (X : Type) where
  maxId : Nat
  maxSeq : Nat
  extra : X

/-- `_SESSION_CACHE` and `_SESSION_LAST_SEEN` -/
structure Cache (V X : Type) where
  store : Dict String (Session V)
  lastSeen : Option (LastSeen X)

def Cache.empty : Cache V X := ⟨Dict.empty, none⟩

/-- `put` of each session. -/
def putAll (store : Dict String (Session V)) (sessions : List (Session V)) : Dict String (Session V) :=
  sessions.foldl (fun store s => store.set s.sessionId s) store

section
variable [DecidableEq X]

def warm (c : Cache V X) (db : Db U) (extra : X) : Option (LastSeen X) :=
  c.lastSeen.filter fun last =>
    last.extra = extra && last.maxId ≤ maxId db.entries.rows && last.maxSeq ≤ db.entries.mutationSeq

def buildCachedSessions (c : Cache V X) (db : Db U) (aggregateAll : List (Session V))
    (reaggregate : Nat → List String → List (Session V)) (extra : X) : List (Session V) × Cache V X :=
  let store := match warm c db extra with
    | none => putAll Dict.empty aggregateAll
    | some last =>
      let affected := db.affectedSessionKeys last.maxSeq
      if last.maxSeq < db.entries.mutationSeq ∧ affected ≠ [] then putAll c.store (reaggregate last.maxSeq affected)
      else c.store
  (store.values, ⟨store, some ⟨maxId db.entries.rows, db.entries.mutationSeq, extra⟩⟩)

end

def restamped (s : Store (Usage U)) (path : String) (r : Row (Usage U)) : Row (Usage U) :=
  if r.entry.usage.sourcePath = path then { r with mutationSeq := s.mutationSeq + 1 } else r

def restamp (s : Store (Usage U)) (path : String) : Store (Usage U) where
  rows := s.rows.map (restamped s path)
  mutationSeq := s.mutationSeq + 1
  nodup := by
    have hids : (s.rows.map (restamped s path)).map (·.id) = s.rows.map (·.id) := by
      rw [List.map_map]
      refine List.map_congr_left fun r _ => ?_
      simp only [Function.comp_apply, restamped]
      split
      next => rfl
      next => rfl
    rw [hids]
    exact s.nodup
  seq_le r hr := by
    obtain ⟨r', hr', rfl⟩ := List.mem_map.1 hr
    rw [restamped]
    split
    next => exact le_refl _
    next => exact Nat.le_succ_of_le (s.seq_le r' hr')
  minTs_le r hr := by
    obtain ⟨r', hr', rfl⟩ := List.mem_map.1 hr
    rw [restamped]
    split
    next => exact s.minTs_le r' hr'
    next => exact s.minTs_le r' hr'

inductive Event (U X : Type)
  | edit (edit : Edit (Usage U))
  /-- A file's `session_id` is written; a backfill also stamps the file's entries. -/
  | file (path : String) (sessionId : Option String) (stamped : Bool)
  | tick (extra : X)

structure World (U V X : Type) where
  db : Db U
  cache : Cache V X
  /-- The tables each call read, the last one first, with what it returned. -/
  calls : List (Db U × List (Session V))

def World.start (db : Db U) : World U V X := ⟨db, .empty, []⟩

def Db.write (db : Db U) : Event U X → Db U
  | .edit edit => { db with entries := db.entries.edit edit }
  | .file path sessionId stamped =>
    { entries := if stamped then restamp db.entries path else db.entries
      files := db.files.set path sessionId }
  | .tick _ => db

section
variable [DecidableEq X] (usageOf : List (Entry (Usage U)) → V)

def World.call (w : World U V X) (extra : X) : List (Session V) × Cache V X :=
  buildCachedSessions w.cache w.db (aggregateSessions usageOf w.db) (fun _ => reaggregate usageOf w.db) extra

def World.step (w : World U V X) : Event U X → World U V X
  | .tick extra => ⟨w.db, (w.call usageOf extra).2, (w.db, (w.call usageOf extra).1) :: w.calls⟩
  | e => { w with db := w.db.write e }

def World.run (w : World U V X) (events : List (Event U X)) : World U V X := events.foldl (World.step usageOf) w

end

end

end Cctally.SessionCache
