import Cctally.Dict
import Mathlib.Data.List.Perm.Basic
import Mathlib.Data.Rat.Defs

/-!
# Usage snapshots and the retirement of their evidence

A snapshot carries weekly evidence unless it is held, and five-hour evidence when it has
a reading of its own. A credit or a reset retires one axis of the rows its list names.
-/

namespace Cctally.Snapshots

inductive Cell
  | null
  | int (n : Int)
  | real (r : ℚ)
  | text (s : String)
  deriving DecidableEq

/-- The columns of `weekly_usage_snapshots` beside its rowid and its journal id. -/
inductive Column
  | capturedAtUtc
  | weekStartDate
  | weekEndDate
  | weekStartAt
  | weekEndAt
  | weeklyPercent
  | pageUrl
  | source
  | payloadJson
  | accountKey
  | weeklyObservationHeld
  | fiveHourPercent
  | fiveHourResetsAt
  | fiveHourWindowKey
  deriving DecidableEq

def Column.notNull : Column → Bool
  | .capturedAtUtc | .weekStartDate | .weekEndDate | .weeklyPercent | .source | .payloadJson | .accountKey => true
  | _ => false

def Column.default : Column → Cell
  | .source => .text "userscript"
  | .accountKey => .text "unattributed"
  | .weeklyObservationHeld => .int 0
  | _ => .null

def Column.isFiveHour : Column → Bool
  | .fiveHourPercent | .fiveHourResetsAt | .fiveHourWindowKey => true
  | _ => false

@[ext]
structure Snapshot where
  cell : Column → Cell
  given : ∀ c, c.notNull = true → cell c ≠ .null
  checked : cell .weeklyObservationHeld = .int 0 ∨ cell .weeklyObservationHeld = .int 1

abbrev Cols := Dict Column Cell

abbrev Table := Dict String Snapshot

instance (cell : Column → Cell) : Decidable (∀ c : Column, c.notNull = true → cell c ≠ .null) :=
  decidable_of_iff (∀ c ∈ [Column.capturedAtUtc, .weekStartDate, .weekEndDate, .weeklyPercent, .source, .payloadJson,
    .accountKey], cell c ≠ .null) ⟨fun h c hc => h c (by cases c <;> simp_all [Column.notNull]),
    fun h c hc => h c (by simp at hc; rcases hc with rfl | rfl | rfl | rfl | rfl | rfl | rfl <;> rfl)⟩

def insertRow (cols : Cols) : Option Snapshot :=
  let cell := fun c => (cols.get? c).getD c.default
  if h : (∀ c : Column, c.notNull = true → cell c ≠ .null) ∧
      (cell .weeklyObservationHeld = .int 0 ∨ cell .weeklyObservationHeld = .int 1) then some ⟨cell, h.1, h.2⟩
  else none

def Snapshot.unheld (s : Snapshot) : Bool := s.cell .weeklyObservationHeld = .int 0

def Snapshot.fiveHourEvidence (s : Snapshot) : Bool :=
  s.cell .fiveHourPercent ≠ .null ∧ s.cell .fiveHourResetsAt ≠ .null ∧ s.cell .source ≠ .text "record-credit"

def Snapshot.clearFiveHour (s : Snapshot) : Snapshot where
  cell c := if c.isFiveHour then .null else s.cell c
  given c hc := by
    have hfive : c.isFiveHour = false := by cases c <;> simp_all [Column.notNull, Column.isFiveHour]
    rw [hfive]
    exact s.given c hc
  checked := s.checked

def Snapshot.hold (s : Snapshot) : Snapshot where
  cell c := if c = .weeklyObservationHeld then .int 1 else s.cell c
  given c hc := by
    have hheld : c ≠ .weeklyObservationHeld := by
      intro h
      subst h
      cases hc
    rw [if_neg hheld]
    exact s.given c hc
  checked := .inr rfl

def updateWhere (table : Table) (id : String) (where_ : Snapshot → Bool) (set : Snapshot → Snapshot) : Table :=
  match table.get? id with
  | some s => if where_ s then table.set id (set s) else table
  | none => table

def deleteWhere (table : Table) (id : String) (where_ : Snapshot → Bool) : Table :=
  match table.get? id with
  | some s => if where_ s then table.erase id else table
  | none => table

def insertOrIgnore (table : Table) (id : String) (cols : Cols) : Table :=
  match table.get? id, insertRow cols with
  | none, some s => table.set id s
  | _, _ => table

/-- The two statements of a `five_hour_credit`. -/
def retireFiveHourEffects (table : Table) (id : String) : Table :=
  deleteWhere (updateWhere table id Snapshot.unheld Snapshot.clearFiveHour) id fun s => !s.unheld

def retireWeeklyEffects (table : Table) (id : String) : Table :=
  deleteWhere (updateWhere table id (fun s => s.unheld && s.fiveHourEvidence) Snapshot.hold) id
    fun s => s.unheld || !s.fiveHourEvidence

/-- A `suppression` list and the table it is about. -/
structure Suppression where
  table : String
  ids : List String
  deriving DecidableEq

def SNAPSHOTS : String := "weekly_usage_snapshots"

inductive Event
  | snapshotAccept (id : String) (cols : Cols)
  | weekReset (suppression : Suppression)
  | weeklyCreditEffects (suppression : Suppression)
  | fiveHourCredit (suppression : Suppression)

/-- What `_apply_evt` does to `weekly_usage_snapshots`. -/
def applyEvt (table : Table) : Event → Table
  | .snapshotAccept id cols => insertOrIgnore table id cols
  | .weekReset s => if s.table = SNAPSHOTS then s.ids.foldl retireWeeklyEffects table else table
  | .weeklyCreditEffects s => if s.table = SNAPSHOTS then s.ids.foldl retireWeeklyEffects table else table
  | .fiveHourCredit s => if s.table = SNAPSHOTS then s.ids.foldl retireFiveHourEffects table else table

def fold (events : List Event) (table : Table) : Table := events.foldl applyEvt table

def Event.retiresWeekly (id : String) : Event → Bool
  | .weekReset s | .weeklyCreditEffects s => s.table = SNAPSHOTS ∧ id ∈ s.ids
  | _ => false

def Event.retiresFiveHour (id : String) : Event → Bool
  | .fiveHourCredit s => s.table = SNAPSHOTS ∧ id ∈ s.ids
  | _ => false

def Event.accepts (id : String) : Event → Option Cols
  | .snapshotAccept id' cols => if id' = id then some cols else none
  | _ => none

/-! ## One row -/

theorem Snapshot.unheld_iff {s : Snapshot} : s.unheld = true ↔ s.cell .weeklyObservationHeld = .int 0 := decide_eq_true_iff

theorem Snapshot.hold_of_held {s : Snapshot} (h : s.unheld = false) : s.hold = s := by
  have hheld : s.cell .weeklyObservationHeld = .int 1 := by
    rcases s.checked with h0 | h1
    · rw [Snapshot.unheld_iff.2 h0] at h
      cases h
    · exact h1
  ext c
  by_cases hc : c = .weeklyObservationHeld
  · subst hc
    exact hheld.symm
  · exact if_neg hc

@[simp] theorem unheld_clearFiveHour (s : Snapshot) : s.clearFiveHour.unheld = s.unheld := rfl

@[simp] theorem fiveHourEvidence_clearFiveHour (s : Snapshot) : s.clearFiveHour.fiveHourEvidence = false := by
  simp [Snapshot.fiveHourEvidence, Snapshot.clearFiveHour, Column.isFiveHour]

@[simp] theorem unheld_hold (s : Snapshot) : s.hold.unheld = false := by
  simp [Snapshot.unheld, Snapshot.hold]

@[simp] theorem fiveHourEvidence_hold (s : Snapshot) : s.hold.fiveHourEvidence = s.fiveHourEvidence := rfl

@[simp] theorem clearFiveHour_idem (s : Snapshot) : s.clearFiveHour.clearFiveHour = s.clearFiveHour := by
  ext c
  simp only [Snapshot.clearFiveHour]
  split <;> rfl

def fiveHourOf (s : Snapshot) : Option Snapshot := if s.unheld then some s.clearFiveHour else none

def weeklyOf (s : Snapshot) : Option Snapshot := if s.fiveHourEvidence then some s.hold else none

theorem get?_updateWhere (table : Table) (id k : String) (where_ : Snapshot → Bool) (set : Snapshot → Snapshot) :
    (updateWhere table id where_ set).get? k =
      if id = k then (table.get? k).map fun s => if where_ s then set s else s else table.get? k := by
  unfold updateWhere
  by_cases hk : id = k
  · subst hk
    rw [if_pos rfl]
    cases hid : table.get? id with
    | none => exact hid
    | some s =>
      simp only [Option.map_some]
      split
      · rw [Dict.get?_set, if_pos rfl]
      · exact hid
  · rw [if_neg hk]
    split
    · split
      · rw [Dict.get?_set, if_neg hk]
      · rfl
    · rfl

theorem get?_deleteWhere (table : Table) (id k : String) (where_ : Snapshot → Bool) :
    (deleteWhere table id where_).get? k =
      if id = k then (table.get? k).bind fun s => if where_ s then none else some s else table.get? k := by
  unfold deleteWhere
  by_cases hk : id = k
  · subst hk
    rw [if_pos rfl]
    cases hid : table.get? id with
    | none => exact hid
    | some s =>
      simp only [Option.bind_some]
      split
      · rw [Dict.get?_erase, if_pos rfl]
      · exact hid
  · rw [if_neg hk]
    split
    · split
      · rw [Dict.get?_erase, if_neg hk]
      · rfl
    · rfl

theorem get?_retireFiveHour (table : Table) (id k : String) :
    (retireFiveHourEffects table id).get? k = if id = k then (table.get? k).bind fiveHourOf else table.get? k := by
  rw [retireFiveHourEffects, get?_deleteWhere, get?_updateWhere]
  split
  · cases table.get? k with
    | none => rfl
    | some s => cases hs : s.unheld <;> simp [fiveHourOf, hs]
  · rfl

theorem get?_retireWeekly (table : Table) (id k : String) :
    (retireWeeklyEffects table id).get? k = if id = k then (table.get? k).bind weeklyOf else table.get? k := by
  rw [retireWeeklyEffects, get?_deleteWhere, get?_updateWhere]
  split
  · cases table.get? k with
    | none => rfl
    | some s =>
      cases hu : s.unheld <;> cases he : s.fiveHourEvidence <;> simp [weeklyOf, hu, he, Snapshot.hold_of_held]
  · rfl

theorem get?_insertOrIgnore (table : Table) (id k : String) (cols : Cols) :
    (insertOrIgnore table id cols).get? k = if id = k then (table.get? k).or (insertRow cols) else table.get? k := by
  unfold insertOrIgnore
  by_cases hk : id = k
  · subst hk
    rw [if_pos rfl]
    cases hid : table.get? id with
    | none =>
      cases insertRow cols with
      | none => exact hid
      | some s => simp only [Dict.get?_set_self, Option.none_or]
    | some s => exact hid
  · rw [if_neg hk]
    split
    · rw [Dict.get?_set, if_neg hk]
    · rfl

def settle (fiveHour weekly : Bool) (o : Option Snapshot) : Option Snapshot :=
  let o := if weekly then o.bind weeklyOf else o
  if fiveHour then o.bind fiveHourOf else o

theorem settle_none (fiveHour weekly : Bool) : settle fiveHour weekly none = none := by
  cases fiveHour <;> cases weekly <;> rfl

theorem settle_settle (f w f' w' : Bool) (o : Option Snapshot) :
    settle f w (settle f' w' o) = settle (f || f') (w || w') o := by
  cases o with
  | none => simp [settle_none]
  | some s =>
    cases hu : s.unheld <;> cases he : s.fiveHourEvidence <;> cases f <;> cases w <;> cases f' <;> cases w' <;>
      simp [settle, weeklyOf, fiveHourOf, hu, he, Snapshot.hold_of_held]

theorem get?_foldl_retireFiveHour (k : String) : ∀ (ids : List String) (table : Table),
    (ids.foldl retireFiveHourEffects table).get? k = settle (k ∈ ids) false (table.get? k)
  | [], _ => rfl
  | id :: ids, table => by
    have hone : (retireFiveHourEffects table id).get? k = settle (k = id) false (table.get? k) := by
      rw [get?_retireFiveHour]
      by_cases hk : id = k
      · simp [settle, hk]
      · simp [settle, hk, Ne.symm hk]
    rw [List.foldl_cons, get?_foldl_retireFiveHour k ids, hone, settle_settle]
    simp [Bool.or_comm]

theorem get?_foldl_retireWeekly (k : String) : ∀ (ids : List String) (table : Table),
    (ids.foldl retireWeeklyEffects table).get? k = settle false (k ∈ ids) (table.get? k)
  | [], _ => rfl
  | id :: ids, table => by
    have hone : (retireWeeklyEffects table id).get? k = settle false (k = id) (table.get? k) := by
      rw [get?_retireWeekly]
      by_cases hk : id = k
      · simp [settle, hk]
      · simp [settle, hk, Ne.symm hk]
    rw [List.foldl_cons, get?_foldl_retireWeekly k ids, hone, settle_settle]
    simp [Bool.or_comm]

theorem get?_applyEvt (table : Table) (e : Event) (k : String) :
    (applyEvt table e).get? k =
      settle (e.retiresFiveHour k) (e.retiresWeekly k) ((table.get? k).or ((e.accepts k).bind insertRow)) := by
  cases e with
  | snapshotAccept id cols =>
    rw [applyEvt, get?_insertOrIgnore, Event.accepts]
    by_cases hk : id = k
    · simp [settle, Event.retiresFiveHour, Event.retiresWeekly, hk]
    · simp [settle, Event.retiresFiveHour, Event.retiresWeekly, hk]
  | weekReset s =>
    by_cases hs : s.table = SNAPSHOTS
    · simp [applyEvt, Event.retiresFiveHour, Event.retiresWeekly, Event.accepts, hs, get?_foldl_retireWeekly]
    · simp [applyEvt, Event.retiresFiveHour, Event.retiresWeekly, Event.accepts, hs, settle]
  | weeklyCreditEffects s =>
    by_cases hs : s.table = SNAPSHOTS
    · simp [applyEvt, Event.retiresFiveHour, Event.retiresWeekly, Event.accepts, hs, get?_foldl_retireWeekly]
    · simp [applyEvt, Event.retiresFiveHour, Event.retiresWeekly, Event.accepts, hs, settle]
  | fiveHourCredit s =>
    by_cases hs : s.table = SNAPSHOTS
    · simp [applyEvt, Event.retiresFiveHour, Event.retiresWeekly, Event.accepts, hs, get?_foldl_retireFiveHour]
    · simp [applyEvt, Event.retiresFiveHour, Event.retiresWeekly, Event.accepts, hs, settle]

end Cctally.Snapshots
