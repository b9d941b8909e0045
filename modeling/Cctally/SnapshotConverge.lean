import Cctally.SnapshotFold

/-!
# Converging a snapshot to its replacement

A live row is updated in place to a replacement record. What its retirements did is read
back from the row's columns and the lists that name it.
-/

namespace Cctally.Snapshots

/-- `_suppression_retires` on the weekly axis, over the decisions applied so far. -/
def suppressionRetiresWeekly (suppressors : List Event) (id : String) : Bool := suppressors.any fun e => e.retiresWeekly id

def suppressionRetiresFiveHour (suppressors : List Event) (id : String) : Bool := suppressors.any fun e => e.retiresFiveHour id

def colOf (cols : Cols) (c : Column) : Cell := (cols.get? c).getD .null

def keepFiveHourRetirement (cols : Cols) (row : Snapshot) (retires : Bool) : Cols :=
  if colOf cols .fiveHourPercent = .null ∨ colOf cols .fiveHourWindowKey = .null then cols
  else if row.cell .fiveHourPercent ≠ .null ∨ row.cell .fiveHourResetsAt ≠ .null ∨ row.cell .fiveHourWindowKey ≠ .null ∨
      row.unheld = false then cols
  else if retires then
    ((cols.set .fiveHourPercent .null).set .fiveHourResetsAt .null).set .fiveHourWindowKey .null
  else cols

def keepWeeklyRetirement (cols : Cols) (row : Snapshot) (retires : Bool) : Cols :=
  if colOf cols .weeklyObservationHeld ≠ .null ∧ colOf cols .weeklyObservationHeld ≠ .int 0 then cols
  else if row.unheld ∨ row.cell .fiveHourPercent = .null ∨ row.cell .fiveHourResetsAt = .null then cols
  else if retires then cols.set .weeklyObservationHeld (.int 1)
  else cols

/-- `UPDATE … SET …` of the given columns; a constraint failure raises. -/
def updateRow (row : Snapshot) (cols : Cols) : Option Snapshot :=
  let cell := fun c => (cols.get? c).getD (row.cell c)
  if h : (∀ c : Column, c.notNull = true → cell c ≠ .null) ∧
      (cell .weeklyObservationHeld = .int 0 ∨ cell .weeklyObservationHeld = .int 1) then some ⟨cell, h.1, h.2⟩
  else none

/-- `_converge_row_from_effective` on `weekly_usage_snapshots`: nothing to converge is left as it is. -/
def convergeRow (table : Table) (id : String) (cols : Cols) (suppressors : List Event) : Option Table :=
  match table.get? id with
  | none => some table
  | some row =>
    let cols := keepFiveHourRetirement cols row (suppressionRetiresFiveHour suppressors id)
    let cols := keepWeeklyRetirement cols row (suppressionRetiresWeekly suppressors id)
    (updateRow row cols).map fun row => table.set id row

theorem insertRow_cell {cols : Cols} {s : Snapshot} (h : insertRow cols = some s) (c : Column) :
    s.cell c = (cols.get? c).getD c.default := by
  unfold insertRow at h
  simp only at h
  split at h
  · rw [← Option.some.inj h]
  · cases h

theorem colOf_of_nullable {cols : Cols} {s : Snapshot} (h : insertRow cols = some s) {c : Column} (hc : c.default = .null) :
    colOf cols c = s.cell c := by rw [insertRow_cell h, hc, colOf]

theorem updateRow_eq {row : Snapshot} {cols : Cols} (hgiven : ∀ c v, cols.get? c = some v → c.notNull = true → v ≠ .null)
    (hheld : ∀ v, cols.get? .weeklyObservationHeld = some v → v = .int 0 ∨ v = .int 1) :
    ∃ row', updateRow row cols = some row' ∧ ∀ c, row'.cell c = (cols.get? c).getD (row.cell c) := by
  have hvalid : (∀ c : Column, c.notNull = true → (cols.get? c).getD (row.cell c) ≠ .null) ∧
      ((cols.get? .weeklyObservationHeld).getD (row.cell .weeklyObservationHeld) = .int 0 ∨
        (cols.get? .weeklyObservationHeld).getD (row.cell .weeklyObservationHeld) = .int 1) := by
    constructor
    · intro c hc
      cases hget : cols.get? c with
      | none => exact row.given c hc
      | some v => exact hgiven c v hget hc
    · cases hget : cols.get? .weeklyObservationHeld with
      | none => exact row.checked
      | some v => exact hheld v hget
  exact ⟨⟨_, hvalid.1, hvalid.2⟩, dif_pos hvalid, fun _ => rfl⟩

theorem updateRow_of_valid {cols : Cols} {r : Snapshot} (h : insertRow cols = some r) (row : Snapshot) :
    ∃ row', updateRow row cols = some row' ∧ ∀ c, row'.cell c = (cols.get? c).getD (row.cell c) := by
  refine updateRow_eq (fun c v hv hc => ?_) fun v hv => ?_
  · have hcell := insertRow_cell h c
    rw [hv, Option.getD_some] at hcell
    exact hcell ▸ r.given c hc
  · have hcell := insertRow_cell h .weeklyObservationHeld
    rw [hv, Option.getD_some] at hcell
    exact hcell ▸ r.checked

abbrev withoutFiveHour (cols : Cols) : Cols :=
  ((cols.set .fiveHourPercent .null).set .fiveHourResetsAt .null).set .fiveHourWindowKey .null

theorem get?_withoutFiveHour (cols : Cols) (c : Column) :
    (withoutFiveHour cols).get? c = if c.isFiveHour then some .null else cols.get? c := by
  cases c <;> simp [withoutFiveHour, Dict.get?_set, Column.isFiveHour]

theorem fold_congr (k : String) : ∀ (events : List Event) {table table' : Table}, table.get? k = table'.get? k →
    (fold events table).get? k = (fold events table').get? k
  | [], _, _, h => h
  | e :: events, _, _, h => fold_congr k events (by rw [get?_applyEvt, get?_applyEvt, h])

/-! ## When the live row is the rebuilt one -/

def FiveHourNull (s : Snapshot) : Prop := ∀ c : Column, c.isFiveHour = true → s.cell c = .null

def DefaultsKept (stored : Snapshot) (cols : Cols) (ignored : Column → Bool) : Prop :=
  ∀ c, cols.get? c = none → ignored c = false → stored.cell c = c.default

def RetiredAlike (fiveHour weekly : Bool) (stored replacement : Snapshot) (cols : Cols) : Prop :=
  match fiveHour, weekly with
  | true, true => True
  | true, false =>
    stored.unheld = replacement.unheld ∧
      (stored.unheld = true →
        (FiveHourNull replacement ∨ replacement.cell .fiveHourPercent ≠ .null ∧ replacement.cell .fiveHourWindowKey ≠ .null) ∧
        DefaultsKept stored cols Column.isFiveHour)
  | false, true =>
    stored.fiveHourEvidence = replacement.fiveHourEvidence ∧
      (stored.fiveHourEvidence = true → DefaultsKept stored cols fun c => c = .weeklyObservationHeld)
  | false, false => DefaultsKept stored cols fun _ => false

theorem cell_clearFiveHour (s : Snapshot) (c : Column) :
    s.clearFiveHour.cell c = if c.isFiveHour then .null else s.cell c := rfl

theorem cell_hold (s : Snapshot) (c : Column) : s.hold.cell c = if c = .weeklyObservationHeld then .int 1 else s.cell c := rfl

theorem default_of_isFiveHour {c : Column} (hc : c.isFiveHour = true) : c.default = .null := by
  cases c <;> first | rfl | cases hc

section
variable {cols : Cols} {s r : Snapshot} (hr : insertRow cols = some r)
include hr

theorem getD_default {c : Column} (x : Cell) :
    (cols.get? c).getD x = r.cell c ↔ (cols.get? c = none → x = c.default) := by
  rw [insertRow_cell hr]
  cases cols.get? c with
  | none => simp
  | some v => simp

theorem update_plain : (∃ row, updateRow s cols = some row ∧ row = r) ↔ RetiredAlike false false s r cols := by
  obtain ⟨row, hrow, hcell⟩ := updateRow_of_valid hr s
  constructor
  · rintro ⟨row', hrow', rfl⟩ c hc _
    obtain rfl := Option.some.inj (hrow.symm.trans hrow')
    exact (getD_default hr _).1 (hcell c).symm hc
  · intro h
    refine ⟨row, hrow, Snapshot.ext (funext fun c => ?_)⟩
    rw [hcell c]
    exact (getD_default hr _).2 fun hc => h c hc rfl

omit hr in
theorem keepFiveHour_cleared (hs : s.unheld = true) :
    keepFiveHourRetirement cols s.clearFiveHour true =
      if colOf cols .fiveHourPercent = .null ∨ colOf cols .fiveHourWindowKey = .null then cols else withoutFiveHour cols := by
  have hretired : ¬(s.clearFiveHour.cell .fiveHourPercent ≠ .null ∨ s.clearFiveHour.cell .fiveHourResetsAt ≠ .null ∨
      s.clearFiveHour.cell .fiveHourWindowKey ≠ .null ∨ s.clearFiveHour.unheld = false) := by
    rw [unheld_clearFiveHour, hs]
    simp [cell_clearFiveHour, Column.isFiveHour]
  rw [keepFiveHourRetirement, if_neg hretired, if_pos rfl]

theorem valid_withoutFiveHour (row : Snapshot) :
    ∃ row', updateRow row (withoutFiveHour cols) = some row' ∧ ∀ c, row'.cell c = ((withoutFiveHour cols).get? c).getD (row.cell c) := by
  refine updateRow_eq (fun c v hv hc => ?_) fun v hv => ?_
  · have hfive : c.isFiveHour = false := by cases c <;> simp_all [Column.notNull, Column.isFiveHour]
    rw [get?_withoutFiveHour, hfive] at hv
    have hcell := insertRow_cell hr c
    rw [show cols.get? c = some v from hv, Option.getD_some] at hcell
    exact hcell ▸ r.given c hc
  · rw [get?_withoutFiveHour] at hv
    have hcell := insertRow_cell hr .weeklyObservationHeld
    rw [show cols.get? .weeklyObservationHeld = some v from hv, Option.getD_some] at hcell
    exact hcell ▸ r.checked

theorem eq_clearFiveHour_iff {row : Snapshot} {written : Cols} (hcell : ∀ c, row.cell c = (written.get? c).getD (s.clearFiveHour.cell c))
    (hsame : ∀ c : Column, c.isFiveHour = false → written.get? c = cols.get? c) :
    row = r.clearFiveHour ↔ (∀ c : Column, c.isFiveHour = true → (written.get? c).getD .null = .null) ∧
      DefaultsKept s cols Column.isFiveHour := by
  constructor
  · intro h
    refine ⟨fun c hc => ?_, fun c hnone hc => ?_⟩
    · have hc' := hcell c
      rw [h, cell_clearFiveHour, cell_clearFiveHour, hc] at hc'
      exact hc'.symm
    · have hc' := hcell c
      rw [h, cell_clearFiveHour, cell_clearFiveHour, hc, hsame c hc] at hc'
      exact (getD_default hr _).1 hc'.symm hnone
  · intro ⟨hfive, hdefault⟩
    refine Snapshot.ext (funext fun c => ?_)
    rw [hcell c, cell_clearFiveHour, cell_clearFiveHour]
    cases hc : c.isFiveHour with
    | true => exact hfive c hc
    | false =>
      rw [hsame c hc]
      exact (getD_default hr _).2 fun hnone => hdefault c hnone hc

theorem update_cleared (hs : s.unheld = true) :
    (∃ row, updateRow s.clearFiveHour (keepFiveHourRetirement cols s.clearFiveHour true) = some row ∧ fiveHourOf r = some row) ↔
      RetiredAlike true false s r cols := by
  have hpct : colOf cols .fiveHourPercent = r.cell .fiveHourPercent := colOf_of_nullable hr rfl
  have hwindow : colOf cols .fiveHourWindowKey = r.cell .fiveHourWindowKey := colOf_of_nullable hr rfl
  rw [keepFiveHour_cleared hs, hpct, hwindow]
  unfold RetiredAlike
  simp only [hs, true_implies]
  cases hu : r.unheld with
  | false => simp [fiveHourOf, hu]
  | true =>
    simp only [fiveHourOf, hu, if_true, Option.some.injEq, true_and]
    by_cases hmissing : r.cell .fiveHourPercent = .null ∨ r.cell .fiveHourWindowKey = .null
    · obtain ⟨row, hrow, hcell⟩ := updateRow_of_valid hr s.clearFiveHour
      have hiff := eq_clearFiveHour_iff hr hcell fun _ _ => rfl
      rw [if_pos hmissing]
      have hnull : (∀ c : Column, c.isFiveHour = true → (cols.get? c).getD .null = .null) ↔
          FiveHourNull r ∨ r.cell .fiveHourPercent ≠ .null ∧ r.cell .fiveHourWindowKey ≠ .null := by
        constructor
        · refine fun h => .inl fun c hc => ?_
          rw [insertRow_cell hr, default_of_isFiveHour hc]
          exact h c hc
        · rintro (h | ⟨hp, hw⟩) c hc
          · have hc' := h c hc
            rwa [insertRow_cell hr, default_of_isFiveHour hc] at hc'
          · exact absurd hmissing (by simp [hp, hw])
      rw [← hnull, ← hiff]
      constructor
      · rintro ⟨row', hrow', rfl⟩
        exact Option.some.inj (hrow.symm.trans hrow')
      · rintro rfl
        exact ⟨_, hrow, rfl⟩
    · obtain ⟨row, hrow, hcell⟩ := valid_withoutFiveHour hr s.clearFiveHour
      have hiff := eq_clearFiveHour_iff hr hcell fun c hc => by rw [get?_withoutFiveHour, hc]; rfl
      rw [if_neg hmissing]
      have hnull : ∀ c : Column, c.isFiveHour = true → ((withoutFiveHour cols).get? c).getD .null = .null := fun c hc => by
        rw [get?_withoutFiveHour, hc]
        rfl
      push Not at hmissing
      constructor
      · rintro ⟨row', hrow', rfl⟩
        exact ⟨.inr hmissing, (hiff.1 (Option.some.inj (hrow.symm.trans hrow'))).2⟩
      · rintro ⟨_, hdefault⟩
        obtain rfl := hiff.2 ⟨hnull, hdefault⟩
        exact ⟨_, hrow, rfl⟩

omit hr in
theorem keepWeekly_held (hs : s.fiveHourEvidence = true) :
    keepWeeklyRetirement cols s.hold true =
      if colOf cols .weeklyObservationHeld ≠ .null ∧ colOf cols .weeklyObservationHeld ≠ .int 0 then cols
      else cols.set .weeklyObservationHeld (.int 1) := by
  have hkept : ¬(s.hold.unheld = true ∨ s.hold.cell .fiveHourPercent = .null ∨ s.hold.cell .fiveHourResetsAt = .null) := by
    simp only [Snapshot.fiveHourEvidence, decide_eq_true_eq] at hs
    rw [unheld_hold, cell_hold, cell_hold]
    simp [hs.1, hs.2.1]
  rw [keepWeeklyRetirement, if_neg hkept, if_pos rfl]

theorem eq_hold_iff {row : Snapshot} {written : Cols} (hcell : ∀ c, row.cell c = (written.get? c).getD (s.hold.cell c))
    (hsame : ∀ c : Column, c ≠ .weeklyObservationHeld → written.get? c = cols.get? c)
    (hheld : (written.get? .weeklyObservationHeld).getD (.int 1) = .int 1) :
    row = r.hold ↔ DefaultsKept s cols fun c => c = .weeklyObservationHeld := by
  constructor
  · intro h c hnone hc
    rw [decide_eq_false_iff_not] at hc
    have hc' := hcell c
    rw [h, cell_hold, cell_hold, if_neg hc, if_neg hc, hsame c hc] at hc'
    exact (getD_default hr _).1 hc'.symm hnone
  · intro hdefault
    refine Snapshot.ext (funext fun c => ?_)
    rw [hcell c, cell_hold, cell_hold]
    by_cases hc : c = .weeklyObservationHeld
    · rw [if_pos hc, if_pos hc, hc]
      exact hheld
    · rw [if_neg hc, if_neg hc, hsame c hc]
      exact (getD_default hr _).2 fun hnone => hdefault c hnone (decide_eq_false hc)

theorem update_held (hs : s.fiveHourEvidence = true) :
    (∃ row, updateRow s.hold (keepWeeklyRetirement cols s.hold true) = some row ∧ weeklyOf r = some row) ↔
      RetiredAlike false true s r cols := by
  rw [keepWeekly_held hs]
  unfold RetiredAlike
  simp only [hs, true_implies]
  cases he : r.fiveHourEvidence with
  | false => simp [weeklyOf, he]
  | true =>
    simp only [weeklyOf, he, if_true, Option.some.injEq, true_and]
    have hcol : (cols.get? .weeklyObservationHeld).getD (.int 0) = r.cell .weeklyObservationHeld :=
      (insertRow_cell hr .weeklyObservationHeld).symm
    by_cases hheld : colOf cols .weeklyObservationHeld ≠ .null ∧ colOf cols .weeklyObservationHeld ≠ .int 0
    · obtain ⟨row, hrow, hcell⟩ := updateRow_of_valid hr s.hold
      have hone : (cols.get? .weeklyObservationHeld).getD (.int 1) = .int 1 := by
        cases hget : cols.get? .weeklyObservationHeld with
        | none => rfl
        | some v =>
          rw [colOf, hget, Option.getD_some] at hheld
          rw [hget, Option.getD_some] at hcol
          rcases r.checked with h0 | h1
          · exact absurd (hcol.trans h0) hheld.2
          · exact hcol.trans h1
      have hiff := eq_hold_iff hr hcell (fun _ _ => rfl) hone
      rw [if_pos hheld, ← hiff]
      constructor
      · intro h
        obtain ⟨row', hrow', heq⟩ := h
        rw [Option.some.inj (hrow.symm.trans hrow')]
        exact heq.symm
      · intro heq
        exact ⟨row, hrow, heq.symm⟩
    · have hvalid : ∃ row, updateRow s.hold (cols.set .weeklyObservationHeld (.int 1)) = some row ∧
          ∀ c, row.cell c = ((cols.set .weeklyObservationHeld (.int 1)).get? c).getD (s.hold.cell c) := by
        refine updateRow_eq (fun c v hv hc => ?_) fun v hv => ?_
        · have hne : Column.weeklyObservationHeld ≠ c := by
            intro h
            subst h
            cases hc
          rw [Dict.get?_set_ne _ _ hne] at hv
          have hcell := insertRow_cell hr c
          rw [hv, Option.getD_some] at hcell
          exact hcell ▸ r.given c hc
        · rw [Dict.get?_set_self] at hv
          exact .inr (Option.some.inj hv).symm
      obtain ⟨row, hrow, hcell⟩ := hvalid
      have hiff := eq_hold_iff hr hcell (fun c hc => Dict.get?_set_ne _ _ (Ne.symm hc))
        (by rw [Dict.get?_set_self]; rfl)
      rw [if_neg hheld, ← hiff]
      constructor
      · intro h
        obtain ⟨row', hrow', heq⟩ := h
        rw [Option.some.inj (hrow.symm.trans hrow')]
        exact heq.symm
      · intro heq
        exact ⟨row, hrow, heq.symm⟩

end

/-! ## Convergence and rebuild -/

theorem keepFiveHour_not_retired (cols : Cols) (row : Snapshot) : keepFiveHourRetirement cols row false = cols := by
  unfold keepFiveHourRetirement
  split
  · rfl
  · split <;> rfl

theorem keepWeekly_not_retired (cols : Cols) (row : Snapshot) : keepWeeklyRetirement cols row false = cols := by
  unfold keepWeeklyRetirement
  split
  · rfl
  · split <;> rfl

theorem settle_both (s : Snapshot) : settle true true (some s) = none := by
  cases hu : s.unheld <;> cases he : s.fiveHourEvidence <;> simp [settle, weeklyOf, fiveHourOf, he]

theorem get?_fold_other {k id : String} (hk : id ≠ k) (events : List Event) (table : Table) (c c' : Cols) :
    (fold events (insertOrIgnore table id c)).get? k = (fold events (insertOrIgnore table id c')).get? k := by
  refine fold_congr k events ?_
  rw [get?_insertOrIgnore, get?_insertOrIgnore, if_neg hk, if_neg hk]

section
variable {live rebuilt : Table} {id : String} {cols : Cols} {suppressors : List Event}
  (hother : ∀ k, id ≠ k → live.get? k = rebuilt.get? k)
include hother

theorem converge_none (hrow : live.get? id = none) :
    (∃ t, convergeRow live id cols suppressors = some t ∧ ∀ k, t.get? k = rebuilt.get? k) ↔ rebuilt.get? id = none := by
  unfold convergeRow
  rw [hrow]
  simp only [Option.some.injEq, exists_eq_left']
  constructor
  · intro h
    rw [← h id, hrow]
  · intro h k
    by_cases hk : id = k
    · rw [← hk, hrow, h]
    · exact hother k hk

theorem converge_some {row : Snapshot} (hrow : live.get? id = some row) :
    (∃ t, convergeRow live id cols suppressors = some t ∧ ∀ k, t.get? k = rebuilt.get? k) ↔
      ∃ row', updateRow row (keepWeeklyRetirement (keepFiveHourRetirement cols row (suppressionRetiresFiveHour suppressors id)) row
        (suppressionRetiresWeekly suppressors id)) = some row' ∧ rebuilt.get? id = some row' := by
  unfold convergeRow
  rw [hrow]
  simp only [Option.map_eq_some_iff]
  constructor
  · intro h
    obtain ⟨t, ⟨row', hrow', ht⟩, h⟩ := h
    refine ⟨row', hrow', ?_⟩
    rw [← h id, ← ht, Dict.get?_set_self]
  · intro h
    obtain ⟨row', hrow', h⟩ := h
    refine ⟨_, ⟨row', hrow', rfl⟩, fun k => ?_⟩
    by_cases hk : id = k
    · rw [← hk, Dict.get?_set_self, h]
    · rw [Dict.get?_set_ne _ _ hk]
      exact hother k hk

end

section
variable {table : Table} {id : String} {stored cols : Cols} {s r : Snapshot} {suppressors : List Event}
  (hbase : table.get? id = none) (hstored : insertRow stored = some s) (hreplacement : insertRow cols = some r)
  (hsuppress : ∀ e ∈ suppressors, e.accepts id = none)
include hbase hsuppress

theorem get?_fold_inserted {t : Snapshot} {c : Cols} (ht : insertRow c = some t) :
    (fold suppressors (insertOrIgnore table id c)).get? id =
      settle (suppressionRetiresFiveHour suppressors id) (suppressionRetiresWeekly suppressors id) (some t) := by
  rw [get?_fold_retired id suppressors _ hsuppress, get?_insertOrIgnore, if_pos rfl, hbase, ht]
  rfl

include hstored hreplacement

/-- **Convergence rebuilds the row exactly when** the retirements did to the stored record what they do to its
replacement, and the columns the replacement leaves out hold their defaults. -/
theorem converge_eq_rebuild_iff :
    (∃ live, convergeRow (fold suppressors (insertOrIgnore table id stored)) id cols suppressors = some live ∧
      ∀ k, live.get? k = (fold suppressors (insertOrIgnore table id cols)).get? k) ↔
      RetiredAlike (suppressionRetiresFiveHour suppressors id) (suppressionRetiresWeekly suppressors id) s r cols := by
  have hlive := get?_fold_inserted hbase hsuppress hstored
  have hrebuilt := get?_fold_inserted hbase hsuppress hreplacement
  have hother : ∀ k, id ≠ k → (fold suppressors (insertOrIgnore table id stored)).get? k =
      (fold suppressors (insertOrIgnore table id cols)).get? k := fun k hk => get?_fold_other hk suppressors table stored cols
  cases hf : suppressionRetiresFiveHour suppressors id <;> cases hw : suppressionRetiresWeekly suppressors id <;>
    rw [hf, hw] at hlive hrebuilt
  · rw [converge_some hother hlive, hf, hw, keepFiveHour_not_retired, keepWeekly_not_retired, hrebuilt, ← update_plain hreplacement]
    exact exists_congr fun row => and_congr_right fun _ => ⟨fun h => (Option.some.inj h).symm, fun h => by rw [h]; rfl⟩
  · cases he : s.fiveHourEvidence with
    | false =>
      have hnone : settle false true (some s) = none := by simp [settle, weeklyOf, he]
      rw [converge_none hother (hlive.trans hnone), hrebuilt]
      cases he' : r.fiveHourEvidence <;> simp [RetiredAlike, settle, weeklyOf, he, he']
    | true =>
      have hsome : settle false true (some s) = some s.hold := by simp [settle, weeklyOf, he]
      rw [converge_some hother (hlive.trans hsome), hf, hw, keepFiveHour_not_retired, hrebuilt]
      exact update_held hreplacement he
  · cases hu : s.unheld with
    | false =>
      have hnone : settle true false (some s) = none := by simp [settle, fiveHourOf, hu]
      rw [converge_none hother (hlive.trans hnone), hrebuilt]
      cases hu' : r.unheld <;> simp [RetiredAlike, settle, fiveHourOf, hu, hu']
    | true =>
      have hsome : settle true false (some s) = some s.clearFiveHour := by simp [settle, fiveHourOf, hu]
      rw [converge_some hother (hlive.trans hsome), hf, hw, keepWeekly_not_retired, hrebuilt]
      exact update_cleared hreplacement hu
  · rw [converge_none hother (hlive.trans (settle_both s)), hrebuilt]
    exact ⟨fun _ => trivial, fun _ => settle_both r⟩

end

def unreadCols : Cols := .ofList
  [(.capturedAtUtc, .text "2025-10-01T00:00:00Z"), (.weekStartDate, .text "2025-09-29"), (.weekEndDate, .text "2025-10-06"),
   (.weeklyPercent, .int 40), (.payloadJson, .text "\x7b\x7d"), (.fiveHourPercent, .null), (.fiveHourResetsAt, .null),
   (.fiveHourWindowKey, .null)]

def weekReset : List Event := [.weekReset ⟨SNAPSHOTS, ["sa:1"]⟩]

theorem converge_eq_rebuild_unsuppressed :
    ∃ live, convergeRow (fold [] (insertOrIgnore .empty "sa:1" unreadCols)) "sa:1" readingCols [] = some live ∧
      ∀ k, live.get? k = (fold [] (insertOrIgnore .empty "sa:1" readingCols)).get? k := by
  obtain ⟨s, hs⟩ : ∃ s, insertRow unreadCols = some s := Option.isSome_iff_exists.1 (by decide +kernel)
  obtain ⟨r, hr⟩ : ∃ r, insertRow readingCols = some r := Option.isSome_iff_exists.1 (by decide +kernel)
  refine (converge_eq_rebuild_iff rfl hs hr (fun _ h => absurd h List.not_mem_nil)).2 fun c hc _ => ?_
  rw [insertRow_cell hs]
  cases c <;> first | rfl | (exfalso; revert hc; decide)

/-- The live row stays held with evidence on neither axis; a rebuild deletes it. -/
theorem converge_keeps_unread :
    ((convergeRow (fold weekReset (insertOrIgnore .empty "sa:1" readingCols)) "sa:1" unreadCols weekReset).map fun t =>
      (t.get? "sa:1").map fun row => (row.unheld, row.cell .fiveHourPercent)) = some (some (false, .null)) ∧
      ((fold weekReset (insertOrIgnore .empty "sa:1" unreadCols)).get? "sa:1").isNone = true := by
  decide +kernel

end Cctally.Snapshots
