import Cctally.SubWeeksCut

/-!
# The weeks of a whole application

The segments of all weeks come out in ascending order as soon as one week is
cut. Two tables that list the events of each second in the same order give the
same weeks.
-/

namespace Cctally.SubWeeks

open Pieces

section
variable {D : Type} (ck : Clock D)

structure Separate (weeks : List (SubWeek D)) : Prop where
  reads : ∀ w ∈ weeks, ∃ a b, startOf ck w = some a ∧ endOf ck w = some b ∧ a < b
  increasing : weeks.Pairwise fun w w' => startKey ck w < startKey ck w'
  disjoint : weeks.Pairwise fun w w' => ∀ t, ¬(holds ck t w = true ∧ holds ck t w' = true)

def Ascending (weeks : List (SubWeek D)) : Prop := weeks.Pairwise fun w w' => startKey ck w ≤ startKey ck w'

def Cut (events : List ParsedEvent) (w : SubWeek D) : Prop :=
  ∃ a b, endOf ck w = some b ∧ effectiveStart ck events w b = some a ∧ ∃ c ∈ cutInstants events b, a < c ∧ c < b

def effKey (events : List ParsedEvent) (w : SubWeek D) : WithBot Int :=
  (endOf ck w).bind (effectiveStart ck events w)

/-! ## One week -/

theorem startTs_shifted (w : SubWeek D) (r : Roles) : (shifted ck w r).startTs = effStartRaw w r := by
  unfold shifted effStartRaw
  cases r.startShift <;> cases r.endShift <;> rfl

theorem startDate_shifted (w : SubWeek D) (r : Roles) : (shifted ck w r).startDate = w.startDate := by
  unfold shifted
  cases r.startShift <;> cases r.endShift <;> rfl

theorem endTs_shifted (w : SubWeek D) {r : Roles} (h : r.endShift = none) : (shifted ck w r).endTs = w.endTs := by
  unfold shifted
  rw [h]
  cases r.startShift <;> rfl

theorem startTs_segmentsFrom (base : SubWeek D) : ∀ (prev : Moment) (cuts : List Moment),
    (segmentsFrom ck base prev cuts).map SubWeek.startTs = prev.2 :: cuts.map Prod.snd
  | _, [] => rfl
  | prev, cut :: cuts => by
    rw [segmentsFrom, List.map_cons, startTs_segmentsFrom base cut cuts, List.map_cons]
    rfl

theorem startTs_segments (base : SubWeek D) (cuts : List Moment) :
    (segments ck base cuts).map SubWeek.startTs = base.startTs :: cuts.map Prod.snd := by
  cases cuts with
  | nil => rfl
  | cons cut cuts =>
    rw [segments, List.map_cons, startTs_segmentsFrom, List.map_cons]
    rfl

theorem weekSegments_eq (events : List ParsedEvent) {w : SubWeek D} {b : Int} (hb : endOf ck w = some b) :
    weekSegments ck events w =
      (segments ck (shifted ck w (rolesOf b events)) (cutsOf ck events w b), !(cutsOf ck events w b).isEmpty) := by
  unfold endOf at hb
  unfold weekSegments
  rw [hb]

section
variable {ck} {events : List ParsedEvent} (hread : Read ck events)
include hread

theorem cutsOf_spec {w : SubWeek D} {a b : Int} (ha : effectiveStart ck events w b = some a) :
    Inside a ((cutsOf ck events w b).map Prod.fst) b ∧
      (∀ x, x ∈ (cutsOf ck events w b).map Prod.fst ↔ x ∈ cutInstants events b ∧ a < x ∧ x < b) ∧
      ∀ c ∈ cutsOf ck events w b, ck.parseIsoDatetime c.2 = some c.1 := by
  obtain ⟨hin, hmem, hsub⟩ := orderedInPlaceCuts_spec (rolesOf b events).cuts
    ((parse_effStartRaw hread w b).trans ha) b
  have hcuts : (rolesOf b events).cuts.map Prod.fst = cutInstants events b := by
    rw [rolesOf_eq, List.map_map]
    rfl
  rw [hcuts] at hmem
  refine ⟨hin, hmem, fun c hc => ?_⟩
  have hc := hsub c hc
  rw [rolesOf_eq] at hc
  exact read_moments hread hc

theorem cycles_of_week {w : SubWeek D} {a b : Int} (hb : endOf ck w = some b)
    (ha : effectiveStart ck events w b = some a) (hend : ∀ e ∈ events, e.oldDt ≠ b) :
    Cycles ck w a b (cutInstants events b) (weekSegments ck events w).1 := by
  obtain ⟨hin, hmem, hparse⟩ := cutsOf_spec hread ha
  have hshift : (rolesOf b events).endShift = none := by
    rw [rolesOf_eq]
    dsimp only
    rw [Option.map_eq_none_iff, List.find?_eq_none]
    exact fun e he hdec => hend e he (of_decide_eq_true hdec).symm
  have hendOf : endOf ck (shifted ck w (rolesOf b events)) = some b := by
    rw [endOf, endTs_shifted ck w hshift]
    exact hb
  have hstartOf : startOf ck (shifted ck w (rolesOf b events)) = some a := by
    rw [startOf, startTs_shifted, parse_effStartRaw hread, ha]
  rw [weekSegments_eq ck events hb]
  refine cycles_of_spans ck hin hmem (spans_segments ck hendOf hstartOf hparse) (isChain_segments ck _) fun s hs => ?_
  rw [startDate_segments ck _ s hs, startDate_shifted]

theorem synthesized_iff {w : SubWeek D} {a b : Int} (hb : endOf ck w = some b)
    (ha : effectiveStart ck events w b = some a) : (weekSegments ck events w).2 = true ↔ Cut ck events w := by
  obtain ⟨-, hmem, -⟩ := cutsOf_spec hread ha
  rw [weekSegments_eq ck events hb]
  constructor
  · intro h
    cases hc : cutsOf ck events w b with
    | nil => simp [hc] at h
    | cons c cs =>
      have hx := (hmem c.1).1 (by simp [hc])
      exact ⟨a, b, hb, ha, c.1, hx⟩
  · rintro ⟨a', b', hb', ha', x, hx⟩
    obtain rfl := Option.some.inj (hb.symm.trans hb')
    obtain rfl := Option.some.inj (ha.symm.trans ha')
    have hx := (hmem x).2 hx
    cases hc : cutsOf ck events w b with
    | nil => simp [hc] at hx
    | cons c cs => rfl

theorem starts_weekSegments {w : SubWeek D} {a b : Int} (hb : endOf ck w = some b)
    (ha : effectiveStart ck events w b = some a) :
    (weekSegments ck events w).1.map (startKey ck) =
      (a : WithBot Int) :: (cutsOf ck events w b).map fun c => (c.1 : WithBot Int) := by
  obtain ⟨-, -, hparse⟩ := cutsOf_spec hread ha
  have hkey : startKey ck = fun s : SubWeek D => (ck.parseIsoDatetime s.startTs : WithBot Int) := rfl
  have hmap := congrArg (List.map fun s => (ck.parseIsoDatetime s : WithBot Int))
    (startTs_segments ck (shifted ck w (rolesOf b events)) (cutsOf ck events w b))
  rw [List.map_map, List.map_cons, List.map_map, startTs_shifted, parse_effStartRaw hread, ha] at hmap
  rw [weekSegments_eq ck events hb, hkey]
  refine hmap.trans (congrArg _ (List.map_congr_left fun c hc => ?_))
  exact hparse c hc

end

/-! ## All weeks -/

theorem weekSegments_nil (w : SubWeek D) : weekSegments ck [] w = ([w], false) := by
  unfold weekSegments
  cases ck.parseIsoDatetime w.endTs with
  | none => rfl
  | some b => rfl

theorem applyToWeeks_nil (weeks : List (SubWeek D)) : applyToWeeks ck [] weeks = weeks := by
  unfold applyToWeeks
  simp [weekSegments_nil]

theorem apply_eq (accountKey : Option String) (table : List ResetEvent) (weeks : List (SubWeek D)) :
    applyResetEventsToSubweeks ck accountKey table weeks =
      applyToWeeks ck (parsedEvents ck accountKey table) weeks := by
  unfold applyResetEventsToSubweeks
  split
  case isTrue h =>
    have hnil : parsedEvents ck accountKey table = [] := by rw [parsedEvents, h, List.filterMap_nil]
    rw [hnil, applyToWeeks_nil]
  case isFalse =>
    dsimp only
    split
    case isTrue h => rw [h, applyToWeeks_nil]
    case isFalse => rfl

theorem perm_sortedByStart (out : List (SubWeek D)) : (sortedByStart ck out).Perm out := by
  unfold sortedByStart
  split
  · exact List.perm_insertionSort _ out
  · exact List.Perm.refl _

theorem perm_applyToWeeks (events : List ParsedEvent) (weeks : List (SubWeek D)) :
    (applyToWeeks ck events weeks).Perm (weeks.flatMap fun w => (weekSegments ck events w).1) := by
  unfold applyToWeeks
  dsimp only
  split
  · exact perm_sortedByStart ck _
  · exact List.Perm.refl _

theorem ascending_sortedByStart {out : List (SubWeek D)} (h : ∀ s ∈ out, (startOf ck s).isSome) :
    Ascending ck (sortedByStart ck out) := by
  have hall : (out.all fun s => (ck.parseIsoDatetime s.startTs).isSome) = true := List.all_eq_true.2 h
  rw [sortedByStart, if_pos hall]
  have : Std.Total fun s s' : SubWeek D => startKey ck s ≤ startKey ck s' := ⟨fun s s' => le_total _ _⟩
  have : IsTrans (SubWeek D) fun s s' => startKey ck s ≤ startKey ck s' := ⟨fun _ _ _ => le_trans⟩
  exact List.pairwise_insertionSort _ out

section
variable {ck} {events : List ParsedEvent} (hread : Read ck events) {weeks : List (SubWeek D)} (h : Separate ck weeks)
include h

theorem Separate.effective {w : SubWeek D} (hw : w ∈ weeks) (events : List ParsedEvent) :
    ∃ a b, endOf ck w = some b ∧ effectiveStart ck events w b = some a := by
  obtain ⟨u, b, hu, hb, -⟩ := h.reads w hw
  cases hf : events.find? fun e => b = e.newDt ∧ ¬e.isInPlaceCredit with
  | some e => exact ⟨e.effDt, b, hb, by rw [effectiveStart, hf]⟩
  | none =>
    refine ⟨u, b, hb, ?_⟩
    rw [effectiveStart, hf]
    exact hu

include hread

theorem starts_read : ∀ s ∈ weeks.flatMap fun w => (weekSegments ck events w).1, (startOf ck s).isSome := by
  intro s hs
  obtain ⟨w, hw, hs⟩ := List.mem_flatMap.1 hs
  obtain ⟨a, b, hb, ha⟩ := h.effective hw events
  have hkey := List.mem_map_of_mem (f := startKey ck) hs
  rw [starts_weekSegments hread hb ha] at hkey
  cases hstart : startOf ck s with
  | some t => rfl
  | none =>
    have hbot : startKey ck s = ⊥ := hstart
    rw [hbot, List.mem_cons, List.mem_map] at hkey
    rcases hkey with hkey | ⟨c, -, hkey⟩
    · exact absurd hkey.symm (WithBot.coe_ne_bot)
    · exact absurd hkey (WithBot.coe_ne_bot)

theorem starts_uncut (hcut : ∀ w ∈ weeks, ¬Cut ck events w) :
    (weeks.flatMap fun w => (weekSegments ck events w).1).map (startKey ck) = weeks.map (effKey ck events) := by
  rw [List.map_flatMap, List.map_eq_flatMap]
  refine List.flatMap_congr fun w hw => ?_
  obtain ⟨a, b, hb, ha⟩ := h.effective hw events
  have hnil : cutsOf ck events w b = [] := by
    have hno := mt (synthesized_iff hread hb ha).1 (hcut w hw)
    rw [weekSegments_eq ck events hb] at hno
    cases hc : cutsOf ck events w b with
    | nil => rfl
    | cons c cs => simp [hc] at hno
  have hkey : effKey ck events w = (a : WithBot Int) := by
    rw [effKey, hb]
    exact ha
  rw [starts_weekSegments hread hb ha, hnil, hkey, List.map_nil]

theorem ascending_iff : Ascending ck (applyToWeeks ck events weeks) ↔
    (∃ w ∈ weeks, Cut ck events w) ∨ weeks.Pairwise fun w w' => effKey ck events w ≤ effKey ck events w' := by
  have hany : (weeks.any fun w => (weekSegments ck events w).2) = true ↔ ∃ w ∈ weeks, Cut ck events w := by
    rw [List.any_eq_true]
    refine exists_congr fun w => and_congr_right fun hw => ?_
    obtain ⟨a, b, hb, ha⟩ := h.effective hw events
    exact synthesized_iff hread hb ha
  unfold applyToWeeks
  dsimp only
  by_cases hcut : ∃ w ∈ weeks, Cut ck events w
  · rw [if_pos (hany.2 hcut)]
    exact iff_of_true (ascending_sortedByStart ck (starts_read hread h)) (Or.inl hcut)
  · have hnone : ∀ w ∈ weeks, ¬Cut ck events w := fun w hw hc => hcut ⟨w, hw, hc⟩
    rw [if_neg (mt hany.1 hcut), or_iff_right hcut]
    have hstarts := starts_uncut hread h hnone
    unfold Ascending
    rw [← List.pairwise_map (f := startKey ck) (R := (· ≤ ·)), hstarts, List.pairwise_map]

omit hread in
theorem Separate.ascending (hin : ∀ w ∈ weeks, ∃ b a, endOf ck w = some b ∧ effectiveStart ck events w b = some a ∧
    holds ck a w = true) :
    weeks.Pairwise fun w w' => effKey ck events w ≤ effKey ck events w' := by
  refine List.Pairwise.imp_of_mem (fun {w w'} hw hw' hlt => ?_) (h.increasing.and h.disjoint)
  obtain ⟨hlt, hdisj⟩ := hlt
  obtain ⟨u, v, hu, hv, huv⟩ := h.reads w hw
  obtain ⟨u', v', hu', hv', huv'⟩ := h.reads w' hw'
  obtain ⟨b, a, hb, ha, hheld⟩ := hin w hw
  obtain ⟨b', a', hb', ha', hheld'⟩ := hin w' hw'
  have hkey : effKey ck events w = (a : WithBot Int) := by
    rw [effKey, hb]
    exact ha
  have hkey' : effKey ck events w' = (a' : WithBot Int) := by
    rw [effKey, hb']
    exact ha'
  simp only [holds, span, hu, hv, hu', hv', within, decide_eq_true_eq] at hheld hheld' hdisj
  have hwu : startKey ck w = (u : WithBot Int) := hu
  have hwu' : startKey ck w' = (u' : WithBot Int) := hu'
  rw [hwu, hwu', WithBot.coe_lt_coe] at hlt
  rw [hkey, hkey', WithBot.coe_le_coe]
  -- the start of the later week lies past the end of the earlier one
  have hends : ¬u' < v := fun hcross => hdisj u' ⟨⟨le_of_lt hlt, hcross⟩, le_refl _, huv'⟩
  omega

end

theorem fetched_congr (accountKey : Option String) {table table' : List ResetEvent}
    (h : ∀ e, table.filter (fun r => epoch ck r = e) = table'.filter fun r => epoch ck r = e) :
    fetched ck accountKey table = fetched ck accountKey table' := by
  have : Std.Total fun r r' => epoch ck r' ≤ epoch ck r := ⟨fun r r' => le_total _ _⟩
  have : IsTrans ResetEvent fun r r' => epoch ck r' ≤ epoch ck r := ⟨fun _ _ _ hab hbc => le_trans hbc hab⟩
  have hrows : ∀ e, (accountRows accountKey table).filter (fun r => epoch ck r = e) =
      (accountRows accountKey table').filter fun r => epoch ck r = e := by
    intro e
    cases accountKey with
    | none => exact h e
    | some key =>
      simp only [accountRows]
      rw [List.filter_comm, h e, List.filter_comm]
  refine insertionSort_eq (epoch ck) _ (fun r r' => ?_) fun e => ?_
  · rw [le_antisymm_iff, and_comm]
  · rw [List.filter_reverse, List.filter_reverse, hrows e]

/-- **Each week is cut into its billing cycles**: a week whose end no event shifts comes back as one
segment more than it has cut instants, and these tile it from its effective start. The output ascends
when a week is cut, or else when the effective starts do, as they do when each stays in its week. The
rows of different seconds may be stored in any order. -/
theorem cut_into_cycles (accountKey : Option String) (table : List ResetEvent) (weeks : List (SubWeek D))
    (h : Separate ck weeks) :
    let events := parsedEvents ck accountKey table
    let out := applyResetEventsToSubweeks ck accountKey table weeks
    out.Perm (weeks.flatMap fun w => (weekSegments ck events w).1) ∧
      (∀ w ∈ weeks, ∃ a b, endOf ck w = some b ∧ effectiveStart ck events w b = some a ∧
        ((∀ e ∈ events, e.oldDt ≠ b) → Cycles ck w a b (cutInstants events b) (weekSegments ck events w).1)) ∧
      (Ascending ck out ↔ (∃ w ∈ weeks, Cut ck events w) ∨
        weeks.Pairwise fun w w' => effKey ck events w ≤ effKey ck events w') ∧
      ((∀ w ∈ weeks, ∃ b a, endOf ck w = some b ∧ effectiveStart ck events w b = some a ∧ holds ck a w = true) →
        Ascending ck out) ∧
      ∀ table' : List ResetEvent,
        (∀ e, table'.filter (fun r => epoch ck r = e) = table.filter fun r => epoch ck r = e) →
          applyResetEventsToSubweeks ck accountKey table' weeks = out := by
  dsimp only
  have hread := read_parsedEvents ck accountKey table
  have hasc := ascending_iff hread h
  rw [apply_eq]
  refine ⟨perm_applyToWeeks ck _ weeks, fun w hw => ?_, hasc, fun hin => hasc.2 (Or.inr (h.ascending hin)),
    fun table' ht => ?_⟩
  · obtain ⟨a, b, hb, ha⟩ := h.effective hw (parsedEvents ck accountKey table)
    exact ⟨a, b, hb, ha, cycles_of_week hread hb ha⟩
  · rw [apply_eq, parsedEvents, fetched_congr ck accountKey ht]
    rfl

end

def workedTexts : List (String × Int) :=
  [("2026-01-01T00:00:00+00:00", 1767225600000000), ("2026-01-08T00:00:00+00:00", 1767830400000000),
    ("2026-01-09T00:00:00.250000+00:00", 1767916800250000), ("2026-01-09T00:00:00.750000+00:00", 1767916800750000),
    ("2026-01-10T00:00:00+00:00", 1768003200000000), ("2026-01-10T02:00:00+02:00", 1768003200000000),
    ("2026-01-12T00:00:00+00:00", 1768176000000000), ("2026-01-15T00:00:00+00:00", 1768435200000000)]

def workedParse (s : String) : Option Int := (workedTexts.find? fun p => p.1 = s).map Prod.snd

def workedFormat (t : Int) : String := ((workedTexts.find? fun p => p.2 = t).map Prod.fst).getD ""

def workedClock : Clock Int where
  parseIsoDatetime := workedParse
  unixepoch s := (workedParse s).map (· / SECOND)
  date t := t / (86400 * SECOND)
  isoformat := workedFormat
  refuses_empty := by decide
  reads_back := by
    intro s t h
    obtain ⟨p, hp, rfl⟩ := Option.map_eq_some_iff.1 h
    have hall : ∀ p ∈ workedTexts, workedParse (workedFormat p.2) = some p.2 := by decide
    exact hall p (List.mem_of_find?_eq_some hp)

def workedWeek (day : Int) (startTs endTs : String) : SubWeek Int :=
  ⟨startTs, endTs, day, day + 6, .snapshot, day⟩

def workedWeeks : List (SubWeek Int) :=
  [workedWeek 20454 "2026-01-01T00:00:00+00:00" "2026-01-08T00:00:00+00:00",
    workedWeek 20461 "2026-01-08T00:00:00+00:00" "2026-01-15T00:00:00+00:00"]

def workedTable : List ResetEvent :=
  [⟨"a", "2026-01-10T00:00:00+00:00", "2026-01-15T00:00:00+00:00", "2026-01-10T00:00:00+00:00"⟩,
    ⟨"a", "2026-01-12T00:00:00+00:00", "2026-01-15T00:00:00+00:00", "2026-01-12T00:00:00+00:00"⟩,
    ⟨"a", "2026-01-10T02:00:00+02:00", "2026-01-15T00:00:00+00:00", "2026-01-10T02:00:00+02:00"⟩]

theorem separate_worked : Separate workedClock workedWeeks := by
  constructor
  · intro w hw
    simp only [workedWeeks, List.mem_cons, List.not_mem_nil, or_false] at hw
    rcases hw with rfl | rfl
    · exact ⟨1767225600000000, 1767830400000000, by decide, by decide, by decide⟩
    · exact ⟨1767830400000000, 1768435200000000, by decide, by decide, by decide⟩
  · decide
  · have hspans : workedWeeks.map (span workedClock) =
        [(some 1767225600000000, some 1767830400000000), (some 1767830400000000, some 1768435200000000)] := by
      decide
    have hdisj : (workedWeeks.map (span workedClock)).Pairwise fun p q =>
        ∀ t, ¬(within t p = true ∧ within t q = true) := by
      rw [hspans, List.pairwise_pair]
      intro t h
      simp only [within, decide_eq_true_eq] at h
      omega
    exact List.pairwise_map.1 hdisj

theorem cut_into_cycles_worked :
    Separate workedClock workedWeeks ∧
      (applyResetEventsToSubweeks workedClock none workedTable workedWeeks).Perm
        (workedWeeks.flatMap fun w => (weekSegments workedClock (parsedEvents workedClock none workedTable) w).1) ∧
      (applyResetEventsToSubweeks workedClock none workedTable workedWeeks).map SubWeek.startTs =
        ["2026-01-01T00:00:00+00:00", "2026-01-08T00:00:00+00:00", "2026-01-10T02:00:00+02:00",
          "2026-01-12T00:00:00+00:00"] :=
  ⟨separate_worked, (cut_into_cycles workedClock none workedTable workedWeeks separate_worked).1, by decide +kernel⟩

def strayEvent : ResetEvent :=
  ⟨"a", "2026-01-01T00:00:00+00:00", "2026-01-08T00:00:00+00:00", "2026-01-12T00:00:00+00:00"⟩

def tiedEvents : ResetEvent × ResetEvent :=
  (⟨"a", "2026-01-01T00:00:00+00:00", "2026-01-15T00:00:00+00:00", "2026-01-09T00:00:00.250000+00:00"⟩,
    ⟨"a", "2026-01-01T00:00:00+00:00", "2026-01-15T00:00:00+00:00", "2026-01-09T00:00:00.750000+00:00"⟩)

/-- The weeks need not ascend when none is cut, and two instants of one second are
told apart by the order they are stored in. -/
theorem stray_shift_not_ascending :
    Separate workedClock workedWeeks ∧
      ¬Ascending workedClock (applyResetEventsToSubweeks workedClock none [strayEvent] workedWeeks) ∧
      workedParse tiedEvents.1.effectiveResetAtUtc ≠ workedParse tiedEvents.2.effectiveResetAtUtc ∧
      applyResetEventsToSubweeks workedClock none [tiedEvents.1, tiedEvents.2] workedWeeks ≠
        applyResetEventsToSubweeks workedClock none [tiedEvents.2, tiedEvents.1] workedWeeks := by
  refine ⟨separate_worked, ?_, by decide +kernel, by decide +kernel⟩
  unfold Ascending
  decide +kernel

end Cctally.SubWeeks
