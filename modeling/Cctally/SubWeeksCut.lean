import Cctally.Pieces
import Cctally.SubWeeks
import Mathlib.Data.Finset.Card
import Mathlib.Data.List.Chain

/-!
# A credited week is cut into contiguous billing cycles

Each week whose end no event moves is cut at its in-place credits, one segment
more than there are cuts, and the segments tile the week from its effective
start to its end.
-/

namespace Cctally.SubWeeks

open Pieces

section
variable {D : Type} (ck : Clock D)

def cutInstants (events : List ParsedEvent) (endDt : Int) : List Int :=
  (events.filter fun e => endDt = e.newDt ∧ e.isInPlaceCredit).map ParsedEvent.effDt

def effectiveStart (events : List ParsedEvent) (w : SubWeek D) (endDt : Int) : Option Int :=
  match events.find? fun e => endDt = e.newDt ∧ ¬e.isInPlaceCredit with
  | some e => some e.effDt
  | none => ck.parseIsoDatetime w.startTs

def moment (e : ParsedEvent) : Moment := (e.effDt, e.resetAt)

theorem step_eq (b : Int) (r : Roles) (e : ParsedEvent) :
    Roles.step b r e =
      ⟨if b = e.oldDt ∧ r.endShift = none then some (moment e) else r.endShift,
        if (b = e.newDt ∧ ¬e.isInPlaceCredit) ∧ r.startShift = none then some (moment e) else r.startShift,
        if b = e.newDt ∧ e.isInPlaceCredit then r.cuts ++ [moment e] else r.cuts⟩ := by
  unfold Roles.step moment
  by_cases hn : b = e.newDt
  · by_cases hi : e.isInPlaceCredit
    · simp only [hn, hi, if_true, not_true, and_false, false_and, if_false, and_self]
    · by_cases hs : r.startShift = none
      · simp only [hn, hi, hs, if_true, and_false, Bool.false_eq_true, not_false_eq_true, and_self, if_false]
      · simp only [hn, hi, hs, if_true, and_false, Bool.false_eq_true, if_false]
  · simp only [hn, if_false, false_and]

theorem or_find_cons (p : ParsedEvent → Prop) [DecidablePred p] (o : Option Moment) (e : ParsedEvent)
    (events : List ParsedEvent) :
    (if p e ∧ o = none then some (moment e) else o).or ((events.find? fun e => p e).map moment) =
      o.or (((e :: events).find? fun e => p e).map moment) := by
  by_cases hp : p e <;> cases o <;> simp [hp]

theorem foldl_step (b : Int) : ∀ (events : List ParsedEvent) (r : Roles),
    events.foldl (Roles.step b) r =
      ⟨r.endShift.or ((events.find? fun e => b = e.oldDt).map moment),
        r.startShift.or ((events.find? fun e => b = e.newDt ∧ ¬e.isInPlaceCredit).map moment),
        r.cuts ++ (events.filter fun e => b = e.newDt ∧ e.isInPlaceCredit).map moment⟩
  | [], r => by simp
  | e :: events, r => by
    rw [List.foldl_cons, foldl_step b events, step_eq]
    dsimp only
    rw [or_find_cons fun e => b = e.oldDt, or_find_cons fun e => b = e.newDt ∧ ¬e.isInPlaceCredit, List.filter_cons]
    by_cases hc : b = e.newDt ∧ e.isInPlaceCredit
    · rw [if_pos hc, if_pos (decide_eq_true hc), List.map_cons, List.append_assoc, List.singleton_append]
    · rw [if_neg hc, if_neg fun hd => hc (of_decide_eq_true hd)]

theorem rolesOf_eq (b : Int) (events : List ParsedEvent) :
    rolesOf b events =
      ⟨(events.find? fun e => b = e.oldDt).map moment,
        (events.find? fun e => b = e.newDt ∧ ¬e.isInPlaceCredit).map moment,
        (events.filter fun e => b = e.newDt ∧ e.isInPlaceCredit).map moment⟩ := by
  rw [rolesOf, foldl_step]
  simp

def Read (events : List ParsedEvent) : Prop := ∀ e ∈ events, ck.parseIsoDatetime e.resetAt = some e.effDt

theorem read_parsedEvents (accountKey : Option String) (table : List ResetEvent) :
    Read ck (parsedEvents ck accountKey table) := by
  intro e he
  obtain ⟨r, -, hr⟩ := List.mem_filterMap.1 he
  simp only [parsedEvent, Option.bind_eq_bind, Option.bind_eq_some_iff, Option.pure_def,
    Option.some.injEq] at hr
  obtain ⟨_, -, _, -, eff, heff, rfl⟩ := hr
  exact heff

section
variable {ck} {events : List ParsedEvent} (hread : Read ck events)
include hread

theorem read_moments {p : ParsedEvent → Bool} {c : Moment} (hc : c ∈ (events.filter p).map moment) :
    ck.parseIsoDatetime c.2 = some c.1 := by
  obtain ⟨e, he, rfl⟩ := List.mem_map.1 hc
  exact hread e (List.mem_filter.1 he).1

theorem parse_effStartRaw (w : SubWeek D) (b : Int) :
    ck.parseIsoDatetime (effStartRaw w (rolesOf b events)) = effectiveStart ck events w b := by
  rw [rolesOf_eq, effStartRaw, effectiveStart]
  cases hf : events.find? fun e => b = e.newDt ∧ ¬e.isInPlaceCredit with
  | none => rfl
  | some e => exact hread e (List.mem_of_find?_eq_some hf)

end

section
variable (s : Option Int) (b : Int)

theorem keepCuts_sublist : ∀ (seen : List Int) (cuts : List Moment), (keepCuts s b seen cuts).Sublist cuts
  | _, [] => List.Sublist.refl _
  | seen, (c, raw) :: cuts => by
    unfold keepCuts
    split
    · exact (keepCuts_sublist seen cuts).cons _
    split
    · exact (keepCuts_sublist seen cuts).cons _
    split
    · exact (keepCuts_sublist seen cuts).cons _
    · exact (keepCuts_sublist (c :: seen) cuts).cons_cons _

theorem mem_keepCuts (x : Int) : ∀ (seen : List Int) (cuts : List Moment),
    x ∈ (keepCuts s b seen cuts).map Prod.fst ↔ x ∈ cuts.map Prod.fst ∧ x ∉ seen ∧ x < b ∧ ∀ a ∈ s, a < x
  | _, [] => by simp [keepCuts]
  | seen, (c, raw) :: cuts => by
    unfold keepCuts
    by_cases hseen : c ∈ seen
    · rw [if_pos hseen, mem_keepCuts x seen cuts, List.map_cons, List.mem_cons]
      refine ⟨fun ⟨hx, h⟩ => ⟨Or.inr hx, h⟩, fun ⟨hx, hns, h⟩ => ⟨hx.resolve_left ?_, hns, h⟩⟩
      rintro rfl
      exact hns hseen
    by_cases hb : b ≤ c
    · rw [if_neg hseen, if_pos hb, mem_keepCuts x seen cuts, List.map_cons, List.mem_cons]
      refine ⟨fun ⟨hx, h⟩ => ⟨Or.inr hx, h⟩, fun ⟨hx, hns, hlt, h⟩ => ⟨hx.resolve_left ?_, hns, hlt, h⟩⟩
      rintro rfl
      exact not_lt.2 hb hlt
    by_cases hs : ∃ a ∈ s, c ≤ a
    · rw [if_neg hseen, if_neg hb, if_pos hs, mem_keepCuts x seen cuts, List.map_cons, List.mem_cons]
      refine ⟨fun ⟨hx, h⟩ => ⟨Or.inr hx, h⟩, fun ⟨hx, hns, hlt, h⟩ => ⟨hx.resolve_left ?_, hns, hlt, h⟩⟩
      rintro rfl
      obtain ⟨a, ha, hle⟩ := hs
      exact not_lt.2 hle (h a ha)
    · have hgt : ∀ a ∈ s, c < a → False := fun a ha hlt => hs ⟨a, ha, le_of_lt hlt⟩
      have hfree : ∀ a ∈ s, a < c := fun a ha => not_le.1 fun hle => hs ⟨a, ha, hle⟩
      rw [if_neg hseen, if_neg hb, if_neg hs, List.map_cons, List.mem_cons, mem_keepCuts x (c :: seen) cuts,
        List.map_cons, List.mem_cons, List.mem_cons]
      by_cases hx : x = c
      · subst hx
        simp only [true_or, true_and, true_iff]
        exact ⟨hseen, not_le.1 hb, hfree⟩
      · simp only [hx, false_or]

theorem nodup_keepCuts : ∀ (seen : List Int) (cuts : List Moment), ((keepCuts s b seen cuts).map Prod.fst).Nodup
  | _, [] => List.nodup_nil
  | seen, (c, raw) :: cuts => by
    unfold keepCuts
    split
    · exact nodup_keepCuts seen cuts
    split
    · exact nodup_keepCuts seen cuts
    split
    · exact nodup_keepCuts seen cuts
    · rw [List.map_cons, List.nodup_cons]
      refine ⟨fun hc => ?_, nodup_keepCuts (c :: seen) cuts⟩
      exact ((mem_keepCuts s b c (c :: seen) cuts).1 hc).2.1 List.mem_cons_self

end

variable {ck} in
theorem orderedInPlaceCuts_spec (cuts : List Moment) {text : String} {a : Int}
    (ha : ck.parseIsoDatetime text = some a) (b : Int) :
    Inside a ((orderedInPlaceCuts ck cuts text b).map Prod.fst) b ∧
      (∀ x, x ∈ (orderedInPlaceCuts ck cuts text b).map Prod.fst ↔ x ∈ cuts.map Prod.fst ∧ a < x ∧ x < b) ∧
      ∀ c ∈ orderedInPlaceCuts ck cuts text b, c ∈ cuts := by
  have htext : text ≠ "" := by
    rintro rfl
    rw [ck.refuses_empty] at ha
    cases ha
  have hperm : ((cuts.insertionSort fun c c' => c.1 ≤ c'.1).map Prod.fst).Perm (cuts.map Prod.fst) :=
    (List.perm_insertionSort _ cuts).map Prod.fst
  have hmem : ∀ x, x ∈ (orderedInPlaceCuts ck cuts text b).map Prod.fst ↔
      x ∈ cuts.map Prod.fst ∧ a < x ∧ x < b := by
    intro x
    unfold orderedInPlaceCuts
    rw [mem_keepCuts, if_neg htext, ha, hperm.mem_iff]
    simp only [List.not_mem_nil, not_false_eq_true, true_and, Option.mem_some_iff, forall_eq']
    exact and_congr_right fun _ => and_comm
  have hsub : (orderedInPlaceCuts ck cuts text b).Sublist (cuts.insertionSort fun c c' => c.1 ≤ c'.1) :=
    keepCuts_sublist _ b [] _
  have hsorted : (cuts.insertionSort fun c c' => c.1 ≤ c'.1).Pairwise fun c c' => c.1 ≤ c'.1 :=
    have : Std.Total fun c c' : Moment => c.1 ≤ c'.1 := ⟨fun c c' => le_total c.1 c'.1⟩
    have : IsTrans Moment fun c c' => c.1 ≤ c'.1 := ⟨fun _ _ _ => le_trans⟩
    List.pairwise_insertionSort _ cuts
  have hle : ((orderedInPlaceCuts ck cuts text b).map Prod.fst).Pairwise (· ≤ ·) :=
    List.pairwise_map.2 (hsorted.sublist hsub)
  have hnodup : ((orderedInPlaceCuts ck cuts text b).map Prod.fst).Nodup := nodup_keepCuts _ b [] _
  refine ⟨⟨List.pairwise_cons.2 ⟨fun x hx => ((hmem x).1 hx).2.1, ?_⟩, fun x hx => ((hmem x).1 hx).2.2⟩, hmem,
    fun c hc => (List.mem_insertionSort _).1 (hsub.subset hc)⟩
  exact hle.imp₂ (fun x y hxy hne => lt_of_le_of_ne hxy hne) hnodup

/-! ## The segments of one week -/

def startOf (w : SubWeek D) : Option Int := ck.parseIsoDatetime w.startTs

def endOf (w : SubWeek D) : Option Int := ck.parseIsoDatetime w.endTs

def span (w : SubWeek D) : Option Int × Option Int := (startOf ck w, endOf ck w)

def within (t : Int) : Option Int × Option Int → Bool
  | (some a, some b) => a ≤ t ∧ t < b
  | _ => false

def holds (t : Int) (w : SubWeek D) : Bool := within t (span ck w)

/-- The billing cycles of the week `w` between `a` and `b`, cut at the instants between them. -/
structure Cycles (w : SubWeek D) (a b : Int) (instants : List Int) (segs : List (SubWeek D)) : Prop where
  count : segs.length = (instants.filter fun c => a < c ∧ c < b).toFinset.card + 1
  first : segs.head?.bind (startOf ck) = some a
  last : segs.getLast?.bind (endOf ck) = some b
  contiguous : segs.IsChain fun s s' => s.endTs = s'.startTs
  tile : ∀ t, segs.countP (holds ck t) = if a ≤ t ∧ t < b then 1 else 0
  keys : (segs.map (SubWeek.segmentKey ck)).Nodup
  startDate : ∀ s ∈ segs, s.startDate = w.startDate

section
variable {base : SubWeek D}

theorem startDate_segmentsFrom : ∀ (prev : Moment) (cuts : List Moment),
    ∀ s ∈ segmentsFrom ck base prev cuts, s.startDate = base.startDate
  | prev, [], s, hs => by rw [List.mem_singleton.1 hs]; rfl
  | prev, cut :: cuts, s, hs => by
    rcases List.mem_cons.1 hs with rfl | hs
    · rfl
    · exact startDate_segmentsFrom cut cuts s hs

theorem startDate_segments (cuts : List Moment) : ∀ s ∈ segments ck base cuts, s.startDate = base.startDate := by
  intro s hs
  cases cuts with
  | nil => rw [List.mem_singleton.1 hs]
  | cons cut cuts =>
    rcases List.mem_cons.1 hs with rfl | hs
    · rfl
    · exact startDate_segmentsFrom ck cut cuts s hs

theorem isChain_segmentsFrom (base : SubWeek D) : ∀ (prev : Moment) (cuts : List Moment),
    (segmentsFrom ck base prev cuts).IsChain (fun s s' => s.endTs = s'.startTs) ∧
      ∀ s ∈ (segmentsFrom ck base prev cuts).head?, s.startTs = prev.2
  | prev, [] => ⟨List.IsChain.singleton _, fun s hs => by rw [← Option.some.inj hs]; rfl⟩
  | prev, cut :: cuts => by
    obtain ⟨hchain, hhead⟩ := isChain_segmentsFrom base cut cuts
    exact ⟨List.isChain_cons.2 ⟨fun s hs => (hhead s hs).symm, hchain⟩,
      fun s hs => by rw [← Option.some.inj hs]; rfl⟩

theorem isChain_segments (cuts : List Moment) :
    (segments ck base cuts).IsChain fun s s' => s.endTs = s'.startTs := by
  cases cuts with
  | nil => exact List.IsChain.singleton _
  | cons cut cuts =>
    obtain ⟨hchain, hhead⟩ := isChain_segmentsFrom ck base cut cuts
    exact List.isChain_cons.2 ⟨fun s hs => (hhead s hs).symm, hchain⟩

variable {b : Int} (hb : endOf ck base = some b)
include hb

theorem spans_segmentsFrom : ∀ (prev : Moment) (cuts : List Moment),
    ck.parseIsoDatetime prev.2 = some prev.1 → (∀ c ∈ cuts, ck.parseIsoDatetime c.2 = some c.1) →
      (segmentsFrom ck base prev cuts).map (span ck) =
        (pieces prev.1 (cuts.map Prod.fst) b).map fun p => (some p.1, some p.2)
  | prev, [], hprev, _ => by
    have hspan : span ck (openedAt ck base prev) = (some prev.1, some b) := Prod.ext hprev hb
    simp only [segmentsFrom, pieces, List.map_cons, List.map_nil, hspan]
  | prev, cut :: cuts, hprev, hcuts => by
    have hcut := hcuts cut List.mem_cons_self
    have hspan : span ck (closedAt ck (openedAt ck base prev) cut) = (some prev.1, some cut.1) := Prod.ext hprev hcut
    rw [segmentsFrom, List.map_cons, List.map_cons, pieces, List.map_cons, hspan,
      spans_segmentsFrom cut cuts hcut fun c hc => hcuts c (List.mem_cons_of_mem cut hc)]

theorem spans_segments {a : Int} (ha : startOf ck base = some a) {cuts : List Moment}
    (hcuts : ∀ c ∈ cuts, ck.parseIsoDatetime c.2 = some c.1) :
    (segments ck base cuts).map (span ck) =
      (pieces a (cuts.map Prod.fst) b).map fun p => (some p.1, some p.2) := by
  cases cuts with
  | nil =>
    have hspan : span ck base = (some a, some b) := Prod.ext ha hb
    simp only [segments, pieces, List.map_cons, List.map_nil, hspan]
  | cons cut cuts =>
    have hcut := hcuts cut List.mem_cons_self
    have hspan : span ck (closedAt ck base cut) = (some a, some cut.1) := Prod.ext ha hcut
    rw [segments, List.map_cons, List.map_cons, pieces, List.map_cons, hspan,
      spans_segmentsFrom ck hb cut cuts hcut fun c hc => hcuts c (List.mem_cons_of_mem cut hc)]

end

theorem cycles_of_spans {w : SubWeek D} {a b : Int} {instants cs : List Int} {segs : List (SubWeek D)}
    (hin : Inside a cs b) (hmem : ∀ x, x ∈ cs ↔ x ∈ instants ∧ a < x ∧ x < b)
    (hspans : segs.map (span ck) = (pieces a cs b).map fun p => (some p.1, some p.2))
    (hchain : segs.IsChain fun s s' => s.endTs = s'.startTs) (hdate : ∀ s ∈ segs, s.startDate = w.startDate) :
    Cycles ck w a b instants segs := by
  have hstarts : segs.map (startOf ck) = (a :: cs).map some := by
    have h := congrArg (List.map Prod.fst) hspans
    rw [List.map_map, List.map_map] at h
    rw [← map_fst_pieces a cs b, List.map_map]
    exact h
  have hnodup : (a :: cs).Nodup := hin.1.imp ne_of_lt
  constructor
  case count =>
    have hlen := congrArg List.length hspans
    have hset : (instants.filter fun c => a < c ∧ c < b).toFinset = cs.toFinset := by
      ext x
      simp only [List.mem_toFinset, List.mem_filter, decide_eq_true_eq, hmem x]
    rw [List.length_map, List.length_map, length_pieces] at hlen
    rw [hlen, hset, List.toFinset_card_of_nodup (List.nodup_cons.1 hnodup).2]
  case first =>
    have h := congrArg List.head? hstarts
    cases segs with
    | nil => simp at h
    | cons s segs => simpa using h
  case last =>
    have hlast := congrArg (fun l => l.getLast?.bind Prod.snd) hspans
    simp only [List.getLast?_map, Option.bind_map] at hlast
    have hpieces : (pieces a cs b).getLast?.bind (fun p => some p.2) = some b := getLast_pieces a cs b
    exact hlast.trans hpieces
  case contiguous => exact hchain
  case tile =>
    intro t
    have hholds : segs.countP (holds ck t) = (segs.map (span ck)).countP (within t) := by
      rw [List.countP_map]
      rfl
    rw [hholds, hspans, List.countP_map]
    exact countP_pieces t a cs b hin
  case keys =>
    have hkeys : segs.map (SubWeek.segmentKey ck) = (segs.map (startOf ck)).map (Option.map ck.isoformat) := by
      rw [List.map_map]
      rfl
    rw [hkeys, hstarts, List.map_map]
    refine List.Nodup.map_on (fun x hx y hy hxy => ?_) hnodup
    have hread : ∀ z ∈ a :: cs, ck.parseIsoDatetime (ck.isoformat z) = some z := by
      intro z hz
      have hzs : some z ∈ segs.map (startOf ck) := hstarts ▸ List.mem_map_of_mem hz
      obtain ⟨s, -, hs⟩ := List.mem_map.1 hzs
      exact ck.reads_back _ z hs
    have hiso : ck.isoformat x = ck.isoformat y := Option.some.inj hxy
    have heq := hread x hx
    rw [hiso, hread y hy] at heq
    exact (Option.some.inj heq).symm
  case startDate => exact hdate

end

end Cctally.SubWeeks
