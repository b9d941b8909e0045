import Cctally.StaleProofView
import Cctally.Election
import Mathlib.Data.Rat.Floor
import Mathlib.Tactic.Linarith

/-!
# The compact samples prove the same

Of the samples captured before the margin the latest of each value is kept, and
the latest of each value captured at or after the floor. A sample whose request
does not parse counts as requested a nanosecond before the epoch: of its value it
hides those requested earlier, which qualify where it does not. Percentages are
exact rationals here.
-/

namespace Cctally.StaleProof

def rationals : Numbers ℚ ℚ where
  plain _ := true
  float := .ok
  lt a b := decide (a < b)
  eq a b := decide (a = b)
  add a b := a + b
  sub a b := a - b
  tolerance := 1

section
variable {I : Type} [LinearOrder I] (env : Env) (window : PyInt) (floorEpoch : Option Int) (axis : Axis)

def valueOf (s : Sample I ℚ) : ℚ := (rawValue axis s).getD 0

def early (s : Sample I ℚ) : Bool := beforeEpoch env s.capturedAt (window.value - RESET_MARGIN_SECONDS)

def floored (s : Sample I ℚ) : Bool := floorEpoch.all (atOrAfterEpoch env s.capturedAt)

def Latest (samples : List (Sample I ℚ)) (s : Sample I ℚ) : Prop :=
  ∀ t ∈ samples, early env window t = true → valueOf axis t = valueOf axis s → requestKey env t ≤ requestKey env s

def LatestFloored (samples : List (Sample I ℚ)) (s : Sample I ℚ) : Prop :=
  floored env floorEpoch s = true ∧ ∀ t ∈ samples, early env window t = true → valueOf axis t = valueOf axis s →
    floored env floorEpoch t = true → requestKey env t ≤ requestKey env s

def Survives (samples : List (Sample I ℚ)) (s : Sample I ℚ) : Prop :=
  early env window s = false ∨ Latest env window axis samples s ∨ LatestFloored env window floorEpoch axis samples s

end

section
variable {I : Type} [LinearOrder I] {env : Env} {floorEpoch : Option Int} {axis : Axis} {marginNs : Int}

variable (floorEpoch axis marginNs) in
def compactTurn (k : Kept I ℚ ℚ) (e : Entry I ℚ) : Kept I ℚ ℚ :=
  if !capturedBefore marginNs e then { k with keep := k.keep.set e.sample.observationId e }
  else
    let v := valueOf axis e.sample
    let k := { k with latest := k.latest.set v (later (k.latest.get? v) e) }
    if atFloor floorEpoch e then { k with latestFloor := k.latestFloor.set v (later (k.latestFloor.get? v) e) } else k

theorem compactStep_eq {e : Entry I ℚ} (he : (rawValue axis e.sample).isSome = true) (k : Kept I ℚ ℚ) :
    compactStep rationals axis marginNs floorEpoch k e = .ok (compactTurn floorEpoch axis marginNs k e) := by
  obtain ⟨v, hv⟩ := Option.isSome_iff_exists.1 he
  unfold compactStep compactTurn axisValue valueOf
  rw [hv]
  cases capturedBefore marginNs e with
  | false => rfl
  | true =>
    dsimp only
    cases atFloor floorEpoch e <;> rfl

theorem keep_foldl (l : List (Entry I ℚ)) (k : Kept I ℚ ℚ) :
    (l.foldl (compactTurn floorEpoch axis marginNs) k).keep =
      (l.filter fun e => !capturedBefore marginNs e).foldl (fun d e => d.set e.sample.observationId e) k.keep := by
  refine foldl_view (fun k : Kept I ℚ ℚ => k.keep) _ _ (fun k e => ?_) l k
  unfold compactTurn
  cases capturedBefore marginNs e with
  | false => rfl
  | true => cases atFloor floorEpoch e <;> rfl

theorem latest_foldl (v : ℚ) (l : List (Entry I ℚ)) (k : Kept I ℚ ℚ) :
    (l.foldl (compactTurn floorEpoch axis marginNs) k).latest.get? v =
      (l.filter fun e => capturedBefore marginNs e && decide (valueOf axis e.sample = v)).foldl
        (fun o e => some (later o e)) (k.latest.get? v) := by
  refine foldl_view (fun k : Kept I ℚ ℚ => k.latest.get? v) _ _ (fun k e => ?_) l k
  unfold compactTurn
  cases capturedBefore marginNs e with
  | false => rfl
  | true =>
    have hset : (k.latest.set (valueOf axis e.sample) (later (k.latest.get? (valueOf axis e.sample)) e)).get? v =
        if decide (valueOf axis e.sample = v) = true then some (later (k.latest.get? v) e) else k.latest.get? v := by
      rw [Dict.get?_set]
      by_cases hv : valueOf axis e.sample = v
      · rw [if_pos hv, if_pos (by simpa using hv), hv]
      · rw [if_neg hv, if_neg (by simpa using hv)]
    cases atFloor floorEpoch e <;> exact hset

theorem latestFloor_foldl (v : ℚ) (l : List (Entry I ℚ)) (k : Kept I ℚ ℚ) :
    (l.foldl (compactTurn floorEpoch axis marginNs) k).latestFloor.get? v =
      (l.filter fun e => capturedBefore marginNs e && atFloor floorEpoch e && decide (valueOf axis e.sample = v)).foldl
        (fun o e => some (later o e)) (k.latestFloor.get? v) := by
  refine foldl_view (fun k : Kept I ℚ ℚ => k.latestFloor.get? v) _ _ (fun k e => ?_) l k
  unfold compactTurn
  cases capturedBefore marginNs e with
  | false => rfl
  | true =>
    cases atFloor floorEpoch e with
    | false => rfl
    | true =>
      refine (Dict.get?_set _ _ _ _).trans ?_
      by_cases hv : valueOf axis e.sample = v
      · rw [if_pos hv, if_pos (by simpa using hv), hv]
      · rw [if_neg hv, if_neg (by simpa using hv)]

theorem foldl_later (l : List (Entry I ℚ)) :
    l.foldl (fun o e => some (later o e)) none = Least.least (fun e => OrderDual.toDual (orderKey e)) l := by
  refine congrArg (fun f => l.foldl f none) (funext fun o => funext fun e => ?_)
  cases o with
  | none => rfl
  | some p =>
    rw [later, Least.better]
    by_cases hlt : orderKey p < orderKey e
    · rw [if_pos hlt, if_pos (OrderDual.toDual_lt_toDual.2 hlt)]
    · rw [if_neg hlt, if_neg fun h => hlt (OrderDual.toDual_lt_toDual.1 h)]

/-! ## Who is kept -/

omit [LinearOrder I] in
theorem orderKey_inj {ps : List (Entry I ℚ)} (hid : (ps.map fun e => e.sample.observationId).Nodup) :
    ∀ a ∈ ps, ∀ b ∈ ps, OrderDual.toDual (orderKey a) = OrderDual.toDual (orderKey b) → a = b := fun _ ha _ hb hab =>
  List.inj_on_of_nodup_map hid ha hb (congrArg (fun k => (ofLex k).2) (OrderDual.toDual_inj.1 hab))

theorem mem_latest {ps : List (Entry I ℚ)} (hid : (ps.map fun e => e.sample.observationId).Nodup) (q : Entry I ℚ → Bool)
    (e : Entry I ℚ) :
    (∃ v, Least.least (fun e => OrderDual.toDual (orderKey e))
      (ps.filter fun e => q e && decide (valueOf axis e.sample = v)) = some e) ↔
      e ∈ ps ∧ q e = true ∧ ∀ t ∈ ps, q t = true → valueOf axis t.sample = valueOf axis e.sample → orderKey t ≤ orderKey e := by
  have hinj : ∀ v, ∀ a ∈ ps.filter (fun e => q e && decide (valueOf axis e.sample = v)),
      ∀ b ∈ ps.filter (fun e => q e && decide (valueOf axis e.sample = v)),
      OrderDual.toDual (orderKey a) = OrderDual.toDual (orderKey b) → a = b := fun v a ha b hb =>
    orderKey_inj hid a (List.mem_of_mem_filter ha) b (List.mem_of_mem_filter hb)
  constructor
  · rintro ⟨v, hv⟩
    obtain ⟨he, hle⟩ := (Least.least_eq_some (hinj v)).1 hv
    simp only [List.mem_filter, Bool.and_eq_true, decide_eq_true_eq] at he hle
    obtain ⟨he, hq, rfl⟩ := he
    exact ⟨he, hq, fun t ht hqt hvt => OrderDual.toDual_le_toDual.1 (hle t ⟨ht, hqt, hvt⟩)⟩
  · rintro ⟨he, hq, hle⟩
    refine ⟨valueOf axis e.sample, (Least.least_eq_some (hinj _)).2 ⟨?_, fun t ht => ?_⟩⟩
    · simp [he, hq]
    · simp only [List.mem_filter, Bool.and_eq_true, decide_eq_true_eq] at ht
      exact OrderDual.toDual_le_toDual.2 (hle t ht.1 ht.2.1 ht.2.2)

def Chosen (floorEpoch : Option Int) (axis : Axis) (marginNs : Int) (ps : List (Entry I ℚ)) (e : Entry I ℚ) : Prop :=
  capturedBefore marginNs e = false ∨
    (∀ t ∈ ps, capturedBefore marginNs t = true → valueOf axis t.sample = valueOf axis e.sample → orderKey t ≤ orderKey e) ∨
    (atFloor floorEpoch e = true ∧ ∀ t ∈ ps, (capturedBefore marginNs t && atFloor floorEpoch t) = true →
      valueOf axis t.sample = valueOf axis e.sample → orderKey t ≤ orderKey e)

def finalKeep (k : Kept I ℚ ℚ) : Dict I (Entry I ℚ) :=
  (k.latest.values ++ k.latestFloor.values).foldl (fun d e => d.set e.sample.observationId e) k.keep

theorem get?_finalKeep {ps : List (Entry I ℚ)} (hid : (ps.map fun e => e.sample.observationId).Nodup) {i : I} {e : Entry I ℚ} :
    (finalKeep (ps.foldl (compactTurn floorEpoch axis marginNs) ⟨Dict.empty, Dict.empty, Dict.empty⟩)).get? i = some e ↔
      e ∈ ps ∧ Chosen floorEpoch axis marginNs ps e ∧ e.sample.observationId = i := by
  have hlatest : ∀ e, e ∈ (ps.foldl (compactTurn floorEpoch axis marginNs) ⟨Dict.empty, Dict.empty, Dict.empty⟩).latest.values ↔
      e ∈ ps ∧ capturedBefore marginNs e = true ∧ ∀ t ∈ ps, capturedBefore marginNs t = true →
        valueOf axis t.sample = valueOf axis e.sample → orderKey t ≤ orderKey e := by
    intro e
    refine (Dict.mem_values.trans (exists_congr fun v => ?_)).trans (mem_latest hid (capturedBefore marginNs) e)
    rw [latest_foldl, Dict.get?_empty, foldl_later]
  have hfloor : ∀ e, e ∈ (ps.foldl (compactTurn floorEpoch axis marginNs) ⟨Dict.empty, Dict.empty, Dict.empty⟩).latestFloor.values ↔
      e ∈ ps ∧ (capturedBefore marginNs e && atFloor floorEpoch e) = true ∧ ∀ t ∈ ps,
        (capturedBefore marginNs t && atFloor floorEpoch t) = true →
        valueOf axis t.sample = valueOf axis e.sample → orderKey t ≤ orderKey e := by
    intro e
    refine (Dict.mem_values.trans (exists_congr fun v => ?_)).trans
      (mem_latest hid (fun e => capturedBefore marginNs e && atFloor floorEpoch e) e)
    rw [latestFloor_foldl, Dict.get?_empty, foldl_later]
  have hmem : ∀ e, e ∈ (ps.filter fun e => !capturedBefore marginNs e) ++
      ((ps.foldl (compactTurn floorEpoch axis marginNs) ⟨Dict.empty, Dict.empty, Dict.empty⟩).latest.values ++
        (ps.foldl (compactTurn floorEpoch axis marginNs) ⟨Dict.empty, Dict.empty, Dict.empty⟩).latestFloor.values) ↔
      e ∈ ps ∧ Chosen floorEpoch axis marginNs ps e := by
    intro e
    rw [List.mem_append, List.mem_append, hlatest, hfloor, List.mem_filter, Bool.not_eq_true']
    unfold Chosen
    cases hc : capturedBefore marginNs e with
    | false => simp
    | true =>
      rw [Bool.true_and]
      tauto
  unfold finalKeep
  rw [keep_foldl, ← List.foldl_append, Dict.get?_foldl_own (fun e : Entry I ℚ => e.sample.observationId) _ _ ?_]
  · simp only [Dict.get?_empty, reduceCtorEq, and_false, or_false, hmem]
    tauto
  · intro a ha b hb hab
    exact List.inj_on_of_nodup_map hid ((hmem a).1 ha).1 ((hmem b).1 hb).1 hab

end

section
variable {I : Type} {env : Env} {window : PyInt} {floorEpoch : Option Int}

theorem early_eq {ps : List (Entry I ℚ)} (hp : Placed env ps) {e : Entry I ℚ} (he : e ∈ ps) :
    capturedBefore ((window.value - RESET_MARGIN_SECONDS) * NS) e = early env window e.sample := by
  rw [hp.prepared e he]
  exact (beforeEpoch_eq _ _).symm

theorem floored_eq {ps : List (Entry I ℚ)} (hp : Placed env ps) {e : Entry I ℚ} (he : e ∈ ps) :
    atFloor floorEpoch e = floored env floorEpoch e.sample := by
  rw [hp.prepared e he]
  unfold atFloor floored atOrAfterEpoch entryOf
  cases floorEpoch with
  | none => rfl
  | some floor => cases interval env e.sample.capturedAt <;> rfl

theorem key_eq {ps : List (Entry I ℚ)} (hp : Placed env ps) {e : Entry I ℚ} (he : e ∈ ps) :
    orderKey e = requestKey env e.sample := by
  rw [hp.prepared e he]
  rfl

end

section
variable {I : Type} [LinearOrder I] {env : Env} {window : PyInt} {floorEpoch : Option Int} {axis : Axis}

theorem chosen_iff {ps : List (Entry I ℚ)} (hp : Placed env ps) {e : Entry I ℚ} (he : e ∈ ps) :
    Chosen floorEpoch axis ((window.value - RESET_MARGIN_SECONDS) * NS) ps e ↔
      Survives env window floorEpoch axis (ps.map (·.sample)) e.sample := by
  unfold Chosen Survives Latest LatestFloored
  rw [early_eq hp he, floored_eq hp he, key_eq hp he, List.forall_mem_map, List.forall_mem_map]
  refine or_congr_right (or_congr ?_ (and_congr_right' ?_))
  · refine forall₂_congr fun t ht => ?_
    rw [early_eq hp ht, key_eq hp ht]
  · refine forall₂_congr fun t ht => ?_
    rw [early_eq hp ht, floored_eq hp ht, key_eq hp ht, Bool.and_eq_true]
    tauto

theorem nodup_values {d : Dict I (Entry I ℚ)} (h : ∀ i e, d.get? i = some e → e.sample.observationId = i) :
    (d.values.map orderKey).Nodup := by
  have hkeys : d.values.map (fun e => e.sample.observationId) = d.keys := by
    rw [Dict.values, List.map_map]
    exact List.map_congr_left fun p hp => h p.1 p.2 (Dict.get?_eq_some.2 hp)
  have hnodup : (d.values.map fun e => e.sample.observationId).Nodup := hkeys ▸ d.nodup
  refine List.Nodup.of_map (fun k => (ofLex k).2) ?_
  rw [List.map_map]
  exact hnodup

/-- **What compacting keeps**, in the order of the requests. -/
theorem compacted_spec {ps : List (Entry I ℚ)} (hp : Placed env ps)
    (hvalue : ∀ e ∈ ps, (rawValue axis e.sample).isSome = true) (hid : (ps.map fun e => e.sample.observationId).Nodup) :
    ∃ kept, compacted rationals ps window floorEpoch axis = .ok kept ∧
      (∀ s, s ∈ kept ↔ s ∈ ps.map (·.sample) ∧ Survives env window floorEpoch axis (ps.map (·.sample)) s) ∧
      kept.Pairwise fun a b => requestKey env a < requestKey env b := by
  have hfold : ps.foldlM (compactStep rationals axis ((window.value - RESET_MARGIN_SECONDS) * NS) floorEpoch)
      ⟨Dict.empty, Dict.empty, Dict.empty⟩ = .ok (ps.foldl (compactTurn floorEpoch axis
        ((window.value - RESET_MARGIN_SECONDS) * NS)) ⟨Dict.empty, Dict.empty, Dict.empty⟩) :=
    Except.foldlM_pure fun e he k => compactStep_eq (hvalue e he) k
  unfold compacted
  dsimp only
  rw [hfold]
  refine ⟨_, rfl, fun s => ?_, ?_⟩
  · rw [List.mem_map, List.mem_map]
    constructor
    · rintro ⟨e, he, rfl⟩
      obtain ⟨i, hi⟩ := Dict.mem_values.1 ((List.perm_insertionSort _ _).mem_iff.1 he)
      obtain ⟨he, hchosen, -⟩ := (get?_finalKeep hid).1 hi
      exact ⟨⟨e, he, rfl⟩, (chosen_iff hp he).1 hchosen⟩
    · rintro ⟨⟨e, he, rfl⟩, hsurvives⟩
      refine ⟨e, (List.perm_insertionSort _ _).mem_iff.2 (Dict.mem_values.2 ⟨e.sample.observationId, ?_⟩), rfl⟩
      exact (get?_finalKeep hid).2 ⟨he, (chosen_iff hp he).2 hsurvives, rfl⟩
  · rw [List.pairwise_map]
    have hown : ∀ i e, (finalKeep (ps.foldl (compactTurn floorEpoch axis ((window.value - RESET_MARGIN_SECONDS) * NS))
        ⟨Dict.empty, Dict.empty, Dict.empty⟩)).get? i = some e → e ∈ ps ∧ e.sample.observationId = i := fun i e h =>
      ⟨((get?_finalKeep hid).1 h).1, ((get?_finalKeep hid).1 h).2.2⟩
    have hsorted := Least.pairwise_insertionSort_lt (nodup_values fun i e h => (hown i e h).2)
    refine hsorted.imp_of_mem fun {a b} ha hb hab => ?_
    obtain ⟨i, hi⟩ := Dict.mem_values.1 ((List.perm_insertionSort _ _).mem_iff.1 ha)
    obtain ⟨j, hj⟩ := Dict.mem_values.1 ((List.perm_insertionSort _ _).mem_iff.1 hb)
    rw [← key_eq hp (hown i a hi).1, ← key_eq hp (hown j b hj).1]
    exact hab

end

end Cctally.StaleProof
