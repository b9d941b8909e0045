import Cctally.JournalSound

/-!
# The candidates of a pass

The candidates the winners are selected from are the `evt` records and the
first-seen actions of the completed batches. They are visited events first, in
list order, then batch by batch in the order of the batch ids.
-/

namespace Cctally

open Json (field)

/-! ## What an entry reads as -/

section
variable {rt : Runtime} {entry : Json} {n : Nat}

theorem readEntry_inv {r : Reading} (h : readEntry rt entry n = .ok r) :
    r = .skip ∨ ∃ record, entry = .obj record ∧
      ((∃ c, field record "t" = .str "evt" ∧ candidateFromEvt rt record n = .ok c ∧ r = .evt c) ∨
       (∃ res, field record "t" = .str "op" ∧ isProtocolResolution entry = true ∧
          validateProtocolResolution rt record = .ok res ∧ r = .resolution res) ∨
       (∃ b ph core, field record "t" = .str "correction_batch" ∧
          validateBatchMarker rt record = .ok (b, ph, core) ∧
          r = .marker b ph core (sha256Canonical rt entry)
            (sha256Canonical rt (.obj (Json.without record ["phase"])))) ∨
       (∃ c, field record "t" = .str "correction" ∧ validateCorrectionRecord record = .ok c ∧
          r = .action c (sha256Canonical rt entry))) := by
  unfold readEntry at h
  split at h
  · rename_i record
    split at h
    · rename_i ht
      obtain ⟨c, hc, rfl⟩ := Except.map_eq_ok.mp h
      exact Or.inr ⟨record, rfl, Or.inl ⟨c, ht, hc, rfl⟩⟩
    · rename_i ht
      split at h
      · rw [Except.ite_throw_eq_ok] at h
        obtain ⟨-, h⟩ := h
        split at h
        · rename_i hp
          obtain ⟨res, hres, rfl⟩ := Except.map_eq_ok.mp h
          exact Or.inr ⟨record, rfl, Or.inr (Or.inl ⟨res, ht, hp, hres, rfl⟩)⟩
        · exact Or.inl (Except.pure_eq_ok.mp h)
      · exact Or.inl (Except.pure_eq_ok.mp h)
    · rename_i ht
      obtain ⟨⟨b, ph, core⟩, hm, h⟩ := Except.bind_eq_ok.mp h
      exact Or.inr ⟨record, rfl, Or.inr (Or.inr (Or.inl ⟨b, ph, core, ht, hm, Except.pure_eq_ok.mp h⟩))⟩
    · rename_i ht
      obtain ⟨c, hc, h⟩ := Except.bind_eq_ok.mp h
      exact Or.inr ⟨record, rfl, Or.inr (Or.inr (Or.inr ⟨c, ht, hc, Except.pure_eq_ok.mp h⟩))⟩
    · exact Or.inl (Except.pure_eq_ok.mp h)
  · exact Or.inl (Except.pure_eq_ok.mp h)

theorem readEntry_evt {c : EffectiveEvent} : readEntry rt entry n = .ok (.evt c) ↔
    ∃ record, entry = .obj record ∧ field record "t" = .str "evt" ∧ candidateFromEvt rt record n = .ok c := by
  constructor
  · intro h
    rcases readEntry_inv h with h | ⟨record, he, ⟨c', ht, hc, h⟩ | ⟨_, _, _, _, h⟩ | ⟨_, _, _, _, _, h⟩ | ⟨_, _, _, h⟩⟩
    · cases h
    · cases h; exact ⟨record, he, ht, hc⟩
    · cases h
    · cases h
    · cases h
  · rintro ⟨record, rfl, ht, hc⟩
    simp only [readEntry, ht, hc]
    rfl

theorem readEntry_action {c : Correction} {digest : String} : readEntry rt entry n = .ok (.action c digest) ↔
    ∃ record, entry = .obj record ∧ field record "t" = .str "correction" ∧
      validateCorrectionRecord record = .ok c ∧ digest = sha256Canonical rt entry := by
  constructor
  · intro h
    rcases readEntry_inv h with h | ⟨record, he, ⟨_, _, _, h⟩ | ⟨_, _, _, _, h⟩ | ⟨_, _, _, _, _, h⟩ | ⟨c', ht, hc, h⟩⟩
    · cases h
    · cases h
    · cases h
    · cases h
    · cases h; exact ⟨record, he, ht, hc, rfl⟩
  · rintro ⟨record, rfl, ht, hc, rfl⟩
    simp only [readEntry, ht, hc]
    rfl

theorem candidateFromEvt_fields {record : Json.Fields} {c : EffectiveEvent}
    (h : candidateFromEvt rt record n = .ok c) :
    c.rev = 0 ∧ c.status = .active ∧ c.batchId = none ∧ c.record = some (.obj record) ∧ c.sequence = some n := by
  unfold candidateFromEvt at h
  obtain ⟨id, -, h⟩ := Except.bind_eq_ok.mp h
  obtain ⟨rev, -, h⟩ := Except.bind_eq_ok.mp h
  simp only [Except.guard_eq_ok, not_not] at h
  obtain ⟨hrev, -, h⟩ := h
  rw [Except.pure_eq_ok.mp h]
  exact ⟨hrev, rfl, rfl, rfl, rfl⟩

@[simp] theorem candidateFromCorrection_eventId (c : Correction) :
    (candidateFromCorrection rt c n).eventId = c.core.id := by
  unfold candidateFromCorrection; split <;> rfl

@[simp] theorem candidateFromCorrection_rev (c : Correction) :
    (candidateFromCorrection rt c n).rev = c.core.rev := by
  unfold candidateFromCorrection; split <;> rfl

@[simp] theorem candidateFromCorrection_batchId (c : Correction) :
    (candidateFromCorrection rt c n).batchId = some c.batch := by
  unfold candidateFromCorrection; split <;> rfl

@[simp] theorem candidateFromCorrection_sequence (c : Correction) :
    (candidateFromCorrection rt c n).sequence = some n := by
  unfold candidateFromCorrection; split <;> rfl

end

section
variable {rt : Runtime}

def Reading.actionAt (rs : List Reading) (n : Nat) (c : Correction) : Prop :=
  ∃ digest, rs[n]? = some (.action c digest)

def Reading.firstActionAt (rs : List Reading) (n : Nat) (c : Correction) : Prop :=
  Reading.actionAt rs n c ∧ ∀ m < n, ∀ d, Reading.actionAt rs m d → ¬ (d.batch = c.batch ∧ d.seq = c.seq)

theorem firstAction_eq_some {b : String} {k : Nat} : ∀ {rs : List Reading} {s : Nat} {a : BatchAction},
    firstAction b k s rs = some a ↔ ∃ i c digest, rs[i]? = some (.action c digest) ∧ c.batch = b ∧ c.seq = k ∧
      a = ⟨some c, digest, s + i⟩ ∧ ∀ j < i, ∀ d, Reading.actionAt rs j d → ¬ (d.batch = b ∧ d.seq = k)
  | [], s, a => by simp [firstAction]
  | r :: rs, s, a => by
    rw [firstAction, Option.or_eq_some_iff]
    refine ⟨fun h => ?_, fun h => ?_⟩
    · rcases h with h | ⟨hn, h⟩
      · cases r with
        | action c digest =>
          simp only [Reading.action?, Option.ite_none_right_eq_some, Option.some.injEq] at h
          obtain ⟨⟨hb, hk⟩, rfl⟩ := h
          exact ⟨0, c, digest, rfl, hb, hk, rfl, fun j hj => absurd hj (Nat.not_lt_zero j)⟩
        | _ => cases h
      · obtain ⟨i, c, digest, hi, hb, hk, rfl, hfirst⟩ := firstAction_eq_some.mp h
        refine ⟨i + 1, c, digest, hi, hb, hk, by rw [show s + (i + 1) = s + 1 + i by omega], ?_⟩
        intro j hj d hd
        cases j with
        | zero =>
          obtain ⟨digest', hd⟩ := hd
          obtain rfl : r = .action d digest' := Option.some.inj hd
          intro hbk
          simp [Reading.action?, hbk] at hn
        | succ j => exact hfirst j (by omega) d hd
    · obtain ⟨i, c, digest, hi, hb, hk, rfl, hfirst⟩ := h
      cases i with
      | zero =>
        obtain rfl : r = .action c digest := Option.some.inj hi
        exact Or.inl (by simp [Reading.action?, hb, hk])
      | succ i =>
        have hn : r.action? s b k = none := by
          cases r with
          | action d digest' =>
            have := hfirst 0 (Nat.succ_pos i) d ⟨digest', rfl⟩
            simp [Reading.action?, this]
          | _ => rfl
        refine Or.inr ⟨hn, firstAction_eq_some.mpr ⟨i, c, digest, hi, hb, hk, ?_, ?_⟩⟩
        · rw [show s + (i + 1) = s + 1 + i by omega]
        · intro j hj d hd
          exact hfirst (j + 1) (by omega) d hd

theorem phaseOne_action {rs : List Reading} (b : String) (k : Nat) :
    (phaseOne rt rs).action b k = firstAction b k 0 rs := by
  rw [phaseOne, action_applyAll, show SelectorFold.empty.action b k = none from rfl, Option.none_or]

theorem phaseOne_marker {rs : List Reading} (b : String) (ph : Phase) :
    (phaseOne rt rs).marker b ph = firstMarker b ph 0 rs := by
  rw [phaseOne, marker_applyAll, show SelectorFold.empty.marker b ph = none from rfl, Option.none_or]

theorem phaseOne_action_eq_some {rs : List Reading} {b : String} {k : Nat} {a : BatchAction} :
    (phaseOne rt rs).action b k = some a ↔ ∃ c, a.normalized = some c ∧ c.batch = b ∧ c.seq = k ∧
      rs[a.sequence]? = some (.action c a.digest) ∧ Reading.firstActionAt rs a.sequence c := by
  rw [phaseOne_action, firstAction_eq_some]
  refine ⟨fun h => ?_, fun h => ?_⟩
  · obtain ⟨i, c, digest, hi, rfl, rfl, rfl, hfirst⟩ := h
    rw [Nat.zero_add]
    exact ⟨c, rfl, rfl, rfl, hi, ⟨digest, hi⟩, hfirst⟩
  · obtain ⟨c, hc, rfl, rfl, hi, -, hfirst⟩ := h
    refine ⟨a.sequence, c, a.digest, hi, rfl, rfl, ?_, hfirst⟩
    rw [Nat.zero_add, ← hc]

end

/-! ## Completed batches -/

section
variable {rt : Runtime} {fold : SelectorFold} {b : String}

variable (rt fold b) in
structure Complete (bg cm : Marker) (count : Nat) : Prop where
  begin_ : fold.marker b .begin = some bg
  commit : fold.marker b .commit = some cm
  untainted : b ∉ fold.taintedBatches
  actionCount : bg.core.actionCount = some count
  identity : bg.identity = cm.identity
  ordered : bg.sequence < cm.sequence
  present : sortedSet (fold.actions.sub b).keys = List.range count
  sorted : ((orderedActions (fold.actions.sub b) count).map (·.sequence)).Pairwise (· ≤ ·)
  between : ∀ a ∈ orderedActions (fold.actions.sub b) count, bg.sequence < a.sequence ∧ a.sequence < cm.sequence
  hash : ∃ corrections, (orderedActions (fold.actions.sub b) count).mapM readCore = .ok corrections ∧
    bg.core.actionsHash = some (sha256Canonical rt (.arr (corrections.map fun c => correctionActionCore c.core)))

theorem markerViolations_eq_nil {bg cm : Marker} :
    markerViolations rt b bg cm = [] ↔ bg.identity = cm.identity ∧ bg.sequence < cm.sequence := by
  unfold markerViolations
  by_cases hi : bg.identity = cm.identity
  · by_cases hs : bg.sequence < cm.sequence
    · simp [hi, hs]
    · simp [hi, hs]
  · simp [hi]

theorem actionOrderViolations_eq_nil {bg cm : Marker} {sequences : List Nat} :
    actionOrderViolations rt b bg cm sequences = [] ↔
      sequences.Pairwise (· ≤ ·) ∧ ∀ s ∈ sequences, bg.sequence < s ∧ s < cm.sequence := by
  unfold actionOrderViolations
  split
  · rename_i h; simp only [h, true_and, true_iff]; exact h.2
  · rename_i h; simp only [h, reduceCtorEq]

theorem complete_of_log {log : TaintLog} (hlog : batchViolations rt b (fold.marker b .begin)
    (fold.marker b .commit) (fold.actions.sub b) = .ok log) (hnil : log = []) {bg cm : Marker}
    (hbg : fold.marker b .begin = some bg) (hcm : fold.marker b .commit = some cm) (ht : b ∉ fold.taintedBatches) :
    ∃ count, Complete rt fold b bg cm count := by
  rw [hbg, hcm] at hlog
  obtain ⟨count, hcount, h⟩ := batchViolations_both.mp hlog
  subst hnil
  split at h
  · rename_i hp
    obtain ⟨rest, hrest, h⟩ := h
    obtain ⟨hmark, hnil⟩ := List.append_eq_nil_iff.mp h.symm
    obtain ⟨corrections, expected, hcs, hexp, hr⟩ := completeViolations_eq_ok.mp hrest
    obtain ⟨horder, hhash⟩ := List.append_eq_nil_iff.mp (hr.symm.trans hnil)
    obtain ⟨hi, hs⟩ := markerViolations_eq_nil.mp hmark
    obtain ⟨hsorted, hbetween⟩ := actionOrderViolations_eq_nil.mp horder
    refine ⟨count, hbg, hcm, ht, hcount, hi, hs, hp, hsorted, ?_, corrections, hcs, ?_⟩
    · intro a ha
      exact hbetween _ (List.mem_map_of_mem ha)
    · rw [ite_eq_left_iff] at hhash
      by_contra hne
      have := hhash fun he => hne (by rw [he, hexp])
      cases this
  · simp at h

theorem Complete.batchViolations {bg cm : Marker} {count : Nat} (h : Complete rt fold b bg cm count) :
    batchViolations rt b (fold.marker b .begin) (fold.marker b .commit) (fold.actions.sub b) = .ok [] := by
  rw [h.begin_, h.commit, batchViolations_both]
  obtain ⟨corrections, hcs, hhash⟩ := h.hash
  refine ⟨count, h.actionCount, ?_⟩
  rw [if_pos h.present]
  refine ⟨[], completeViolations_eq_ok.mpr ⟨corrections, _, hcs, hhash, ?_⟩, ?_⟩
  · rw [actionOrderViolations_eq_nil.mpr ⟨h.sorted, ?_⟩, if_pos rfl]
    · rfl
    · intro s hs
      obtain ⟨a, ha, rfl⟩ := List.mem_map.mp hs
      exact h.between a ha
  · rw [markerViolations_eq_nil.mpr ⟨h.identity, h.ordered⟩]; rfl

theorem Complete.completes {bg cm : Marker} {count : Nat} (h : Complete rt fold b bg cm count) :
    fold.completes rt b = true :=
  completes_iff.mpr ⟨⟨bg, h.begin_⟩, ⟨cm, h.commit⟩, h.untainted, log_of_ok h.batchViolations⟩

theorem completes_iff_complete (hlog : batchViolations rt b (fold.marker b .begin) (fold.marker b .commit)
    (fold.actions.sub b) = .ok (fold.log rt b)) :
    fold.completes rt b = true ↔ ∃ bg cm count, Complete rt fold b bg cm count := by
  refine ⟨fun h => ?_, fun h => ?_⟩
  · obtain ⟨⟨bg, hbg⟩, ⟨cm, hcm⟩, ht, hnil⟩ := completes_iff.mp h
    obtain ⟨count, hc⟩ := complete_of_log hlog hnil hbg hcm ht
    exact ⟨bg, cm, count, hc⟩
  · obtain ⟨bg, cm, count, hc⟩ := h
    exact hc.completes

theorem Complete.actionCount_eq {bg cm : Marker} {count : Nat} (h : Complete rt fold b bg cm count) :
    fold.actionCount b = count := by
  rw [SelectorFold.actionCount, h.begin_, Option.bind_some, h.actionCount]; rfl

theorem Complete.action_lt {bg cm : Marker} {count k : Nat} {a : BatchAction}
    (h : Complete rt fold b bg cm count) (ha : fold.action b k = some a) : k < count := by
  have hk : k ∈ sortedSet (fold.actions.sub b).keys := mem_sortedSet.mpr (Dict.mem_keys.mpr ⟨a, ha⟩)
  rw [h.present] at hk
  exact List.mem_range.mp hk

theorem Complete.exists_action {bg cm : Marker} {count k : Nat} (h : Complete rt fold b bg cm count)
    (hk : k < count) : ∃ a, fold.action b k = some a := by
  have : k ∈ sortedSet (fold.actions.sub b).keys := by rw [h.present]; exact List.mem_range.mpr hk
  exact Dict.mem_keys.mp (mem_sortedSet.mp this)

theorem batchCandidates_eq_ok {n : Nat} {cs : List EffectiveEvent}
    (h : fold.batchCandidates rt b n = .ok cs) :
    (∀ c, c ∈ cs ↔ ∃ k < n, ∃ a, fold.action b k = some a ∧ ∃ r, a.normalized = some r ∧
      c = candidateFromCorrection rt r a.sequence) ∧
    cs.map (·.sequence) = (orderedActions (fold.actions.sub b) n).map fun a => some a.sequence := by
  have hread : ∀ {a : BatchAction} {c : EffectiveEvent},
      ((fun r => candidateFromCorrection rt r a.sequence) <$> readCore a) = .ok c ↔
        ∃ r, a.normalized = some r ∧ c = candidateFromCorrection rt r a.sequence := by
    intro a c
    unfold readCore
    cases a.normalized with
    | none => simp [Except.map_eq_ok]
    | some r => simp
  refine ⟨fun c => ?_, Except.map_of_mapM ?_ h⟩
  · rw [Except.mem_of_mapM h]
    refine ⟨fun hc => ?_, fun hc => ?_⟩
    · obtain ⟨a, ha, hc⟩ := hc
      obtain ⟨k, hk, hka⟩ := mem_orderedActions.mp ha
      exact ⟨k, hk, a, hka, hread.mp hc⟩
    · obtain ⟨k, hk, a, hka, hr⟩ := hc
      exact ⟨a, mem_orderedActions.mpr ⟨k, hk, hka⟩, hread.mpr hr⟩
  · intro a c hc
    obtain ⟨r, -, rfl⟩ := hread.mp hc
    exact candidateFromCorrection_sequence r

end

/-! ## The candidates of a whole pass -/

def evtAt (rt : Runtime) (records : List Json) (n : Nat) (c : EffectiveEvent) : Prop :=
  ∃ record, records[n]? = some (.obj record) ∧ field record "t" = .str "evt" ∧
    candidateFromEvt rt record n = .ok c

def correctionAt (records : List Json) (n : Nat) (r : Correction) : Prop :=
  ∃ record, records[n]? = some (.obj record) ∧ field record "t" = .str "correction" ∧
    validateCorrectionRecord record = .ok r

def firstCorrectionAt (records : List Json) (n : Nat) (r : Correction) : Prop :=
  correctionAt records n r ∧ ∀ m < n, ∀ q, correctionAt records m q → ¬ (q.batch = r.batch ∧ q.seq = r.seq)

/-- An `evt` record, or an action of a completed batch, at its list position. -/
def IsCandidate (rt : Runtime) (records : List Json) (completed : Finset String) (c : EffectiveEvent) : Prop :=
  ∃ n, evtAt rt records n c ∨
    ∃ r, firstCorrectionAt records n r ∧ r.batch ∈ completed ∧ c = candidateFromCorrection rt r n

def visitKey (c : EffectiveEvent) : Bool ×ₗ String ×ₗ Nat :=
  toLex (c.batchId.isSome, toLex (c.batchId.getD "", c.sequence.getD 0))

section
variable {rt : Runtime} {records : List Json} {rs : List Reading} {ids : List String} {fold : SelectorFold}

theorem readEntries_getElem_iff (h : readEntries rt records 0 = .ok rs) {n : Nat} {r : Reading} :
    rs[n]? = some r ↔ ∃ entry, records[n]? = some entry ∧ readEntry rt entry n = .ok r := by
  refine ⟨fun hr => ?_, fun hr => ?_⟩
  · have hn : n < records.length := by
      rw [← readEntries_length h]
      exact (List.getElem?_eq_some_iff.mp hr).1
    obtain ⟨r', hr', he⟩ := readEntries_getElem h (List.getElem?_eq_getElem hn)
    obtain rfl := Option.some.inj (hr.symm.trans hr')
    rw [Nat.zero_add] at he
    exact ⟨_, List.getElem?_eq_getElem hn, he⟩
  · obtain ⟨entry, hn, he⟩ := hr
    obtain ⟨r', hr', he'⟩ := readEntries_getElem h hn
    rw [Nat.zero_add] at he'
    rw [hr', Except.ok.inj (he.symm.trans he')]

theorem reading_evt_iff (h : readEntries rt records 0 = .ok rs) {n : Nat} {c : EffectiveEvent} :
    rs[n]? = some (.evt c) ↔ evtAt rt records n c := by
  rw [readEntries_getElem_iff h]
  refine ⟨fun hr => ?_, fun hr => ?_⟩
  · obtain ⟨entry, hn, he⟩ := hr
    obtain ⟨record, rfl, ht, hc⟩ := readEntry_evt.mp he
    exact ⟨record, hn, ht, hc⟩
  · obtain ⟨record, hn, ht, hc⟩ := hr
    exact ⟨_, hn, readEntry_evt.mpr ⟨record, rfl, ht, hc⟩⟩

theorem reading_action_iff (h : readEntries rt records 0 = .ok rs) {n : Nat} {r : Correction} :
    Reading.actionAt rs n r ↔ correctionAt records n r := by
  refine ⟨fun hr => ?_, fun hr => ?_⟩
  · obtain ⟨digest, hr⟩ := hr
    obtain ⟨entry, hn, he⟩ := (readEntries_getElem_iff h).mp hr
    obtain ⟨record, rfl, ht, hc, -⟩ := readEntry_action.mp he
    exact ⟨record, hn, ht, hc⟩
  · obtain ⟨record, hn, ht, hc⟩ := hr
    exact ⟨_, (readEntries_getElem_iff h).mpr ⟨_, hn, readEntry_action.mpr ⟨record, rfl, ht, hc, rfl⟩⟩⟩

theorem reading_firstAction_iff (h : readEntries rt records 0 = .ok rs) {n : Nat} {r : Correction} :
    Reading.firstActionAt rs n r ↔ firstCorrectionAt records n r := by
  simp only [Reading.firstActionAt, firstCorrectionAt, reading_action_iff h]

theorem phaseOne_candidates (rs : List Reading) :
    (phaseOne rt rs).candidates = rs.filterMap Reading.candidate? :=
  candidates_applyAll rs _ 0

theorem evtAt_fields {n : Nat} {c : EffectiveEvent} (h : evtAt rt records n c) :
    c.rev = 0 ∧ c.batchId = none ∧ c.sequence = some n ∧ c.status = .active := by
  obtain ⟨record, -, -, hc⟩ := h
  obtain ⟨hrev, hst, hb, -, hseq⟩ := candidateFromEvt_fields hc
  exact ⟨hrev, hb, hseq, hst⟩

section
variable (hR : Resolved rt (phaseOne rt rs) ids fold)
include hR

theorem Resolved.mem_completed_ids {b : String} :
    b ∈ fold.completed ↔ b ∈ ids ∧ (phaseOne rt rs).completes rt b = true := by
  rw [hR.completed, phaseOne_completed]
  simp

theorem Resolved.mem_candidates {c : EffectiveEvent} : c ∈ fold.candidates ↔
    (∃ n : Nat, rs[n]? = some (Reading.evt c)) ∨ ∃ n r, Reading.firstActionAt rs n r ∧ r.batch ∈ fold.completed ∧
      c = candidateFromCorrection rt r n := by
  rw [hR.candidates, List.mem_append, phaseOne_candidates]
  refine or_congr ?_ ?_
  · rw [List.mem_filterMap]
    refine ⟨fun h => ?_, fun h => ?_⟩
    · obtain ⟨r, hr, hc⟩ := h
      cases r with
      | evt d =>
        cases hc
        exact List.mem_iff_getElem?.mp hr
      | _ => cases hc
    · obtain ⟨n, hn⟩ := h
      exact ⟨_, List.mem_of_getElem? hn, rfl⟩
  · rw [List.mem_flatMap]
    refine ⟨fun h => ?_, fun h => ?_⟩
    · obtain ⟨b, hb, hc⟩ := h
      obtain ⟨hb, hcomp⟩ := List.mem_filter.mp hb
      obtain ⟨k, -, a, ha, r, hr, rfl⟩ := ((batchCandidates_eq_ok (hR.given b hb hcomp)).1 c).mp hc
      obtain ⟨r', hr', rfl, rfl, -, hfirst⟩ := phaseOne_action_eq_some.mp ha
      obtain rfl := Option.some.inj (hr.symm.trans hr')
      exact ⟨a.sequence, r, hfirst, hR.mem_completed_ids.mpr ⟨hb, hcomp⟩, rfl⟩
    · obtain ⟨n, r, hfirst, hc, rfl⟩ := h
      obtain ⟨hb, hcomp⟩ := hR.mem_completed_ids.mp hc
      obtain ⟨digest, hn⟩ := hfirst.1
      have ha : (phaseOne rt rs).action r.batch r.seq = some ⟨some r, digest, n⟩ :=
        phaseOne_action_eq_some.mpr ⟨r, rfl, rfl, rfl, hn, hfirst⟩
      obtain ⟨bg, cm, count, hcount⟩ := (completes_iff_complete (hR.checked _ hb)).mp hcomp
      refine ⟨r.batch, List.mem_filter.mpr ⟨hb, hcomp⟩, ?_⟩
      rw [(batchCandidates_eq_ok (hR.given _ hb hcomp)).1, hcount.actionCount_eq]
      exact ⟨r.seq, hcount.action_lt ha, _, ha, r, rfl, rfl⟩

end

theorem sequence_ge_of_evts : ∀ {records : List Json} {s : Nat} {rs : List Reading},
    readEntries rt records s = .ok rs → ∀ c ∈ rs.filterMap Reading.candidate?,
      c.batchId = none ∧ s ≤ c.sequence.getD 0
  | [], s, rs, h, c, hc => by cases h; cases hc
  | entry :: records, s, rs, h, c, hc => by
    obtain ⟨r, rs', hr, hrs, rfl⟩ := readEntries_cons.mp h
    have ih := sequence_ge_of_evts hrs
    cases r with
    | evt d =>
      rw [show (Reading.evt d :: rs').filterMap Reading.candidate? = d :: rs'.filterMap Reading.candidate? from rfl]
        at hc
      rcases List.mem_cons.mp hc with rfl | hc
      · obtain ⟨record, -, -, hd⟩ := readEntry_evt.mp hr
        obtain ⟨-, -, hb, -, hseq⟩ := candidateFromEvt_fields hd
        exact ⟨hb, by rw [hseq]; rfl⟩
      · exact ⟨(ih c hc).1, Nat.le_of_succ_le (ih c hc).2⟩
    | _ => exact ⟨(ih c hc).1, Nat.le_of_succ_le (ih c hc).2⟩

theorem pairwise_evts : ∀ {records : List Json} {s : Nat} {rs : List Reading},
    readEntries rt records s = .ok rs →
      (rs.filterMap Reading.candidate?).Pairwise fun a b => visitKey a < visitKey b
  | [], s, rs, h => by cases h; exact List.Pairwise.nil
  | entry :: records, s, rs, h => by
    obtain ⟨r, rs', hr, hrs, rfl⟩ := readEntries_cons.mp h
    have ih := pairwise_evts hrs
    cases r with
    | evt d =>
      refine List.pairwise_cons.mpr ⟨fun c hc => ?_, ih⟩
      obtain ⟨record, -, -, hd⟩ := readEntry_evt.mp hr
      obtain ⟨-, -, hb, -, hseq⟩ := candidateFromEvt_fields hd
      obtain ⟨hcb, hcs⟩ := sequence_ge_of_evts hrs c hc
      simp only [visitKey, hb, hcb, hseq, Prod.Lex.toLex_lt_toLex, lt_irrefl, false_or, true_and,
        Option.getD_some]
      omega
    | _ => exact ih

theorem nodup_orderedActions (b : String) (count : Nat) :
    ((orderedActions ((phaseOne rt rs).actions.sub b) count).map (·.sequence)).Nodup := by
  rw [List.Nodup, List.pairwise_map, orderedActions, List.pairwise_filterMap]
  refine List.Pairwise.imp ?_ List.pairwise_lt_range
  intro k k' hlt a ha a' ha' he
  obtain ⟨r, -, -, hk, hr, -⟩ := phaseOne_action_eq_some.mp (show (phaseOne rt rs).action b k = some a from ha)
  obtain ⟨r', -, -, hk', hr', -⟩ :=
    phaseOne_action_eq_some.mp (show (phaseOne rt rs).action b k' = some a' from ha')
  rw [he, hr'] at hr
  obtain ⟨rfl, -⟩ := Reading.action.inj (Option.some.inj hr)
  omega

theorem pairwise_gives {b : String} (hb : b ∈ ids) (hR : Resolved rt (phaseOne rt rs) ids fold)
    (hcomp : (phaseOne rt rs).completes rt b = true) :
    ((phaseOne rt rs).gives rt b).Pairwise fun a c => visitKey a < visitKey c := by
  obtain ⟨bg, cm, count, hcount⟩ := (completes_iff_complete (hR.checked b hb)).mp hcomp
  obtain ⟨hmem, hmap⟩ := batchCandidates_eq_ok (hR.given b hb hcomp)
  rw [hcount.actionCount_eq] at hmem hmap
  have hlt : (((phaseOne rt rs).gives rt b).map (·.sequence)).Pairwise fun x y => x.getD 0 < y.getD 0 := by
    rw [hmap, List.pairwise_map]
    exact ((List.pairwise_map.mp hcount.sorted).and (List.pairwise_map.mp (nodup_orderedActions b count))).imp
      fun h => lt_of_le_of_ne h.1 h.2
  refine List.Pairwise.imp_of_mem ?_ (List.pairwise_map.mp hlt)
  intro c c' hc hc' hlt
  have hbatch : ∀ d ∈ (phaseOne rt rs).gives rt b, d.batchId = some b := by
    intro d hd
    obtain ⟨k, -, a, ha, r, hr, rfl⟩ := (hmem d).mp hd
    obtain ⟨r', hr', rfl, -⟩ := phaseOne_action_eq_some.mp ha
    obtain rfl := Option.some.inj (hr.symm.trans hr')
    exact candidateFromCorrection_batchId r
  simp only [visitKey, hbatch c hc, hbatch c' hc', Prod.Lex.toLex_lt_toLex, lt_irrefl, false_or, true_and]
  exact hlt

theorem mem_gives_batchId {b : String} {n : Nat} {cs : List EffectiveEvent}
    (h : (phaseOne rt rs).batchCandidates rt b n = .ok cs) : ∀ c ∈ cs, c.batchId = some b := by
  intro c hc
  obtain ⟨k, -, a, ha, r, hr, rfl⟩ := ((batchCandidates_eq_ok h).1 c).mp hc
  obtain ⟨r', hr', rfl, -⟩ := phaseOne_action_eq_some.mp ha
  obtain rfl := Option.some.inj (hr.symm.trans hr')
  exact candidateFromCorrection_batchId r

theorem Resolved.pairwise_candidates (hrs : readEntries rt records 0 = .ok rs)
    (hR : Resolved rt (phaseOne rt rs) ids fold) (hsorted : ids.Pairwise (· < ·)) :
    fold.candidates.Pairwise fun a b => visitKey a < visitKey b := by
  have hgives : ∀ b ∈ ids.filter ((phaseOne rt rs).completes rt), ∀ c ∈ (phaseOne rt rs).gives rt b,
      c.batchId = some b := by
    intro b hb
    obtain ⟨hb, hcomp⟩ := List.mem_filter.mp hb
    exact mem_gives_batchId (hR.given b hb hcomp)
  rw [hR.candidates, phaseOne_candidates, List.pairwise_append]
  refine ⟨pairwise_evts hrs, List.pairwise_flatMap.mpr ⟨fun b hb => ?_, ?_⟩, fun c hc d hd => ?_⟩
  · obtain ⟨hb, hcomp⟩ := List.mem_filter.mp hb
    exact pairwise_gives hb hR hcomp
  · refine List.Pairwise.imp_of_mem ?_ (hsorted.filter _)
    intro b b' hb hb' hlt c hc d hd
    simp only [visitKey, hgives b hb c hc, hgives b' hb' d hd, Prod.Lex.toLex_lt_toLex]
    exact Or.inr ⟨rfl, Or.inl hlt⟩
  · obtain ⟨b, hb, hd⟩ := List.mem_flatMap.mp hd
    simp only [visitKey, (sequence_ge_of_evts hrs c hc).1, hgives b hb d hd, Prod.Lex.toLex_lt_toLex]
    exact Or.inl rfl

/-- **The candidates of a pass**, read off the list it was given. -/
theorem mem_candidates_iff (hrs : readEntries rt records 0 = .ok rs)
    (hR : Resolved rt (phaseOne rt rs) ids fold) {c : EffectiveEvent} :
    c ∈ fold.candidates ↔ IsCandidate rt records fold.completed c := by
  rw [hR.mem_candidates, IsCandidate, exists_or]
  simp only [reading_evt_iff hrs, reading_firstAction_iff hrs]

theorem IsCandidate.sequence {completed : Finset String} {c : EffectiveEvent}
    (h : IsCandidate rt records completed c) : ∃ n, c.sequence = some n := by
  obtain ⟨n, h | ⟨r, -, -, rfl⟩⟩ := h
  · exact ⟨n, (evtAt_fields h).2.2.1⟩
  · exact ⟨n, candidateFromCorrection_sequence r⟩

theorem IsCandidate.eq_of_sequence {completed : Finset String} {c d : EffectiveEvent}
    (hc : IsCandidate rt records completed c) (hd : IsCandidate rt records completed d)
    (h : c.sequence = d.sequence) : c = d := by
  obtain ⟨n, hc⟩ := hc
  obtain ⟨m, hd⟩ := hd
  have hnm : n = m := by
    have hcn : c.sequence = some n := by
      rcases hc with hc | ⟨r, -, -, rfl⟩
      · exact (evtAt_fields hc).2.2.1
      · exact candidateFromCorrection_sequence r
    have hdm : d.sequence = some m := by
      rcases hd with hd | ⟨r, -, -, rfl⟩
      · exact (evtAt_fields hd).2.2.1
      · exact candidateFromCorrection_sequence r
    exact Option.some.inj (hcn.symm.trans (h.trans hdm))
  subst hnm
  rcases hc with ⟨record, hn, ht, hc⟩ | ⟨r, ⟨⟨record, hn, ht, hc⟩, -⟩, -, rfl⟩
  · rcases hd with ⟨record', hn', ht', hd⟩ | ⟨r', ⟨⟨record', hn', ht', hd⟩, -⟩, -, rfl⟩
    · obtain rfl := Json.obj.inj (Option.some.inj (hn.symm.trans hn'))
      exact Except.ok.inj (hc.symm.trans hd)
    · obtain rfl := Json.obj.inj (Option.some.inj (hn.symm.trans hn'))
      rw [ht] at ht'
      simp at ht'
  · rcases hd with ⟨record', hn', ht', hd⟩ | ⟨r', ⟨⟨record', hn', ht', hd⟩, -⟩, -, rfl⟩
    · obtain rfl := Json.obj.inj (Option.some.inj (hn.symm.trans hn'))
      rw [ht] at ht'
      simp at ht'
    · obtain rfl := Json.obj.inj (Option.some.inj (hn.symm.trans hn'))
      rw [Except.ok.inj (hc.symm.trans hd)]

end

end Cctally
