import Cctally.JournalPlaces
import Cctally.JournalWinners

/-!
# Batches are all or nothing

The records of a batch that does not complete leave no trace in what a pass
selects. A batch written in attempts, each a prefix of its records and one of
them whole, completes whatever stands between them.
-/

namespace Cctally

open Json (field)

/-! ## Fields of a validated record -/

section
variable {rt : Runtime}

theorem nonEmptyStr_eq_ok {msg : String} {value : Json} {s : String} :
    nonEmptyStr msg value = .ok s ↔ value = .str s ∧ s ≠ "" := by
  cases value with
  | str t =>
    simp only [nonEmptyStr, Except.ite_throw_eq_ok, Except.pure_eq_ok, Json.str.injEq]
    refine ⟨fun h => ⟨h.2.symm, h.2 ▸ h.1⟩, fun h => ⟨h.1 ▸ h.2, h.1.symm⟩⟩
  | _ => simp [nonEmptyStr]

theorem nonNegInt_eq_ok {msg : String} {value : Json} {n : Nat} :
    nonNegInt msg value = .ok n ↔ value = .num n := by
  cases value with
  | num m =>
    simp only [nonNegInt, Json.num.injEq]
    by_cases hm : 0 ≤ m
    · simp only [hm, if_true, Except.pure_eq_ok]
      omega
    · simp only [hm, if_false, Except.throw_eq_ok, false_iff]
      omega
  | _ => simp [nonNegInt]

theorem readActionType_eq_ok {value : Json} {actionType : ActionType} (h : readActionType value = .ok actionType) :
    value = .str actionType.text := by
  unfold readActionType at h
  split at h
  · rw [Except.pure_eq_ok.mp h]; rfl
  · rw [Except.pure_eq_ok.mp h]; rfl
  · split at h
    · simp at h
    · simp at h

theorem readActionPayload_eq_ok {actionType : ActionType} {value : Json} {payload : Option Json.Fields}
    (h : readActionPayload actionType value = .ok payload) : value = payload.elim .null .obj := by
  cases actionType with
  | replace =>
    cases value with
    | obj fields =>
      simp only [readActionPayload] at h
      split at h
      · rw [Except.pure_eq_ok.mp h]; rfl
      · simp at h
    | _ => simp [readActionPayload] at h
  | tombstone =>
    cases value with
    | null => rw [Except.pure_eq_ok.mp h]; rfl
    | _ => simp [readActionPayload] at h

theorem payloadJson_eq (core : ActionCore) : core.payloadJson = core.payload.elim .null .obj := by
  unfold ActionCore.payloadJson
  cases core.payload with
  | none => rfl
  | some fields => rfl

theorem readPhase_eq_ok {value : Json} {ph : Phase} (h : readPhase value = .ok ph) : value = .str ph.text := by
  unfold readPhase at h
  split at h
  · rw [Except.pure_eq_ok.mp h]; rfl
  · rw [Except.pure_eq_ok.mp h]; rfl
  · split at h
    · simp at h
    · simp at h

theorem readActionsHash_eq_ok {value : Json} {text : String} (h : readActionsHash rt value = .ok text) :
    value = .str text := by
  unfold readActionsHash at h
  split at h
  · split at h
    · rw [Except.pure_eq_ok.mp h]
    · simp at h
  · simp at h

theorem validateActionCore_inv {action : Json.Fields} {core : ActionCore} (h : validateActionCore action = .ok core) :
    field action "action" = .str core.action.text ∧ field action "id" = .str core.id ∧
    field action "rev" = .num core.rev ∧ field action "at" = .str core.at_ ∧
    field action "payload" = core.payloadJson := by
  unfold validateActionCore at h
  simp only [Except.guard_eq_ok] at h
  obtain ⟨-, h⟩ := h
  obtain ⟨actionType, hact, h⟩ := Except.bind_eq_ok.mp h
  obtain ⟨id, hid, h⟩ := Except.bind_eq_ok.mp h
  obtain ⟨rev, hrev, h⟩ := Except.bind_eq_ok.mp h
  obtain ⟨at_, hat, h⟩ := Except.bind_eq_ok.mp h
  obtain ⟨payload, hpay, h⟩ := Except.bind_eq_ok.mp h
  rw [Except.pure_eq_ok.mp h]
  refine ⟨readActionType_eq_ok hact, (nonEmptyStr_eq_ok.mp hid).1, nonNegInt_eq_ok.mp hrev,
    (nonEmptyStr_eq_ok.mp hat).1, ?_⟩
  rw [payloadJson_eq]
  exact readActionPayload_eq_ok hpay

theorem validateCorrectionRecord_inv {record : Json.Fields} {c : Correction}
    (h : validateCorrectionRecord record = .ok c) :
    field record "batch" = .str c.batch ∧ field record "seq" = .num c.seq ∧
    field record "action" = .str c.core.action.text ∧ field record "id" = .str c.core.id ∧
    field record "rev" = .num c.core.rev ∧ field record "at" = .str c.core.at_ ∧
    field record "payload" = c.core.payloadJson := by
  unfold validateCorrectionRecord at h
  obtain ⟨batchId, hb, h⟩ := Except.bind_eq_ok.mp h
  obtain ⟨seq, hs, h⟩ := Except.bind_eq_ok.mp h
  obtain ⟨_, -, h⟩ := Except.bind_eq_ok.mp h
  obtain ⟨core, hc, h⟩ := Except.bind_eq_ok.mp h
  rw [Except.pure_eq_ok.mp h]
  have hcore := validateActionCore_inv hc
  exact ⟨(nonEmptyStr_eq_ok.mp hb).1, nonNegInt_eq_ok.mp hs, hcore⟩

theorem validateBatchMarker_inv {record : Json.Fields} {b : String} {ph : Phase} {core : MarkerCore}
    (h : validateBatchMarker rt record = .ok (b, ph, core)) :
    field record "id" = .str b ∧ field record "phase" = .str ph.text ∧
    (∃ n : Nat, field record "action_count" = .num n ∧ core.actionCount = some n) ∧
    ∃ text, field record "actions_hash" = .str text ∧ core.actionsHash = some text := by
  unfold validateBatchMarker at h
  obtain ⟨batchId, hb, h⟩ := Except.bind_eq_ok.mp h
  obtain ⟨phase, hp, h⟩ := Except.bind_eq_ok.mp h
  obtain ⟨family, -, h⟩ := Except.bind_eq_ok.mp h
  obtain ⟨at_, -, h⟩ := Except.bind_eq_ok.mp h
  obtain ⟨_, -, h⟩ := Except.bind_eq_ok.mp h
  obtain ⟨count, hc, h⟩ := Except.bind_eq_ok.mp h
  obtain ⟨text, ht, h⟩ := Except.bind_eq_ok.mp h
  cases Except.pure_eq_ok.mp h
  exact ⟨(nonEmptyStr_eq_ok.mp hb).1, readPhase_eq_ok hp, ⟨count, nonNegInt_eq_ok.mp hc, rfl⟩, text,
    readActionsHash_eq_ok ht, rfl⟩

end

def namedBatch : Json → Option String
  | .obj record =>
    match field record "t" with
    | .str "correction_batch" =>
      match field record "id" with
      | .str b => some b
      | _ => none
    | .str "correction" =>
      match field record "batch" with
      | .str b => some b
      | _ => none
    | _ => none
  | _ => none

def Reading.batch? : Reading → Option String
  | .marker b .. => some b
  | .action c _ => some c.batch
  | _ => none

/-- An entry of a batch outside `completed` becomes the placeholder. -/
def mask (completed : Finset String) (placeholder entry : Json) : Json :=
  match namedBatch entry with
  | some b => if b ∈ completed then entry else placeholder
  | none => entry

def Reading.mask (completed : Finset String) (r : Reading) : Reading :=
  match r.batch? with
  | some b => if b ∈ completed then r else .skip
  | none => r

section
variable {rt : Runtime}

theorem readEntry_skip {entry : Json} (h : entry.isObj = false) (n : Nat) : readEntry rt entry n = .ok .skip := by
  cases entry with
  | obj record => simp [Json.isObj] at h
  | _ => rfl

theorem readEntry_batch? {entry : Json} {n : Nat} {r : Reading} (h : readEntry rt entry n = .ok r) :
    r.batch? = namedBatch entry := by
  rcases readEntry_inv h with rfl | ⟨record, rfl, h'⟩
  · -- a skipped entry is no correction record
    cases hn : namedBatch entry with
    | none => rfl
    | some b =>
      unfold namedBatch at hn
      split at hn
      · rename_i record
        split at hn
        · rename_i ht
          simp only [readEntry, ht] at h
          obtain ⟨m, -, h⟩ := Except.bind_eq_ok.mp h
          cases Except.pure_eq_ok.mp h
        · rename_i ht
          simp only [readEntry, ht] at h
          obtain ⟨c, -, h⟩ := Except.bind_eq_ok.mp h
          cases Except.pure_eq_ok.mp h
        · cases hn
      · cases hn
  · rcases h' with ⟨c, ht, -, rfl⟩ | ⟨res, ht, -, -, rfl⟩ | ⟨b, ph, core, ht, hm, rfl⟩ | ⟨c, ht, hc, rfl⟩
    · simp [Reading.batch?, namedBatch, ht]
    · simp [Reading.batch?, namedBatch, ht]
    · simp [Reading.batch?, namedBatch, ht, (validateBatchMarker_inv hm).1]
    · simp [Reading.batch?, namedBatch, ht, (validateCorrectionRecord_inv hc).1]

theorem readEntries_mask {completed : Finset String} {placeholder : Json} (hp : placeholder.isObj = false) :
    ∀ {records : List Json} {s : Nat} {rs : List Reading}, readEntries rt records s = .ok rs →
      readEntries rt (records.map (mask completed placeholder)) s = .ok (rs.map (Reading.mask completed))
  | [], _, _, h => by cases h; rfl
  | entry :: records, s, rs, h => by
    obtain ⟨r, rs', hr, hrs, rfl⟩ := readEntries_cons.mp h
    refine readEntries_cons.mpr ⟨r.mask completed, rs'.map (Reading.mask completed), ?_, readEntries_mask hp hrs, rfl⟩
    unfold mask Reading.mask
    rw [readEntry_batch? hr]
    cases namedBatch entry with
    | none => exact hr
    | some b =>
      by_cases hb : b ∈ completed
      · simp only [hb, if_true]
        exact hr
      · simp only [hb, if_false]
        exact readEntry_skip hp s

end

/-! ## The masked fold -/

section
variable {rt : Runtime} {completed : Finset String} {b : String}

theorem mask_digestAt (hb : b ∈ completed) (p : Place) (r : Reading) :
    (r.mask completed).digestAt b p = r.digestAt b p := by
  cases r with
  | marker b' ph core digest identity =>
    by_cases hb' : b' ∈ completed
    · simp [Reading.mask, Reading.batch?, hb']
    · have hne : b' ≠ b := fun he => hb' (he ▸ hb)
      simp [Reading.mask, Reading.batch?, hb', Reading.digestAt, hne]
  | action c digest =>
    by_cases hb' : c.batch ∈ completed
    · simp [Reading.mask, Reading.batch?, hb']
    · have hne : c.batch ≠ b := fun he => hb' (he ▸ hb)
      simp [Reading.mask, Reading.batch?, hb', Reading.digestAt, hne]
  | _ => rfl

theorem mask_digestAt_none (hb : b ∉ completed) (p : Place) (r : Reading) :
    (r.mask completed).digestAt b p = none := by
  cases r with
  | marker b' ph core digest identity =>
    by_cases hb' : b' ∈ completed
    · have hne : b' ≠ b := fun he => hb (he ▸ hb')
      simp [Reading.mask, Reading.batch?, hb', Reading.digestAt, hne]
    · simp [Reading.mask, Reading.batch?, hb', Reading.digestAt]
  | action c digest =>
    by_cases hb' : c.batch ∈ completed
    · have hne : c.batch ≠ b := fun he => hb (he ▸ hb')
      simp [Reading.mask, Reading.batch?, hb', Reading.digestAt, hne]
    · simp [Reading.mask, Reading.batch?, hb', Reading.digestAt]
  | _ => rfl

theorem mask_marker? (hb : b ∈ completed) (ph : Phase) (s : Nat) (r : Reading) :
    (r.mask completed).marker? s b ph = r.marker? s b ph := by
  cases r with
  | marker b' ph' core digest identity =>
    by_cases hb' : b' ∈ completed
    · simp [Reading.mask, Reading.batch?, hb']
    · have hne : b' ≠ b := fun he => hb' (he ▸ hb)
      simp [Reading.mask, Reading.batch?, hb', Reading.marker?, hne]
  | action c digest =>
    by_cases hb' : c.batch ∈ completed
    · simp [Reading.mask, Reading.batch?, hb']
    · simp [Reading.mask, Reading.batch?, hb', Reading.marker?]
  | _ => rfl

theorem mask_action? (hb : b ∈ completed) (k s : Nat) (r : Reading) :
    (r.mask completed).action? s b k = r.action? s b k := by
  cases r with
  | marker b' ph' core digest identity =>
    by_cases hb' : b' ∈ completed
    · simp [Reading.mask, Reading.batch?, hb']
    · simp [Reading.mask, Reading.batch?, hb', Reading.action?]
  | action c digest =>
    by_cases hb' : c.batch ∈ completed
    · simp [Reading.mask, Reading.batch?, hb']
    · have hne : c.batch ≠ b := fun he => hb' (he ▸ hb)
      simp [Reading.mask, Reading.batch?, hb', Reading.action?, hne]
  | _ => rfl

theorem firstMarker_mask (hb : b ∈ completed) (ph : Phase) : ∀ (rs : List Reading) (s : Nat),
    firstMarker b ph s (rs.map (Reading.mask completed)) = firstMarker b ph s rs
  | [], _ => rfl
  | r :: rs, s => by
    rw [List.map_cons, firstMarker, firstMarker, mask_marker? hb, firstMarker_mask hb ph rs]

theorem firstAction_mask (hb : b ∈ completed) (k : Nat) : ∀ (rs : List Reading) (s : Nat),
    firstAction b k s (rs.map (Reading.mask completed)) = firstAction b k s rs
  | [], _ => rfl
  | r :: rs, s => by
    rw [List.map_cons, firstAction, firstAction, mask_action? hb, firstAction_mask hb k rs]

theorem candidates_mask : ∀ rs : List Reading,
    (rs.map (Reading.mask completed)).filterMap Reading.candidate? = rs.filterMap Reading.candidate?
  | [] => rfl
  | r :: rs => by
    have hr : (r.mask completed).candidate? = r.candidate? := by
      unfold Reading.mask
      cases r with
      | marker b' ph core digest identity => simp only [Reading.batch?]; split <;> rfl
      | action c digest => simp only [Reading.batch?]; split <;> rfl
      | _ => rfl
    rw [List.map_cons, List.filterMap_cons, List.filterMap_cons, hr, candidates_mask rs]

theorem resolutionsOf_mask : ∀ (rs : List Reading) (s : Nat),
    resolutionsOf s (rs.map (Reading.mask completed)) = resolutionsOf s rs
  | [], _ => rfl
  | r :: rs, s => by
    have ih := resolutionsOf_mask rs (s + 1)
    rw [List.map_cons]
    cases r with
    | marker b' ph core digest identity =>
      simp only [Reading.mask, Reading.batch?]
      split
      · exact ih
      · exact ih
    | action c digest =>
      simp only [Reading.mask, Reading.batch?]
      split
      · exact ih
      · exact ih
    | resolution res => exact congrArg ((s, res) :: ·) ih
    | _ => exact ih

theorem phaseOne_mask (hb : b ∈ completed) (rs : List Reading) :
    (∀ ph, (phaseOne rt (rs.map (Reading.mask completed))).marker b ph = (phaseOne rt rs).marker b ph) ∧
    ∀ k, (phaseOne rt (rs.map (Reading.mask completed))).action b k = (phaseOne rt rs).action b k := by
  refine ⟨fun ph => ?_, fun k => ?_⟩
  · rw [phaseOne_marker, phaseOne_marker, firstMarker_mask hb]
  · rw [phaseOne_action, phaseOne_action, firstAction_mask hb]

theorem phaseOne_mask_marker_none (hb : b ∉ completed) (ph : Phase) (rs : List Reading) :
    (phaseOne rt (rs.map (Reading.mask completed))).marker b ph = none := by
  have hd : (phaseOne rt (rs.map (Reading.mask completed))).digestAt b (.inl ph) = none := by
    rw [phaseOne_digestAt, List.findSome?_eq_none_iff]
    intro r hr
    obtain ⟨q, -, rfl⟩ := List.mem_map.mp hr
    exact mask_digestAt_none hb _ q
  exact Option.map_eq_none_iff.mp hd

theorem phaseOne_mask_tainted {rs : List Reading} (hc : ∀ c ∈ completed, c ∉ (phaseOne rt rs).taintedBatches) :
    b ∉ (phaseOne rt (rs.map (Reading.mask completed))).taintedBatches := by
  intro h
  obtain ⟨p, r, hr, r', hr', d, d', hd, hd', hne⟩ := (phaseOne_tainted _).mp h
  obtain ⟨q, hq, rfl⟩ := List.mem_map.mp hr
  obtain ⟨q', hq', rfl⟩ := List.mem_map.mp hr'
  by_cases hb : b ∈ completed
  · rw [mask_digestAt hb] at hd hd'
    exact hc b hb ((phaseOne_tainted rs).mpr ⟨p, q, hq, q', hq', d, d', hd, hd', hne⟩)
  · rw [mask_digestAt_none hb] at hd
    cases hd

end

section
variable {rt : Runtime}

theorem resolveBatch_ok {fold : SelectorFold} {b : String}
    (h : ∃ log, batchViolations rt b (fold.marker b .begin) (fold.marker b .commit) (fold.actions.sub b) = .ok log)
    (hc : ∀ n, ∃ cs, fold.batchCandidates rt b n = .ok cs) : ∃ fold', resolveBatch rt fold b = .ok fold' := by
  obtain ⟨log, hlog⟩ := h
  have hframe := @taintAll_frame rt log fold
  have hcands : ∀ n, (fold.taintAll rt log).batchCandidates rt b n = fold.batchCandidates rt b n :=
    (log_frame rt (by rw [hframe]) (by rw [hframe]) b).2.2.2.2
  simp only [resolveBatch, hlog, Except.ok_bind]
  cases fold.marker b .begin with
  | none => exact ⟨_, rfl⟩
  | some bg =>
    cases fold.marker b .commit with
    | none => exact ⟨_, rfl⟩
    | some cm =>
      obtain ⟨cs, hcs⟩ := hc (bg.core.actionCount.getD 0)
      simp only [hcands, hcs]
      split
      · exact ⟨_, rfl⟩
      · exact ⟨_, rfl⟩

theorem foldlM_resolveBatch_ok : ∀ {ids : List String} {fold : SelectorFold},
    (∀ b ∈ ids, ∃ log, batchViolations rt b (fold.marker b .begin) (fold.marker b .commit)
      (fold.actions.sub b) = .ok log) →
    (∀ b ∈ ids, ∀ n, ∃ cs, fold.batchCandidates rt b n = .ok cs) →
    ∃ fold', ids.foldlM (resolveBatch rt) fold = .ok fold'
  | [], fold, _, _ => ⟨fold, rfl⟩
  | b :: ids, fold, h, hc => by
    obtain ⟨f₁, hf₁⟩ := resolveBatch_ok (h b (List.mem_cons_self ..)) (hc b (List.mem_cons_self ..))
    have hR := resolveBatch_resolved hf₁
    have h' : ∀ c ∈ ids, ∃ log, batchViolations rt c (f₁.marker c .begin) (f₁.marker c .commit)
        (f₁.actions.sub c) = .ok log := by
      intro c hcm
      obtain ⟨-, -, hm, -⟩ := log_frame rt hR.markers hR.actions c
      rw [hm, hm, hR.actions]
      exact h c (List.mem_cons_of_mem _ hcm)
    have hc' : ∀ c ∈ ids, ∀ n, ∃ cs, f₁.batchCandidates rt c n = .ok cs := by
      intro c hcm n
      rw [(log_frame rt hR.markers hR.actions c).2.2.2.2]
      exact hc c (List.mem_cons_of_mem _ hcm) n
    obtain ⟨fold', hfold'⟩ := foldlM_resolveBatch_ok h' hc'
    exact ⟨fold', Except.foldlM_cons.mpr ⟨f₁, hf₁, hfold'⟩⟩

theorem phaseOne_batchCandidates (rs : List Reading) (b : String) (n : Nat) :
    ∃ cs, (phaseOne rt rs).batchCandidates rt b n = .ok cs := by
  refine Except.mapM_returns fun a ha => ?_
  obtain ⟨k, -, hk⟩ := mem_orderedActions.mp ha
  obtain ⟨c, hc, -⟩ := phaseOne_action_eq_some.mp (show (phaseOne rt rs).action b k = some a from hk)
  refine ⟨candidateFromCorrection rt c a.sequence, ?_⟩
  rw [readCore, hc]
  rfl

end

/-! ## The masked pass -/

section
variable {rt : Runtime} {records : List Json} {rs : List Reading} {fold : SelectorFold}

theorem filter_completes {f f' : SelectorFold} {ids ids' : List String} (hs : ids.Pairwise (· < ·))
    (hs' : ids'.Pairwise (· < ·))
    (h : ∀ b, (b ∈ ids ∧ f.completes rt b = true) ↔ (b ∈ ids' ∧ f'.completes rt b = true)) :
    ids.filter (f.completes rt) = ids'.filter (f'.completes rt) := by
  refine List.Perm.eq_of_pairwise (fun a b _ _ (hab : a < b) (hba : b < a) => absurd hab (not_lt_of_gt hba))
    (hs.filter _) (hs'.filter _) ?_
  refine (List.perm_ext_iff_of_nodup ?_ ?_).mpr fun b => ?_
  · exact (hs.imp ne_of_lt).filter _
  · exact (hs'.imp ne_of_lt).filter _
  · rw [List.mem_filter, List.mem_filter]
    exact h b

theorem pairwise_lt_sortedSet (l : List String) : (sortedSet l).Pairwise (· < ·) :=
  ((pairwise_sortedSet l).and (nodup_sortedSet l)).imp fun h => lt_of_le_of_ne h.1 h.2

theorem gives_congr {f f' : SelectorFold} {b : String} (hm : f'.marker b .begin = f.marker b .begin)
    (ha : ∀ k, f'.action b k = f.action b k) : f'.gives rt b = f.gives rt b := by
  have hordered : ∀ n, orderedActions (f'.actions.sub b) n = orderedActions (f.actions.sub b) n :=
    orderedActions_congr ha
  unfold SelectorFold.gives SelectorFold.batchCandidates SelectorFold.actionCount
  rw [hm, hordered]

theorem log_congr {f f' : SelectorFold} {b : String} (hm : ∀ ph, f'.marker b ph = f.marker b ph)
    (ha : ∀ k, f'.action b k = f.action b k) : f'.log rt b = f.log rt b := by
  unfold SelectorFold.log
  rw [hm, hm, batchViolations_congr rfl ha]

theorem phaseOne_resolutions (rs : List Reading) : (phaseOne rt rs).resolutions = resolutionsOf 0 rs :=
  resolutions_applyAll rs _ 0

theorem phaseOne_taints_empty {rs : List Reading} (h : ∀ b, b ∉ (phaseOne rt rs).taintedBatches) :
    (phaseOne rt rs).taints = SelectorFold.empty.taints := by
  have htaints := @taints_applyAll rt rs .empty 0
  have hlog : conflictLog rt .empty 0 rs = [] := by
    refine List.eq_nil_iff_forall_not_mem.mpr fun entry he => h entry.1.batchId ?_
    rw [show (phaseOne rt rs).taintedBatches = (phaseOne rt rs).taints.batches from rfl, phaseOne, htaints,
      mem_addAll_batches]
    exact Or.inr ⟨entry, he, rfl⟩
  rw [phaseOne, htaints, hlog]
  rfl

theorem masked_accumulate {placeholder : Json} (hp : placeholder.isObj = false)
    (h : accumulate rt records = .ok fold) :
    ∃ fold', accumulate rt (records.map (mask fold.completed placeholder)) = .ok fold' ∧
      fold'.candidates = fold.candidates ∧ fold'.completed = fold.completed ∧ fold'.violations = .empty ∧
      fold'.resolutions = fold.resolutions := by
  obtain ⟨rs, hrs, hR⟩ := accumulate_resolved h
  have hempty := @phaseOne_completed rt rs
  have hcompleted : ∀ b, b ∈ fold.completed ↔ (phaseOne rt rs).completes rt b = true :=
    fun b => hR.mem_completed hempty
  let rs' := rs.map (Reading.mask fold.completed)
  have hrs' : readEntries rt (records.map (mask fold.completed placeholder)) 0 = .ok rs' := readEntries_mask hp hrs
  have hkeep : ∀ {b}, b ∈ fold.completed → (∀ ph, (phaseOne rt rs').marker b ph = (phaseOne rt rs).marker b ph) ∧
      ∀ k, (phaseOne rt rs').action b k = (phaseOne rt rs).action b k := fun hb => phaseOne_mask hb rs
  have htaint : ∀ b, b ∉ (phaseOne rt rs').taintedBatches := by
    intro b
    refine phaseOne_mask_tainted fun c hc => ?_
    exact (completes_iff.mp ((hcompleted c).mp hc)).2.2.1
  -- every batch of the masked list is without violations
  have hlog : ∀ b, batchViolations rt b ((phaseOne rt rs').marker b .begin) ((phaseOne rt rs').marker b .commit)
      ((phaseOne rt rs').actions.sub b) = .ok [] := by
    intro b
    by_cases hb : b ∈ fold.completed
    · obtain ⟨hm, ha⟩ := hkeep hb
      rw [hm, hm, batchViolations_congr rfl ha, hR.checked_all b,
        (completes_iff.mp ((hcompleted b).mp hb)).2.2.2]
    · rw [phaseOne_mask_marker_none hb .commit]
      exact batchViolations_none.mpr rfl
  obtain ⟨fold', hfold'⟩ := @foldlM_resolveBatch_ok rt (sortedSet (phaseOne rt rs').batchIds) (phaseOne rt rs')
    (fun b _ => ⟨[], hlog b⟩) fun b _ n => phaseOne_batchCandidates rs' b n
  have hR' := resolveBatches_resolved hfold'
  have hacc : accumulate rt (records.map (mask fold.completed placeholder)) = .ok fold' := by
    unfold accumulate
    rw [foldRecords_eq_ok.mpr ⟨rs', hrs', rfl⟩]
    exact hfold'
  have hcomp : ∀ b, (phaseOne rt rs').completes rt b = true ↔ (phaseOne rt rs).completes rt b = true := by
    intro b
    by_cases hb : b ∈ fold.completed
    · obtain ⟨hm, ha⟩ := hkeep hb
      have hc := (hcompleted b).mp hb
      refine ⟨fun _ => hc, fun _ => ?_⟩
      obtain ⟨hbg, hcm, -, hl⟩ := completes_iff.mp hc
      rw [completes_iff, hm, hm, log_congr hm ha]
      exact ⟨hbg, hcm, htaint b, hl⟩
    · refine ⟨fun hc => ?_, fun hc => absurd ((hcompleted b).mpr hc) hb⟩
      obtain ⟨⟨bg, hbg⟩, -⟩ := completes_iff.mp hc
      rw [phaseOne_mask_marker_none hb] at hbg
      cases hbg
  have hids : ∀ {f : SelectorFold} {b}, f.completes rt b = true → b ∈ sortedSet f.batchIds := by
    intro f b hc
    obtain ⟨⟨bg, hbg⟩, -⟩ := completes_iff.mp hc
    exact mem_sortedSet.mpr (marker_mem_batchIds hbg)
  have hfilter : (sortedSet (phaseOne rt rs').batchIds).filter ((phaseOne rt rs').completes rt) =
      (sortedSet (phaseOne rt rs).batchIds).filter ((phaseOne rt rs).completes rt) := by
    refine filter_completes (pairwise_lt_sortedSet _) (pairwise_lt_sortedSet _) fun b => ?_
    exact ⟨fun hb => ⟨hids ((hcomp b).mp hb.2), (hcomp b).mp hb.2⟩,
      fun hb => ⟨hids ((hcomp b).mpr hb.2), (hcomp b).mpr hb.2⟩⟩
  refine ⟨fold', hacc, ?_, ?_, ?_, ?_⟩
  · rw [hR'.candidates, hR.candidates, hfilter, phaseOne_candidates, phaseOne_candidates, candidates_mask]
    congr 1
    refine List.flatMap_congr fun b hb => ?_
    obtain ⟨hm, ha⟩ := hkeep ((hcompleted b).mpr (List.mem_filter.mp hb).2)
    exact gives_congr (hm .begin) ha
  · ext b
    rw [hR'.mem_completed (phaseOne_completed rs'), hR.mem_completed hempty]
    exact hcomp b
  · have hnil : (sortedSet (phaseOne rt rs').batchIds).flatMap ((phaseOne rt rs').log rt) = [] :=
      List.flatMap_eq_nil_iff.mpr fun b _ => log_of_ok (hlog b)
    rw [show fold'.violations = fold'.taints.violations from rfl, hR'.taints, hnil, phaseOne_taints_empty htaint]
    rfl
  · rw [hR'.resolutions, hR.resolutions, phaseOne_resolutions, phaseOne_resolutions, resolutionsOf_mask]

end

/-! ## Resolution ops against the masked pass -/

section
variable {rt : Runtime}

theorem validateProtocolResolution_violations {record : Json.Fields} {res : Resolution}
    (h : validateProtocolResolution rt record = .ok res) : res.violations ≠ [] := by
  unfold validateProtocolResolution at h
  simp only [Except.guard_eq_ok] at h
  obtain ⟨-, -, h⟩ := h
  obtain ⟨_, -, h⟩ := Except.bind_eq_ok.mp h
  obtain ⟨_, -, h⟩ := Except.bind_eq_ok.mp h
  obtain ⟨payload, -, h⟩ := Except.bind_eq_ok.mp h
  simp only [Except.guard_eq_ok] at h
  obtain ⟨-, h⟩ := h
  obtain ⟨_, -, h⟩ := Except.bind_eq_ok.mp h
  obtain ⟨_, -, h⟩ := Except.bind_eq_ok.mp h
  obtain ⟨_, -, h⟩ := Except.bind_eq_ok.mp h
  obtain ⟨_, -, h⟩ := Except.bind_eq_ok.mp h
  obtain ⟨refs, hrefs, h⟩ := Except.bind_eq_ok.mp h
  simp only [Except.guard_eq_ok] at h
  obtain ⟨-, h⟩ := h
  rw [Except.pure_eq_ok.mp h]
  unfold readResolutionRefs at hrefs
  split at hrefs
  · obtain ⟨b, bs, -, -, rfl⟩ := Except.mapM_cons.mp hrefs
    exact List.cons_ne_nil b bs
  · simp at hrefs

theorem readEntry_resolution {entry : Json} {n : Nat} {r : Reading} (h : readEntry rt entry n = .ok r) :
    isProtocolResolution entry = true ↔ ∃ res, r = .resolution res := by
  refine ⟨fun hp => ?_, fun hr => ?_⟩
  · unfold isProtocolResolution at hp
    split at hp
    · rename_i record
      rw [Bool.and_eq_true] at hp
      obtain ⟨hmatch, hkind⟩ := hp
      split at hmatch
      · rename_i ht
        simp only [readEntry, ht] at h
        split at h
        · rename_i payload hpay
          rw [Except.ite_throw_eq_ok] at h
          obtain ⟨-, h⟩ := h
          rw [hpay] at hkind
          have hres : isProtocolResolution (.obj record) = true := by
            simp only [isProtocolResolution, ht, hpay, Bool.true_and]
            exact hkind
          rw [if_pos hres] at h
          obtain ⟨res, -, rfl⟩ := Except.map_eq_ok.mp h
          exact ⟨res, rfl⟩
        · rename_i hpay
          split at hkind
          · rename_i payload hpay'
            exact absurd hpay' (hpay payload)
          · cases hkind
      · cases hmatch
    · cases hp
  · obtain ⟨res, rfl⟩ := hr
    rcases readEntry_inv h with h | ⟨record, rfl, h'⟩
    · cases h
    · rcases h' with ⟨_, _, _, h⟩ | ⟨_, _, hp, _, _⟩ | ⟨_, _, _, _, _, h⟩ | ⟨_, _, _, h⟩
      · cases h
      · exact hp
      · cases h
      · cases h

theorem exists_resolutionsOf : ∀ {rs : List Reading} {s : Nat} {res : Resolution},
    (∃ n, (n, res) ∈ resolutionsOf s rs) ↔ Reading.resolution res ∈ rs
  | [], s, res => by simp [resolutionsOf]
  | r :: rs, s, res => by
    have ih := @exists_resolutionsOf rs (s + 1) res
    cases r with
    | resolution res' =>
      simp only [resolutionsOf, List.mem_cons, Prod.mk.injEq, Reading.resolution.injEq, exists_or, ih]
      refine or_congr ?_ Iff.rfl
      exact ⟨fun h => h.choose_spec.2, fun h => ⟨s, rfl, h⟩⟩
    | _ => simpa [resolutionsOf] using ih

theorem acknowledge_nil {fold : SelectorFold} (h : fold.resolutions = []) (evidence : List PrefixEvidence) :
    acknowledge rt fold evidence = .ok .empty := by
  unfold acknowledge
  rw [h]
  rfl

theorem acknowledge_unknown {fold : SelectorFold} (hv : fold.violations = .empty) (hne : fold.resolutions ≠ [])
    (hrefs : ∀ x ∈ fold.resolutions, x.2.violations ≠ []) (evidence : List PrefixEvidence) :
    ∃ msg, acknowledge rt fold evidence = .error (.protocol msg) := by
  unfold acknowledge
  have hperm := List.perm_insertionSort (fun a b : Nat × Resolution => a.1 ≤ b.1) fold.resolutions
  cases hord : fold.resolutions.insertionSort fun a b => a.1 ≤ b.1 with
  | nil =>
    rw [hord] at hperm
    exact absurd hperm.symm.eq_nil hne
  | cons x ordered =>
    cases evidence with
    | nil => exact ⟨_, rfl⟩
    | cons e evidence =>
      simp only [List.isEmpty_cons, Bool.not_false, Bool.true_and, List.zip_cons_cons, List.foldlM_cons]
      split
      · exact ⟨_, rfl⟩
      · have hx : x.2.violations ≠ [] := by
          refine hrefs x (hperm.mem_iff.mp ?_)
          rw [hord]
          exact List.mem_cons_self ..
        simp only [acknowledgeOne]
        split
        · exact ⟨_, rfl⟩
        · cases hvs : x.2.violations with
          | nil => exact absurd hvs hx
          | cons ref refs =>
            have hnone : (fold.violationByFingerprint rt).get? ref.fingerprint = none := by
              rw [SelectorFold.violationByFingerprint, hv]
              rfl
            rw [List.foldlM_cons, acknowledgeRef, hnone]
            exact ⟨_, rfl⟩

theorem select_congr {fold fold' : SelectorFold} {acknowledged acknowledged' : Acknowledged}
    (hc : fold'.candidates = fold.candidates) :
    (fold'.select rt acknowledged').active = (fold.select rt acknowledged).active ∧
    (fold'.select rt acknowledged').byId = (fold.select rt acknowledged).byId ∧
    (fold'.select rt acknowledged').conflicts = (fold.select rt acknowledged).conflicts := by
  simp only [SelectorFold.select, hc, and_self]

theorem masked_selection {records : List Json} {evidence : List PrefixEvidence} {sel : EffectiveSelection}
    {fold : SelectorFold} {placeholder : Json} (hp : placeholder.isObj = false)
    (h : resolveEffectiveEvents rt records evidence = .ok (sel, fold)) (evidence' : List PrefixEvidence) :
    ((∀ e ∈ records, isProtocolResolution e = false) →
      ∃ sel' fold', resolveEffectiveEvents rt (records.map (mask sel.completedBatches placeholder)) evidence' =
          .ok (sel', fold') ∧
        sel'.active = sel.active ∧ sel'.byId = sel.byId ∧ sel'.conflicts = sel.conflicts ∧
        sel'.completedBatches = sel.completedBatches) ∧
    ((∃ e ∈ records, isProtocolResolution e = true) →
      ∃ msg, resolveEffectiveEvents rt (records.map (mask sel.completedBatches placeholder)) evidence' =
        .error (.protocol msg)) := by
  obtain ⟨hfold, acknowledged, -, rfl⟩ := resolveEffectiveEvents_eq_ok.mp h
  obtain ⟨rs, hrs, hR⟩ := accumulate_resolved hfold
  obtain ⟨fold', hfold', hcand, hcomp, hviol, hres⟩ := masked_accumulate hp hfold
  have hres₀ : fold.resolutions = resolutionsOf 0 rs := hR.resolutions.trans (phaseOne_resolutions rs)
  refine ⟨fun hno => ?_, fun hop => ?_⟩
  · have hnil : fold'.resolutions = [] := by
      rw [hres, hres₀, List.eq_nil_iff_forall_not_mem]
      intro x hx
      obtain ⟨n, hn⟩ := List.mem_iff_getElem?.mp (exists_resolutionsOf.mp ⟨x.1, hx⟩)
      obtain ⟨entry, he, hr⟩ := (readEntries_getElem_iff hrs).mp hn
      have := (readEntry_resolution hr).mpr ⟨x.2, rfl⟩
      rw [hno entry (List.mem_of_getElem? he)] at this
      cases this
    refine ⟨fold'.select rt .empty, fold', ?_, ?_⟩
    · exact resolveEffectiveEvents_eq_ok.mpr ⟨hfold', .empty, acknowledge_nil hnil evidence', rfl⟩
    · obtain ⟨ha, hb, hc⟩ := @select_congr rt fold fold' acknowledged .empty hcand
      exact ⟨ha, hb, hc, hcomp⟩
  · obtain ⟨entry, he, hpr⟩ := hop
    obtain ⟨n, hn⟩ := List.mem_iff_getElem?.mp he
    obtain ⟨r, hr, hread⟩ := readEntries_getElem hrs hn
    obtain ⟨res, rfl⟩ := (readEntry_resolution hread).mp hpr
    obtain ⟨m, hm⟩ := exists_resolutionsOf.mpr (List.mem_of_getElem? hr)
    have hne : fold'.resolutions ≠ [] := by
      rw [hres, hres₀]
      exact List.ne_nil_of_mem hm
    have hrefs : ∀ x ∈ fold'.resolutions, x.2.violations ≠ [] := by
      rw [hres, hres₀]
      intro x hx
      obtain ⟨k, hk⟩ := List.mem_iff_getElem?.mp (exists_resolutionsOf.mp ⟨x.1, hx⟩)
      obtain ⟨entry', -, hr'⟩ := (readEntries_getElem_iff hrs).mp hk
      rcases readEntry_inv hr' with h | ⟨record, rfl, h'⟩
      · cases h
      · rcases h' with ⟨_, _, _, h⟩ | ⟨_, _, _, hv, h⟩ | ⟨_, _, _, _, _, h⟩ | ⟨_, _, _, h⟩
        · cases h
        · cases h; exact validateProtocolResolution_violations hv
        · cases h
        · cases h
    obtain ⟨msg, hmsg⟩ := acknowledge_unknown hviol hne hrefs evidence'
    refine ⟨msg, ?_⟩
    unfold resolveEffectiveEvents
    rw [show (fold.select rt acknowledged).completedBatches = fold.completed from rfl, hfold', Except.ok_bind, hmsg]
    rfl

end

end Cctally
