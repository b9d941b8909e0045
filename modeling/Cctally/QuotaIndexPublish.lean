import Cctally.QuotaIndexTracks

/-!
# What a published index lists

At its publication the index lists each key on the complete lines of the current segments once.
Cut off before the sidecar's rename, it leaves the previous index or none. Later it is valid only
while what it covers is there.
-/

namespace Cctally.QuotaIndex

open Attribution (segmentSortKey)
open Segments (isSegmentName)
open TornLines DurableDir

variable {Key : Type*}

def extentOf (bytes : Bytes) : Nat :=
  if tailLength bytes < COMPLETE_LINE_TAIL_WINDOW then (lines newline bytes).flatten.length else 0

def extents (dir : Dir Key) : List Covered :=
  (listSegments dir).filterMap fun name =>
    (contentOf dir (.segment name)).map fun found => ⟨name, found.1, extentOf found.2.bytes⟩

variable {dir dir' : Dir Key} {coverage : Coverage} {keys : List Key}

theorem mem_extents {c : Covered} : c ∈ extents dir ↔ c.name ∈ listSegments dir ∧
    ∃ content, contentOf dir (.segment c.name) = some (c.node, content) ∧ c.extent = extentOf content.bytes := by
  rw [extents, List.mem_filterMap]
  constructor
  · intro ⟨name, hname, hmap⟩
    obtain ⟨found, hfound, rfl⟩ := Option.map_eq_some_iff.1 hmap
    exact ⟨hname, found.2, hfound, rfl⟩
  · intro ⟨hname, content, hcontent, hextent⟩
    refine ⟨c.name, hname, ?_⟩
    rw [hcontent, Option.map_some, ← hextent]

theorem map_name_extents (dir : Dir Key) : (extents dir).map Covered.name = listSegments dir := by
  have hname : ∀ name ∈ listSegments dir, ((contentOf dir (.segment name)).map fun found =>
      (⟨name, found.1, extentOf found.2.bytes⟩ : Covered)).map Covered.name = some name := by
    intro name hmem
    obtain ⟨_, i, hlive⟩ := mem_listSegments.1 hmem
    rw [contentOf, hlive]
    rfl
  rw [extents, List.map_filterMap, List.filterMap_congr hname, List.filterMap_some]

theorem extents_sorted (dir : Dir Key) : (extents dir).Pairwise fun a b => segmentSortKey a.name < segmentSortKey b.name := by
  have hsorted := listSegments_sorted dir
  rwa [← map_name_extents, List.pairwise_map] at hsorted

theorem covered_sorted (coverage : Coverage) :
    (covered coverage).Pairwise fun a b => segmentSortKey a.name < segmentSortKey b.name := by
  have hle : (covered coverage).Pairwise fun a b => segmentSortKey a.name ≤ segmentSortKey b.name :=
    have : Std.Total fun a b : Covered => segmentSortKey a.name ≤ segmentSortKey b.name :=
      ⟨fun a b => le_total (segmentSortKey a.name) (segmentSortKey b.name)⟩
    have : IsTrans Covered fun a b => segmentSortKey a.name ≤ segmentSortKey b.name := ⟨fun a b c => le_trans⟩
    List.pairwise_insertionSort _ _
  have hnames : ((covered coverage).map Covered.name).Nodup := by
    refine ((List.perm_insertionSort _ _).map _).nodup_iff.2 ?_
    rw [List.map_map]
    exact coverage.nodup
  exact (hle.and (List.pairwise_map.1 hnames)).imp fun h =>
    lt_of_le_of_ne h.1 fun heq => h.2 (Segments.segmentSortKey_injective heq)

theorem mem_covered {c : Covered} : c ∈ covered coverage ↔ coverage.get? c.name = some (c.node, c.extent) := by
  rw [covered, (List.perm_insertionSort _ _).mem_iff, List.mem_map, Dict.get?_eq_some]
  constructor
  · intro ⟨e, he, heq⟩
    rw [← heq]
    exact he
  · intro h
    exact ⟨_, h, rfl⟩

theorem covered_eq (h : ∀ name i extent, coverage.get? name = some (i, extent) ↔ name ∈ listSegments dir ∧
    ∃ content, contentOf dir (.segment name) = some (i, content) ∧ extent = completeLineOffset content.bytes) :
    covered coverage = extents dir := by
  refine eq_of_sorted (covered_sorted coverage) (extents_sorted dir) fun c => ?_
  rw [mem_covered, mem_extents, h]
  simp only [completeLineOffset_eq, extentOf]

/-! ## The renames -/

theorem contentOf_publishKeys (hexisting : Existing dir) (coverage : Coverage) (keys : List Key) (name : String) :
    contentOf (publishKeys dir coverage keys) (.segment name) = contentOf dir (.segment name) := by
  have hlive : (publishKeys dir coverage keys).live.get? (.segment name) = dir.live.get? (.segment name) :=
    Dict.get?_set_ne _ _ nofun
  rw [contentOf, contentOf, hlive]
  cases hget : dir.live.get? (.segment name) with
  | none => rfl
  | some i =>
    have hlt := hexisting.entry_lt _ i hget
    have hnode : (publishKeys dir coverage keys).node i = dir.node i :=
      (Function.update_of_ne (Nat.ne_of_lt (Nat.lt_succ_of_lt hlt)) _ _).trans (Function.update_of_ne (Nat.ne_of_lt hlt) _ _)
    rw [Option.map_some, Option.map_some, hnode]

theorem contentOf_publishBoth (hexisting : Existing dir) (coverage : Coverage) (keys : List Key) (name : String) :
    contentOf (publishBoth dir coverage keys) (.segment name) = contentOf dir (.segment name) := by
  rw [← contentOf_publishKeys hexisting coverage keys name, contentOf, contentOf, publishBoth]
  have hlive : ((publishKeys dir coverage keys).rename .sidecar (dir.fresh + 1)).live.get? (.segment name) =
      (publishKeys dir coverage keys).live.get? (.segment name) := Dict.get?_set_ne _ _ (by simp)
  rw [hlive]
  rfl

theorem node_publishKeys : (publishKeys dir coverage keys).node dir.fresh = .keys ⟨keys, .whole⟩ :=
  (Function.update_of_ne (Nat.ne_of_lt (Nat.lt_succ_self _)) _ _).trans (Function.update_self _ _ _)

theorem contentOf_keys (dir : Dir Key) (coverage : Coverage) (keys : List Key) :
    contentOf (publishKeys dir coverage keys) .keys = some (dir.fresh, .keys ⟨keys, .whole⟩) := by
  have hlive : (publishKeys dir coverage keys).live.get? .keys = some dir.fresh := Dict.get?_set_self _ _ _
  rw [contentOf, hlive, Option.map_some, node_publishKeys]

theorem validate_publishKeys (hexisting : Existing dir) (coverage : Coverage) (keys : List Key) :
    validate (publishKeys dir coverage keys) = none := by
  rw [validate, contentOf_keys]
  split
  next j s i file hsidecar hkeys =>
    cases hkeys
    obtain ⟨hlive, hnode⟩ := node_of_contentOf hsidecar
    have hget : dir.live.get? .sidecar = some j := (Dict.get?_set_ne dir.live dir.fresh (nofun : Entry.keys ≠ Entry.sidecar)).symm.trans hlive
    have hlt := hexisting.entry_lt _ j hget
    have hold : dir.node j = .sidecar s :=
      ((Function.update_of_ne (Nat.ne_of_lt (Nat.lt_succ_of_lt hlt)) _ _).trans
        (Function.update_of_ne (Nat.ne_of_lt hlt) _ _)).symm.trans hnode
    exact if_neg fun hvalid => Nat.ne_of_gt (hexisting.index_lt j s hold) hvalid.2.1
  next => rfl

theorem listSegments_congr (h : ∀ name, contentOf dir' (.segment name) = contentOf dir (.segment name)) :
    listSegments dir' = listSegments dir := by
  refine eq_of_sorted (listSegments_sorted dir') (listSegments_sorted dir) fun name => ?_
  rw [mem_listSegments, mem_listSegments]
  refine and_congr_right fun _ => ?_
  have hname := h name
  rw [contentOf, contentOf] at hname
  cases hget : dir.live.get? (.segment name) <;> cases hget' : dir'.live.get? (.segment name) <;> rw [hget, hget'] at hname <;>
    simp at hname ⊢

theorem extents_congr (h : ∀ name, contentOf dir' (.segment name) = contentOf dir (.segment name)) :
    extents dir' = extents dir := by
  rw [extents, extents, listSegments_congr h]
  simp only [h]

theorem extentOf_eq (bytes : Bytes) : extentOf bytes = completeLineOffset bytes := (completeLineOffset_eq bytes).symm

theorem validate_publishBoth (hexisting : Existing dir) (hcovered : covered coverage = extents dir) (keys : List Key) :
    validate (publishBoth dir coverage keys) = some (newSidecar dir.fresh coverage keys, dir.fresh, ⟨keys, .whole⟩) := by
  have hsidecar : contentOf (publishBoth dir coverage keys) .sidecar =
      some (dir.fresh + 1, .sidecar (newSidecar dir.fresh coverage keys)) := by
    have hlive : (publishBoth dir coverage keys).live.get? .sidecar = some (dir.fresh + 1) := Dict.get?_set_self _ _ _
    have hnode : (publishBoth dir coverage keys).node (dir.fresh + 1) = .sidecar (newSidecar dir.fresh coverage keys) :=
      Function.update_self _ _ _
    rw [contentOf, hlive, Option.map_some, hnode]
  have hkeys : contentOf (publishBoth dir coverage keys) .keys = some (dir.fresh, .keys ⟨keys, .whole⟩) := by
    have hlive : (publishBoth dir coverage keys).live.get? .keys = (publishKeys dir coverage keys).live.get? .keys :=
      Dict.get?_set_ne _ _ (by simp)
    rw [contentOf, hlive]
    exact contentOf_keys dir coverage keys
  have hsegment := contentOf_publishBoth hexisting coverage keys
  have hsame : (newSidecar dir.fresh coverage keys).coverage = extents dir := hcovered
  rw [validate, hsidecar, hkeys]
  refine if_pos ⟨?_, rfl, Nat.le_add_right _ _, ?_, .inr rfl, ?_, ?_⟩
  · rw [readMeta, hsame, Bool.and_eq_true, Bool.and_eq_true, decide_eq_true_eq, decide_eq_true_eq, List.all_eq_true,
      map_name_extents]
    refine ⟨⟨Nat.mul_comm _ _, nodup_of_sorted (listSegments_sorted dir)⟩, fun c hc => ?_⟩
    have hname := (mem_listSegments.1 (mem_extents.1 hc).1).1
    rw [isSegmentName, Bool.and_eq_true] at hname
    exact hname.1
  · rw [KeyFile.size, newSidecar, Nat.add_sub_cancel_left]
    rfl
  · rw [hsame, List.all_eq_true]
    intro c hc
    obtain ⟨_, content, hcontent, hextent⟩ := mem_extents.1 hc
    rw [covers, hsegment, hcontent, hextent, extentOf_eq]
    simp only [decide_true, Bool.true_and, decide_eq_true_eq]
    exact (completeLineOffset_cut _).le_length
  · rw [coversFirst, hsame, listSegments_congr hsegment, map_name_extents, List.all_eq_true]
    intro name hname
    rw [decide_eq_true hname, Bool.true_or]

section
variable (keyOf : Bytes → Option Key)

def Listed (dir : Dir Key) (k : Key) : Prop :=
  ∃ name ∈ listSegments dir, ∃ i content, contentOf dir (.segment name) = some (i, content) ∧
    tailLength content.bytes < COMPLETE_LINE_TAIL_WINDOW ∧ k ∈ keysOf keyOf content.bytes

structure Published (dir : Dir Key) (sidecar : Sidecar) (i : Nat) (keys : List Key) : Prop where
  valid : validate dir = some (sidecar, i, ⟨keys, .whole⟩)
  once : keys.Nodup
  listed : ∀ k, k ∈ keys ↔ Listed keyOf dir k
  coverage : sidecar.coverage = extents dir
  counts : sidecar.keyCount = keys.length ∧ sidecar.indexBytes = KeyFile.size ⟨keys, .whole⟩

end

variable {keyOf : Bytes → Option Key}

theorem keysOf_take (bytes : Bytes) : keysOf keyOf (bytes.take (completeLineOffset bytes)) =
    if tailLength bytes < COMPLETE_LINE_TAIL_WINDOW then keysOf keyOf bytes else [] := by
  rw [completeLineOffset_eq]
  split
  · rw [take_leading List.prefix_rfl, keysOf, lines_leading List.prefix_rfl, keysOf]
  · rw [List.take_zero]
    rfl

theorem listed_congr (h : ∀ name, contentOf dir' (.segment name) = contentOf dir (.segment name)) (k : Key) :
    Listed keyOf dir' k ↔ Listed keyOf dir k := by
  rw [Listed, Listed, listSegments_congr h]
  simp only [h]

theorem mem_iff_listed (hscanned : Scanned keyOf dir coverage keys)
    (hcoverage : ∀ name i extent, coverage.get? name = some (i, extent) ↔ name ∈ listSegments dir ∧
      ∃ content, contentOf dir (.segment name) = some (i, content) ∧ extent = completeLineOffset content.bytes) (k : Key) :
    k ∈ keys ↔ Listed keyOf dir k := by
  rw [hscanned.mem]
  constructor
  · intro h
    obtain ⟨name, i, extent, hget, hk⟩ := h
    obtain ⟨hname, content, hcontent, rfl⟩ := (hcoverage name i extent).1 hget
    rw [keysUpTo, (node_of_contentOf hcontent).2, keysOf_take] at hk
    split at hk
    next htail => exact ⟨name, hname, i, content, hcontent, htail, hk⟩
    next => cases hk
  · intro h
    obtain ⟨name, hname, i, content, hcontent, htail, hk⟩ := h
    refine ⟨name, i, _, (hcoverage name i _).2 ⟨hname, content, hcontent, rfl⟩, ?_⟩
    rw [keysUpTo, (node_of_contentOf hcontent).2, keysOf_take, if_pos htail]
    exact hk

theorem published_of_scanned (hexisting : Existing dir) (hscanned : Scanned keyOf dir coverage keys)
    (hcoverage : ∀ name i extent, coverage.get? name = some (i, extent) ↔ name ∈ listSegments dir ∧
      ∃ content, contentOf dir (.segment name) = some (i, content) ∧ extent = completeLineOffset content.bytes) :
    Published keyOf (publishBoth dir coverage keys) (newSidecar dir.fresh coverage keys) dir.fresh keys := by
  have hcovered := covered_eq hcoverage
  have hsegment := contentOf_publishBoth hexisting coverage keys
  refine ⟨validate_publishBoth hexisting hcovered keys, hscanned.nodup, fun k => ?_, ?_, rfl, rfl⟩
  · rw [listed_congr hsegment]
    exact mem_iff_listed hscanned hcoverage k
  · rw [extents_congr hsegment]
    exact hcovered

structure Guards (dir : Dir Key) (sidecar : Sidecar) (dir' : Dir Key) : Prop where
  there : ∀ c ∈ sidecar.coverage, ∃ content, contentOf dir' (.segment c.name) = some (c.node, content) ∧
    c.extent ≤ content.bytes.length ∧ content.bytes.take c.extent = (dir.node c.node).bytes.take c.extent
  sorts : ∀ name ∈ listSegments dir', name ∉ sidecar.coverage.map Covered.name → ∀ c ∈ sidecar.coverage,
    segmentSortKey c.name < segmentSortKey name

theorem validFor_of_validate {sidecar : Sidecar} {i : Nat} {file : KeyFile Key} (h : validate dir = some (sidecar, i, file)) :
    validFor dir sidecar i file := by
  rw [validate] at h
  split at h
  next =>
    split at h
    next hvalid =>
      cases h
      exact hvalid
    next => cases h
  next => cases h

theorem contentOf_of_validate {sidecar : Sidecar} {i : Nat} {file : KeyFile Key} (h : validate dir = some (sidecar, i, file)) :
    contentOf dir .keys = some (i, .keys file) := by
  rw [validate] at h
  split at h
  next hsidecar hkeys =>
    split at h
    next =>
      cases h
      exact hkeys
    next => cases h
  next => cases h

theorem sidecar_of_validate {sidecar : Sidecar} {i : Nat} {file : KeyFile Key} (h : validate dir = some (sidecar, i, file)) :
    ∃ j, contentOf dir .sidecar = some (j, .sidecar sidecar) := by
  rw [validate] at h
  split at h
  next j _ _ _ hsidecar _ =>
    split at h
    next =>
      cases h
      exact ⟨j, hsidecar⟩
    next => cases h
  next => cases h

theorem guards_of_validate (hexisting : Existing dir) (hfollows : Follows dir dir') {sidecar : Sidecar}
    (hcoverage : sidecar.coverage = extents dir) {i : Nat} {file : KeyFile Key} (h : validate dir' = some (sidecar, i, file)) :
    Guards dir sidecar dir' := by
  obtain ⟨_, _, _, _, _, hcovers, hfirst⟩ := validFor_of_validate h
  refine ⟨fun c hc => ?_, fun name hname hnot c hc => ?_⟩
  · have hcover := List.all_eq_true.1 hcovers c hc
    rw [covers] at hcover
    split at hcover
    next j content hcontent =>
      rw [Bool.and_eq_true, decide_eq_true_eq, decide_eq_true_eq] at hcover
      obtain ⟨rfl, hle⟩ := hcover
      refine ⟨content, hcontent, hle, ?_⟩
      obtain ⟨_, before, hbefore, hextent⟩ := mem_extents.1 (hcoverage ▸ hc)
      obtain ⟨hlive, hnode⟩ := node_of_contentOf hbefore
      have hcut : Cut newline (dir.node c.node).bytes c.extent := by
        rw [hnode, hextent, extentOf_eq]
        exact completeLineOffset_cut _
      have hnow : dir'.node c.node = content := (node_of_contentOf hcontent).2
      rw [← hnow]
      exact (Cut.follow hfollows (hexisting.entry_lt _ _ hlive) hcut).2
    next => cases hcover
  · have hsort := List.all_eq_true.1 hfirst name hname
    rw [decide_eq_false hnot, Bool.false_or, List.all_eq_true] at hsort
    exact of_decide_eq_true (hsort c hc)

/-! ## Runs -/

theorem rebuild_publish {s : State Key} {p : Nat} {halt : Option PublishHalt} (coverage : Coverage) (keys : List Key) :
    (publish { s with rebuild := none } p coverage keys halt).rebuild = none := by
  rw [publish.eq_def]
  split <;> rfl

section
variable [LinearOrder Key] {suffixBound maxAttempts : Nat} {s : State Key} {events : List Event} {p : Nat} {halt : Option PublishHalt}

theorem run_follows (h : Event.powerLoss ∉ events) : Follows s.dir (run keyOf suffixBound maxAttempts s events).dir := by
  induction events generalizing s with
  | nil => exact .refl _
  | cons e events ih =>
    rw [List.mem_cons, not_or] at h
    exact (step_follows (Ne.symm h.1)).trans (ih h.2)

def Tracking (keyOf : Bytes → Option Key) (s : State Key) : Prop :=
  ∀ q r, s.rebuild = some (q, r) → Tracks keyOf s.dir r

theorem step_tracking (hentry : ∀ e i, s.dir.live.get? e = some i → i < s.dir.fresh) (h : Tracking keyOf s) (e : Event) :
    Tracking keyOf (step keyOf suffixBound maxAttempts s e) := by
  intro q r hr
  by_cases he : e = .powerLoss
  · subst he
    cases hr
  rcases rebuild_of_step hr with hold | ⟨p, halt, rfl⟩
  · exact (h q r hold).follow (step_follows he)
  · have hstep : Rebuilt keyOf suffixBound maxAttempts s p halt (step keyOf suffixBound maxAttempts s (.rebuild p halt)) :=
      rebuildStep_rebuilt
    generalize step keyOf suffixBound maxAttempts s (.rebuild p halt) = s' at hstep hr ⊢
    cases hstep with
    | idle => exact h q r hr
    | started =>
      cases hr
      exact ⟨scanned_empty keyOf s.dir, nofun, List.nodup_nil⟩
    | advanced hold hnext =>
      cases hr
      exact advance_tracks hentry (h _ _ hold) hnext
    | failed => cases hr
    | published =>
      rw [rebuild_publish] at hr
      cases hr

theorem run_tracking (hexisting : Existing s.dir) (h : Tracking keyOf s) (hpower : Event.powerLoss ∉ events) :
    Tracking keyOf (run keyOf suffixBound maxAttempts s events) := by
  induction events generalizing s with
  | nil => exact h
  | cons e events ih =>
    rw [List.mem_cons, not_or] at hpower
    exact ih ((step_follows (Ne.symm hpower.1)).existing hexisting) (step_tracking hexisting.entry_lt h e) hpower.2

def publishes (keyOf : Bytes → Option Key) (suffixBound maxAttempts : Nat) (s : State Key) (p : Nat) : Bool :=
  match s.rebuild with
  | some (q, r) =>
    decide (q = p) && match advance keyOf suffixBound maxAttempts s.dir r with
      | .publish _ _ => true
      | _ => false
  | none => false

theorem publishes_iff : publishes keyOf suffixBound maxAttempts s p = true ↔ ∃ r coverage keys, s.rebuild = some (p, r) ∧
    advance keyOf suffixBound maxAttempts s.dir r = .publish coverage keys := by
  rw [publishes]
  split
  next q r hr =>
    rw [hr, Bool.and_eq_true, decide_eq_true_eq]
    constructor
    · intro ⟨hq, hadvance⟩
      subst hq
      split at hadvance
      next coverage keys h => exact ⟨r, coverage, keys, rfl, h⟩
      next => cases hadvance
    · intro ⟨r', coverage, keys, hr', h⟩
      cases hr'
      rw [h]
      exact ⟨rfl, rfl⟩
  next hnone =>
    rw [hnone]
    exact ⟨nofun, fun ⟨_, _, _, hr, _⟩ => nomatch hr⟩

theorem rebuildStep_publish {r : Rebuild Key} {coverage : Coverage} {keys : List Key} (hr : s.rebuild = some (p, r))
    (h : advance keyOf suffixBound maxAttempts s.dir r = .publish coverage keys) :
    rebuildStep keyOf suffixBound maxAttempts s p halt = publish { s with rebuild := none } p coverage keys halt := by
  rw [rebuildStep, hr]
  simp only [ne_eq, not_true, if_false, h]

theorem dir_of_not_publishes (h : publishes keyOf suffixBound maxAttempts s p = false) :
    (rebuildStep keyOf suffixBound maxAttempts s p halt).dir = s.dir := by
  have hstep : Rebuilt keyOf suffixBound maxAttempts s p halt (rebuildStep keyOf suffixBound maxAttempts s p halt) :=
    rebuildStep_rebuilt
  generalize rebuildStep keyOf suffixBound maxAttempts s p halt = s' at hstep ⊢
  cases hstep with
  | published hr hpublish =>
    rw [publishes_iff.2 ⟨_, _, _, hr, hpublish⟩] at h
    cases h
  | _ => rfl

/-- **A rebuild among the appends and replacements of others**: what it publishes is exact, a cut before the sidecar's
rename leaves the previous index or none, and later validation stands for what is covered. -/
theorem rebuild_sound (hexisting : Existing s.dir) (hidle : s.rebuild = none) (hpower : Event.powerLoss ∉ events) (p : Nat)
    (halt : Option PublishHalt) :
    let before := run keyOf suffixBound maxAttempts s events
    let after := step keyOf suffixBound maxAttempts before (.rebuild p halt)
    (publishes keyOf suffixBound maxAttempts before p = true → halt ≠ some .keysRenamed →
      ∃ sidecar i keys, Published keyOf after.dir sidecar i keys ∧ ∀ later, Event.powerLoss ∉ later → ∀ j file,
        validate (run keyOf suffixBound maxAttempts after later).dir = some (sidecar, j, file) →
          Guards after.dir sidecar (run keyOf suffixBound maxAttempts after later).dir) ∧
    (publishes keyOf suffixBound maxAttempts before p = false → validate after.dir = validate before.dir) ∧
    (publishes keyOf suffixBound maxAttempts before p = true → halt = some .keysRenamed → validate after.dir = none) ∧
    validate (step keyOf suffixBound maxAttempts before (.exit p)).dir = validate before.dir := by
  intro before after
  have hexisting' : Existing before.dir := (run_follows hpower).existing hexisting
  have htracking : Tracking keyOf before :=
    run_tracking hexisting (fun q r hr => by rw [hidle] at hr; cases hr) hpower
  refine ⟨fun hpublishes hhalt => ?_, fun hnot => ?_, fun hpublishes hhalt => ?_, rfl⟩
  · obtain ⟨r, coverage, keys, hr, hadvance⟩ := publishes_iff.1 hpublishes
    obtain ⟨hscanned, hcoverage⟩ := advance_publish hexisting'.entry_lt (htracking p r hr) hadvance
    have hpublished := published_of_scanned hexisting' hscanned hcoverage
    have hafter : after = publish { before with rebuild := none } p coverage keys halt := rebuildStep_publish hr hadvance
    have hdir : Published keyOf after.dir (newSidecar before.dir.fresh coverage keys) before.dir.fresh keys := by
      rw [hafter, publish.eq_def]
      split
      next => exact absurd rfl hhalt
      next => exact hpublished
      next => exact ⟨hpublished.valid, hpublished.once, hpublished.listed, hpublished.coverage, hpublished.counts⟩
    refine ⟨_, _, keys, hdir, fun later hlater j file hvalid => ?_⟩
    have hstep : Follows before.dir after.dir := step_follows fun h => by cases h
    exact guards_of_validate (hstep.existing hexisting') (run_follows hlater) hdir.coverage hvalid
  · rw [show after.dir = before.dir from dir_of_not_publishes hnot]
  · obtain ⟨r, coverage, keys, hr, hadvance⟩ := publishes_iff.1 hpublishes
    have hafter : after = publish { before with rebuild := none } p coverage keys halt := rebuildStep_publish hr hadvance
    rw [hafter, hhalt]
    exact validate_publishKeys hexisting' coverage keys

end

/-! ## A rebuild of one segment -/

def oneSegment (bytes : Bytes) : State Nat :=
  ⟨⟨Dict.empty.set (.segment "bootstrap-1.jsonl") 0, Dict.empty, fun _ => .segment bytes, fun _ => .segment bytes, 1⟩,
    fun _ => noKeys, none⟩

def rebuilding (bytes : Bytes) (r : Rebuild Nat) : State Nat := { oneSegment bytes with rebuild := some (0, r) }

def sevens (line : Bytes) : Option Nat := if line = [7, 10] then some 7 else none

def untilLock : List Event := List.replicate 8 (.rebuild 0 none)

theorem existing_oneSegment (bytes : Bytes) : Existing (oneSegment bytes).dir := by
  refine ⟨fun e i he => ?_, fun i s hs => by cases hs⟩
  change Dict.get? (Dict.set _ _ _) e = _ at he
  rw [Dict.get?_set] at he
  split at he
  · cases he
    exact Nat.zero_lt_one
  · cases he

theorem rebuild_sound_one :
    publishes sevens 4194304 5 (run sevens 4194304 5 (oneSegment [7, 10]) untilLock) 0 = true ∧
    ∃ sidecar i keys, Published sevens
      (step sevens 4194304 5 (run sevens 4194304 5 (oneSegment [7, 10]) untilLock) (.rebuild 0 none)).dir sidecar i keys := by
  have hpublishes : publishes sevens 4194304 5 (run sevens 4194304 5 (oneSegment [7, 10]) untilLock) 0 = true := by
    decide +kernel
  obtain ⟨sidecar, i, keys, hpublished, _⟩ :=
    (rebuild_sound (existing_oneSegment [7, 10]) rfl (by simp [untilLock]) 0 none).1 hpublishes nofun
  exact ⟨hpublishes, sidecar, i, keys, hpublished⟩

theorem lock_oneSegment {bytes : Bytes} (hoffset : completeLineOffset bytes = 0) {suffixBound : Nat}
    (hlength : bytes.length ≤ suffixBound) :
    ∃ coverage, run sevens suffixBound 5 (oneSegment bytes) untilLock = rebuilding bytes ⟨1, coverage, [], .lock⟩ ∧
      advance sevens suffixBound 5 (oneSegment bytes).dir ⟨1, coverage, [], .lock⟩ = .publish coverage [] ∧
      covered coverage = extents (oneSegment bytes).dir := by
  have hlist : listSegments (oneSegment bytes).dir = ["bootstrap-1.jsonl"] := rfl
  have hcontent : contentOf (oneSegment bytes).dir (.segment "bootstrap-1.jsonl") = some (0, .segment bytes) := rfl
  have hcapture : captureSegments (oneSegment bytes).dir = [⟨"bootstrap-1.jsonl", 0, 0, 0⟩] := by
    rw [captureSegments, hlist]
    simp [hcontent, Content.bytes, hoffset]
  generalize hcoverage : (Dict.empty.set "bootstrap-1.jsonl" (0, 0) : Coverage) = coverage
  have huncovered : ∀ measure, uncovered (oneSegment bytes).dir coverage measure =
      .ok [⟨"bootstrap-1.jsonl", 0, 0, measure bytes⟩] := fun measure => by
    subst hcoverage
    have hfind : ((Dict.empty.set "bootstrap-1.jsonl" (0, 0) : Coverage).keys.find? fun name =>
        decide (name ∉ listSegments (oneSegment bytes).dir)) = none := rfl
    have hget : (Dict.empty.set "bootstrap-1.jsonl" (0, 0) : Coverage).get? "bootstrap-1.jsonl" = some (0, 0) := rfl
    rw [uncovered, hfind, hlist]
    simp [uncoveredOf, hcontent, hget, Content.bytes, pure, Except.pure, bind, Except.bind]
  have hstart : rebuildStep sevens suffixBound 5 (oneSegment bytes) 0 none =
      rebuilding bytes ⟨0, Dict.empty, [], .capture⟩ := rfl
  have hcaptured : advance sevens suffixBound 5 (oneSegment bytes).dir ⟨0, Dict.empty, [], .capture⟩ =
      .next ⟨1, Dict.empty, [], .scan [⟨"bootstrap-1.jsonl", 0, 0, 0⟩]⟩ := by
    rw [← hcapture]
    rfl
  have hscanned : advance sevens suffixBound 5 (oneSegment bytes).dir ⟨1, Dict.empty, [], .scan [⟨"bootstrap-1.jsonl", 0, 0, 0⟩]⟩ =
      .next ⟨1, coverage, [], .scan []⟩ := by
    rw [← hcoverage]
    rfl
  have hsorted : advance sevens suffixBound 5 (oneSegment bytes).dir ⟨1, coverage, [], .scan []⟩ =
      .next ⟨1, coverage, [], .measure 0⟩ := rfl
  have hmeasured : advance sevens suffixBound 5 (oneSegment bytes).dir ⟨1, coverage, [], .measure 0⟩ =
      .next ⟨1, coverage, [], .grow 0 [⟨"bootstrap-1.jsonl", 0, 0, 0⟩]⟩ := by
    rw [advance.eq_def]
    simp only [huncovered, hoffset]
    rfl
  have hgrown : advance sevens suffixBound 5 (oneSegment bytes).dir ⟨1, coverage, [], .grow 0 [⟨"bootstrap-1.jsonl", 0, 0, 0⟩]⟩ =
      .next ⟨1, coverage, [], .grow 0 []⟩ := by
    rw [← hcoverage]
    rfl
  have hfinished : advance sevens suffixBound 5 (oneSegment bytes).dir ⟨1, coverage, [], .grow 0 []⟩ =
      .next ⟨1, coverage, [], .remaining 0⟩ := rfl
  have hremaining : advance sevens suffixBound 5 (oneSegment bytes).dir ⟨1, coverage, [], .remaining 0⟩ =
      .next ⟨1, coverage, [], .lock⟩ := by
    rw [advance.eq_def]
    simp only [huncovered, uncoveredBytes, List.map_cons, List.map_nil, List.sum_singleton, Nat.sub_zero, if_pos hlength]
  have hlock : advance sevens suffixBound 5 (oneSegment bytes).dir ⟨1, coverage, [], .lock⟩ = .publish coverage [] := by
    rw [advance.eq_def]
    simp only [huncovered, hoffset]
    rw [← hcoverage]
    rfl
  have hnext : ∀ {r r'}, advance sevens suffixBound 5 (oneSegment bytes).dir r = .next r' →
      rebuildStep sevens suffixBound 5 (rebuilding bytes r) 0 none = rebuilding bytes r' := fun {r r'} h => by
    change rebuildStep _ _ _ ⟨(oneSegment bytes).dir, _, some (0, r)⟩ 0 none = _
    rw [rebuildStep]
    simp only [ne_eq, not_true, if_false, h]
    rfl
  have hrun : run sevens suffixBound 5 (oneSegment bytes) untilLock = rebuilding bytes ⟨1, coverage, [], .lock⟩ := by
    simp only [untilLock, List.replicate, run, List.foldl_cons, List.foldl_nil, step, hstart]
    rw [hnext hcaptured, hnext hscanned, hnext hsorted, hnext hmeasured, hnext hgrown, hnext hfinished, hnext hremaining]
  refine ⟨coverage, hrun, hlock, ?_⟩
  have hextents : extents (oneSegment bytes).dir = [⟨"bootstrap-1.jsonl", 0, 0⟩] := by
    rw [extents, hlist]
    simp [hcontent, Content.bytes, extentOf_eq, hoffset]
  rw [hextents, ← hcoverage]
  rfl

theorem left_out {bytes : Bytes} (hoffset : completeLineOffset bytes = 0) {suffixBound : Nat} (hlength : bytes.length ≤ suffixBound)
    {k : Nat} (hk : k ∈ keysOf sevens bytes) :
    let before := run sevens suffixBound 5 (oneSegment bytes) untilLock
    let after := step sevens suffixBound 5 before (.rebuild 0 none)
    publishes sevens suffixBound 5 before 0 = true ∧
      ∃ sidecar i keys, validate after.dir = some (sidecar, i, ⟨keys, .whole⟩) ∧ k ∉ keys ∧
        ∃ name ∈ listSegments after.dir, ∃ j content, contentOf after.dir (.segment name) = some (j, content) ∧
          k ∈ keysOf sevens content.bytes := by
  have hexisting := existing_oneSegment bytes
  obtain ⟨coverage, hrun, hadvance, hcovered⟩ := lock_oneSegment hoffset hlength
  intro before after
  have hbefore : before = rebuilding bytes ⟨1, coverage, [], .lock⟩ := hrun
  have hafter : after.dir = (publishBoth (oneSegment bytes).dir coverage []).syncDir := by
    change (rebuildStep sevens suffixBound 5 before 0 none).dir = _
    rw [hbefore, rebuildStep_publish (s := rebuilding bytes ⟨1, coverage, [], .lock⟩) rfl hadvance]
    rfl
  have hsegment := contentOf_publishBoth hexisting coverage ([] : List Nat)
  refine ⟨?_, newSidecar 1 coverage ([] : List Nat), 1, [], ?_, List.not_mem_nil, "bootstrap-1.jsonl", ?_, 0, .segment bytes, ?_, hk⟩
  · rw [hbefore]
    exact publishes_iff.2 ⟨_, _, _, rfl, hadvance⟩
  · rw [hafter]
    exact validate_publishBoth hexisting hcovered []
  · rw [hafter, show listSegments (publishBoth (oneSegment bytes).dir coverage []).syncDir = _ from listSegments_congr hsegment]
    exact List.mem_cons_self
  · rw [hafter]
    exact hsegment _

def longTorn : Bytes := [7, 10] ++ List.replicate (2 ^ 20) 7

/-- **The key of a complete line** is left out when the torn tail after it is too long. -/
theorem long_torn_left_out :
    let before := run sevens 4194304 5 (oneSegment longTorn) untilLock
    let after := step sevens 4194304 5 before (.rebuild 0 none)
    publishes sevens 4194304 5 before 0 = true ∧
      ∃ sidecar i keys, validate after.dir = some (sidecar, i, ⟨keys, .whole⟩) ∧ 7 ∉ keys ∧
        ∃ name ∈ listSegments after.dir, ∃ j content, contentOf after.dir (.segment name) = some (j, content) ∧
          7 ∈ keysOf sevens content.bytes := by
  have htail : ∀ n, newline ∉ List.replicate n (7 : UInt8) := fun n hmem => absurd (List.eq_of_mem_replicate hmem) (by decide)
  have hlines : lines newline longTorn = [[7, 10]] :=
    lines_of_eq (fun l hl => ⟨[7], by decide, List.mem_singleton.1 hl⟩) (htail _)
  have hlength : longTorn.length = 2 + 2 ^ 20 := by
    rw [longTorn, List.length_append, List.length_replicate]
    rfl
  refine left_out ?_ ?_ ?_
  · rw [completeLineOffset_eq, if_neg]
    have hflat : ([[7, 10]] : List Bytes).flatten.length = 2 := rfl
    rw [tailLength, hlines, hlength, hflat, COMPLETE_LINE_TAIL_WINDOW]
    omega
  · rw [hlength]
    omega
  · rw [keysOf, hlines]
    exact List.mem_cons_self

end Cctally.QuotaIndex
