import Cctally.FiveHourHistory

/-!
# Batches that replace milestones

A batch that replaces only milestones the lineage holds names no block, so it
leaves the ids of every block, and it touches no certain close.
-/

namespace Cctally.FiveHour

open Json (field without)

section
variable (env : Env)

structure ReplacesMilestone (lineage : Lineage) (action : Json) (core : ActionCore) : Prop where
  reads : readAction action = .ok core
  replaces : core.action = .replace
  held : (lineage.milestones.get? core.id).isSome = true
  kind : ∃ payload, core.payload = some payload ∧ field payload "kind" = MILESTONE

def ReplacesOther (lineage : Lineage) (id : String) (action : Json) : Prop :=
  ∃ core, ReplacesMilestone lineage action core ∧ core.id ≠ id

def replacedOccurrence (core : ActionCore) (payload : Json.Fields) (name : String) (coordinate : Nat) : Occurrence :=
  { noOccurrence with
    rev := core.rev, status := .active, contentHash := sha256Canonical env.rt (correctionEvent core)
    batchId := some name, availableAt := coordinate, kind := MILESTONE, block := some (fiveHourBlock payload)
    at_ := .str core.at_, identity := some (lineageIdentity payload), blockCost := field payload "block_cost_usd" }

variable {env}

theorem field_correctionEvent (core : ActionCore) :
    ∃ fields, correctionEvent core = .obj fields ∧ field fields "at" = .str core.at_ ∧
      field fields "payload" = core.payloadJson := by
  have hnodup : ["v", "t", "id", "rev", "at", "src", "payload"].Nodup := by decide
  refine ⟨_, rfl, ?_, ?_⟩
  · refine (Json.field_sortFields ?_ "at").trans rfl
    exact hnodup
  · refine (Json.field_sortFields ?_ "payload").trans rfl
    exact hnodup

theorem occurrence_of_replacement {core : ActionCore} {payload : Json.Fields} (hreplace : core.action = .replace)
    (hpayload : core.payload = some payload) (hkind : field payload "kind" = MILESTONE) (name : String) (seq coordinate : Nat) :
    lineageOccurrence env (candidateFromCorrection env.rt ⟨core, name, seq⟩ coordinate) coordinate =
      replacedOccurrence env core payload name coordinate := by
  obtain ⟨fields, hfields, hat, hpay⟩ := field_correctionEvent core
  have hcandidate : candidateFromCorrection env.rt ⟨core, name, seq⟩ coordinate =
      { eventId := core.id, rev := core.rev, status := .active,
        contentHash := sha256Canonical env.rt (correctionEvent core), batchId := some name,
        record := some (correctionEvent core), sequence := some coordinate } := by
    unfold candidateFromCorrection
    rw [hreplace]
  have hpayloadOf : payloadOf (some (correctionEvent core)) = some payload := by
    rw [hfields]
    simp only [payloadOf, hpay, ActionCore.payloadJson, hpayload]
  have hrecordAt : recordAt (some (correctionEvent core)) = .str core.at_ := by
    rw [hfields]
    exact hat
  rw [hcandidate]
  simp only [lineageOccurrence, hpayloadOf, hrecordAt, hkind, MILESTONE, replacedOccurrence]

theorem appended_batch {lineage : Lineage} {batchId : Option String} {actions : List Json} {added : List EffectiveEvent}
    (h : lineage.appended env batchId actions [] = .ok added) :
    ∃ name cores, actions.mapM readAction = .ok cores ∧
      added = cores.mapIdx fun seq core => candidateFromCorrection env.rt ⟨core, name, seq⟩ lineage.nextCoordinate := by
  unfold Lineage.appended at h
  simp only [] at h
  split at h
  · rename_i hempty
    rw [List.isEmpty_iff] at hempty
    cases h
    exact ⟨"", [], by rw [hempty]; rfl, rfl⟩
  · obtain ⟨cores, hcores, hrest⟩ := Except.bind_eq_ok.1 h
    refine ⟨(batchId.filter (· ≠ "")).getD "lineage-extended", cores, hcores, ?_⟩
    cases hrest
    exact List.append_nil _

theorem candidate_eventId (core : ActionCore) (name : String) (seq coordinate : Nat) :
    (candidateFromCorrection env.rt ⟨core, name, seq⟩ coordinate).eventId = core.id := by
  unfold candidateFromCorrection
  split <;> rfl

theorem candidate_sequence (core : ActionCore) (name : String) (seq coordinate : Nat) :
    (candidateFromCorrection env.rt ⟨core, name, seq⟩ coordinate).sequence = some coordinate := by
  unfold candidateFromCorrection
  split <;> rfl

theorem appended_milestones {lineage : Lineage} {batchId : Option String} {actions : List Json}
    {added : List EffectiveEvent} (h : lineage.appended env batchId actions [] = .ok added)
    (hactions : ∀ a ∈ actions, ∃ core, ReplacesMilestone lineage a core) :
    ∀ c ∈ added, (lineage.milestones.get? c.eventId).isSome = true ∧
      isClose (lineageOccurrence env c (c.sequence.getD 0)).kind = false := by
  obtain ⟨name, cores, hcores, rfl⟩ := appended_batch h
  intro c hc
  obtain ⟨seq, hseq, rfl⟩ := List.mem_mapIdx.1 hc
  obtain ⟨a, ha, hread⟩ := (Except.mem_of_mapM hcores _).1 (List.getElem_mem hseq)
  obtain ⟨core, hcore⟩ := hactions a ha
  have heq : core = cores[seq] := Except.ok.inj (hcore.reads.symm.trans hread)
  obtain ⟨payload, hpayload, hkind⟩ := hcore.kind
  rw [← heq, candidate_eventId, candidate_sequence, Option.getD_some,
    occurrence_of_replacement hcore.replaces hpayload hkind]
  exact ⟨hcore.held, rfl⟩

/-! ## What such a batch leaves -/

theorem Sound.closes_of_any {lineage : Lineage} (h : Sound env lineage) {id : String}
    (hany : (activeKinds (lineage.existing id)).any isClose = true) :
    lineage.closes.get? id = some (lineage.existing id) := by
  obtain hview | ⟨items, selected, hview⟩ := h.shape id
  · rw [existing_absent hview] at hany
    cases hany
  · have hc : lineage.closes.get? id = _ := congrArg View.closes hview
    have hm : lineage.milestones.get? id = _ := congrArg View.milestones hview
    by_cases hclose : (activeKinds items).any isClose = true
    · rw [existing_of env hview (.inl hclose), hc]
      simp only [View.of, hclose, if_true]
    · by_cases hmile : (activeKinds items).any isMilestone = true
      · rw [existing_of env hview (.inr hmile), any_activeKinds_sort] at hany
        exact absurd hany hclose
      · have hnil : lineage.existing id = [] := by
          unfold Lineage.existing
          rw [hc, hm]
          simp [View.of, hclose, hmile]
        rw [hnil] at hany
        cases hany

theorem existing_ne_nil {lineage : Lineage} (h : Sound env lineage) {id : String}
    (hheld : (lineage.milestones.get? id).isSome = true) : lineage.existing id ≠ [] := by
  obtain ⟨l, hl⟩ := Option.isSome_iff_exists.1 hheld
  obtain ⟨heq, hany⟩ := h.milestones_eq hl
  intro hnil
  rw [heq, hnil] at hany
  cases hany

theorem after_held {lineage : Lineage} (h : Sound env lineage) {id : String}
    (hheld : (lineage.milestones.get? id).isSome = true) (candidates : List EffectiveEvent) :
    lineage.after env id candidates = View.of env (lineage.existing id ++ freshOccurrences env candidates)
      (id ∈ lineage.hiddenIds) (Lineage.selectedAfter (lineage.selected.get? id) candidates) := by
  have hne := existing_ne_nil h hheld
  unfold Lineage.after
  simp only [List.isEmpty_eq_false_iff.2 hne, Bool.false_and, Bool.false_eq_true, if_false]

theorem after_names {lineage : Lineage} (h : Sound env lineage) {id : String}
    (hheld : (lineage.milestones.get? id).isSome = true) {candidates : List EffectiveEvent}
    (hfresh : ∀ o ∈ freshOccurrences env candidates, isClose o.kind = false) (block : Block) :
    (∃ items, (lineage.after env id candidates).closes = some items ∧ ∃ o ∈ items, Names env block o) ↔
      ∃ items, lineage.closes.get? id = some items ∧ ∃ o ∈ items, Names env block o := by
  rw [after_held h hheld]
  constructor
  · rintro ⟨items, hitems, o, ho, hnames⟩
    have hsplit : (activeKinds (lineage.existing id ++ freshOccurrences env candidates)).any isClose = true ∧
        items = sortOccurrences (lineage.existing id ++ freshOccurrences env candidates) := by
      simp only [View.of, Option.ite_none_right_eq_some, Option.some.injEq] at hitems
      exact ⟨hitems.1, hitems.2.symm⟩
    obtain ⟨o', ho', hact, hclose⟩ := any_activeKinds.1 hsplit.1
    have hold : o' ∈ lineage.existing id := by
      rcases List.mem_append.1 ho' with hmem | hmem
      · exact hmem
      · rw [hfresh o' hmem] at hclose
        cases hclose
    refine ⟨_, h.closes_of_any (any_activeKinds.2 ⟨o', hold, hact, hclose⟩), o, ?_, hnames⟩
    rw [hsplit.2, mem_sortOccurrences] at ho
    rcases List.mem_append.1 ho with hmem | hmem
    · exact hmem
    · have hclose' := hnames.1
      rw [hfresh o hmem] at hclose'
      cases hclose'
  · rintro ⟨items, hitems, o, ho, hnames⟩
    obtain ⟨heq, hany⟩ := h.closes_eq hitems
    rw [heq] at ho hany
    refine ⟨_, if_pos (any_activeKinds_append _ hany), o, ?_, hnames⟩
    exact mem_sortOccurrences.2 (List.mem_append_left _ ho)

theorem eq_of_isMilestone {k : Json} (h : isMilestone k = true) : k = MILESTONE := by
  cases k with
  | str s => exact congrArg Json.str (of_decide_eq_true h)
  | _ => cases h

theorem eq_of_isClose {k : Json} (h : isClose k = true) : k = CLOSE := by
  cases k with
  | str s => exact congrArg Json.str (of_decide_eq_true h)
  | _ => cases h

theorem eq_of_oneKind {kinds : List Json} (h : oneKind env kinds = true) {s : String} (hs : .str s ∈ kinds) {k : Json}
    (hk : k ∈ kinds) : Json.scalar env.fl k = some (.str s) := by
  cases kinds with
  | nil => cases hs
  | cons first rest =>
    simp only [oneKind, List.all_eq_true] at h
    have hfirst : Json.scalar env.fl first = some (.str s) := by
      rcases List.mem_cons.1 hs with heq | hmem
      · rw [← heq]
        rfl
      · exact (Json.eq_scalar_iff env.fl (s := .str s) rfl).1 (Json.eq_symm env.fl (h _ hmem))
    rcases List.mem_cons.1 hk with rfl | hmem
    · exact hfirst
    · exact (Json.eq_scalar_iff env.fl hfirst).1 (h _ hmem)

theorem Sound.certain_close {lineage : Lineage} (h : Sound env lineage) {id : String} {l : List Occurrence}
    (hclose : lineage.closes.get? id = some l) (hcertain : lineage.uncertain.get? id = none) :
    (lineage.milestones.get? id).isSome = false := by
  obtain hview | ⟨items, selected, hview⟩ := h.shape id
  · have hc : lineage.closes.get? id = none := congrArg View.closes hview
    rw [hc] at hclose
    cases hclose
  · have hc : lineage.closes.get? id = _ := congrArg View.closes hview
    have hm : lineage.milestones.get? id = _ := congrArg View.milestones hview
    have hu : lineage.uncertain.get? id = _ := congrArg View.uncertain hview
    rw [hclose] at hc
    rw [hcertain] at hu
    have hcodes : ownUncertainty env items (id ∈ lineage.hiddenIds) selected = [] := by
      simpa [View.of] using hu.symm
    have hkind := (historyUncertainty_eq_nil.1 hcodes).2.1
    simp only [Bool.or_eq_false_iff, Bool.not_eq_eq_eq_not, Bool.not_false] at hkind
    rw [hm]
    simp only [View.of]
    by_cases hmile : (activeKinds items).any isMilestone = true
    · have hany : (activeKinds items).any isClose = true := by
        by_contra hno
        simp only [View.of, if_neg hno, reduceCtorEq] at hc
      obtain ⟨k, hk, hkm⟩ := List.any_eq_true.1 hmile
      obtain ⟨k', hk', hkc⟩ := List.any_eq_true.1 hany
      rw [eq_of_isMilestone hkm] at hk
      have hscalar := eq_of_oneKind hkind.1 hk hk'
      rw [eq_of_isClose hkc] at hscalar
      exact absurd hscalar (by simp [CLOSE, Json.scalar])
    · rw [if_neg hmile]
      rfl

section
variable {lineage out : Lineage} {batchId : Option String} {actions : List Json} (hmade : Made env lineage)
  (h : lineage.extended env batchId actions [] = .ok out)
  (hactions : ∀ a ∈ actions, ∃ core, ReplacesMilestone lineage a core)
include hmade h hactions

theorem ids_of_milestones (block : Block) :
    out.closeIdsEverInBlock.ids env block = lineage.closeIdsEverInBlock.ids env block := by
  obtain ⟨hout, -, added, hadded, hview⟩ := extended_view hmade.sound h
  have hfresh := appended_milestones hadded hactions
  rw [(Made.extended hmade h).ids_sorted, hmade.ids_sorted]
  refine sortedSet_congr fun id => ?_
  rw [hout.index, hmade.sound.index]
  by_cases hid : id ∈ added.map (·.eventId)
  · have hcloses : out.closes.get? id = (lineage.after env id (added.filter (·.eventId = id))).closes :=
      congrArg View.closes ((hview id).2 hid)
    obtain ⟨c, hc, rfl⟩ := List.mem_map.1 hid
    rw [hcloses]
    refine after_names hmade.sound (hfresh c hc).1 (fun o ho => ?_) block
    obtain ⟨c', hc', rfl⟩ := List.mem_map.1 ho
    exact (hfresh c' (List.mem_of_mem_filter hc')).2
  · have hcloses : out.closes.get? id = lineage.closes.get? id := congrArg View.closes ((hview id).1 hid)
    rw [hcloses]

theorem closeIds_of_milestones (block : Option Block) : out.closeIds env block = lineage.closeIds env block := by
  cases block with
  | none => rfl
  | some b => exact ids_of_milestones hmade h hactions b

theorem view_of_milestones {block : Option Block} {id : String} (hid : id ∈ lineage.closeIds env block)
    (hcertain : lineage.uncertain.get? id = none) : out.view id = lineage.view id := by
  obtain ⟨-, -, added, hadded, hview⟩ := extended_view hmade.sound h
  refine (hview id).1 fun hmem => ?_
  obtain ⟨c, hc, rfl⟩ := List.mem_map.1 hmem
  have hheld := (appended_milestones hadded hactions c hc).1
  cases block with
  | none => cases hid
  | some b =>
    obtain ⟨items, hitems, -⟩ := (hmade.sound.index _ b).1 hid
    rw [hmade.sound.certain_close hitems hcertain] at hheld
    cases hheld

end

theorem view_of_others {lineage out : Lineage} (hs : Sound env lineage) {batchId : Option String} {actions : List Json}
    (h : lineage.extended env batchId actions [] = .ok out) {id : String}
    (hothers : ∀ a ∈ actions, ReplacesOther lineage id a) : out.view id = lineage.view id := by
  obtain ⟨-, -, added, hadded, hview⟩ := extended_view hs h
  refine (hview id).1 fun hmem => ?_
  obtain ⟨c, hc, hcid⟩ := List.mem_map.1 hmem
  obtain ⟨name, cores, hcores, rfl⟩ := appended_batch hadded
  obtain ⟨seq, hseq, rfl⟩ := List.mem_mapIdx.1 hc
  obtain ⟨a, ha, hread⟩ := (Except.mem_of_mapM hcores _).1 (List.getElem_mem hseq)
  obtain ⟨core, hcore, hne⟩ := hothers a ha
  rw [candidate_eventId, ← Except.ok.inj (hcore.reads.symm.trans hread)] at hcid
  exact hne hcid

end

end Cctally.FiveHour
