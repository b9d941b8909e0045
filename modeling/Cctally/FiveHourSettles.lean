import Cctally.FiveHourClear
import Cctally.JournalSound

/-!
# A restoration settles

A crossing restored to its anchor's amount keeps that amount, also after any
number of batches that replace only other milestones.
-/

namespace Cctally.FiveHour

open Json (field without)

section
variable (env : Env)

def Summarizes (o : Occurrence) (record : Json.Fields) : Prop :=
  ∃ candidate availableAt fields, o = lineageOccurrence env candidate availableAt ∧ candidate.status = .active ∧
    candidate.record = some (.obj fields) ∧ field fields "at" = field record "at" ∧
    field fields "payload" = field record "payload"

def Selects (lineage : Lineage) (id : String) (record : Json.Fields) : Prop :=
  ∃ pair, lineage.selected.get? id = some pair ∧ ∀ o ∈ (lineage.milestones.get? id).getD [],
    o.rev = pair.1 → o.contentHash = pair.2 → Summarizes env o record

def Repriced (record record' : Json.Fields) (cost : Json) : Prop :=
  without record' ["payload"] = without record ["payload"] ∧
    ∃ payload payload', field record "payload" = .obj payload ∧ field record' "payload" = .obj payload' ∧
      field payload' "block_cost_usd" = cost ∧ without payload' MONETARY_KEYS = without payload MONETARY_KEYS

structure Writes (lineage : Lineage) (id : String) (record : Json.Fields) (action : Json) (core : ActionCore) : Prop where
  reads : readAction action = .ok core
  replaces : core.action = .replace
  eventId : core.id = id
  rev : ∃ pair, lineage.selected.get? id = some pair ∧ core.rev = pair.1 + 1
  at_ : field record "at" = .str core.at_
  payload : field record "payload" = core.payloadJson

inductive OthersReplaced (id : String) : Lineage → Lineage → Prop
  | refl (lineage : Lineage) : OthersReplaced id lineage lineage
  | batch {lineage lineage' lineage'' : Lineage} {batchId : Option String} {actions : List Json} :
    OthersReplaced id lineage lineage' → (∀ action ∈ actions, ReplacesOther lineage' id action) →
    lineage'.extended env batchId actions [] = .ok lineage'' → OthersReplaced id lineage lineage''

variable {env}

theorem closeHistories_congr {lineage out : Lineage} {block : Option Block}
    (hids : out.closeIds env block = lineage.closeIds env block)
    (hviews : ∀ close ∈ lineage.closeIds env block, out.view close = lineage.view close) :
    out.closeHistories env block = lineage.closeHistories env block := by
  unfold Lineage.closeHistories
  rw [hids]
  refine List.map_congr_left fun close hclose => ?_
  have hget : out.closes.get? close = lineage.closes.get? close := congrArg View.closes (hviews close hclose)
  rw [hget]

theorem walkOf_congr {lineage out : Lineage} {items : List Occurrence}
    (h : out.closeHistories env (lastLink items).block = lineage.closeHistories env (lastLink items).block) :
    walkOf env out items = walkOf env lineage items := by
  unfold walkOf Lineage.walk Lineage.blockTimeline
  rw [h]

/-- **Batches that replace other milestones leave a decision.** -/
theorem Clear.of_others {lineage out : Lineage} (hmade : Made env lineage) {batchId : Option String} {actions : List Json}
    (h : lineage.extended env batchId actions [] = .ok out) {id : String}
    (hothers : ∀ action ∈ actions, ReplacesOther lineage id action) {items : List Occurrence}
    (hclear : Clear env lineage id items) :
    Clear env out id items ∧ anchorCost env out items = anchorCost env lineage items := by
  have hactions : ∀ action ∈ actions, ∃ core, ReplacesMilestone lineage action core :=
    fun action ha => (hothers action ha).imp fun _ h => h.1
  have hids := closeIds_of_milestones hmade h hactions (lastLink items).block
  have hviews : ∀ close ∈ lineage.closeIds env (lastLink items).block, out.view close = lineage.view close :=
    fun close hclose => view_of_milestones hmade h hactions hclose (hclear.closes close hclose)
  have hview := view_of_others hmade.sound h hothers
  have hwalk := walkOf_congr (closeHistories_congr hids hviews)
  have hmile : out.milestones.get? id = lineage.milestones.get? id := congrArg View.milestones hview
  have hunc : out.uncertain.get? id = lineage.uncertain.get? id := congrArg View.uncertain hview
  refine ⟨⟨?_, hclear.nonempty, ?_, hclear.active, hclear.hashable, fun close hclose => ?_, ?_⟩, ?_⟩
  · rw [hmile]
    exact hclear.held
  · rw [hunc]
    exact hclear.own
  · rw [hids] at hclose
    have hget : out.uncertain.get? close = lineage.uncertain.get? close := congrArg View.uncertain (hviews close hclose)
    rw [hget]
    exact hclear.closes close hclose
  · rw [hwalk]
    exact hclear.proven
  · unfold anchorCost
    rw [hwalk]

theorem Made.of_others {id : String} {lineage lineage' : Lineage} (h : OthersReplaced env id lineage lineage')
    (hmade : Made env lineage) : Made env lineage' := by
  induction h with
  | refl => exact hmade
  | batch _ _ h ih => exact ih.extended h

theorem Clear.of_othersReplaced {id : String} {lineage lineage' : Lineage} (h : OthersReplaced env id lineage lineage')
    (hmade : Made env lineage) {items : List Occurrence} (hclear : Clear env lineage id items) :
    Clear env lineage' id items ∧ anchorCost env lineage' items = anchorCost env lineage items := by
  induction h with
  | refl => exact ⟨hclear, rfl⟩
  | batch hprev hothers h ih =>
    obtain ⟨hclear', hcost⟩ := ih
    obtain ⟨hnext, hcost'⟩ := hclear'.of_others (hmade.of_others hprev) h hothers
    exact ⟨hnext, hcost'.trans hcost⟩

/-! ## The restored milestone -/

theorem eq_of_scalar_str {k : Json} {s : String} (h : Json.scalar env.fl k = some (.str s)) : k = .str s := by
  cases k with
  | str t => simpa [Json.scalar] using h
  | float r =>
    simp only [Json.scalar] at h
    split at h
    · cases h
    · split at h <;> cases h
  | _ => cases h

theorem milestone_of_kind {candidate : EffectiveEvent} {availableAt : Nat} (hactive : candidate.status = .active)
    (h : (lineageOccurrence env candidate availableAt).kind = MILESTONE) : ∃ payload, payloadOf candidate.record = some payload ∧
      field payload "kind" = MILESTONE ∧
      (lineageOccurrence env candidate availableAt).block = some (fiveHourBlock payload) ∧
      (lineageOccurrence env candidate availableAt).blockCost = field payload "block_cost_usd" := by
  cases hpayload : payloadOf candidate.record with
  | none =>
    simp only [lineageOccurrence, hactive, hpayload] at h
    cases h
  | some payload =>
    refine ⟨payload, rfl, ?_⟩
    simp only [lineageOccurrence, hactive, hpayload] at h ⊢
    split
    · rename_i hkind
      exact ⟨hkind, rfl, rfl⟩
    · rename_i hkind
      rw [hkind] at h
      simp [MILESTONE, CLOSE] at h
    · rename_i hother hclose
      split at h
      · rename_i hkind
        exact (hother hkind).elim
      · rename_i hkind
        exact (hclose hkind).elim
      · exact (hother h).elim

theorem Clear.certain {lineage : Lineage} (hs : Sound env lineage) {id : String} {items : List Occurrence}
    (h : Clear env lineage id items) : lineage.existing id = items ∧ ∃ pair, lineage.selected.get? id = some pair ∧
      CertainMilestone env items (id ∈ lineage.hiddenIds) pair := by
  obtain ⟨heq, hany⟩ := hs.milestones_eq h.held
  obtain hview | ⟨items', selected, hview⟩ := hs.shape id
  · have hm : lineage.milestones.get? id = none := congrArg View.milestones hview
    rw [h.held] at hm
    cases hm
  · have hm : lineage.milestones.get? id = _ := congrArg View.milestones hview
    have hsel : lineage.selected.get? id = selected := congrArg View.selected hview
    have hunc : lineage.uncertain.get? id = _ := congrArg View.uncertain hview
    have hmile : (activeKinds items').any isMilestone = true := by
      by_contra hno
      rw [h.held] at hm
      simp only [View.of, if_neg hno, reduceCtorEq] at hm
    have hitems : items = sortOccurrences items' := by
      rw [h.held] at hm
      simpa only [View.of, hmile, if_true, Option.some.injEq] using hm
    have hown : ownUncertainty env items' (id ∈ lineage.hiddenIds) selected = [] := by
      have hnil := h.own
      rw [hunc] at hnil
      simp only [View.of] at hnil
      split at hnil
      · rename_i hempty
        exact List.isEmpty_iff.1 hempty
      · exact hnil
    obtain ⟨pair, hpair, hcertain⟩ := certainMilestone_of_own hmile hown
    exact ⟨heq.symm, pair, hsel.trans hpair, hitems ▸ hcertain⟩

theorem filter_batch {before after : List ActionCore} {core : ActionCore} (hbefore : ∀ c ∈ before, c.id ≠ core.id)
    (hafter : ∀ c ∈ after, c.id ≠ core.id) (name : String) (coordinate : Nat) :
    ((before ++ core :: after).mapIdx fun seq core =>
      candidateFromCorrection env.rt ⟨core, name, seq⟩ coordinate).filter (·.eventId = core.id) =
      [candidateFromCorrection env.rt ⟨core, name, before.length⟩ coordinate] := by
  have hnone : ∀ (l : List ActionCore) (k : Nat), (∀ c ∈ l, c.id ≠ core.id) →
      (l.mapIdx fun seq core => candidateFromCorrection env.rt ⟨core, name, seq + k⟩ coordinate).filter
        (·.eventId = core.id) = [] := by
    intro l k hl
    refine List.filter_eq_nil_iff.2 fun c hc => ?_
    obtain ⟨seq, hseq, rfl⟩ := List.mem_mapIdx.1 hc
    rw [candidate_eventId, decide_eq_true_eq]
    exact hl _ (List.getElem_mem hseq)
  have hhead := hnone before 0 hbefore
  have htail := hnone after (before.length + 1) hafter
  have hself : (candidateFromCorrection env.rt ⟨core, name, before.length⟩ coordinate).eventId = core.id :=
    candidate_eventId core name before.length coordinate
  rw [List.mapIdx_append, List.mapIdx_cons, List.filter_append, List.filter_cons]
  simp only [Nat.add_zero, Nat.zero_add] at hhead ⊢
  rw [hhead, hself, decide_eq_true rfl, if_pos rfl, List.nil_append]
  simp only [Nat.add_assoc, Nat.add_comm 1]
  rw [htail]

theorem view_of_write {lineage out : Lineage} (hs : Sound env lineage) {id : String} {items : List Occurrence}
    (hclear : Clear env lineage id items) {batchId : Option String} {before after : List Json} {action : Json}
    {record : Json.Fields} {core : ActionCore} (hwrites : Writes lineage id record action core) {payload : Json.Fields}
    (hpayload : core.payload = some payload) (hkind : field payload "kind" = MILESTONE)
    (hothers : ∀ other ∈ before ++ after, ReplacesOther lineage id other)
    (h : lineage.extended env batchId (before ++ action :: after) [] = .ok out) :
    ∃ name, out.milestones.get? id = some (items ++ [replacedOccurrence env core payload name lineage.nextCoordinate]) ∧
      (out.uncertain.get? id).getD [] = [] := by
  obtain ⟨-, -, added, hadded, hview⟩ := extended_view hs h
  obtain ⟨name, cores, hcores, rfl⟩ := appended_batch hadded
  obtain ⟨befores, rest, hbefores, hrest, rfl⟩ := Except.mapM_append.1 hcores
  obtain ⟨core', afters, hcore', hafters, rfl⟩ := Except.mapM_cons.1 hrest
  obtain rfl : core = core' := Except.ok.inj (hwrites.reads.symm.trans hcore')
  have hnot : ∀ (l : List Json) (cs : List ActionCore), l.mapM readAction = .ok cs →
      (∀ other ∈ l, ReplacesOther lineage id other) → ∀ c ∈ cs, c.id ≠ core.id := by
    intro l cs hl hall c hc
    obtain ⟨a, ha, hread⟩ := (Except.mem_of_mapM hl c).1 hc
    obtain ⟨c', hc', hne⟩ := hall a ha
    rw [hwrites.eventId, ← Except.ok.inj (hc'.reads.symm.trans hread)]
    exact hne
  have hfilter := @filter_batch env befores afters core
    (hnot before befores hbefores fun other ho => hothers other (List.mem_append_left _ ho))
    (hnot after afters hafters fun other ho => hothers other (List.mem_append_right _ ho)) name lineage.nextCoordinate
  rw [hwrites.eventId] at hfilter
  have hmem : id ∈ ((befores ++ core :: afters).mapIdx fun seq core =>
      candidateFromCorrection env.rt ⟨core, name, seq⟩ lineage.nextCoordinate).map (·.eventId) := by
    have hin : candidateFromCorrection env.rt ⟨core, name, befores.length⟩ lineage.nextCoordinate ∈
        ((befores ++ core :: afters).mapIdx fun seq core =>
          candidateFromCorrection env.rt ⟨core, name, seq⟩ lineage.nextCoordinate).filter (·.eventId = id) := by
      rw [hfilter]
      exact List.mem_cons_self
    exact List.mem_map.2 ⟨_, List.mem_of_mem_filter hin, (candidate_eventId ..).trans hwrites.eventId⟩
  have hout := (hview id).2 hmem
  obtain ⟨hexisting, pair, hsel, hcertain⟩ := hclear.certain hs
  have hrev : core.rev = pair.1 + 1 := by
    obtain ⟨pair', hpair', hrev⟩ := hwrites.rev
    rw [hsel] at hpair'
    rw [hrev, Option.some.inj hpair']
  have hfresh : freshOccurrences env
      [candidateFromCorrection env.rt ⟨core, name, befores.length⟩ lineage.nextCoordinate] =
      [replacedOccurrence env core payload name lineage.nextCoordinate] := by
    unfold freshOccurrences
    rw [List.map_singleton, candidate_sequence, Option.getD_some,
      occurrence_of_replacement hwrites.replaces hpayload hkind]
  have hselected : Lineage.selectedAfter (lineage.selected.get? id)
      [candidateFromCorrection env.rt ⟨core, name, befores.length⟩ lineage.nextCoordinate] =
      some ((replacedOccurrence env core payload name lineage.nextCoordinate).rev,
        (replacedOccurrence env core payload name lineage.nextCoordinate).contentHash) := by
    unfold Lineage.selectedAfter candidateFromCorrection
    rw [hsel, hwrites.replaces]
    simp only [List.foldl_cons, List.foldl_nil, hrev, Nat.lt_succ_self, if_true]
    rw [← hrev]
    rfl
  rw [hfilter, after_held hs (by rw [hclear.held]; rfl), hexisting, hfresh, hselected] at hout
  have hcertain' := hcertain.append (o := replacedOccurrence env core payload name lineage.nextCoordinate) rfl hrev
    fun o ho => held_lt_next hclear.held ho
  have hm : out.milestones.get? id = _ := congrArg View.milestones hout
  have hu : out.uncertain.get? id = _ := congrArg View.uncertain hout
  refine ⟨name, ?_, ?_⟩
  · rw [hm]
    simp only [View.of, hcertain'.milestone, if_true, sortOccurrences_of_sorted hcertain'.sorted]
  · rw [hu]
    simp only [View.of, hcertain'.own]
    rfl

/-- **A restoration settles.** Once a milestone is written back to the amount the lineage restores, the
decision is to keep it, after the batch that does so and after any number of batches that replace only
other milestones. -/
theorem restoration_settles {lineage : Lineage} (hmade : Made env lineage) {id : String} {record : Json.Fields}
    (hselects : Selects env lineage id record) {answer : Restoration}
    (hanswer : lineage.restoration env id record = .ok answer) (hrestore : answer.action = .restore)
    {record' : Json.Fields} (hrecord : Repriced record record' answer.value) {before after : List Json} {action : Json}
    {core : ActionCore} (hwrites : Writes lineage id record' action core)
    (hothers : ∀ other ∈ before ++ after, ReplacesOther lineage id other) {batchId : Option String} {lineage' : Lineage}
    (hextended : lineage.extended env batchId (before ++ action :: after) [] = .ok lineage') {lineage'' : Lineage}
    (hlater : OthersReplaced env id lineage' lineage'') :
    lineage''.restoration env id record' = .ok LINEAGE_KEEP := by
  obtain ⟨-, payload, payload', hpayload, hpayload', hcost, hmoney⟩ := hrecord
  obtain ⟨items, hclear, husable, hdiffers, hvalue⟩ := clear_of_restore hpayload hanswer hrestore
  obtain ⟨-, pair, hsel, hcertain⟩ := hclear.certain hmade.sound
  -- the selected record is what the last link summarizes
  obtain ⟨hlast, hlastrev⟩ := link_mem hcertain (le_refl _)
  have hlasthash : (lastLink items).contentHash = pair.2 := by
    obtain ⟨o, ho, hrev, hhash⟩ := hcertain.hash
    have hagree := List.any_eq_false.1 (Bool.eq_false_iff.2 (List.any_eq_false.1 hcertain.agrees _ hlast)) o ho
    rw [hlastrev, ← hcertain.rev, hrev] at hagree
    simp only [decide_true, Bool.true_and, bne_iff_ne, ne_eq, not_not] at hagree
    have hsnd := congrArg Prod.snd hagree
    simp only [divergenceKey, Bool.not_false, if_true, Option.some.injEq] at hsnd
    unfold lastLink
    rw [← hcertain.rev]
    exact hsnd.trans hhash
  obtain ⟨pair', hpair', hsummarizes⟩ := hselects
  rw [hsel] at hpair'
  obtain rfl := Option.some.inj hpair'
  rw [hclear.held, Option.getD_some] at hsummarizes
  obtain ⟨candidate, availableAt, fields, heq, hactive, hcandidate, -, hfields⟩ :=
    hsummarizes (lastLink items) hlast (hlastrev.trans hcertain.rev.symm) hlasthash
  have hlastkind : (lineageOccurrence env candidate availableAt).kind = MILESTONE := by
    rw [← heq]
    exact eq_of_scalar_str (hcertain.kinds _ (mem_activeKinds.2 ⟨_, hlast, hclear.active, rfl⟩))
  obtain ⟨read, hread, hkind, hblock, hlastcost⟩ := milestone_of_kind hactive hlastkind
  obtain rfl : read = payload := by
    rw [hcandidate] at hread
    simp only [payloadOf, hfields, hpayload, Option.some.injEq] at hread
    exact hread.symm
  rw [← heq] at hblock hlastcost
  -- the restoring write is one more revision of the same block and identity
  have hcore : core.payload = some payload' := by
    have hjson := hwrites.payload
    rw [hpayload'] at hjson
    unfold ActionCore.payloadJson at hjson
    split at hjson
    · rename_i written hwritten
      rw [hwritten, Json.obj.inj hjson]
    · cases hjson
  have hkind' : field payload' "kind" = MILESTONE := (field_of_without hmoney (by decide)).trans hkind
  obtain ⟨name, hheld', hown'⟩ := view_of_write hmade.sound hclear hwrites hcore hkind' hothers hextended
  have hrev : core.rev = topRevision items + 1 := by
    obtain ⟨pair', hpair', hrev⟩ := hwrites.rev
    rw [hsel] at hpair'
    rw [hrev, ← Option.some.inj hpair', hcertain.rev]
  have hblock' : (replacedOccurrence env core payload' name lineage.nextCoordinate).block = (lastLink items).block := by
    rw [hblock]
    have haccount : field payload' "account_key" = field read "account_key" := field_of_without hmoney (by decide)
    have hwindow : field payload' "five_hour_window_key" = field read "five_hour_window_key" :=
      field_of_without hmoney (by decide)
    unfold replacedOccurrence fiveHourBlock
    rw [haccount, hwindow]
  have hactions : ∀ a ∈ before ++ action :: after, ∃ core, ReplacesMilestone lineage a core := by
    intro a ha
    rcases List.mem_append.1 ha with hmem | hmem
    · exact (hothers a (List.mem_append_left _ hmem)).imp fun _ h => h.1
    · rcases List.mem_cons.1 hmem with rfl | hmem
      · refine ⟨core, hwrites.reads, hwrites.replaces, ?_, payload', hcore, hkind'⟩
        rw [hwrites.eventId, hclear.held]
        rfl
      · exact (hothers a (List.mem_append_right _ hmem)).imp fun _ h => h.1
  have hids := closeIds_of_milestones hmade hextended hactions (lastLink items).block
  have hviews : ∀ close ∈ lineage.closeIds env (lastLink items).block, lineage'.view close = lineage.view close :=
    fun close hclose => view_of_milestones hmade hextended hactions hclose (hclear.closes close hclose)
  obtain ⟨hproven, hanchor⟩ := anchorCost_append hclear hcertain (by exact hrev) rfl rfl hblock'
    (hcost.trans hvalue) husable (by rw [hlastcost]; exact hdiffers) (closeHistories_congr hids hviews)
  have hlast' : lastLink (items ++ [replacedOccurrence env core payload' name lineage.nextCoordinate]) =
      replacedOccurrence env core payload' name lineage.nextCoordinate := lastLink_append (by exact hrev)
  have hclear' : Clear env lineage' id (items ++ [replacedOccurrence env core payload' name lineage.nextCoordinate]) := by
    refine ⟨hheld', by simp, hown', ?_, ?_, fun close hclose => ?_, hproven⟩
    · rw [hlast']
      rfl
    · rw [hlast', hblock']
      exact hclear.hashable
    · rw [hlast', hblock', hids] at hclose
      have hget : lineage'.uncertain.get? close = lineage.uncertain.get? close :=
        congrArg View.uncertain (hviews close hclose)
      rw [hget]
      exact hclear.closes close hclose
  obtain ⟨hclear'', hanchor'⟩ := hclear'.of_othersReplaced hlater (hmade.extended hextended)
  rw [restoration_clear hclear'' hpayload', hanchor', hanchor, hcost, hvalue, eq_of_usable husable, Bool.or_true,
    if_pos rfl]

end

/-! ## A milestone repriced under a closed block -/

def workedEnv : Env where
  rt := workedRuntime
  fl := ⟨fun _ => none, fun a b => match a, b with | .num m, .num n => m != n | _, _ => false⟩
  canonical := workedRuntime.sha256

def workedMilestone (cost : Int) : Json.Fields :=
  [("block_cost_usd", .num cost), ("kind", MILESTONE), ("marginal_cost_usd", .num cost)]

def workedRecord (cost : Int) : Json.Fields := [("at", .str "t"), ("id", .str "m"), ("payload", .obj (workedMilestone cost))]

def workedClose : Json.Fields :=
  [("at", .str "t"), ("id", .str "c"),
    ("payload", .obj [("is_closed", .num 1), ("kind", CLOSE), ("total_cost_usd", .num 10)])]

def workedReplace (cost : Int) (rev : Nat) : Json :=
  .obj [("action", .str "replace"), ("at", .str "t"), ("id", .str "m"), ("payload", .obj (workedMilestone cost)),
    ("rev", .num rev)]

def workedLineage : Py Lineage := do
  let lineage ← buildFiveHourLineage workedEnv .empty ⟨[], .empty, ∅, [], [], []⟩ ∅
  lineage.extended workedEnv none [] [.obj (workedRecord 10), .obj workedClose]

theorem readAction_worked (cost : Int) (rev : Nat) :
    readAction (workedReplace cost rev) = .ok ⟨.replace, "m", rev, "t", some (workedMilestone cost)⟩ := rfl

theorem selects_worked {built lineage : Lineage} (hs : Sound workedEnv built)
    (hold : (built.existing "m").all (·.rev = 0) = true) (hsel : (lineage.selected.get? "m").map Prod.fst = some 1)
    (h : built.extended workedEnv (some "B") [workedReplace 12 1] [] = .ok lineage) :
    Selects workedEnv lineage "m" (workedRecord 12) := by
  obtain ⟨pair, hpair, hrev⟩ := Option.map_eq_some_iff.1 hsel
  refine ⟨pair, hpair, fun o ho horev _ => ?_⟩
  obtain ⟨-, -, added, hadded, hview⟩ := extended_view hs h
  obtain ⟨name, cores, hcores, rfl⟩ := appended_batch hadded
  obtain ⟨core, rest, hcore, hrest, rfl⟩ := Except.mapM_cons.1 hcores
  obtain rfl := Except.ok.inj ((readAction_worked 12 1).symm.trans hcore)
  cases hrest
  have hmile : lineage.milestones.get? "m" = _ := congrArg View.milestones ((hview "m").2 (List.mem_singleton.2 rfl))
  have hnew : o ∉ built.existing "m" := by
    intro hmem
    have hzero := of_decide_eq_true (List.all_eq_true.1 hold o hmem)
    omega
  rw [hmile] at ho
  unfold Lineage.after at ho
  simp only [] at ho
  split at ho
  · cases hm : built.milestones.get? "m" with
    | none =>
      have hnone : (built.view "m").milestones = none := hm
      rw [hnone] at ho
      cases ho
    | some l =>
      have hsome : (built.view "m").milestones = some l := hm
      rw [hsome, Option.getD_some, (hs.milestones_eq hm).1] at ho
      exact absurd ho hnew
  · unfold View.of at ho
    simp only [] at ho
    split at ho
    · rw [Option.getD_some, mem_sortOccurrences, List.mem_append] at ho
      obtain ⟨c, hc, rfl⟩ := List.mem_map.1 (ho.resolve_left hnew)
      obtain rfl := List.mem_singleton.1 hc
      obtain ⟨fields, hfields, hat, hpayload⟩ :=
        field_correctionEvent ⟨.replace, "m", 1, "t", some (workedMilestone 12)⟩
      exact ⟨_, _, fields, rfl, rfl, congrArg some hfields, hat, hpayload⟩
    · cases ho

theorem restoration_worked_runs : ((do
    let built ← workedLineage
    let lineage ← built.extended workedEnv (some "B") [workedReplace 12 1] []
    let answer ← lineage.restoration workedEnv "m" (workedRecord 12)
    let lineage' ← lineage.extended workedEnv (some "C") [workedReplace 10 2] []
    return (built, lineage, answer, lineage') : Py _).returns fun r =>
      (r.1.existing "m").all (·.rev = 0) && (r.2.1.selected.get? "m").map Prod.fst = some 1 &&
        r.2.2.1.action = .restore && r.2.2.1.value matches .num 10) = true := by
  decide +kernel

theorem restoration_settles_worked : ∃ (lineage lineage' : Lineage) (answer : Restoration),
    lineage.restoration workedEnv "m" (workedRecord 12) = .ok answer ∧ answer.action = .restore ∧
      lineage.extended workedEnv (some "C") [workedReplace 10 2] [] = .ok lineage' ∧
      lineage'.restoration workedEnv "m" (workedRecord 10) = .ok LINEAGE_KEEP := by
  obtain ⟨⟨built, lineage, answer, lineage'⟩, hrun, hcheck⟩ := Except.returns_iff.1 restoration_worked_runs
  obtain ⟨built', hbuilt, hrun⟩ := Except.bind_eq_ok.1 hrun
  obtain ⟨lineage₁, hlineage, hrun⟩ := Except.bind_eq_ok.1 hrun
  obtain ⟨answer₁, hanswer, hrun⟩ := Except.bind_eq_ok.1 hrun
  obtain ⟨lineage₂, hextended, hrun⟩ := Except.bind_eq_ok.1 hrun
  cases hrun
  simp only [Bool.and_eq_true, decide_eq_true_eq] at hcheck
  obtain ⟨⟨⟨hold, hsel⟩, hrestore⟩, hvalue⟩ := hcheck
  obtain ⟨empty, hempty, hplain⟩ := Except.bind_eq_ok.1 hbuilt
  have hmade : Made workedEnv built := (Made.built hempty).extended hplain
  have hten : answer.value = .num 10 := by
    split at hvalue
    · rename_i heq
      exact heq
    · cases hvalue
  refine ⟨lineage, lineage', answer, hanswer, hrestore, hextended, ?_⟩
  have hwrites : Writes lineage "m" (workedRecord 10) (workedReplace 10 2)
      ⟨.replace, "m", 2, "t", some (workedMilestone 10)⟩ := by
    obtain ⟨pair, hpair, hrev⟩ := Option.map_eq_some_iff.1 hsel
    exact ⟨readAction_worked 10 2, rfl, rfl, ⟨pair, hpair, by rw [hrev]⟩, rfl, rfl⟩
  have hrecord : Repriced (workedRecord 12) (workedRecord 10) answer.value :=
    ⟨rfl, workedMilestone 12, workedMilestone 10, rfl, rfl, hten.symm, rfl⟩
  have hothers : ∀ other ∈ ([] : List Json) ++ [], ReplacesOther lineage "m" other :=
    fun _ h => absurd h List.not_mem_nil
  exact restoration_settles (hmade.extended hlineage) (selects_worked hmade.sound hold hsel hlineage) hanswer hrestore
    hrecord hwrites hothers hextended (.refl lineage')

end Cctally.FiveHour
