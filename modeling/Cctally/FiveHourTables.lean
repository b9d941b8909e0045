import Cctally.FiveHourLineage
import Cctally.Except

/-!
# The tables of a lineage, one id at a time

Every lineage the journal builds, and every one read as it would be after more
records, keeps each id's occurrences sorted and whole, its uncertainty codes
computed from them, and each close id under every block it ever named.
-/

namespace Cctally.FiveHour

section
variable (env : Env)

theorem blockEq_symm {a b : Block} (h : blockEq env a b = true) : blockEq env b a = true := by
  unfold blockEq at h ⊢
  rw [Bool.and_eq_true] at h ⊢
  exact ⟨Json.eq_symm env.fl h.1, Json.eq_symm env.fl h.2⟩

theorem blockEq_trans {a b c : Block} (h : blockEq env a b = true) (h' : blockEq env b c = true) :
    blockEq env a c = true := by
  unfold blockEq at h h' ⊢
  rw [Bool.and_eq_true] at h h' ⊢
  exact ⟨Json.eq_trans env.fl h.1 h'.1, Json.eq_trans env.fl h.2 h'.2⟩

theorem ids_cons (p : Block × List String) (index : BlockIndex) (block : Block) :
    BlockIndex.ids env (p :: index) block = if blockEq env p.1 block then p.2 else BlockIndex.ids env index block := by
  unfold BlockIndex.ids
  rw [List.find?_cons]
  cases blockEq env p.1 block <;> rfl

theorem mem_ids_add (block block' : Block) (eventId id : String) : ∀ index : BlockIndex,
    id ∈ BlockIndex.ids env (BlockIndex.add env block eventId index) block' ↔
      id ∈ BlockIndex.ids env index block' ∨ id = eventId ∧ blockEq env block block' = true
  | [] => by
    simp only [BlockIndex.add, ids_cons]
    by_cases h : blockEq env block block' = true
    · simp [h, BlockIndex.ids]
    · simp [h, BlockIndex.ids]
  | (b, ids) :: rest => by
    unfold BlockIndex.add
    by_cases hb : blockEq env b block = true
    · rw [if_pos hb, ids_cons, ids_cons]
      by_cases hb' : blockEq env b block' = true
      · have heq : blockEq env block block' = true := blockEq_trans env (blockEq_symm env hb) hb'
        rw [if_pos hb', if_pos hb']
        by_cases hmem : eventId ∈ ids
        · rw [if_pos hmem]
          refine ⟨.inl, ?_⟩
          rintro (h | ⟨rfl, -⟩)
          · exact h
          · exact hmem
        · rw [if_neg hmem, List.mem_append, List.mem_singleton]
          exact or_congr_right ⟨fun h => ⟨h, heq⟩, And.left⟩
      · have hne : ¬ blockEq env block block' = true := fun h => hb' (blockEq_trans env hb h)
        rw [if_neg hb', if_neg hb', or_iff_left (fun h => hne h.2)]
    · rw [if_neg hb, ids_cons, ids_cons]
      by_cases hb' : blockEq env b block' = true
      · have hne : ¬ blockEq env block block' = true := fun h => hb (blockEq_trans env hb' (blockEq_symm env h))
        rw [if_pos hb', if_pos hb', or_iff_left (fun h => hne h.2)]
      · rw [if_neg hb', if_neg hb']
        exact mem_ids_add block block' eventId id rest

theorem ids_sorted (block : Block) : ∀ index : BlockIndex,
    BlockIndex.ids env index.sorted block = sortedSet (BlockIndex.ids env index block)
  | [] => rfl
  | p :: rest => by
    have hsorted : BlockIndex.sorted (p :: rest) = (p.1, sortedSet p.2) :: BlockIndex.sorted rest := rfl
    rw [hsorted, ids_cons, ids_cons, ids_sorted block rest]
    split <;> rfl

def Names (block : Block) (o : Occurrence) : Prop :=
  isClose o.kind = true ∧ ∃ b, o.block = some b ∧ blockEq env b block = true

theorem mem_ids_indexCloses (eventId id : String) (block : Block) : ∀ (items : List Occurrence) (index : BlockIndex),
    id ∈ BlockIndex.ids env (Lineage.indexCloses env eventId index items) block ↔
      id ∈ BlockIndex.ids env index block ∨ id = eventId ∧ ∃ o ∈ items, Names env block o
  | [], index => by simp [Lineage.indexCloses]
  | o :: items, index => by
    have ih := mem_ids_indexCloses eventId id block items
    unfold Lineage.indexCloses at ih ⊢
    rw [List.foldl_cons, ih]
    simp only [List.mem_cons, exists_eq_or_imp]
    split
    · rename_i b hclose hb
      have hnames : Names env block o ↔ blockEq env b block = true := by
        refine ⟨fun ⟨_, b', h, heq⟩ => ?_, fun h => ⟨hclose, b, hb, h⟩⟩
        rw [hb] at h
        cases h
        exact heq
      rw [mem_ids_add, hnames, or_assoc, ← and_or_left]
    · rename_i hno
      have hnot : ¬ Names env block o := fun ⟨hclose, b, hb, _⟩ => hno b hclose hb
      simp only [hnot, false_or]

/-! ## One id's place in the tables -/

structure View where
  milestones : Option (List Occurrence)
  closes : Option (List Occurrence)
  selected : Option (Nat × String)
  uncertain : Option (List String)

def Lineage.view (lineage : Lineage) (id : String) : View :=
  ⟨lineage.milestones.get? id, lineage.closes.get? id, lineage.selected.get? id, lineage.uncertain.get? id⟩

def View.absent : View := ⟨none, none, none, none⟩

def View.of (items : List Occurrence) (hidden : Bool) (selected : Option (Nat × String)) : View :=
  let codes := ownUncertainty env items hidden selected
  ⟨if (activeKinds items).any isMilestone then some (sortOccurrences items) else none,
    if (activeKinds items).any isClose then some (sortOccurrences items) else none, selected,
    if codes.isEmpty then none else some codes⟩

section
variable (lineage : Lineage) (eventId : String) (items : List Occurrence) (selected : Option (Nat × String))

@[simp] theorem setId_hiddenIds : (lineage.setId env eventId items selected).hiddenIds = lineage.hiddenIds := rfl

theorem setId_milestones : (lineage.setId env eventId items selected).milestones =
    if (activeKinds items).any isMilestone then lineage.milestones.set eventId (sortOccurrences items)
    else lineage.milestones := rfl

theorem setId_closes : (lineage.setId env eventId items selected).closes =
    if (activeKinds items).any isClose then lineage.closes.set eventId (sortOccurrences items) else lineage.closes := rfl

theorem setId_index : (lineage.setId env eventId items selected).closeIdsEverInBlock =
    if (activeKinds items).any isClose then
      Lineage.indexCloses env eventId lineage.closeIdsEverInBlock (sortOccurrences items)
    else lineage.closeIdsEverInBlock := rfl

theorem setId_uncertain : (lineage.setId env eventId items selected).uncertain =
    if (ownUncertainty env items (eventId ∈ lineage.hiddenIds) selected).isEmpty then lineage.uncertain.erase eventId
    else lineage.uncertain.set eventId (ownUncertainty env items (eventId ∈ lineage.hiddenIds) selected) := rfl

variable {id : String}

theorem view_setId_ne (h : eventId ≠ id) : (lineage.setId env eventId items selected).view id = lineage.view id := by
  unfold Lineage.view
  rw [setId_milestones, setId_closes, setId_uncertain]
  congr 1
  · split
    · exact Dict.get?_set_ne _ _ h
    · rfl
  · split
    · exact Dict.get?_set_ne _ _ h
    · rfl
  · cases selected with
    | none => rfl
    | some pair => exact Dict.get?_set_ne _ _ h
  · split
    · rw [Dict.get?_erase, if_neg h]
    · exact Dict.get?_set_ne _ _ h

theorem view_setId_self : (lineage.setId env eventId items selected).view eventId =
    ⟨if (activeKinds items).any isMilestone then some (sortOccurrences items) else (lineage.view eventId).milestones,
      if (activeKinds items).any isClose then some (sortOccurrences items) else (lineage.view eventId).closes,
      selected.or (lineage.view eventId).selected,
      (View.of env items (eventId ∈ lineage.hiddenIds) selected).uncertain⟩ := by
  unfold Lineage.view View.of
  rw [setId_milestones, setId_closes, setId_uncertain]
  simp only []
  congr 1
  · split
    · exact Dict.get?_set_self _ _ _
    · rfl
  · split
    · exact Dict.get?_set_self _ _ _
    · rfl
  · cases selected with
    | none => rfl
    | some pair => exact Dict.get?_set_self _ _ _
  · split
    · rw [Dict.get?_erase, if_pos rfl]
    · exact Dict.get?_set_self _ _ _

end

@[simp] theorem mem_sortOccurrences {o : Occurrence} {items : List Occurrence} : o ∈ sortOccurrences items ↔ o ∈ items :=
  List.mem_insertionSort _

theorem mem_activeKinds {k : Json} {items : List Occurrence} :
    k ∈ activeKinds items ↔ ∃ o ∈ items, o.status = .active ∧ o.kind = k := by
  simp [activeKinds, and_assoc]

theorem any_activeKinds {p : Json → Bool} {items : List Occurrence} :
    (activeKinds items).any p = true ↔ ∃ o ∈ items, o.status = .active ∧ p o.kind = true := by
  simp only [List.any_eq_true, mem_activeKinds]
  exact ⟨fun ⟨_, ⟨o, ho, hact, rfl⟩, hp⟩ => ⟨o, ho, hact, hp⟩, fun ⟨o, ho, hact, hp⟩ => ⟨_, ⟨o, ho, hact, rfl⟩, hp⟩⟩

theorem any_activeKinds_sort (p : Json → Bool) (items : List Occurrence) :
    (activeKinds (sortOccurrences items)).any p = (activeKinds items).any p := by
  rw [Bool.eq_iff_iff, any_activeKinds, any_activeKinds]
  simp only [mem_sortOccurrences]

theorem any_activeKinds_append {p : Json → Bool} {items : List Occurrence} (fresh : List Occurrence)
    (h : (activeKinds items).any p = true) : (activeKinds (items ++ fresh)).any p = true := by
  obtain ⟨o, ho, hact, hp⟩ := any_activeKinds.1 h
  exact any_activeKinds.2 ⟨o, List.mem_append_left _ ho, hact, hp⟩

/-! ## What the tables keep -/

structure Sound (lineage : Lineage) : Prop where
  shape : ∀ id, lineage.view id = .absent ∨
    ∃ items selected, lineage.view id = View.of env items (id ∈ lineage.hiddenIds) selected
  index : ∀ id block, id ∈ lineage.closeIdsEverInBlock.ids env block ↔
    ∃ items, lineage.closes.get? id = some items ∧ ∃ o ∈ items, Names env block o

theorem existing_congr {lineage lineage' : Lineage} {id : String} (h : lineage.view id = lineage'.view id) :
    lineage.existing id = lineage'.existing id := by
  have hm : lineage.milestones.get? id = lineage'.milestones.get? id := congrArg View.milestones h
  have hc : lineage.closes.get? id = lineage'.closes.get? id := congrArg View.closes h
  unfold Lineage.existing
  rw [hm, hc]

theorem existing_of {lineage : Lineage} {id : String} {items : List Occurrence} {hidden : Bool}
    {selected : Option (Nat × String)} (h : lineage.view id = View.of env items hidden selected)
    (hkind : (activeKinds items).any isClose = true ∨ (activeKinds items).any isMilestone = true) :
    lineage.existing id = sortOccurrences items := by
  have hm : lineage.milestones.get? id = _ := congrArg View.milestones h
  have hc : lineage.closes.get? id = _ := congrArg View.closes h
  unfold Lineage.existing
  rw [hm, hc]
  cases hclose : (activeKinds items).any isClose with
  | true =>
    obtain ⟨o, ho, -⟩ := any_activeKinds.1 hclose
    obtain ⟨a, l, hal⟩ := List.exists_cons_of_ne_nil (List.ne_nil_of_mem (mem_sortOccurrences.2 ho))
    simp only [View.of, hclose, if_true, Option.getD_some, hal]
  | false =>
    have hmile : (activeKinds items).any isMilestone = true := by
      rw [hclose] at hkind
      exact hkind.resolve_left nofun
    simp [View.of, hclose, hmile]

variable {env}

theorem Sound.milestones_eq {lineage : Lineage} (h : Sound env lineage) {id : String} {l : List Occurrence}
    (hl : lineage.milestones.get? id = some l) : l = lineage.existing id ∧ (activeKinds l).any isMilestone = true := by
  obtain hview | ⟨items, selected, hview⟩ := h.shape id
  · have hm : lineage.milestones.get? id = none := congrArg View.milestones hview
    rw [hm] at hl
    cases hl
  · have hm : lineage.milestones.get? id = _ := congrArg View.milestones hview
    rw [hl] at hm
    by_cases hmile : (activeKinds items).any isMilestone = true
    · simp only [View.of, hmile, if_true, Option.some.injEq] at hm
      rw [existing_of env hview (.inr hmile), hm, any_activeKinds_sort]
      exact ⟨rfl, hmile⟩
    · simp only [View.of, if_neg hmile, reduceCtorEq] at hm

theorem Sound.closes_eq {lineage : Lineage} (h : Sound env lineage) {id : String} {l : List Occurrence}
    (hl : lineage.closes.get? id = some l) : l = lineage.existing id ∧ (activeKinds l).any isClose = true := by
  obtain hview | ⟨items, selected, hview⟩ := h.shape id
  · have hc : lineage.closes.get? id = none := congrArg View.closes hview
    rw [hc] at hl
    cases hl
  · have hc : lineage.closes.get? id = _ := congrArg View.closes hview
    rw [hl] at hc
    by_cases hclose : (activeKinds items).any isClose = true
    · simp only [View.of, hclose, if_true, Option.some.injEq] at hc
      rw [existing_of env hview (.inl hclose), hc, any_activeKinds_sort]
      exact ⟨rfl, hclose⟩
    · simp only [View.of, if_neg hclose, reduceCtorEq] at hc

theorem view_setId (lineage : Lineage) (id : String) (fresh : List Occurrence) (selected : Option (Nat × String))
    (h : Sound env lineage) (hsel : selected = none → (lineage.view id).selected = none) :
    (lineage.setId env id (lineage.existing id ++ fresh) selected).view id =
      View.of env (lineage.existing id ++ fresh) (id ∈ lineage.hiddenIds) selected := by
  rw [view_setId_self]
  unfold View.of
  congr 1
  · refine ite_congr rfl (fun _ => rfl) fun hno => ?_
    cases hm : (lineage.view id).milestones with
    | none => rfl
    | some l =>
      obtain ⟨heq, hany⟩ := h.milestones_eq hm
      exact absurd (any_activeKinds_append fresh (heq ▸ hany)) hno
  · refine ite_congr rfl (fun _ => rfl) fun hno => ?_
    cases hc : (lineage.view id).closes with
    | none => rfl
    | some l =>
      obtain ⟨heq, hany⟩ := h.closes_eq hc
      exact absurd (any_activeKinds_append fresh (heq ▸ hany)) hno
  · cases selected with
    | none => rw [hsel rfl]; rfl
    | some pair => rfl

theorem Sound.setId {lineage : Lineage} (h : Sound env lineage) (id : String) (fresh : List Occurrence)
    (selected : Option (Nat × String)) (hsel : selected = none → (lineage.view id).selected = none) :
    Sound env (lineage.setId env id (lineage.existing id ++ fresh) selected) := by
  refine ⟨fun id' => ?_, fun id' block => ?_⟩
  · rw [setId_hiddenIds]
    by_cases hid : id = id'
    · subst hid
      exact .inr ⟨_, _, view_setId lineage id fresh selected h hsel⟩
    · rw [view_setId_ne env lineage id _ selected hid]
      exact h.shape id'
  · rw [setId_index, setId_closes]
    by_cases hclose : (activeKinds (lineage.existing id ++ fresh)).any isClose = true
    · rw [if_pos hclose, if_pos hclose, mem_ids_indexCloses, h.index, Dict.get?_set]
      by_cases hid : id = id'
      · subst hid
        rw [if_pos rfl]
        refine ⟨?_, fun ⟨l, hl, hex⟩ => .inr ⟨rfl, Option.some.inj hl ▸ hex⟩⟩
        rintro (⟨l, hl, o, ho, hnames⟩ | ⟨-, hex⟩)
        · rw [(h.closes_eq hl).1] at ho
          exact ⟨_, rfl, o, mem_sortOccurrences.2 (List.mem_append_left _ ho), hnames⟩
        · exact ⟨_, rfl, hex⟩
      · rw [if_neg hid, or_iff_left (fun hc => hid hc.1.symm)]
    · rw [if_neg hclose, if_neg hclose]
      exact h.index id' block

theorem Sound.sealed {lineage : Lineage} (h : Sound env lineage) : Sound env lineage.sealed := by
  refine ⟨h.shape, fun id block => ?_⟩
  have hids : lineage.sealed.closeIdsEverInBlock.ids env block = sortedSet (lineage.closeIdsEverInBlock.ids env block) :=
    ids_sorted env block _
  rw [hids, mem_sortedSet]
  exact h.index id block

/-! ## One id after more candidates -/

section
variable (env)

def freshOccurrences (candidates : List EffectiveEvent) : List Occurrence :=
  candidates.map fun c => lineageOccurrence env c (c.sequence.getD 0)

def Lineage.after (origin : Lineage) (id : String) (candidates : List EffectiveEvent) : View :=
  let items := origin.existing id ++ freshOccurrences env candidates
  if (origin.existing id).isEmpty && !(activeKinds items).any lineageKind then origin.view id
  else View.of env items (id ∈ origin.hiddenIds) (Lineage.selectedAfter (origin.selected.get? id) candidates)

end

theorem selectedAfter_ne_none {candidates : List EffectiveEvent} (h : candidates ≠ []) (selected : Option (Nat × String)) :
    Lineage.selectedAfter selected candidates ≠ none := by
  obtain ⟨init, last, rfl⟩ := (List.eq_nil_or_concat candidates).resolve_left h
  unfold Lineage.selectedAfter
  rw [List.concat_eq_append, List.foldl_append, List.foldl_cons, List.foldl_nil]
  split
  · simp
  · split <;> simp

theorem touch_cases {origin lineage out : Lineage} {id : String} {candidates : List EffectiveEvent}
    (h : origin.touch env lineage (id, candidates) = .ok out) :
    ((origin.existing id).isEmpty && !(activeKinds (origin.existing id ++ freshOccurrences env candidates)).any lineageKind)
        = true ∧ out = lineage ∨
      ((origin.existing id).isEmpty &&
        !(activeKinds (origin.existing id ++ freshOccurrences env candidates)).any lineageKind) = false ∧
      out = lineage.setId env id (origin.existing id ++ freshOccurrences env candidates)
        (Lineage.selectedAfter (origin.selected.get? id) candidates) := by
  unfold Lineage.touch at h
  simp only [← freshOccurrences.eq_1] at h
  split at h
  · cases h
  · split at h
    · rename_i hskip
      exact .inl ⟨hskip, (Except.ok.inj h).symm⟩
    · rename_i hskip
      exact .inr ⟨by simpa using hskip, (Except.ok.inj h).symm⟩

theorem touch_view {origin lineage out : Lineage} {id : String} {candidates : List EffectiveEvent}
    (hs : Sound env lineage) (hhid : lineage.hiddenIds = origin.hiddenIds) (hview : lineage.view id = origin.view id)
    (hne : candidates ≠ []) (h : origin.touch env lineage (id, candidates) = .ok out) :
    Sound env out ∧ out.hiddenIds = origin.hiddenIds ∧ out.view id = origin.after env id candidates ∧
      ∀ id', id ≠ id' → out.view id' = lineage.view id' := by
  have hsome : Lineage.selectedAfter (origin.selected.get? id) candidates = none → (lineage.view id).selected = none :=
    fun hnone => absurd hnone (selectedAfter_ne_none hne _)
  unfold Lineage.after
  obtain ⟨hskip, rfl⟩ | ⟨hskip, rfl⟩ := touch_cases h
  · refine ⟨hs, hhid, ?_, fun _ _ => rfl⟩
    simp only [hskip, if_true, hview]
  · rw [← existing_congr hview]
    refine ⟨hs.setId id _ _ hsome, hhid, ?_, fun id' hid => view_setId_ne env lineage id _ _ hid⟩
    rw [← existing_congr hview] at hskip
    rw [view_setId lineage id _ _ hs hsome, hhid]
    simp only [hskip, Bool.false_eq_true, if_false]

theorem touched_view {origin : Lineage} : ∀ {entries : List (String × List EffectiveEvent)} {lineage out : Lineage},
    (entries.map Prod.fst).Nodup → (∀ e ∈ entries, e.2 ≠ []) → Sound env lineage →
    lineage.hiddenIds = origin.hiddenIds → (∀ e ∈ entries, lineage.view e.1 = origin.view e.1) →
    entries.foldlM (origin.touch env) lineage = .ok out →
    Sound env out ∧ out.hiddenIds = origin.hiddenIds ∧
      (∀ id, id ∉ entries.map Prod.fst → out.view id = lineage.view id) ∧
      ∀ e ∈ entries, out.view e.1 = origin.after env e.1 e.2
  | [], lineage, out, _, _, hs, hhid, _, h => by
    cases h
    exact ⟨hs, hhid, fun _ _ => rfl, nofun⟩
  | (id, candidates) :: entries, lineage, out, hnodup, hne, hs, hhid, hview, h => by
    rw [List.map_cons, List.nodup_cons] at hnodup
    rw [List.foldlM_cons] at h
    obtain ⟨next, hnext, hrest⟩ := Except.bind_eq_ok.1 h
    obtain ⟨hs', hhid', hid, hothers⟩ := touch_view hs hhid (hview _ List.mem_cons_self) (hne _ List.mem_cons_self) hnext
    have hview' : ∀ e ∈ entries, next.view e.1 = origin.view e.1 := by
      intro e he
      rw [hothers e.1 fun heq => hnodup.1 (heq ▸ List.mem_map_of_mem he)]
      exact hview e (List.mem_cons_of_mem _ he)
    obtain ⟨hout, hhidout, hkept, hread⟩ :=
      touched_view hnodup.2 (fun e he => hne e (List.mem_cons_of_mem _ he)) hs' hhid' hview' hrest
    refine ⟨hout, hhidout, fun id' hid' => ?_, fun e he => ?_⟩
    · rw [List.map_cons, List.mem_cons, not_or] at hid'
      rw [hkept id' hid'.2, hothers id' (Ne.symm hid'.1)]
    · rcases List.mem_cons.1 he with rfl | he
      · rw [hkept _ hnodup.1, hid]
      · exact hread e he

/-- **An extended lineage, one id at a time.** -/
theorem extended_view {lineage out : Lineage} {batchId : Option String} {batchActions plain : List Json}
    (hs : Sound env lineage) (h : lineage.extended env batchId batchActions plain = .ok out) :
    Sound env out ∧ out.hiddenIds = lineage.hiddenIds ∧
      ∃ added, lineage.appended env batchId batchActions plain = .ok added ∧ ∀ name,
        (name ∉ added.map (·.eventId) → out.view name = lineage.view name) ∧
        (name ∈ added.map (·.eventId) → out.view name = lineage.after env name (added.filter (·.eventId = name))) := by
  obtain ⟨added, hadded, hrest⟩ := Except.bind_eq_ok.1 h
  split at hrest
  · rename_i hempty
    rw [List.isEmpty_iff] at hempty
    cases hrest
    refine ⟨hs, rfl, added, hadded, fun name => ⟨fun _ => rfl, fun hid => ?_⟩⟩
    rw [hempty] at hid
    exact absurd hid List.not_mem_nil
  · obtain ⟨touched, htouched, heq⟩ := Except.bind_eq_ok.1 hrest
    cases heq
    have hkeys : ∀ name, name ∈ (Dict.collect EffectiveEvent.eventId id added).keys ↔ name ∈ added.map (·.eventId) := by
      intro name
      rw [Dict.keys_collect, List.mem_eraseDups]
    have hget : ∀ e ∈ (Dict.collect EffectiveEvent.eventId id added).entries,
        e.2 = added.filter (·.eventId = e.1) ∧ e.1 ∈ added.map (·.eventId) := by
      intro e he
      have hmem : e.1 ∈ added.map (·.eventId) := (hkeys e.1).1 (List.mem_map_of_mem he)
      have hsome := Dict.get?_eq_some.2 he
      rw [Dict.get?_collect, if_pos hmem, Option.some.injEq, List.map_id] at hsome
      exact ⟨hsome.symm, hmem⟩
    have hne : ∀ e ∈ (Dict.collect EffectiveEvent.eventId id added).entries, e.2 ≠ [] := by
      intro e he
      obtain ⟨heq, hmem⟩ := hget e he
      obtain ⟨c, hc, hcid⟩ := List.mem_map.1 hmem
      rw [heq]
      exact List.ne_nil_of_mem (List.mem_filter.2 ⟨hc, by simpa using hcid⟩)
    obtain ⟨hout, hhid, hkept, hread⟩ :=
      touched_view (Dict.collect EffectiveEvent.eventId id added).nodup hne hs rfl (fun _ _ => rfl) htouched
    refine ⟨hout.sealed, hhid, added, hadded, fun name => ⟨fun hid => ?_, fun hid => ?_⟩⟩
    · exact hkept name fun hk => hid ((hkeys name).1 hk)
    · obtain ⟨e, he, rfl⟩ := List.mem_map.1 ((hkeys name).2 hid)
      rw [← (hget e he).1]
      exact hread e he

section
variable (env)

inductive Made : Lineage → Prop
  | built {fold : SelectorFold} {selection : EffectiveSelection} {physicalRevisions : Finset String} {lineage : Lineage} :
    buildFiveHourLineage env fold selection physicalRevisions = .ok lineage → Made lineage
  | extended {lineage out : Lineage} {batchId : Option String} {batchActions plain : List Json} :
    Made lineage → lineage.extended env batchId batchActions plain = .ok out → Made out

end

theorem sound_empty (hidden : Finset String) : Sound env (Lineage.empty hidden) := by
  refine ⟨fun _ => .inl rfl, fun id block => ?_⟩
  simp [Lineage.empty, BlockIndex.ids]

theorem existing_absent {lineage : Lineage} {id : String} (h : lineage.view id = .absent) : lineage.existing id = [] := by
  have hm : lineage.milestones.get? id = none := congrArg View.milestones h
  have hc : lineage.closes.get? id = none := congrArg View.closes h
  simp [Lineage.existing, hm, hc]

theorem sound_built (selected : String → Option (Nat × String)) : ∀ {entries : List (String × List Occurrence)}
    {lineage : Lineage}, (entries.map Prod.fst).Nodup → Sound env lineage →
    (∀ e ∈ entries, lineage.view e.1 = .absent) →
    Sound env (entries.foldl (fun lineage e => lineage.setId env e.1 e.2 (selected e.1)) lineage)
  | [], _, _, hs, _ => hs
  | (id, items) :: entries, lineage, hnodup, hs, habsent => by
    rw [List.map_cons, List.nodup_cons] at hnodup
    have hview : lineage.view id = .absent := habsent _ List.mem_cons_self
    have hnext := hs.setId id items (selected id) fun _ => congrArg View.selected hview
    rw [existing_absent hview, List.nil_append] at hnext
    rw [List.foldl_cons]
    refine sound_built selected hnodup.2 hnext fun e he => ?_
    have hne : id ≠ e.1 := fun heq => hnodup.1 (List.mem_map.2 ⟨e, he, heq.symm⟩)
    rw [view_setId_ne env lineage id _ _ hne]
    exact habsent e (List.mem_cons_of_mem _ he)

theorem Made.sound {lineage : Lineage} (h : Made env lineage) : Sound env lineage := by
  induction h with
  | @built _ selection _ _ h =>
    obtain ⟨wanted, -, heq⟩ := Except.bind_eq_ok.1 h
    cases heq
    exact (sound_built (fun id => (selection.byId.get? id).map fun w => (w.rev, w.contentHash)) (Dict.nodup _)
      (sound_empty _) fun _ _ => rfl).sealed
  | extended _ h ih => exact (extended_view ih h).1

theorem ids_sealed (lineage : Lineage) (block : Block) :
    lineage.sealed.closeIdsEverInBlock.ids env block = sortedSet (lineage.sealed.closeIdsEverInBlock.ids env block) := by
  have hids : lineage.sealed.closeIdsEverInBlock.ids env block = sortedSet (lineage.closeIdsEverInBlock.ids env block) :=
    ids_sorted env block _
  rw [hids]
  exact sortedSet_congr fun a => mem_sortedSet.symm

theorem Made.ids_sorted {lineage : Lineage} (h : Made env lineage) (block : Block) :
    lineage.closeIdsEverInBlock.ids env block = sortedSet (lineage.closeIdsEverInBlock.ids env block) := by
  induction h with
  | built h =>
    obtain ⟨wanted, -, heq⟩ := Except.bind_eq_ok.1 h
    cases heq
    exact ids_sealed _ block
  | extended _ h ih =>
    obtain ⟨added, -, hrest⟩ := Except.bind_eq_ok.1 h
    split at hrest
    · cases hrest
      exact ih
    · obtain ⟨touched, -, heq⟩ := Except.bind_eq_ok.1 hrest
      cases heq
      exact ids_sealed touched block

end

end Cctally.FiveHour
