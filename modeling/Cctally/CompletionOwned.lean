import Cctally.CompletionPlan
import Cctally.Rewrites

/-!
# What completion owns

Every record a decided block may land is of an id all of whose records name
decided blocks, and stands for the retained or the replayed record of that id.
-/

namespace Cctally.Completion

open Rederive

section
variable {env : Env} {inp : Inputs}

theorem payload_ne_nil_of_isKind {r : Record} {kind : String} (h : r.isKind kind = true) : r.payload ≠ [] := by
  intro hnil
  have hkind : r.kind = .null := by rw [Record.kind, hnil, Json.field, Dict.find, Option.getD_none]
  rw [Record.isKind, hkind] at h
  cases h

theorem payload_ne_nil_of_isClosed {r : Record} (h : r.isClosed = true) : r.payload ≠ [] := by
  intro hnil
  rw [Record.isClosed, hnil, Json.field, Dict.find, Option.getD_none] at h
  cases h

theorem mem_blocksOf {id : String} {x : Option BlockKey} :
    x ∈ blocksOf env inp id ↔
      ∃ table ∈ inp.tables, ∃ r, table.get? id = some r ∧ fiveHour r = true ∧ r.block env = x := by
  simp only [blocksOf, List.mem_filterMap, Option.map_eq_some_iff, Option.filter_eq_some_iff]
  constructor
  · rintro ⟨table, htable, r, ⟨hr, hfive⟩, hx⟩
    exact ⟨table, htable, r, hr, hfive, hx⟩
  · rintro ⟨table, htable, r, hr, hfive, hx⟩
    exact ⟨table, htable, r, ⟨hr, hfive⟩, hx⟩

theorem mem_recordedIds {id : String} {x : Option BlockKey} (h : x ∈ blocksOf env inp id) : id ∈ recordedIds env inp := by
  obtain ⟨table, htable, r, hr, -⟩ := mem_blocksOf.1 h
  refine List.mem_filter.2 ⟨mem_sortedSet.2 (List.mem_flatMap.2 ⟨table, htable, Dict.mem_keys.2 ⟨r, hr⟩⟩), ?_⟩
  simpa using List.ne_nil_of_mem h

theorem get?_inBlock {table : Dict String Record} {block : BlockKey} {id : String} {r : Record} :
    (inBlock env table block).get? id = some r ↔ table.get? id = some r ∧ fiveHour r = true ∧ r.block env = some block := by
  rw [inBlock, Dict.get?_filter_eq_some, Bool.and_eq_true, decide_eq_true_eq]

theorem block_mem_blocksOf {table : Dict String Record} (htable : table ∈ inp.tables) {block : BlockKey} {id : String}
    {r : Record} (h : (inBlock env table block).get? id = some r) : some block ∈ blocksOf env inp id := by
  obtain ⟨hr, hfive, hblock⟩ := get?_inBlock.1 h
  exact mem_blocksOf.2 ⟨table, htable, r, hr, hfive, hblock⟩

theorem get?_milestonesCurrent {block : BlockKey} {id : String} {r : Record} :
    (milestonesCurrent env inp block).get? id = some r ↔
      (inBlock env inp.current block).get? id = some r ∧ r.isKind "five_hour_milestone" = true := by
  rw [milestonesCurrent, Dict.get?_filter_eq_some]

theorem get?_milestonesWith {own : Ownership} {block : BlockKey} {id : String} {r : Record} :
    (milestonesWith env inp own block).get? id = some r ↔
      (inBlock env inp.withGap block).get? id = some r ∧ r.isKind "five_hour_milestone" = true ∧ id ∉ own.notOwned := by
  rw [milestonesWith, Dict.get?_filter_eq_some, Bool.and_eq_true, decide_eq_true_eq]

theorem reaching_subset {decided : List BlockKey} {id : String} (h : id ∈ reaching env inp decided) :
    id ∈ recordedIds env inp := (List.mem_filter.1 h).1

theorem settle_owned {classified : List Classified} {out : List String} : ∀ {fuel : Nat} {notOwned : List String},
    ((recordedIds env inp).filter fun id => id ∉ notOwned).length ≤ fuel →
    settleOwnership env inp fuel notOwned = .ok (classified, out) →
    (touched env inp).mapM (classifyBlock env inp out) = .ok classified ∧
      ∀ id ∈ reaching env inp (decidedBlocks classified), id ∈ out
  | 0, notOwned, hfuel, h => by
    obtain ⟨_, hclassified, h⟩ := Except.bind_eq_ok.1 h
    obtain ⟨rfl, rfl⟩ := Prod.mk.inj (Except.ok.inj h)
    refine ⟨hclassified, fun id hid => ?_⟩
    have hnil := List.filter_eq_nil_iff.1 (List.eq_nil_of_length_eq_zero (Nat.le_zero.1 hfuel)) id (reaching_subset hid)
    simpa using hnil
  | fuel + 1, notOwned, hfuel, h => by
    obtain ⟨_, hclassified, h⟩ := Except.bind_eq_ok.1 h
    dsimp only at h
    split at h
    · rename_i hall
      obtain ⟨rfl, rfl⟩ := Prod.mk.inj (Except.ok.inj h)
      exact ⟨hclassified, fun id hid => of_decide_eq_true (List.all_eq_true.1 hall id hid)⟩
    · rename_i hall
      refine settle_owned ?_ h
      -- a new id reaches out, so fewer are left
      generalize hreach : reaching env inp _ = reach at hall
      have hnew : ∃ id ∈ reach, id ∉ notOwned := by simpa using hall
      obtain ⟨id, hid, hnot⟩ := hnew
      have hsplit : ((recordedIds env inp).filter fun id => id ∉ notOwned ∪ reach) =
          ((recordedIds env inp).filter fun id => id ∉ notOwned).filter fun id => id ∉ reach := by
        rw [List.filter_filter]
        exact List.filter_congr fun x _ => by simp [List.mem_union_iff, not_or, Bool.and_comm]
      have hmem : id ∈ (recordedIds env inp).filter fun id => id ∉ notOwned :=
        List.mem_filter.2 ⟨reaching_subset (hreach ▸ hid), by simpa using hnot⟩
      have hlt : ((((recordedIds env inp).filter fun id => id ∉ notOwned).filter fun id => id ∉ reach).length) <
          ((recordedIds env inp).filter fun id => id ∉ notOwned).length :=
        List.length_filter_lt_length_iff_exists.2 ⟨id, hmem, by simpa using hid⟩
      rw [hsplit]
      omega

theorem classifyBlock_spec {out : List String} {block : BlockKey} {c : Classified}
    (h : classifyBlock env inp out block = .ok c) :
    c.block = block ∧
      (∀ id close, c.closes.get? id = some close → id ∈ closeIds env inp block ∧ close.blockClass ≠ .open ∧
        keepsToday inp out (id, close) = false ∧ ∃ several, classifyClose env inp several id = .ok close) ∧
      ∀ id ∈ c.todays, ∃ several close, classifyClose env inp several id = .ok close ∧
        keepsToday inp out (id, close) = true := by
  unfold classifyBlock at h
  obtain ⟨all, hall, h⟩ := Except.bind_eq_ok.1 h
  obtain rfl := Except.ok.inj h
  have hmem : ∀ p ∈ all, p.1 ∈ closeIds env inp block ∧ ∃ several, classifyClose env inp several p.1 = .ok p.2 := by
    intro p hp
    obtain ⟨id, hid, hreturn⟩ := (Except.mem_of_mapM hall p).1 hp
    obtain ⟨close, hclose, hpair⟩ := Except.bind_eq_ok.1 hreturn
    obtain rfl := Except.ok.inj hpair
    exact ⟨hid, _, hclose⟩
  refine ⟨rfl, fun id close hclose => ?_, fun id hid => ?_⟩
  · obtain ⟨hp, htest⟩ := List.mem_filter.1 (Dict.mem_of_get?_ofList hclose)
    obtain ⟨htoday, hopen⟩ := Bool.and_eq_true_iff.1 htest
    exact ⟨(hmem _ hp).1, of_decide_eq_true hopen, by simpa using htoday, (hmem _ hp).2⟩
  · obtain ⟨p, hp, rfl⟩ := List.mem_map.1 hid
    obtain ⟨hp, htoday⟩ := List.mem_filter.1 hp
    obtain ⟨several, hclose⟩ := (hmem p hp).2
    exact ⟨several, p.2, hclose, htoday⟩

theorem blockClassOf_ne_open : ∀ {classes : List BlockClass}, classes ≠ [] → (∀ c ∈ classes, c ≠ .open) →
    blockClassOf classes ≠ .open
  | [], h, _ => absurd rfl h
  | [only], _, h => h only (List.mem_singleton_self _)
  | _ :: _ :: _, _, _ => by
    simp only [blockClassOf]
    split <;> decide

theorem classifyBlock_class {out : List String} {block : BlockKey} {c : Classified}
    (h : classifyBlock env inp out block = .ok c) (hcloses : c.closes.entries ≠ []) : c.blockClass ≠ .open := by
  unfold classifyBlock at h
  obtain ⟨all, -, h⟩ := Except.bind_eq_ok.1 h
  obtain rfl := Except.ok.inj h
  refine blockClassOf_ne_open (fun hnil => hcloses ?_) fun blockClass hmem => ?_
  · rw [List.map_eq_nil_iff.1 hnil]
    rfl
  · obtain ⟨close, hclose, rfl⟩ := List.mem_map.1 hmem
    exact of_decide_eq_true (Bool.and_eq_true_iff.1 (List.mem_filter.1 hclose).2).2

/-! ## Ownership -/

/-- The state classification settles in: `out` are the ids that reach out of the decided blocks. -/
structure Settled (env : Env) (inp : Inputs) (own : Ownership) (out : List String) : Prop where
  owned : ∀ c ∈ own.owned, classifyBlock env inp out c.block = .ok c
  decides : ∀ c ∈ own.owned, c.closes.entries ≠ []
  notOwned : ∀ id, id ∈ own.notOwned → id ∈ out ∨
    ∃ block c, classifyBlock env inp out block = .ok c ∧ id ∈ c.todays
  out_notOwned : ∀ id ∈ out, id ∈ own.notOwned
  reaching : ∀ id ∈ reaching env inp own.decided, id ∈ out

theorem ownership_settled {own : Ownership} (h : ownership env inp = .ok own) : ∃ out, Settled env inp own out := by
  obtain ⟨⟨classified, out⟩, hsettle, h⟩ := Except.bind_eq_ok.1 h
  obtain rfl := Except.ok.inj h
  obtain ⟨hclassified, hreaching⟩ := settle_owned (List.length_filter_le ..) hsettle
  have hblock : ∀ c ∈ classified, ∃ block, classifyBlock env inp out block = .ok c := fun c hc => by
    obtain ⟨block, -, hc⟩ := (Except.mem_of_mapM hclassified c).1 hc
    exact ⟨block, hc⟩
  refine ⟨out, fun c hc => ?_, fun c hc => by simpa using (List.mem_filter.1 hc).2, fun id hid => ?_,
    fun id hid => List.mem_union_left hid _, hreaching⟩
  · obtain ⟨block, hc⟩ := hblock c (List.mem_filter.1 hc).1
    exact (classifyBlock_spec hc).1 ▸ hc
  · rcases List.mem_union_iff.1 hid with hid | hid
    · exact .inl hid
    · obtain ⟨c, hc, hid⟩ := List.mem_flatMap.1 hid
      obtain ⟨block, hc⟩ := hblock c hc
      exact .inr ⟨block, c, hc, hid⟩

section
variable {own : Ownership} {out : List String} (hs : Settled env inp own out)
include hs

theorem Settled.inside {id : String} (hout : id ∉ out) {block : BlockKey} (hblock : some block ∈ blocksOf env inp id)
    (hdecided : block ∈ own.decided) : (blocksOf env inp id).all (inside own.decided) = true := by
  by_contra hall
  refine hout (hs.reaching id (List.mem_filter.2 ⟨mem_recordedIds hblock, ?_⟩))
  rw [Bool.and_eq_true]
  exact ⟨List.any_eq_true.2 ⟨some block, hblock, decide_eq_true hdecided⟩, by simpa using hall⟩

theorem Settled.handled {id : String} (hno : id ∉ own.notOwned) {block : BlockKey}
    (hblock : some block ∈ blocksOf env inp id) (hdecided : block ∈ own.decided)
    (hretired : ∀ b ∈ own.decided, id ∉ retiredIn env inp b) : id ∈ handledIds env inp own := by
  refine List.mem_filter.2 ⟨mem_recordedIds hblock, ?_⟩
  have hall := hs.inside (fun hid => hno (hs.out_notOwned id hid)) hblock hdecided
  have hflat : id ∉ own.decided.flatMap (retiredIn env inp) := by
    rw [List.mem_flatMap]
    rintro ⟨b, hb, hid⟩
    exact hretired b hb hid
  simp [hall, hno, hflat]

end

theorem mem_retiredIn {block : BlockKey} {id : String} (h : id ∈ retiredIn env inp block) :
    id ∈ inp.acted ∧ inp.withGap.get? id = none ∧ ∃ r, (milestonesCurrent env inp block).get? id = some r := by
  obtain ⟨hkey, htest⟩ := List.mem_filter.1 h
  obtain ⟨hacted, hnone⟩ := Bool.and_eq_true_iff.1 htest
  exact ⟨of_decide_eq_true hacted, Option.isNone_iff_eq_none.1 hnone, Dict.mem_keys.1 hkey⟩

theorem block_decided {own : Ownership} {c : Classified} (hc : c ∈ own.owned) : c.block ∈ own.decided :=
  List.mem_map.2 ⟨c, hc, rfl⟩

section
variable {own : Ownership} {out : List String} (hs : Settled env inp own out) {c : Classified} (hc : c ∈ own.owned)
include hs hc

theorem Settled.close_handled {id : String} {close : CompletionClose} (hclose : c.closes.get? id = some close)
    (hacted : id ∈ inp.acted) : id ∈ handledIds env inp own := by
  obtain ⟨-, hcloses, -⟩ := classifyBlock_spec (hs.owned c hc)
  obtain ⟨hid, hclass, htoday, several, hclassify⟩ := hcloses id close hclose
  have hout : id ∉ out := by
    intro hout
    simp [keepsToday, hacted, hout] at htoday
  have hdesired : inp.withGap.get? id ≠ none := by
    rcases classify_cases hclassify with ⟨hnot, -⟩ | ⟨-, hopen, -⟩ | ⟨-, -, -, d, hd, -⟩
    · simp [hacted] at hnot
    · exact absurd hopen hclass
    · simp [hd]
  refine hs.handled (fun hno => ?_) ?_ (block_decided hc) fun b _ hretired => hdesired (mem_retiredIn hretired).2.1
  · rcases hs.notOwned id hno with hmem | ⟨block, c', hc', hid'⟩
    · exact hout hmem
    · -- the id is left by another block only when its close is open, and then it is open here
      obtain ⟨-, -, htodays⟩ := classifyBlock_spec hc'
      obtain ⟨several', close', hclassify', htoday'⟩ := htodays id hid'
      have hopen' : close'.blockClass = .open := by simpa [keepsToday, hacted, hout] using htoday'
      exact hclass (classify_open hclassify' hclassify hopen')
  · obtain ⟨table, htable, hkey⟩ := List.mem_flatMap.1 (mem_sortedSet.1 hid)
    obtain ⟨r, hr⟩ := Dict.mem_keys.1 hkey
    exact block_mem_blocksOf htable (Dict.get?_filter_eq_some.1 hr).1

theorem Settled.closeRecord_rewrites {id : String} {close : CompletionClose} (hclose : c.closes.get? id = some close)
    {name : CandidateName} {r : Record} (hr : closeRecord env inp name id close = some r) :
    id ∈ inp.acted ∧ r.isClosed = true ∧
      ∃ s, (inp.withGap.get? id = some s ∨ inp.current.get? id = some s) ∧ Rewrites s r := by
  obtain ⟨-, hcloses, -⟩ := classifyBlock_spec (hs.owned c hc)
  obtain ⟨-, hclass, -, several, hclassify⟩ := hcloses id close hclose
  obtain ⟨htarget, hdiffers⟩ := Option.filter_eq_some_iff.1 hr
  rcases classify_cases hclassify with ⟨hnot, rfl⟩ | ⟨-, hopen, -⟩ | ⟨hacted, -, hall, d, hd, hdclosed, hrewrites⟩
  · -- not acted on: the only target is the retained record itself
    exfalso
    have hnot : id ∉ inp.acted := by simpa using hnot
    have hcurrent : (inp.current.get? id).isSome = true := by
      cases hget : inp.current.get? id with
      | none => simp [hget, closedRecord] at hclass
      | some now => rfl
    have hkept : inp.current.get? id = some r := by
      cases name <;> simp_all
    rw [hkept, Option.all_some, sameEvent_refl] at hdiffers
    cases hdiffers
  · exact absurd hopen hclass
  · have hacted : id ∈ inp.acted := of_decide_eq_true hacted
    refine ⟨hacted, ?_⟩
    have hsource : r = d ∨ close.target = some r ∨ close.frozenForm = some r := by
      split at htarget
      · rw [hd] at htarget
        exact .inl (Option.some.inj htarget).symm
      · split at htarget
        · exact .inr (.inl htarget)
        · split at htarget
          · exact .inr (.inr htarget)
          · rw [hd] at htarget
            exact .inl (Option.some.inj htarget).symm
        · rw [hd] at htarget
          exact .inl (Option.some.inj htarget).symm
        · cases htarget
    rcases hsource with rfl | hsource
    · exact ⟨hdclosed, r, .inl hd, Rewrites.refl r⟩
    · rcases hrewrites r hsource with hdr | ⟨n, hn, hnr⟩
      · exact ⟨hdr.isClosed.trans hdclosed, d, .inl hd, hdr⟩
      · rw [hn, Option.all_some] at hall
        exact ⟨hnr.isClosed.trans hall, n, .inr hn, hnr⟩

theorem Settled.milestone_handled {others : List (String × Option Record)} (hothers : unowned env inp own c.block = .ok others)
    {id : String}
    (h : ((milestonesWith env inp own c.block).get? id).isSome ∨ ((milestonesCurrent env inp c.block).get? id).isSome ∧
      id ∉ (Dict.ofList (others.filterMap fun p => p.2.map (p.1, ·))).keys ∧
      id ∉ retiredIn env inp c.block ++ (others.filter (·.2.isNone)).map Prod.fst) : id ∈ handledIds env inp own := by
  rcases h with hwith | ⟨hcurrent, hfixed, hleaves⟩
  · obtain ⟨r, hr⟩ := Option.isSome_iff_exists.1 hwith
    obtain ⟨hr, -, hno⟩ := get?_milestonesWith.1 hr
    refine hs.handled hno (block_mem_blocksOf (by simp [Inputs.tables]) hr) (block_decided hc) fun b _ hretired => ?_
    have hnone := (mem_retiredIn hretired).2.1
    rw [(get?_inBlock.1 hr).1] at hnone
    cases hnone
  · obtain ⟨r, hget⟩ := Option.isSome_iff_exists.1 hcurrent
    obtain ⟨hr, -⟩ := get?_milestonesCurrent.1 hget
    have hblock : some c.block ∈ blocksOf env inp id := block_mem_blocksOf (by simp [Inputs.tables]) hr
    rw [List.mem_append, not_or] at hleaves
    refine hs.handled (fun hno => ?_) hblock (block_decided hc) fun b _ hretired => ?_
    · -- an id left to today's path stays with its record or leaves the chain
      have hlisted : id ∈ sortedSet (own.notOwned.filter fun id => some c.block ∈ blocksOf env inp id) :=
        mem_sortedSet.2 (List.mem_filter.2 ⟨hno, decide_eq_true hblock⟩)
      obtain ⟨p, hp, hstays⟩ := Except.ok_of_mapM hothers id hlisted
      obtain ⟨stays, -, hpair⟩ := Except.bind_eq_ok.1 hstays
      obtain rfl := Except.ok.inj hpair
      cases stays with
      | none => exact hleaves.2 (List.mem_map.2 ⟨_, List.mem_filter.2 ⟨hp, rfl⟩, rfl⟩)
      | some kept =>
        refine hfixed (Dict.mem_keys_ofList.2 (List.mem_map.2 ⟨(id, kept), ?_, rfl⟩))
        exact List.mem_filterMap.2 ⟨_, hp, rfl⟩
    · -- the retained record names one block, so the id retires in this one
      obtain ⟨-, -, r', hr'⟩ := mem_retiredIn hretired
      obtain ⟨hget, -, hb⟩ := get?_inBlock.1 hr
      obtain ⟨hget', -, hb'⟩ := get?_inBlock.1 (get?_milestonesCurrent.1 hr').1
      obtain rfl := Option.some.inj (hget.symm.trans hget')
      obtain rfl := Option.some.inj (hb.symm.trans hb')
      exact hleaves.1 hretired

theorem Settled.candidate_rewrites {name : CandidateName} {records : Dict String Record}
    (h : candidate env inp own c name = .ok records) {id : String} {r : Record} (hr : records.get? id = some r) :
    id ∈ handledIds env inp own ∧ r.payload ≠ [] ∧
      ∃ s, (inp.withGap.get? id = some s ∨ inp.current.get? id = some s) ∧ Rewrites s r := by
  obtain ⟨others, hothers, h⟩ := Except.bind_eq_ok.1 h
  obtain ⟨milestones, hmilestones, h⟩ := Except.bind_eq_ok.1 h
  obtain rfl := Except.ok.inj h
  rcases Dict.mem_merge hr with hr | hr
  · obtain ⟨⟨s, hs', hrewrites⟩, hwhere⟩ := completionBlockMilestones_rewrites hmilestones hr
    refine ⟨hs.milestone_handled hc hothers hwhere, ?_⟩
    have hmilestone : s.isKind "five_hour_milestone" = true := by
      rcases hs' with hw | hcur
      · exact (get?_milestonesWith.1 hw).2.1
      · exact (get?_milestonesCurrent.1 hcur).2
    refine ⟨payload_ne_nil_of_isKind ((hrewrites.isKind _).trans hmilestone), s, ?_, hrewrites⟩
    rcases hs' with hw | hcur
    · exact .inl (get?_inBlock.1 (get?_milestonesWith.1 hw).1).1
    · exact .inr (get?_inBlock.1 (get?_milestonesCurrent.1 hcur).1).1
  · obtain ⟨⟨id', close⟩, hentry, hclose⟩ := List.mem_filterMap.1 (Dict.mem_of_get?_ofList hr)
    obtain ⟨record, hrecord, hpair⟩ := Option.map_eq_some_iff.1 hclose
    obtain ⟨rfl, rfl⟩ := Prod.mk.inj hpair
    have hget := Dict.get?_eq_some.2 hentry
    obtain ⟨hacted, hclosed, hrewrites⟩ := hs.closeRecord_rewrites hc hget hrecord
    exact ⟨hs.close_handled hc hget hacted, payload_ne_nil_of_isClosed hclosed, hrewrites⟩

end

theorem handled_block {own : Ownership} {id : String} (h : id ∈ handledIds env inp own) {s r : Record}
    (hs : inp.withGap.get? id = some s ∨ inp.current.get? id = some s) (hr : Rewrites s r) (hfive : fiveHour r = true) :
    ∃ block ∈ own.decided, r.block env = some block := by
  have hfive' : fiveHour s = true := by
    rw [fiveHour, ← hr.kind]
    exact hfive
  have hmem : s.block env ∈ blocksOf env inp id := by
    rcases hs with hs | hs
    · exact mem_blocksOf.2 ⟨inp.withGap, by simp [Inputs.tables], s, hs, hfive', rfl⟩
    · exact mem_blocksOf.2 ⟨inp.current, by simp [Inputs.tables], s, hs, hfive', rfl⟩
  obtain ⟨htest, -⟩ := Bool.and_eq_true_iff.1 (List.mem_filter.1 h).2
  have hinside := List.all_eq_true.1 (Bool.and_eq_true_iff.1 htest).1 _ hmem
  rw [← hr.block env] at hinside
  cases hb : r.block env with
  | none =>
    rw [hb] at hinside
    cases hinside
  | some block =>
    rw [hb] at hinside
    exact ⟨block, of_decide_eq_true hinside, rfl⟩

end

end Cctally.Completion
