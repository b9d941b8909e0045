import Cctally.Completion
import Cctally.Except
import Mathlib.Data.List.ReduceOption

/-!
# Records that stand for another

Preserving, overlaying, marking and pricing change a record's payload and never
its kind or its block.
-/

namespace Cctally.Rederive

open Json (field setField)

def STANDING_FIELDS : List String := ["kind", "account_key", "five_hour_window_key", "is_closed"]

structure Rewrites (d r : Record) : Prop where
  record : r = d ∨ ∃ payload, r = d.withPayload payload
  fields : ∀ key ∈ STANDING_FIELDS, field r.payload key = field d.payload key

theorem Record.ext {r s : Record} (hf : r.fields = s.fields) (hp : r.payload = s.payload) : r = s := by
  cases r
  cases s
  cases hf
  cases hp
  rfl

theorem Record.withPayload_withPayload (r : Record) (p q : Json.Fields) :
    (r.withPayload p).withPayload q = r.withPayload q :=
  Record.ext (Json.setField_setField _ _ _ _) rfl

namespace Rewrites

theorem refl (d : Record) : Rewrites d d := ⟨.inl rfl, fun _ _ => rfl⟩

theorem withPayload {d r : Record} (h : Rewrites d r) {payload : Json.Fields}
    (hp : ∀ key ∈ STANDING_FIELDS, field payload key = field r.payload key) : Rewrites d (r.withPayload payload) := by
  refine ⟨.inr ⟨payload, ?_⟩, fun key hk => (hp key hk).trans (h.fields key hk)⟩
  rcases h.record with rfl | ⟨p, rfl⟩
  · rfl
  · exact Record.withPayload_withPayload ..

theorem trans {d r s : Record} (h : Rewrites d r) (h' : Rewrites r s) : Rewrites d s := by
  rcases h'.record with rfl | ⟨p, rfl⟩
  · exact h
  · exact h.withPayload h'.fields

theorem setField {d r : Record} (h : Rewrites d r) {key : String} (hkey : key ∉ STANDING_FIELDS) (value : Json) :
    Rewrites d (r.withPayload (Json.setField key value r.payload)) :=
  h.withPayload fun k hk => Json.field_setField_ne (fun heq : key = k => hkey (heq ▸ hk)) _ _

theorem kind {d r : Record} (h : Rewrites d r) : r.kind = d.kind := h.fields _ (by simp [STANDING_FIELDS])

theorem isKind {d r : Record} (h : Rewrites d r) (kind : String) : r.isKind kind = d.isKind kind := by
  rw [Record.isKind, Record.isKind, h.kind]

theorem isClosed {d r : Record} (h : Rewrites d r) : r.isClosed = d.isClosed := by
  rw [Record.isClosed, h.fields _ (by simp [STANDING_FIELDS]), Record.isClosed]

theorem block {d r : Record} (h : Rewrites d r) (env : Env) : r.block env = d.block env := by
  have haccount := h.fields "account_key" (by simp [STANDING_FIELDS])
  have hwindow := h.fields "five_hour_window_key" (by simp [STANDING_FIELDS])
  rw [Record.block, hashableBlock, haccount, hwindow, Record.block, hashableBlock]

end Rewrites

theorem field_foldl_setField {key : String} : ∀ {l d : Json.Fields}, (∀ p ∈ l, p.1 ≠ key) →
    field (l.foldl (fun d p => setField p.1 p.2 d) d) key = field d key
  | [], _, _ => rfl
  | p :: l, d, h => by
    rw [List.foldl_cons, field_foldl_setField fun q hq => h q (List.mem_cons_of_mem _ hq)]
    exact Json.field_setField_ne (h p (List.mem_cons_self ..)) _ _

theorem closeMoneyOverlay_rewrites (desired current : Record) :
    Rewrites desired (closeMoneyOverlay desired current) := by
  refine (Rewrites.refl desired).withPayload fun key hkey => ?_
  have hmoney : closeMoneyKey key = false := by
    simp only [STANDING_FIELDS, List.mem_cons, List.not_mem_nil, or_false] at hkey
    rcases hkey with rfl | rfl | rfl | rfl <;> decide
  rw [field_foldl_setField, field, withoutMoney, Json.find_filter (q := fun k => !closeMoneyKey k) (by simp [hmoney]), field]
  intro p hp heq
  have hp := (List.mem_filter.1 hp).2
  rw [heq, hmoney] at hp
  cases hp

theorem withCloseMarker_rewrites (env : Env) (desired : Record) (marker : Json.Fields) :
    Rewrites desired (withCloseMarker env desired marker) := by
  refine (Rewrites.refl desired).withPayload fun key hkey => ?_
  simp only [STANDING_FIELDS, List.mem_cons, List.not_mem_nil, or_false] at hkey
  rw [Json.field_setField_ne, Json.field_setField_ne]
  all_goals rcases hkey with rfl | rfl | rfl | rfl <;> decide

theorem milestoneOverlay_rewrites (desired current : Record) :
    Rewrites desired (Completion.milestoneOverlay desired current) := by
  have hstep : ∀ (keys : List String) (payload : Json.Fields) (key : String), (∀ k ∈ keys, k ≠ key) →
      field (keys.foldl (fun payload k =>
        if Json.hasField current.payload k then setField k (field current.payload k) payload
        else Json.without payload [k]) payload) key = field payload key := by
    intro keys
    induction keys with
    | nil => intro payload key _; rfl
    | cons k keys ih =>
      intro payload key h
      rw [List.foldl_cons, ih _ _ fun j hj => h j (List.mem_cons_of_mem _ hj)]
      have hne := h k (List.mem_cons_self ..)
      split
      · exact Json.field_setField_ne hne _ _
      · rw [Json.field_without (by simpa using Ne.symm hne)]
  refine (Rewrites.refl desired).withPayload fun key hkey => hstep _ _ key fun k hk heq => ?_
  subst heq
  revert hk
  simp only [STANDING_FIELDS, List.mem_cons, List.not_mem_nil, or_false] at hkey
  rcases hkey with rfl | rfl | rfl | rfl <;> decide

section
variable {env : Env} {current desired : Record} {marker : Option Json.Fields} {p : Preserved}

theorem preserveClose_rewrites (h : preserveClose env current desired marker = .ok p) :
    (∃ drifted, p = .current drifted) ∨ Rewrites desired (p.record current desired) := by
  have hmarked : ∀ (m : Json.Fields), Rewrites desired ((Preserved.revised (withCloseMarker env desired m)).record
      current desired) := fun m => withCloseMarker_rewrites env desired m
  unfold preserveClose at h
  obtain ⟨pricing, -, h⟩ := Except.bind_eq_ok.1 h
  dsimp only at h
  split at h
  · obtain ⟨same, -, h⟩ := Except.bind_eq_ok.1 h
    split at h <;> obtain rfl := Except.ok.inj h
    · exact .inr (hmarked _)
    · exact .inl ⟨_, rfl⟩
  · obtain ⟨missing, -, h⟩ := Except.bind_eq_ok.1 h
    split at h
    · exact .inl ⟨_, (Except.ok.inj h).symm⟩
    · obtain ⟨listed, -, h⟩ := Except.bind_eq_ok.1 h
      obtain ⟨positive, -, h⟩ := Except.bind_eq_ok.1 h
      split at h
      · exact .inl ⟨_, (Except.ok.inj h).symm⟩
      · obtain ⟨desiredPricing, -, h⟩ := Except.bind_eq_ok.1 h
        obtain ⟨unpriced, -, h⟩ := Except.bind_eq_ok.1 h
        split at h
        · exact .inl ⟨_, (Except.ok.inj h).symm⟩
        · obtain ⟨same, -, h⟩ := Except.bind_eq_ok.1 h
          split at h <;> obtain rfl := Except.ok.inj h
          · exact .inr (hmarked _)
          · exact .inl ⟨_, rfl⟩

theorem preserve_rewrites (h : preserveNonDerivableState env current desired marker = .ok p) :
    (∃ drifted, p = .current drifted) ∨ Rewrites desired (p.record current desired) := by
  unfold preserveNonDerivableState at h
  dsimp only at h
  split at h
  · exact .inl ⟨_, (Except.ok.inj h).symm⟩
  · split at h
    · exact .inl ⟨_, (Except.ok.inj h).symm⟩
    · split at h
      · exact preserveClose_rewrites h
      · split at h
        · cases h
        · split at h <;> obtain rfl := Except.ok.inj h
          · exact .inr ((Rewrites.refl desired).setField (by decide) _)
          · exact .inr (Rewrites.refl desired)

theorem preserved_rewrites {r : Record} (h : preserved env current desired = .ok r) :
    Rewrites current r ∨ Rewrites desired r := by
  obtain ⟨p, hp, hr⟩ := Except.bind_eq_ok.1 h
  obtain rfl := Except.ok.inj hr
  rcases preserve_rewrites hp with ⟨drifted, rfl⟩ | hd
  · exact .inl (Rewrites.refl current)
  · exact .inr hd

end

/-! ## What settling a block returns -/

section
variable {env : Env} {current desired kept : Dict String Record} {frozenBlocks replacedBlocks : Finset BlockKey}
variable {selection : EffectiveSelection} {lineage : Option FiveHour.Lineage}

theorem matchedCrossing_rewrites {id : String} {now then_ record : Record} {block : BlockKey} {role : Role}
    {withheld : Option FiveHour.Restoration}
    (h : matchedCrossing env frozenBlocks lineage id now then_ block = .ok (record, role, withheld)) :
    Rewrites now record ∨ Rewrites then_ record := by
  unfold matchedCrossing at h
  obtain ⟨carried, hcarried, h⟩ := Except.bind_eq_ok.1 h
  have hc := preserved_rewrites hcarried
  have hcost : ∀ (v : Json), Rewrites carried (carried.withPayload (setField "block_cost_usd" v carried.payload)) :=
    fun v => (Rewrites.refl carried).setField (by decide) v
  have hkeep : ∀ {r : Record}, Rewrites carried r → Rewrites now r ∨ Rewrites then_ r :=
    fun hr => hc.imp (·.trans hr) (·.trans hr)
  split at h
  · dsimp only at h
    split at h
    · obtain ⟨rfl, -⟩ := Prod.mk.inj (Except.ok.inj h)
      exact hkeep (hcost _)
    · obtain ⟨decision, -, h⟩ := Except.bind_eq_ok.1 h
      split at h <;> obtain ⟨rfl, -⟩ := Prod.mk.inj (Except.ok.inj h)
      · rw [← Record.withPayload_withPayload]
        exact hkeep ((hcost _).setField (by decide) _)
      · exact hkeep (hcost _)
      · exact hkeep (hcost _)
  · obtain ⟨rfl, -⟩ := Prod.mk.inj (Except.ok.inj h)
    exact hc

theorem placeMilestone_rewrites {id : String} {placed : Placed} {withheld : Option FiveHour.Restoration} {role : Role}
    (h : placeMilestone env current desired kept frozenBlocks replacedBlocks selection lineage id =
      .ok (some placed, withheld)) (hrole : placed.role = some role) :
    placed.id = id ∧ ∃ d, desired.get? id = some d ∧
      (Rewrites d placed.record ∨ ∃ c, current.get? id = some c ∧ Rewrites c placed.record) := by
  unfold placeMilestone at h
  obtain ⟨payload, -, h⟩ := Except.bind_eq_ok.1 h
  split at h
  · cases h
  · split at h
    · -- a preserved event has no role
      split at h
      · obtain ⟨hplaced, -⟩ := Prod.mk.inj (Except.ok.inj h)
        obtain rfl := Option.some.inj hplaced
        cases hrole
      · obtain ⟨hplaced, -⟩ := Prod.mk.inj (Except.ok.inj h)
        split at hplaced
        · obtain rfl := Option.some.inj hplaced
          cases hrole
        · cases hplaced
    · obtain ⟨block, -, h⟩ := Except.bind_eq_ok.1 h
      split at h
      · obtain ⟨hplaced, -⟩ := Prod.mk.inj (Except.ok.inj h)
        obtain ⟨r, -, rfl⟩ := Option.map_eq_some_iff.1 hplaced
        cases hrole
      · split at h
        · rename_i now then_ hnow hthen
          obtain ⟨⟨record, role', withheld'⟩, hmatched, h⟩ := Except.bind_eq_ok.1 h
          obtain ⟨hplaced, -⟩ := Prod.mk.inj (Except.ok.inj h)
          obtain rfl := Option.some.inj hplaced
          refine ⟨rfl, then_, hthen, ?_⟩
          rcases matchedCrossing_rewrites hmatched with hnow' | hthen'
          · exact .inr ⟨now, hnow, hnow'⟩
          · exact .inl hthen'
        · rename_i then_ _ hthen
          obtain ⟨hplaced, -⟩ := Prod.mk.inj (Except.ok.inj h)
          obtain rfl := Option.some.inj hplaced
          exact ⟨rfl, then_, hthen, .inl ((Rewrites.refl then_).withPayload fun _ _ => rfl)⟩
        · cases h

theorem resolve_rewrites {resolved : Dict String Record} {withheld : Dict String FiveHour.Restoration}
    (h : resolveClosedBlockMilestones env current desired kept frozenBlocks replacedBlocks selection lineage =
      .ok (resolved, withheld)) {id : String} {r : Record} (hr : resolved.get? id = some r) :
    ∃ d, desired.get? id = some d ∧ (Rewrites d r ∨ ∃ c, current.get? id = some c ∧ Rewrites c r) := by
  unfold resolveClosedBlockMilestones at h
  obtain ⟨places, hplaces, h⟩ := Except.bind_eq_ok.1 h
  obtain ⟨occupied, -, h⟩ := Except.bind_eq_ok.1 h
  obtain ⟨records, hrecords, h⟩ := Except.bind_eq_ok.1 h
  obtain ⟨rfl, -⟩ := Prod.mk.inj (Except.ok.inj h)
  obtain ⟨⟨placed, role⟩, hplaced, hvalue⟩ := (Except.mem_of_mapM hrecords _).1 (Dict.mem_of_get?_ofList hr)
  obtain ⟨value, -, hpair⟩ := Except.bind_eq_ok.1 hvalue
  obtain ⟨rfl, rfl⟩ := Prod.mk.inj (Except.ok.inj hpair)
  obtain ⟨p, hp, hprole⟩ := List.mem_filterMap.1 hplaced
  obtain ⟨role', hrole, hpair⟩ := Option.map_eq_some_iff.1 hprole
  obtain ⟨rfl, rfl⟩ := Prod.mk.inj hpair
  obtain ⟨⟨id, option, w⟩, hid, hoption⟩ := List.mem_filterMap.1 hp
  obtain ⟨id', -, hplace⟩ := (Except.mem_of_mapM hplaces _).1 hid
  obtain ⟨⟨option', w'⟩, hplaceMilestone, hreturn⟩ := Except.bind_eq_ok.1 hplace
  obtain ⟨rfl, hreturned⟩ := Prod.mk.inj (Except.ok.inj hreturn)
  obtain ⟨rfl, rfl⟩ := Prod.mk.inj hreturned
  obtain rfl : option' = some p := hoption
  obtain ⟨rfl, d, hd, hrewrites⟩ := placeMilestone_rewrites hplaceMilestone hrole
  have hmarginal : Rewrites p.record (p.record.withPayload (setField "marginal_cost_usd" value p.record.payload)) :=
    (Rewrites.refl _).setField (by decide) _
  refine ⟨d, hd, hrewrites.imp (·.trans hmarginal) ?_⟩
  rintro ⟨c, hc, hcr⟩
  exact ⟨c, hc, hcr.trans hmarginal⟩

end

end Cctally.Rederive

namespace Cctally.Completion

open Rederive

section
variable {env : Env} {current withGap fixed : Dict String Record} {acted retired : List String}
variable {lineage : FiveHour.Lineage} {selection : EffectiveSelection}

theorem mainRecords_rewrites {out : Dict String Record} (h : mainRecords env current withGap acted = .ok out)
    {id : String} {r : Record} (hr : out.get? id = some r) :
    ∃ d, withGap.get? id = some d ∧ (Rewrites d r ∨ ∃ c, current.get? id = some c ∧ Rewrites c r) := by
  unfold mainRecords at h
  obtain ⟨records, hrecords, h⟩ := Except.bind_eq_ok.1 h
  obtain rfl := Except.ok.inj h
  have hmem := Dict.mem_of_get?_ofList hr
  rw [List.reduceOption_mem_iff] at hmem
  obtain ⟨id', -, hid⟩ := (Except.mem_of_mapM hrecords _).1 hmem
  split at hid
  · rename_i desired existing hd hc
    obtain ⟨record, hrecord, hid⟩ := Except.bind_eq_ok.1 hid
    have hid := Except.ok.inj hid
    split at hid
    · cases hid
    · obtain ⟨rfl, rfl⟩ := Prod.mk.inj (Option.some.inj hid)
      refine ⟨desired, hd, ?_⟩
      rcases preserved_rewrites hrecord with hcr | hdr
      · exact .inr ⟨existing, hc, hcr⟩
      · exact .inl hdr
  · rename_i desired hd hc
    obtain ⟨rfl, rfl⟩ := Prod.mk.inj (Option.some.inj (Except.ok.inj hid))
    exact ⟨desired, hd, .inl (Rewrites.refl desired)⟩
  · cases hid

theorem desiredOf_rewrites {treatment : Treatment} {id : String} {existing r : Record}
    (h : desiredOf env withGap acted lineage treatment id existing = .ok r) :
    Rewrites existing r ∨ ∃ d, withGap.get? id = some d ∧ Rewrites d r := by
  unfold desiredOf at h
  split at h
  · rename_i candidate hc
    obtain rfl := Except.ok.inj h
    exact .inr ⟨candidate, hc, Rewrites.refl candidate⟩
  · rename_i candidate hc
    have hoverlay := milestoneOverlay_rewrites candidate existing
    split at h
    · obtain rfl := Except.ok.inj h
      exact .inl (Rewrites.refl existing)
    · dsimp only at h
      split at h
      · obtain ⟨decision, -, h⟩ := Except.bind_eq_ok.1 h
        obtain rfl := Except.ok.inj h
        refine .inr ⟨candidate, hc, ?_⟩
        split
        · exact hoverlay.setField (by decide) _
        · exact hoverlay
      · obtain rfl := Except.ok.inj h
        exact .inr ⟨candidate, hc, hoverlay⟩
  · obtain rfl := Except.ok.inj h
    exact .inl (Rewrites.refl existing)

theorem completionBlockMilestones_rewrites {treatment : Treatment} {blockClass : BlockClass} {out : Dict String Record}
    (h : completionBlockMilestones env current withGap fixed acted retired lineage selection treatment blockClass =
      .ok out) {id : String} {r : Record} (hr : out.get? id = some r) :
    (∃ s, (withGap.get? id = some s ∨ current.get? id = some s) ∧ Rewrites s r) ∧
      ((withGap.get? id).isSome ∨ (current.get? id).isSome ∧ id ∉ fixed.keys ∧ id ∉ retired) := by
  unfold completionBlockMilestones at h
  split at h
  · cases h
  · split at h
    · obtain ⟨d, hd, hrewrites⟩ := mainRecords_rewrites h hr
      refine ⟨?_, .inl (by rw [hd, Option.isSome_some])⟩
      rcases hrewrites with hdr | ⟨c, hc, hcr⟩
      · exact ⟨d, .inl hd, hdr⟩
      · exact ⟨c, .inr hc, hcr⟩
    · obtain ⟨retained, hretained, h⟩ := Except.bind_eq_ok.1 h
      dsimp only at h
      split at h
      · obtain rfl := Except.ok.inj h
        cases hr
      · obtain ⟨block, -, h⟩ := Except.bind_eq_ok.1 h
        obtain ⟨⟨resolved, withheld⟩, hresolved, h⟩ := Except.bind_eq_ok.1 h
        obtain rfl := Except.ok.inj h
        obtain ⟨hr, htest⟩ := Dict.get?_filter_eq_some.1 hr
        obtain ⟨d, hd, hrewrites⟩ := resolve_rewrites hresolved hr
        have hfixed : id ∉ fixed.keys := by
          simp only [Bool.and_eq_true, decide_eq_true_eq] at htest
          exact htest.1.1
        -- the desired record comes from the retained ids or from the additions
        have hd : (id, d) ∈ retained ++ additions current withGap acted selection treatment := by
          rw [Dict.get?_merge, Dict.get?_eq_none.2 hfixed, Option.none_or] at hd
          exact Dict.mem_of_get?_ofList hd
        have hsource : (∃ s, (withGap.get? id = some s ∨ current.get? id = some s) ∧ Rewrites s d) ∧
            ((withGap.get? id).isSome ∨ (current.get? id).isSome ∧ id ∉ fixed.keys ∧ id ∉ retired) := by
          rcases List.mem_append.1 hd with hd | hd
          · obtain ⟨⟨id', existing⟩, hexisting, hdesired⟩ := (Except.mem_of_mapM hretained _).1 hd
            obtain ⟨record, hrecord, hpair⟩ := Except.bind_eq_ok.1 hdesired
            obtain ⟨rfl, rfl⟩ := Prod.mk.inj (Except.ok.inj hpair)
            obtain ⟨hentry, hretired⟩ := List.mem_filter.1 hexisting
            have hget : current.get? id' = some existing := Dict.get?_eq_some.2 hentry
            refine ⟨?_, .inr ⟨by rw [hget, Option.isSome_some], hfixed, by simpa using hretired⟩⟩
            rcases desiredOf_rewrites hrecord with he | ⟨g, hg, hgr⟩
            · exact ⟨existing, .inr hget, he⟩
            · exact ⟨g, .inl hg, hgr⟩
          · have hget : withGap.get? id = some d := Dict.get?_eq_some.2 (List.mem_filter.1 hd).1
            exact ⟨⟨d, .inl hget, Rewrites.refl d⟩, .inl (by rw [hget, Option.isSome_some])⟩
        refine ⟨?_, hsource.2⟩
        rcases hrewrites with hdr | ⟨c, hc, hcr⟩
        · obtain ⟨s, hs, hsd⟩ := hsource.1
          exact ⟨s, hs, hsd.trans hdr⟩
        · exact ⟨c, .inr (Dict.get?_filter_eq_some.1 hc).1, hcr⟩

/-! ## What a close may become -/

section
variable {now closed : Record} {reference : Option Record} {several : Bool} {close : CompletionClose}

theorem classifyBoth_rewrites (h : classifyBoth env now closed reference several = .ok close) :
    close.blockClass ≠ .open ∧
      ∀ r, close.target = some r ∨ close.frozenForm = some r → Rewrites closed r ∨ Rewrites now r := by
  unfold classifyBoth at h
  obtain ⟨kept, hkept, h⟩ := Except.bind_eq_ok.1 h
  dsimp only at h
  have hfrozen : Rewrites closed (frozenFormOf kept now closed) ∨ Rewrites now (frozenFormOf kept now closed) := by
    unfold frozenFormOf
    split
    · exact .inl (closeMoneyOverlay_rewrites closed now)
    · exact .inr (Rewrites.refl now)
  generalize frozenFormOf kept now closed = frozen at h hfrozen
  have hrecord : ∀ {c : Record} {p : Preserved}, Rewrites closed c ∨ Rewrites now c →
      preserveNonDerivableState env c closed none = .ok p →
      Rewrites closed (p.record c closed) ∨ Rewrites now (p.record c closed) := by
    intro c p hc hp
    rcases preserve_rewrites hp with ⟨drifted, rfl⟩ | hr
    · exact hc
    · exact .inl hr
  -- every result proposes a rewriting of one of the two, beside the frozen form
  have hboth : ∀ (blockClass : BlockClass) {t : Record}, blockClass ≠ .open → Rewrites closed t ∨ Rewrites now t →
      close = ⟨blockClass, some t, some frozen⟩ → close.blockClass ≠ .open ∧
        ∀ r, close.target = some r ∨ close.frozenForm = some r → Rewrites closed r ∨ Rewrites now r := by
    rintro blockClass t hclass ht rfl
    refine ⟨hclass, ?_⟩
    rintro r (hr | hr)
    · exact Option.some.inj hr ▸ ht
    · exact Option.some.inj hr ▸ hfrozen
  split at h
  · exact hboth .frozen (by decide) hfrozen (Except.ok.inj h).symm
  · obtain ⟨changed, -, h⟩ := Except.bind_eq_ok.1 h
    split at h
    · exact hboth .replaced (by decide) (.inl (Rewrites.refl closed)) (Except.ok.inj h).symm
    · split at h
      · exact hboth .replaced (by decide) (hrecord (.inr (Rewrites.refl now)) hkept) (Except.ok.inj h).symm
      · split at h
        · obtain ⟨second, hsecond, h⟩ := Except.bind_eq_ok.1 h
          split at h
          · exact hboth .replaced (by decide) (hrecord hfrozen hsecond) (Except.ok.inj h).symm
          · exact hboth .frozen (by decide) hfrozen (Except.ok.inj h).symm
        · exact hboth .frozen (by decide) hfrozen (Except.ok.inj h).symm

theorem classify_cases {current desired : Option Record} {acted physical : Bool}
    (h : classifyCompletionClose env current desired reference acted physical several = .ok close) :
    (acted = false ∧ close = ⟨if closedRecord current then .frozen else .open, current, none⟩) ∨
      (acted = true ∧ close.blockClass = .open ∧ (closedRecord desired = false ∨ ∃ c, current = some c ∧ c.isClosed = false)) ∨
      (acted = true ∧ close.blockClass ≠ .open ∧ current.all Record.isClosed = true ∧
        ∃ d, desired = some d ∧ d.isClosed = true ∧ ∀ r, close.target = some r ∨ close.frozenForm = some r →
          Rewrites d r ∨ ∃ c, current = some c ∧ Rewrites c r) := by
  unfold classifyCompletionClose at h
  split at h
  · rename_i hacted
    exact .inl ⟨by simpa using hacted, (Except.ok.inj h).symm⟩
  · rename_i hacted
    have hacted : acted = true := by simpa using hacted
    refine .inr ?_
    split at h
    · rename_i hnone
      obtain rfl := Except.ok.inj h
      refine .inl ⟨hacted, rfl, .inl ?_⟩
      cases desired with
      | none => rfl
      | some d => simpa [Option.filter, closedRecord] using hnone
    · rename_i closed hclosed
      obtain ⟨hd, hdclosed⟩ := Option.filter_eq_some_iff.1 hclosed
      split at h
      · obtain rfl := Except.ok.inj h
        refine .inr ⟨hacted, by dsimp only; split <;> [decide; (split <;> decide)], rfl, closed, hd, hdclosed, ?_⟩
        rintro r (hr | hr)
        · exact .inl (Option.some.inj hr ▸ Rewrites.refl closed)
        · cases hr
      · rename_i now
        split at h
        · rename_i hnow
          obtain ⟨hclass, hrewrites⟩ := classifyBoth_rewrites h
          refine .inr ⟨hacted, hclass, by simpa using hnow, closed, hd, hdclosed, fun r hr => ?_⟩
          exact (hrewrites r hr).imp_right fun hc => ⟨now, rfl, hc⟩
        · rename_i hnow
          obtain rfl := Except.ok.inj h
          exact .inl ⟨hacted, rfl, .inr ⟨now, rfl, by simpa using hnow⟩⟩

theorem classify_open {current desired : Option Record} {acted physical several' : Bool} {close' : CompletionClose}
    (h : classifyCompletionClose env current desired reference acted physical several = .ok close)
    (h' : classifyCompletionClose env current desired reference acted physical several' = .ok close')
    (hopen : close.blockClass = .open) : close'.blockClass = .open := by
  rcases classify_cases h with ⟨hacted, rfl⟩ | ⟨hacted, -, hkept⟩ | ⟨-, hclass, -⟩
  · rcases classify_cases h' with ⟨-, rfl⟩ | ⟨hacted', -⟩ | ⟨hacted', -⟩
    · exact hopen
    · cases hacted.symm.trans hacted'
    · cases hacted.symm.trans hacted'
  · rcases classify_cases h' with ⟨hacted', -⟩ | ⟨-, hopen', -⟩ | ⟨-, -, hall, d, rfl, hd, -⟩
    · cases hacted.symm.trans hacted'
    · exact hopen'
    · exfalso
      rcases hkept with hdesired | ⟨c, rfl, hc⟩
      · rw [closedRecord, Option.any_some, hd] at hdesired
        cases hdesired
      · rw [Option.all_some, hc] at hall
        cases hall
  · exact absurd hopen hclass

end

end

end Cctally.Completion
