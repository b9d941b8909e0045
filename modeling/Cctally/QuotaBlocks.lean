import Cctally.Quota

/-!
# Blocks partition the physical evidence

The collapse looks back over the whole history of an identity. A row of a block whose
predecessor belongs to another block is kept, since the reset is part of the value, and a
row left out repeats the value, and so the block and the percent, of the row before it.
-/

namespace Cctally.Quota

def QuotaObservation.identityKey (o : QuotaObservation) : IdentityKey := o.identity.sortKey

def QuotaObservation.blockKey (o : QuotaObservation) : BlockKey := toLex (o.identityKey, o.canonicalResetsAt)

def QuotaBlock.key (b : QuotaBlock) : BlockKey := toLex (b.identity.sortKey, b.resetsAt)

section
variable (r : Int)

def ofReset (l : List QuotaObservation) : List QuotaObservation := l.filter (·.canonicalResetsAt = r)

theorem interpretAfter_cons (p : Option LogicalValue) (o : QuotaObservation) (l : List QuotaObservation) :
    interpretAfter p (o :: l) =
      if some (logicalValueTuple o) = p then interpretAfter (some (logicalValueTuple o)) l
      else o :: interpretAfter (some (logicalValueTuple o)) l := rfl

theorem interpretAfter_sublist : ∀ (l : List QuotaObservation) (p : Option LogicalValue), (interpretAfter p l).Sublist l
  | [], _ => .slnil
  | o :: l, p => by
    rw [interpretAfter_cons]
    split
    · exact (interpretAfter_sublist l _).cons o
    · exact (interpretAfter_sublist l _).cons_cons o

variable {r}

theorem ofReset_pos {o : QuotaObservation} (h : o.canonicalResetsAt = r) (l : List QuotaObservation) :
    ofReset r (o :: l) = o :: ofReset r l := List.filter_cons_of_pos (decide_eq_true h)

theorem ofReset_neg {o : QuotaObservation} (h : o.canonicalResetsAt ≠ r) (l : List QuotaObservation) :
    ofReset r (o :: l) = ofReset r l := List.filter_cons_of_neg (by simpa using h)

theorem head?_ofReset : ∀ (l : List QuotaObservation) (p : Option LogicalValue),
    (∀ v ∈ p, v.canonicalResetsAt ≠ r) → (ofReset r (interpretAfter p l)).head? = (ofReset r l).head?
  | [], _, _ => rfl
  | o :: l, p, hp => by
    rw [interpretAfter_cons]
    by_cases hr : o.canonicalResetsAt = r
    · have hne : some (logicalValueTuple o) ≠ p := fun h => hp _ h.symm hr
      rw [if_neg hne, ofReset_pos hr, ofReset_pos hr]
      rfl
    · have hrest := head?_ofReset l (some (logicalValueTuple o)) fun v hv => by
        cases hv
        exact hr
      rw [ofReset_neg hr, ← hrest]
      split
      · rfl
      · rw [ofReset_neg hr]

def endPercent (d : ℚ) (l : List QuotaObservation) : ℚ := l.foldl (fun _ o => o.usedPercent.1) d

theorem endPercent_getLast {l : List QuotaObservation} {d : ℚ} {o : QuotaObservation} (h : l.getLast? = some o) :
    endPercent d l = o.usedPercent.1 := by
  obtain ⟨l', rfl⟩ := List.getLast?_eq_some_iff.1 h
  rw [endPercent, List.foldl_append]
  rfl

theorem endPercent_ofReset : ∀ (l : List QuotaObservation) (p : Option LogicalValue) (d : ℚ),
    (∀ v ∈ p, v.canonicalResetsAt = r → v.usedPercent = d) →
      endPercent d (ofReset r (interpretAfter p l)) = endPercent d (ofReset r l)
  | [], _, _, _ => rfl
  | o :: l, p, d, hp => by
    rw [interpretAfter_cons]
    by_cases hr : o.canonicalResetsAt = r
    · have hrest := endPercent_ofReset l (some (logicalValueTuple o)) o.usedPercent.1 fun v hv _ => by
        cases hv
        rfl
      by_cases heq : some (logicalValueTuple o) = p
      · have hd : o.usedPercent.1 = d := hp _ heq.symm hr
        rw [if_pos heq, ofReset_pos hr, ← hd, hrest]
        rfl
      · rw [if_neg heq, ofReset_pos hr, ofReset_pos hr]
        exact hrest
    · have hrest := endPercent_ofReset l (some (logicalValueTuple o)) d fun v hv hvr => by
        cases hv
        exact absurd hvr hr
      rw [ofReset_neg hr, ← hrest]
      split
      · rfl
      · rw [ofReset_neg hr]

end

/-! ## Histories -/

section
variable (l : List QuotaObservation)

def ofIdentity (k : IdentityKey) : List QuotaObservation := l.filter (·.identityKey = k)

def historyOf (k : IdentityKey) : Option QuotaHistory :=
  (ofIdentity l k).head?.map fun first =>
    { identity := first.identity
      physicalObservations := inPhysicalOrder (ofIdentity l k)
      observations := interpretAfter none (inPhysicalOrder (ofIdentity l k)) }

theorem buildHistory_eq : buildHistory l = (sortedSet (l.map (·.identityKey))).filterMap (historyOf l) := by
  have hkeys : sortedSet (byIdentity l).keys = sortedSet (l.map (·.identityKey)) :=
    sortedSet_congr fun k => Dict.mem_keys_gather _ _ _
  unfold buildHistory
  rw [sorted_entries, List.map_filterMap, hkeys]
  refine List.filterMap_congr fun k _ => ?_
  rw [byIdentity, Dict.get?_gather, historyOf, List.map_id, Option.map_map, Option.map_map]
  rfl

theorem historyOf_some {k : IdentityKey} {h : QuotaHistory} (hh : historyOf l k = some h) :
    h.identity.sortKey = k ∧ (ofIdentity l k).head?.map (·.identity) = some h.identity ∧
      h.physicalObservations = inPhysicalOrder (ofIdentity l k) ∧
      h.observations = interpretAfter none (inPhysicalOrder (ofIdentity l k)) := by
  obtain ⟨first, hfirst, rfl⟩ := Option.map_eq_some_iff.1 hh
  have hmem := List.mem_of_mem_head? hfirst
  exact ⟨of_decide_eq_true (List.mem_filter.1 hmem).2, by rw [hfirst]; rfl, rfl, rfl⟩

theorem historyOf_isSome {o : QuotaObservation} (ho : o ∈ l) : ∃ h, historyOf l o.identityKey = some h := by
  have hmem : o ∈ ofIdentity l o.identityKey := List.mem_filter.2 ⟨ho, decide_eq_true rfl⟩
  cases hl : ofIdentity l o.identityKey with
  | nil => simp [hl] at hmem
  | cons first rest =>
    rw [historyOf, hl]
    exact ⟨_, rfl⟩

theorem flatMap_histories {β : Type} {k : IdentityKey} {g : QuotaHistory → List β}
    (hg : ∀ h, h.identity.sortKey ≠ k → g h = []) : ∀ {keys : List IdentityKey}, keys.Nodup →
      (keys.filterMap (historyOf l)).flatMap g = if k ∈ keys then ((historyOf l k).map g).getD [] else []
  | [], _ => rfl
  | j :: keys, hnodup => by
    obtain ⟨hnot, hnodup⟩ := List.nodup_cons.1 hnodup
    have hrest := flatMap_histories hg hnodup
    have hone : ∀ h, historyOf l j = some h → j ≠ k → g h = [] := fun h hh hne =>
      hg h ((historyOf_some l hh).1.trans_ne hne)
    by_cases hjk : j = k
    · subst hjk
      rw [if_neg hnot] at hrest
      rw [if_pos List.mem_cons_self, List.filterMap_cons]
      cases hh : historyOf l j with
      | none => exact hrest
      | some h =>
        rw [List.flatMap_cons, hrest, List.append_nil]
        rfl
    · have hmem : k ∈ j :: keys ↔ k ∈ keys := by simp [Ne.symm hjk]
      simp only [hmem]
      rw [List.filterMap_cons, ← hrest]
      cases hh : historyOf l j with
      | none => rfl
      | some h =>
        rw [List.flatMap_cons, hone h hh hjk]
        rfl

theorem get?_byBlock (points : QuotaHistory → List QuotaObservation) (k : IdentityKey) (r : Int) :
    (byBlock points (buildHistory l)).get? (toLex (k, r)) =
      (historyOf l k).bind fun h => (ofReset r (points h)).head?.map fun _ => (h.identity, ofReset r (points h)) := by
  have hfilter : ((buildHistory l).flatMap fun h => (points h).map fun o => (h.identity, o)).filter
      (fun p => (toLex (p.1.sortKey, p.2.canonicalResetsAt) : BlockKey) = toLex (k, r)) =
      ((historyOf l k).map fun h => (ofReset r (points h)).map fun o => (h.identity, o)).getD [] := by
    have hpart : ∀ h : QuotaHistory, ((points h).map fun o => (h.identity, o)).filter
        (fun p => (toLex (p.1.sortKey, p.2.canonicalResetsAt) : BlockKey) = toLex (k, r)) =
        if h.identity.sortKey = k then (ofReset r (points h)).map fun o => (h.identity, o) else [] := by
      intro h
      rw [List.filter_map]
      by_cases hk : h.identity.sortKey = k
      · rw [if_pos hk]
        refine congrArg _ (List.filter_congr fun o _ => ?_)
        simp [hk]
      · rw [if_neg hk, List.map_eq_nil_iff, List.filter_eq_nil_iff]
        intro o _
        simp [hk]
    rw [buildHistory_eq, List.filter_flatMap]
    simp only [hpart]
    rw [flatMap_histories l (k := k) (fun h hne => if_neg hne) (nodup_sortedSet _)]
    cases hh : historyOf l k with
    | none => simp
    | some h =>
      obtain ⟨first, hfirst, -⟩ := Option.map_eq_some_iff.1 hh
      have hmem := List.mem_filter.1 (List.mem_of_mem_head? hfirst)
      have hk : k ∈ sortedSet (l.map (·.identityKey)) :=
        mem_sortedSet.2 (List.mem_map.2 ⟨first, hmem.1, of_decide_eq_true hmem.2⟩)
      rw [if_pos hk, Option.map_some, Option.map_some, Option.getD_some, Option.getD_some,
        if_pos (historyOf_some l hh).1]
  rw [byBlock, Dict.get?_gather, hfilter]
  cases historyOf l k with
  | none => rfl
  | some h =>
    rw [Option.map_some, Option.getD_some, List.head?_map, Option.map_map, List.map_map, Option.bind_some]
    refine congrArg (fun l => Option.map (fun _ => (h.identity, l)) _) ?_
    exact List.map_id _

end

/-! ## Blocks -/

def physicalOf (l : List QuotaObservation) (key : BlockKey) : List QuotaObservation :=
  ofReset (ofLex key).2 (inPhysicalOrder (ofIdentity l (ofLex key).1))

def pointsOf (l : List QuotaObservation) (key : BlockKey) : List QuotaObservation :=
  ofReset (ofLex key).2 (interpretAfter none (inPhysicalOrder (ofIdentity l (ofLex key).1)))

structure IsBlock (l : List QuotaObservation) (key : BlockKey) (b : QuotaBlock) : Prop where
  identity : (l.find? (·.identityKey = (ofLex key).1)).map (·.identity) = some b.identity
  resetsAt : b.resetsAt = (ofLex key).2
  start : b.nominalStartAt = b.resetsAt - b.identity.windowMinutes * MINUTE
  points : b.observations = pointsOf l key
  physical : b.physicalObservations = physicalOf l key
  ends : ∃ first last, b.observations.head? = some first ∧ b.observations.getLast? = some last ∧
    b.firstObservedAt = first.capturedAt ∧ b.firstPercent = first.usedPercent.1 ∧
    b.lastObservedAt = last.capturedAt ∧ b.currentPercent = last.usedPercent.1

section
variable {l l' : List QuotaObservation} {key : BlockKey} {b b' : QuotaBlock}

theorem sorted_inPhysicalOrder (l : List QuotaObservation) :
    (inPhysicalOrder l).Pairwise fun a b => physicalOrderKey a ≤ physicalOrderKey b :=
  have : Std.Total fun a b : QuotaObservation => physicalOrderKey a ≤ physicalOrderKey b :=
    ⟨fun a b => le_total (physicalOrderKey a) (physicalOrderKey b)⟩
  have : IsTrans QuotaObservation fun a b => physicalOrderKey a ≤ physicalOrderKey b := ⟨fun _ _ _ => le_trans⟩
  List.pairwise_insertionSort _ l

theorem inPhysicalOrder_eq (h : l.Pairwise fun a b => physicalOrderKey a ≤ physicalOrderKey b) : inPhysicalOrder l = l :=
  h.insertionSort_eq

theorem pointsOf_sublist (l : List QuotaObservation) (key : BlockKey) : (pointsOf l key).Sublist (physicalOf l key) :=
  (interpretAfter_sublist _ _).filter _

theorem head?_pointsOf (l : List QuotaObservation) (key : BlockKey) : (pointsOf l key).head? = (physicalOf l key).head? :=
  head?_ofReset _ none nofun

theorem inPhysicalOrder_physicalOf (l : List QuotaObservation) (key : BlockKey) :
    inPhysicalOrder (physicalOf l key) = physicalOf l key :=
  inPhysicalOrder_eq ((sorted_inPhysicalOrder _).filter _)

theorem inPhysicalOrder_pointsOf (l : List QuotaObservation) (key : BlockKey) :
    inPhysicalOrder (pointsOf l key) = pointsOf l key :=
  inPhysicalOrder_eq (((sorted_inPhysicalOrder _).sublist (interpretAfter_sublist _ _)).filter _)

theorem perm_physicalOf (l : List QuotaObservation) (key : BlockKey) :
    (physicalOf l key).Perm (l.filter (·.blockKey = key)) := by
  have hsame : l.filter (·.blockKey = key) = ofReset (ofLex key).2 (ofIdentity l (ofLex key).1) := by
    unfold ofReset ofIdentity
    rw [List.filter_filter]
    refine List.filter_congr fun o _ => ?_
    rw [← Bool.decide_and, decide_eq_decide]
    constructor
    · intro h
      subst h
      exact ⟨rfl, rfl⟩
    · intro ⟨hr, hk⟩
      exact congrArg toLex (Prod.ext hk hr)
  rw [hsame]
  exact (List.perm_insertionSort _ _).filter _

theorem mem_physicalOf {o : QuotaObservation} : o ∈ physicalOf l key ↔ o ∈ l ∧ o.blockKey = key := by
  rw [(perm_physicalOf l key).mem_iff, List.mem_filter, decide_eq_true_iff]

def InCalendar (o : QuotaObservation) : Prop :=
  MIN_INSTANT ≤ o.canonicalResetsAt - o.identity.windowMinutes * MINUTE

theorem window_of_sortKey {i j : QuotaWindowIdentity} (h : i.sortKey = j.sortKey) : i.windowMinutes = j.windowMinutes := by
  have hlex := congrArg (fun k : IdentityKey => (ofLex (ofLex (ofLex (ofLex (ofLex k).2).2).2).2).1) h
  exact PNat.coe_injective hlex

instance (o : QuotaObservation) : Decidable (InCalendar o) := inferInstanceAs (Decidable (_ ≤ _))

theorem buildBlock_of_mem {o : QuotaObservation} (ho : o ∈ l) (hr : InCalendar o) :
    ∃ item b, (byBlock (·.observations) (buildHistory l)).get? o.blockKey = some item ∧
      buildBlock (byBlock (·.physicalObservations) (buildHistory l)) (o.blockKey, item) = some b ∧
      IsBlock l o.blockKey b := by
  obtain ⟨h, hh⟩ := historyOf_isSome l ho
  obtain ⟨hkey, hid, hphys, hobs⟩ := historyOf_some l hh
  have hget := fun points => get?_byBlock l points o.identityKey o.canonicalResetsAt
  simp only [hh, Option.bind_some] at hget
  have hpoints : ofReset o.canonicalResetsAt h.observations = pointsOf l o.blockKey := by rw [hobs]; rfl
  have hphysical : ofReset o.canonicalResetsAt h.physicalObservations = physicalOf l o.blockKey := by rw [hphys]; rfl
  have hmem : o ∈ physicalOf l o.blockKey := mem_physicalOf.2 ⟨ho, rfl⟩
  obtain ⟨first, hfirst⟩ : ∃ first, (physicalOf l o.blockKey).head? = some first := by
    cases hp : physicalOf l o.blockKey with
    | nil => simp [hp] at hmem
    | cons first rest => exact ⟨first, rfl⟩
  have hfirst' : (pointsOf l o.blockKey).head? = some first := by rw [head?_pointsOf, hfirst]
  obtain ⟨last, hlast⟩ : ∃ last, (pointsOf l o.blockKey).getLast? = some last := by
    cases hp : pointsOf l o.blockKey with
    | nil => simp [hp] at hfirst'
    | cons a rest => exact ⟨_, List.getLast?_cons⟩
  have hstart : nominalStart h.identity o.canonicalResetsAt =
      some (o.canonicalResetsAt - h.identity.windowMinutes * MINUTE) := by
    have hw : h.identity.windowMinutes = o.identity.windowMinutes := window_of_sortKey hkey
    have hcal : MIN_INSTANT ≤ o.canonicalResetsAt - h.identity.windowMinutes * MINUTE := by
      rw [hw]
      exact hr
    unfold nominalStart
    rw [if_pos hcal]
  have hitem : (byBlock (·.observations) (buildHistory l)).get? o.blockKey = some (h.identity, pointsOf l o.blockKey) := by
    refine (hget _).trans ?_
    rw [hpoints, hfirst']
    rfl
  have hphysItem : (byBlock (·.physicalObservations) (buildHistory l)).get? o.blockKey =
      some (h.identity, physicalOf l o.blockKey) := by
    refine (hget _).trans ?_
    rw [hphysical, hfirst]
    rfl
  let block : QuotaBlock :=
    { identity := h.identity
      resetsAt := o.canonicalResetsAt
      nominalStartAt := o.canonicalResetsAt - h.identity.windowMinutes * MINUTE
      observations := pointsOf l o.blockKey
      firstObservedAt := first.capturedAt
      lastObservedAt := last.capturedAt
      firstPercent := first.usedPercent.1
      currentPercent := last.usedPercent.1
      physicalObservations := physicalOf l o.blockKey }
  refine ⟨_, block, hitem, ?_, ?_⟩
  · have hreset : (ofLex o.blockKey).2 = o.canonicalResetsAt := rfl
    simp only [buildBlock, inPhysicalOrder_pointsOf, hfirst', hlast, hphysItem, hreset, hstart, Option.bind_eq_bind,
      Option.bind_some, inPhysicalOrder_physicalOf, block]
  · refine ⟨?_, rfl, rfl, rfl, rfl, first, last, hfirst', hlast, rfl, rfl, rfl, rfl⟩
    rw [← List.head?_filter]
    exact hid

theorem buildBlocks_isBlock (hr : ∀ o ∈ l, InCalendar o) :
    ∃ blocks, buildBlocks l = some blocks ∧ List.Forall₂ (IsBlock l) (sortedSet (l.map (·.blockKey))) blocks := by
  have hkeys : sortedSet (byBlock (·.observations) (buildHistory l)).keys = sortedSet (l.map (·.blockKey)) := by
    refine sortedSet_congr fun key => ?_
    constructor
    · intro hk
      obtain ⟨item, hitem⟩ := Dict.mem_keys.1 hk
      have hget := get?_byBlock l (·.observations) (ofLex key).1 (ofLex key).2
      rw [show (toLex ((ofLex key).1, (ofLex key).2) : BlockKey) = key from rfl, hitem] at hget
      obtain ⟨h, hh, hpts⟩ := Option.bind_eq_some_iff.1 hget.symm
      obtain ⟨o, ho, -⟩ := Option.map_eq_some_iff.1 hpts
      rw [(historyOf_some l hh).2.2.2] at ho
      have hmem := (pointsOf_sublist l key).subset (List.mem_of_mem_head? ho)
      obtain ⟨hin, hkey⟩ := mem_physicalOf.1 hmem
      exact List.mem_map.2 ⟨o, hin, hkey⟩
    · intro hk
      obtain ⟨o, ho, rfl⟩ := List.mem_map.1 hk
      obtain ⟨item, -, hitem, -⟩ := buildBlock_of_mem ho (hr o ho)
      exact Dict.mem_keys.2 ⟨item, hitem⟩
  have hrun : ∀ keys : List BlockKey, (∀ key ∈ keys, key ∈ l.map (·.blockKey)) →
      ∃ blocks, (keys.filterMap fun k => ((byBlock (·.observations) (buildHistory l)).get? k).map (Prod.mk k)).mapM
        (buildBlock (byBlock (·.physicalObservations) (buildHistory l))) = some blocks ∧
        List.Forall₂ (IsBlock l) keys blocks := by
    intro keys
    induction keys with
    | nil => exact fun _ => ⟨[], rfl, .nil⟩
    | cons key keys ih =>
      intro hall
      obtain ⟨blocks, hblocks, hare⟩ := ih fun k hk => hall k (List.mem_cons_of_mem _ hk)
      obtain ⟨o, ho, rfl⟩ := List.mem_map.1 (hall key List.mem_cons_self)
      obtain ⟨item, b, hitem, hb, hisb⟩ := buildBlock_of_mem ho (hr o ho)
      refine ⟨b :: blocks, ?_, .cons hisb hare⟩
      rw [List.filterMap_cons, hitem, Option.map_some, List.mapM_cons, hb, hblocks]
      rfl
  rw [buildBlocks, sorted_entries, hkeys]
  exact hrun _ fun key => mem_sortedSet.1

/-! ## The order of the input -/

def DistinctOrder (l : List QuotaObservation) : Prop := (l.map fun o => (o.identityKey, physicalOrderKey o)).Nodup

instance (l : List QuotaObservation) : Decidable (DistinctOrder l) := inferInstanceAs (Decidable (List.Nodup _))

def QuotaWindowIdentity.unlabelled (i : QuotaWindowIdentity) : QuotaWindowIdentity :=
  { i with limitId := none, limitName := none }

def QuotaBlock.unlabelled (b : QuotaBlock) : QuotaBlock := { b with identity := b.identity.unlabelled }

theorem unlabelled_of_sortKey {i j : QuotaWindowIdentity} (h : i.sortKey = j.sortKey) : i.unlabelled = j.unlabelled := by
  obtain ⟨s, k, l, o, w, a, _, _⟩ := i
  obtain ⟨s', k', l', o', w', a', _, _⟩ := j
  simp only [QuotaWindowIdentity.sortKey, toLex_inj, Prod.mk.injEq] at h
  obtain ⟨hs, hk, hl, ho, hw, ha⟩ := h
  rw [QuotaWindowIdentity.unlabelled, QuotaWindowIdentity.unlabelled, Subtype.ext hs, Subtype.ext hk, Subtype.ext hl,
    Subtype.ext ho, Subtype.ext ha, PNat.coe_injective hw]

theorem inPhysicalOrder_congr (hd : DistinctOrder l) (hp : l.Perm l') (k : IdentityKey) :
    inPhysicalOrder (ofIdentity l k) = inPhysicalOrder (ofIdentity l' k) := by
  refine insertionSort_congr physicalOrderKey ?_ (hp.filter _)
  have hpair := (List.pairwise_map.1 hd).sublist (List.filter_sublist (p := fun o => o.identityKey = k))
  refine List.pairwise_map.2 (hpair.imp_of_mem fun {a b} ha hb hne heq => hne ?_)
  have hka : a.identityKey = k := of_decide_eq_true (List.mem_filter.1 ha).2
  have hkb : b.identityKey = k := of_decide_eq_true (List.mem_filter.1 hb).2
  exact Prod.ext (hka.trans hkb.symm) heq

theorem IsBlock.identityKey (h : IsBlock l key b) : b.identity.sortKey = (ofLex key).1 := by
  obtain ⟨o, ho, hid⟩ := Option.map_eq_some_iff.1 h.identity
  have hkey := List.find?_some ho
  rw [← hid]
  exact of_decide_eq_true hkey

theorem IsBlock.key_eq (h : IsBlock l key b) : b.key = key := by
  unfold QuotaBlock.key
  rw [h.identityKey, h.resetsAt]
  rfl

theorem IsBlock.unlabelled_eq (hd : DistinctOrder l) (hp : l.Perm l') (h : IsBlock l key b) (h' : IsBlock l' key b') :
    b'.unlabelled = b.unlabelled := by
  have hsort := inPhysicalOrder_congr hd hp (ofLex key).1
  have hpoints : b'.observations = b.observations := by rw [h.points, h'.points, pointsOf, pointsOf, hsort]
  have hphysical : b'.physicalObservations = b.physicalObservations := by
    rw [h.physical, h'.physical, physicalOf, physicalOf, hsort]
  have hkey := h'.identityKey.trans h.identityKey.symm
  obtain ⟨first, last, hfirst, hlast, hat, hpct, hlat, hlpct⟩ := h.ends
  obtain ⟨first', last', hfirst', hlast', hat', hpct', hlat', hlpct'⟩ := h'.ends
  rw [hpoints, hfirst] at hfirst'
  rw [hpoints, hlast] at hlast'
  cases hfirst'
  cases hlast'
  have hreset := h'.resetsAt.trans h.resetsAt.symm
  have hstart : b'.nominalStartAt = b.nominalStartAt := by
    rw [h.start, h'.start, hreset, window_of_sortKey hkey]
  obtain ⟨i, r, s, obs, fa, la, fp, cp, phys⟩ := b
  obtain ⟨i', r', s', obs', fa', la', fp', cp', phys'⟩ := b'
  simp only at hpoints hphysical hkey hat hpct hlat hlpct hat' hpct' hlat' hlpct' hreset hstart
  rw [QuotaBlock.unlabelled, QuotaBlock.unlabelled, unlabelled_of_sortKey hkey, hpoints, hphysical, hreset, hstart,
    hat, hat', hpct, hpct', hlat, hlat', hlpct, hlpct']

theorem IsBlock.currentPercent (h : IsBlock l key b) :
    b.physicalObservations.getLast?.map (·.usedPercent.1) = some b.currentPercent := by
  obtain ⟨-, last, -, hlast, -, -, -, hpct⟩ := h.ends
  have hsame : endPercent 0 (pointsOf l key) = endPercent 0 (physicalOf l key) := endPercent_ofReset _ none 0 nofun
  rw [h.points] at hlast
  rw [h.physical, hpct, ← endPercent_getLast hlast, hsame]
  cases hp : (physicalOf l key).getLast? with
  | none =>
    rw [List.getLast?_eq_none_iff] at hp
    have hsub := pointsOf_sublist l key
    rw [hp, List.sublist_nil] at hsub
    simp [hsub] at hlast
  | some o => rw [endPercent_getLast hp, Option.map_some]

theorem isBlock_of_mem : ∀ {keys : List BlockKey} {blocks : List QuotaBlock}, List.Forall₂ (IsBlock l) keys blocks →
    b ∈ blocks → ∃ key, IsBlock l key b
  | [], _, .nil, hb => absurd hb List.not_mem_nil
  | _ :: _, _, .cons h hrest, hb => by
    obtain rfl | hb := List.mem_cons.1 hb
    · exact ⟨_, h⟩
    · exact isBlock_of_mem hrest hb

theorem forall₂_map_key : ∀ {keys : List BlockKey} {blocks : List QuotaBlock}, List.Forall₂ (IsBlock l) keys blocks →
    blocks.map (·.key) = keys
  | [], _, .nil => rfl
  | _ :: _, _, .cons h hrest => congrArg₂ List.cons h.key_eq (forall₂_map_key hrest)

theorem forall₂_unlabelled (hd : DistinctOrder l) (hp : l.Perm l') : ∀ {keys : List BlockKey}
    {blocks blocks' : List QuotaBlock}, List.Forall₂ (IsBlock l) keys blocks → List.Forall₂ (IsBlock l') keys blocks' →
      blocks'.map (·.unlabelled) = blocks.map (·.unlabelled)
  | [], _, _, .nil, .nil => rfl
  | _ :: _, _, _, .cons h hrest, .cons h' hrest' =>
    congrArg₂ List.cons (h.unlabelled_eq hd hp h') (forall₂_unlabelled hd hp hrest hrest')

theorem forall₂_physical : ∀ {keys : List BlockKey} {blocks : List QuotaBlock}, List.Forall₂ (IsBlock l) keys blocks →
    blocks.flatMap (·.physicalObservations) = keys.flatMap (physicalOf l)
  | [], _, .nil => rfl
  | _ :: _, _, .cons h hrest => by rw [List.flatMap_cons, List.flatMap_cons, h.physical, forall₂_physical hrest]

end

/-- **The blocks** are one for each identity and reset that occurs, their physical observations share out the input,
and only the labels of their identities depend on its order: they are those of the first observation. -/
theorem blocks_partition (l : List QuotaObservation) (hd : DistinctOrder l) (hr : ∀ o ∈ l, InCalendar o) :
    ∃ blocks, buildBlocks l = some blocks ∧
      blocks.map (·.key) = sortedSet (l.map (·.blockKey)) ∧
      (blocks.flatMap (·.physicalObservations)).Perm l ∧
      (∀ b ∈ blocks, (∀ o ∈ b.physicalObservations, o.blockKey = b.key) ∧
        b.observations ≠ [] ∧ b.observations.Sublist b.physicalObservations ∧
        b.observations.head? = b.physicalObservations.head? ∧
        b.physicalObservations.getLast?.map (·.usedPercent.1) = some b.currentPercent ∧
        (l.find? (·.identityKey = b.identity.sortKey)).map (·.identity) = some b.identity) ∧
      ∀ l', l.Perm l' → ∃ blocks', buildBlocks l' = some blocks' ∧
        blocks'.map (·.unlabelled) = blocks.map (·.unlabelled) := by
  obtain ⟨blocks, hblocks, hare⟩ := buildBlocks_isBlock hr
  refine ⟨blocks, hblocks, forall₂_map_key hare, ?_, ?_, ?_⟩
  · rw [forall₂_physical hare]
    have hperm := perm_classes (fun o : QuotaObservation => some o.blockKey) (l := l) (nodup_sortedSet (l.map (·.blockKey)))
      fun o ho => ⟨_, mem_sortedSet.2 (List.mem_map_of_mem ho), rfl⟩
    simp only [Option.some.injEq] at hperm
    exact (List.Perm.flatMap_left _ fun key _ => perm_physicalOf l key).trans hperm
  · intro b hb
    obtain ⟨key, h⟩ := isBlock_of_mem hare hb
    obtain ⟨first, -, hfirst, -⟩ := h.ends
    refine ⟨?_, ?_, ?_, ?_, h.currentPercent, ?_⟩
    · intro o ho
      rw [h.key_eq]
      exact (mem_physicalOf.1 (h.physical ▸ ho)).2
    · intro hnil
      rw [hnil] at hfirst
      cases hfirst
    · rw [h.points, h.physical]
      exact pointsOf_sublist l key
    · rw [h.points, h.physical, head?_pointsOf]
    · rw [h.identityKey]
      exact h.identity
  · intro l' hp
    obtain ⟨blocks', hblocks', hare'⟩ := buildBlocks_isBlock (l := l') fun o ho => hr o (hp.mem_iff.2 ho)
    have hkeys : sortedSet (l'.map (·.blockKey)) = sortedSet (l.map (·.blockKey)) :=
      sortedSet_congr fun key => (hp.map _).mem_iff.symm
    rw [hkeys] at hare'
    exact ⟨blocks', hblocks', forall₂_unlabelled hd hp hare hare'⟩

def readWindow (label : String) (windowMinutes : ℕ+) (capturedAt : Int) : QuotaObservation where
  identity :=
    { source := ⟨"codex", by decide⟩
      sourceRootKey := ⟨"root", by decide⟩
      logicalLimitKey := ⟨"primary", by decide⟩
      observedSlot := ⟨"primary", by decide⟩
      windowMinutes := windowMinutes
      accountKey := UNATTRIBUTED
      limitId := none
      limitName := some label }
  capturedAt := capturedAt
  usedPercent := ⟨12, by decide, by decide⟩
  resetsAt := 1760000000000000
  sourcePath := ⟨"/rollout", by decide⟩
  lineOffset := 0
  planType := none
  individualLimitJson := none
  reachedType := none
  canonicalResetsAt := 1760000000000000

theorem blocks_partition_two :
    ∃ blocks, buildBlocks [readWindow "5h" 300 0, readWindow "5 hours" 300 1] = some blocks ∧
      (blocks.flatMap (·.physicalObservations)).Perm [readWindow "5h" 300 0, readWindow "5 hours" 300 1] := by
  obtain ⟨blocks, hblocks, -, hperm, -⟩ :=
    blocks_partition [readWindow "5h" 300 0, readWindow "5 hours" 300 1] (by decide) (by decide)
  exact ⟨blocks, hblocks, hperm⟩

/-- The label a block carries is that of the observation that comes first, and a window longer than the time since
the first year makes no block. -/
theorem blocks_depend :
    DistinctOrder [readWindow "5h" 300 0, readWindow "5 hours" 300 1] ∧
      buildBlocks [readWindow "5h" 300 0, readWindow "5 hours" 300 1] ≠
        buildBlocks [readWindow "5 hours" 300 1, readWindow "5h" 300 0] ∧
      buildBlocks [readWindow "5h" 10000000000 0] = none := by decide +kernel

end Cctally.Quota
