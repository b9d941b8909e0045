import Cctally.FiveHourBatch

/-!
# A decision the walk proves

A milestone whose own history and closes are certain, and whose walk has no
reason to doubt. A further write of the anchor's amount leaves it so, with the
same amount at its anchor.
-/

namespace Cctally.FiveHour

open Json (field without)

section
variable {env : Env}

/-! ## One more revision of a certain milestone -/

theorem mem_append_singleton {items : List Occurrence} {o o' : Occurrence} :
    o' ∈ items ++ [o] ↔ o' ∈ items ∨ o' = o := by
  rw [List.mem_append, List.mem_singleton]

theorem ofRevision_append {items : List Occurrence} {o : Occurrence} {rev : Nat} (h : rev ≠ o.rev) :
    ofRevision (items ++ [o]) rev = ofRevision items rev := by
  unfold ofRevision
  rw [List.filter_append, List.filter_singleton, decide_eq_false (Ne.symm h), cond_false, List.append_nil]

theorem oneKind_of_scalar {kinds : List Json} (hne : kinds ≠ []) {s : Json.Scalar}
    (h : ∀ k ∈ kinds, Json.scalar env.fl k = some s) : oneKind env kinds = true := by
  cases kinds with
  | nil => exact absurd rfl hne
  | cons first rest =>
    refine List.all_eq_true.2 fun k hk => ?_
    exact (Json.eq_scalar_iff env.fl (h first List.mem_cons_self)).2 (h k (List.mem_cons_of_mem _ hk))

structure CertainMilestone (env : Env) (items : List Occurrence) (hidden : Bool) (pair : Nat × String) : Prop where
  sorted : Sorted items
  kinds : ∀ k ∈ activeKinds items, Json.scalar env.fl k = some (.str "five_hour_milestone")
  milestone : (activeKinds items).any isMilestone = true
  indexed : items.any unindexed = false
  shown : hidden = false
  noGap : hasGap items (some pair) = false
  agrees : diverges false items = false
  ordered : inverted items = false
  rev : pair.1 = topRevision items
  hash : ∃ o ∈ items, o.rev = pair.1 ∧ o.contentHash = pair.2

theorem notAllClose {kinds : List Json} (h : kinds.any isMilestone = true) :
    (!kinds.isEmpty && kinds.all isClose) = false := by
  obtain ⟨k, hk, hmile⟩ := List.any_eq_true.1 h
  have hno : kinds.all isClose = false := by
    refine List.all_eq_false.2 ⟨k, hk, ?_⟩
    rw [eq_of_isMilestone hmile]
    decide
  rw [hno, Bool.and_false]

theorem mismatched_eq_false {items : List Occurrence} {selected : Option (Nat × String)} :
    mismatched items selected = false ↔ ∃ pair, selected = some pair ∧ pair.1 = topRevision items ∧
      ∃ o ∈ items, o.rev = pair.1 ∧ o.contentHash = pair.2 := by
  cases selected with
  | none => simp [mismatched]
  | some pair =>
    obtain ⟨rev, hash⟩ := pair
    simp [mismatched, mem_ofRevision, and_assoc]

theorem certainMilestone_of_own {items : List Occurrence} {hidden : Bool} {selected : Option (Nat × String)}
    (hmile : (activeKinds items).any isMilestone = true) (h : ownUncertainty env items hidden selected = []) :
    ∃ pair, selected = some pair ∧ CertainMilestone env (sortOccurrences items) hidden pair := by
  obtain ⟨hhid, hinvalid, hgap, hdiv, hinv, hmis⟩ := historyUncertainty_eq_nil.1 h
  obtain ⟨pair, rfl, hrev, hhash⟩ := mismatched_eq_false.1 hmis
  simp only [Bool.or_eq_false_iff, Bool.not_eq_eq_eq_not, Bool.not_false] at hinvalid
  rw [notAllClose hmile] at hdiv
  have hmile' := hmile
  obtain ⟨k, hk, hkm⟩ := List.any_eq_true.1 hmile'
  rw [eq_of_isMilestone hkm] at hk
  refine ⟨pair, rfl, sorted_sortOccurrences items, fun k' hk' => ?_, ?_, ?_, hhid, hgap, hdiv, hinv, hrev, hhash⟩
  · obtain ⟨o, ho, hact, rfl⟩ := mem_activeKinds.1 hk'
    exact eq_of_oneKind hinvalid.1 hk (mem_activeKinds.2 ⟨o, mem_sortOccurrences.1 ho, hact, rfl⟩)
  · rw [any_activeKinds_sort]
    exact hmile
  · rw [List.any_eq_false] at hinvalid ⊢
    exact fun o ho => hinvalid.2 o (mem_sortOccurrences.1 ho)

theorem CertainMilestone.own {items : List Occurrence} {hidden : Bool} {pair : Nat × String}
    (h : CertainMilestone env items hidden pair) : ownUncertainty env items hidden (some pair) = [] := by
  unfold ownUncertainty
  simp only []
  rw [historyUncertainty_eq_nil, sortOccurrences_of_sorted h.sorted, notAllClose h.milestone]
  have hne : activeKinds items ≠ [] := by
    intro hnil
    have hmile := h.milestone
    rw [hnil] at hmile
    cases hmile
  refine ⟨h.shown, ?_, h.noGap, h.agrees, h.ordered, mismatched_eq_false.2 ⟨pair, rfl, h.rev, h.hash⟩⟩
  rw [oneKind_of_scalar hne h.kinds, h.indexed]
  rfl

/-- **A further revision after everything keeps a milestone's history certain.** -/
theorem CertainMilestone.append {items : List Occurrence} {hidden : Bool} {pair : Nat × String}
    (h : CertainMilestone env items hidden pair) {o : Occurrence} (hkind : o.kind = MILESTONE)
    (hrev : o.rev = pair.1 + 1) (hafter : ∀ o' ∈ items, o'.availableAt < o.availableAt) :
    CertainMilestone env (items ++ [o]) hidden (o.rev, o.contentHash) := by
  have htop : topRevision items < o.rev := by rw [hrev, h.rev]; exact Nat.lt_succ_self _
  have hold : ∀ o' ∈ items, o'.rev < o.rev := fun o' ho' => (le_topRevision ho').trans_lt htop
  have htop' := topRevision_append items htop.le
  refine
    { sorted := sorted_append h.sorted hold
      kinds := fun k hk => ?_
      milestone := any_activeKinds_append [o] h.milestone
      indexed := ?_
      shown := h.shown
      noGap := ?_
      agrees := ?_
      ordered := ?_
      rev := htop'.symm
      hash := ⟨o, mem_append_singleton.2 (.inr rfl), rfl, rfl⟩ }
  · obtain ⟨o', ho', hact, rfl⟩ := mem_activeKinds.1 hk
    rcases mem_append_singleton.1 ho' with hmem | rfl
    · exact h.kinds _ (mem_activeKinds.2 ⟨o', hmem, hact, rfl⟩)
    · rw [hkind]
      rfl
  · refine List.any_eq_false.2 fun o' ho' => ?_
    rcases mem_append_singleton.1 ho' with hmem | rfl
    · exact List.any_eq_false.1 h.indexed o' hmem
    · unfold unindexed
      rw [hkind]
      simp [isClose, MILESTONE]
  · refine List.any_eq_false.2 fun rev hmem => ?_
    have hle : rev ≤ o.rev := by
      have hlt := List.mem_range.1 hmem
      rw [htop'] at hlt
      simpa [Nat.lt_succ_iff] using hlt
    have hex : ∃ o' ∈ items ++ [o], o'.rev = rev := by
      rcases hle.lt_or_eq with hlt | heq
      · have hle' : rev ≤ topRevision items := by
          rw [← h.rev]
          omega
        obtain ⟨o', ho', hrev'⟩ := exists_of_noGap h.noGap hle'
        exact ⟨o', mem_append_singleton.2 (.inl ho'), hrev'⟩
      · exact ⟨o, mem_append_singleton.2 (.inr rfl), heq.symm⟩
    obtain ⟨o', ho', hrev'⟩ := hex
    rw [List.isEmpty_iff]
    exact List.ne_nil_of_mem (mem_ofRevision.2 ⟨ho', hrev'⟩)
  · refine List.any_eq_false.2 fun a ha hbad => ?_
    obtain ⟨b, hb, hdiff⟩ := List.any_eq_true.1 hbad
    rw [Bool.and_eq_true, decide_eq_true_eq] at hdiff
    rcases mem_append_singleton.1 ha with hamem | rfl
    · rcases mem_append_singleton.1 hb with hbmem | rfl
      · refine List.any_eq_false.1 h.agrees a hamem (List.any_eq_true.2 ⟨b, hbmem, ?_⟩)
        rw [Bool.and_eq_true, decide_eq_true_eq]
        exact hdiff
      · exact absurd hdiff.1 (hold a hamem).ne
    · rcases mem_append_singleton.1 hb with hbmem | rfl
      · exact absurd hdiff.1 (hold b hbmem).ne'
      · rw [bne_self_eq_false] at hdiff
        cases hdiff.2
  · refine List.any_eq_false.2 fun a ha => ?_
    have hearlier : ∀ rev, rev ≠ o.rev → earliest (items ++ [o]) rev = earliest items rev := by
      intro rev hne
      unfold earliest
      rw [ofRevision_append hne]
    rcases mem_append_singleton.1 ha with hmem | rfl
    · have hlt := hold a hmem
      rw [hearlier a.rev hlt.ne, hearlier (a.rev - 1) (by omega)]
      exact List.any_eq_false.1 h.ordered a hmem
    · obtain ⟨last, hlast, hlastrev, -⟩ := h.hash
      obtain ⟨early, hearly, hearlyle, -⟩ := earliest_of_mem hlast
      obtain ⟨late, hlate, -, o', ho', hrev', heq⟩ := earliest_of_mem ha
      have hself : o' = a := by
        rcases mem_append_singleton.1 ho' with hmem | hself
        · exact absurd hrev' (hold o' hmem).ne
        · exact hself
      have hprev : a.rev - 1 = last.rev := by rw [hrev, hlastrev, Nat.add_sub_cancel]
      rw [hlate, if_neg (by omega), hprev, hearlier last.rev (hold last hlast).ne, hearly, ← heq, hself]
      have hlt := hafter last hlast
      simp only [decide_eq_true_eq]
      omega

section
variable {items : List Occurrence} {o : Occurrence}

theorem lifeStart_le {chain : Dict Nat Occurrence} {selected : Nat} (h : (link chain selected).status = .active) :
    Lineage.lifeStart chain selected ≤ selected := by
  rcases foldr_max_mem 0 (((List.range (selected + 1)).filter fun rev => (link chain rev).status ≠ .active).map (· + 1))
    with h0 | hmem
  · exact h0.le.trans (Nat.zero_le _)
  · obtain ⟨rev, hrev, heq⟩ := List.mem_map.1 hmem
    simp only [List.mem_filter, List.mem_range, decide_eq_true_eq] at hrev
    have hne : rev ≠ selected := fun he => hrev.2 (he ▸ h)
    unfold Lineage.lifeStart
    omega

theorem tailOf_le {chain : Dict Nat Occurrence} {selected : Nat} (h : (link chain selected).status = .active) :
    Lineage.tailOf env chain selected ≤ selected := by
  unfold Lineage.tailOf
  rcases foldr_max_mem (Lineage.lifeStart chain selected) ((List.range (selected + 1)).filter fun rev =>
    Lineage.lifeStart chain selected < rev && (!Json.eq env.fl (link chain rev).at_ (link chain (rev - 1)).at_ ||
      !Lineage.eqIdentity env (link chain rev).identity (link chain (rev - 1)).identity)) with h0 | hmem
  · exact h0.le.trans (lifeStart_le h)
  · exact Nat.lt_succ_iff.1 (List.mem_range.1 (List.mem_of_mem_filter hmem))

variable {chain chain' : Dict Nat Occurrence} {selected : Nat}
  (hlink : ∀ rev ≤ selected, link chain' rev = link chain rev) (hactive : (link chain' (selected + 1)).status = .active)
include hlink hactive

theorem lifeStart_append : Lineage.lifeStart chain' (selected + 1) = Lineage.lifeStart chain selected := by
  unfold Lineage.lifeStart
  rw [List.range_succ, List.filter_append, List.filter_singleton, hactive, decide_eq_false (by simp), cond_false,
    List.append_nil]
  refine congrArg (fun l => (l.map (· + 1)).foldr max 0) (List.filter_congr fun rev hrev => ?_)
  rw [hlink rev (Nat.lt_succ_iff.1 (List.mem_range.1 hrev))]

theorem tailOf_append : Lineage.tailOf env chain' (selected + 1) = Lineage.tailOf env chain selected ∨
    Lineage.tailOf env chain' (selected + 1) = selected + 1 := by
  unfold Lineage.tailOf
  rw [lifeStart_append hlink hactive, List.range_succ, List.filter_append, List.filter_singleton]
  have hold : ((List.range (selected + 1)).filter fun rev => Lineage.lifeStart chain selected < rev &&
      (!Json.eq env.fl (link chain' rev).at_ (link chain' (rev - 1)).at_ ||
        !Lineage.eqIdentity env (link chain' rev).identity (link chain' (rev - 1)).identity)) =
      (List.range (selected + 1)).filter fun rev => Lineage.lifeStart chain selected < rev &&
        (!Json.eq env.fl (link chain rev).at_ (link chain (rev - 1)).at_ ||
          !Lineage.eqIdentity env (link chain rev).identity (link chain (rev - 1)).identity) := by
    refine List.filter_congr fun rev hrev => ?_
    have hle := Nat.lt_succ_iff.1 (List.mem_range.1 hrev)
    rw [hlink rev hle, hlink (rev - 1) ((Nat.sub_le rev 1).trans hle)]
  rw [hold]
  cases hnew : decide (Lineage.lifeStart chain selected < selected + 1) &&
    (!Json.eq env.fl (link chain' (selected + 1)).at_ (link chain' (selected + 1 - 1)).at_ ||
      !Lineage.eqIdentity env (link chain' (selected + 1)).identity (link chain' (selected + 1 - 1)).identity) with
  | false =>
    rw [cond_false, List.append_nil]
    exact .inl rfl
  | true =>
    rw [cond_true]
    rw [Bool.and_eq_true, decide_eq_true_eq] at hnew
    refine .inr (le_antisymm ?_ (le_foldr_max (List.mem_append_right _ List.mem_cons_self)))
    rcases foldr_max_mem (Lineage.lifeStart chain selected) (((List.range (selected + 1)).filter fun rev =>
      Lineage.lifeStart chain selected < rev && (!Json.eq env.fl (link chain rev).at_ (link chain (rev - 1)).at_ ||
        !Lineage.eqIdentity env (link chain rev).identity (link chain (rev - 1)).identity)) ++ [selected + 1])
      with h0 | hmem
    · exact h0.le.trans hnew.1.le
    · rcases List.mem_append.1 hmem with hmem | hmem
      · exact (List.mem_range.1 (List.mem_of_mem_filter hmem)).le
      · exact (List.mem_singleton.1 hmem).le

end

/-! ## A decision the walk proves -/

section
variable (env)

def lastLink (items : List Occurrence) : Occurrence := link (firstPerRevision items) (topRevision items)

def walkOf (lineage : Lineage) (items : List Occurrence) : WalkState :=
  lineage.walk env (firstPerRevision items) (Lineage.tailOf env (firstPerRevision items) (topRevision items))
    (topRevision items) (lastLink items).block

def anchorCost (lineage : Lineage) (items : List Occurrence) : Json :=
  (link (firstPerRevision items) (walkOf env lineage items).anchor).blockCost

structure Clear (lineage : Lineage) (id : String) (items : List Occurrence) : Prop where
  held : lineage.milestones.get? id = some items
  nonempty : items ≠ []
  own : (lineage.uncertain.get? id).getD [] = []
  active : (lastLink items).status = .active
  hashable : (lastLink items).block.all Block.hashable = true
  closes : ∀ close ∈ lineage.closeIds env (lastLink items).block, lineage.uncertain.get? close = none
  proven : (walkOf env lineage items).reasons = []

end

theorem restoration_clear {lineage : Lineage} {id : String} {items : List Occurrence} (h : Clear env lineage id items)
    {record payload : Json.Fields} (hpayload : field record "payload" = .obj payload) :
    lineage.restoration env id record =
      if !usableAmount env (anchorCost env lineage items) ||
          Json.eq env.fl (anchorCost env lineage items) (field payload "block_cost_usd") then .ok LINEAGE_KEEP
      else .ok ⟨.restore, anchorCost env lineage items, [], [], false⟩ := by
  have hcloses : ((lineage.closeIds env (lastLink items).block).any fun close =>
      (lineage.uncertain.get? close).isSome) = false := by
    refine List.any_eq_false.2 fun close hclose => ?_
    rw [h.closes close hclose]
    nofun
  unfold Lineage.restoration
  simp only [h.held, Option.getD_some, List.isEmpty_eq_false_iff.2 h.nonempty, Bool.false_eq_true, if_false, h.own,
    List.isEmpty_nil, Bool.not_true, hpayload]
  have hactive : ¬ (link (firstPerRevision items) (topRevision items)).status ≠ .active := not_not.2 h.active
  have hhash : (!(link (firstPerRevision items) (topRevision items)).block.all Block.hashable) = false := by
    rw [Bool.not_eq_false']
    exact h.hashable
  have hproven : (!(lineage.walk env (firstPerRevision items)
      (Lineage.tailOf env (firstPerRevision items) (topRevision items)) (topRevision items)
      (link (firstPerRevision items) (topRevision items)).block).reasons.isEmpty) = false := by
    have := h.proven
    unfold walkOf lastLink at this
    rw [this]
    rfl
  rw [if_neg hactive, hhash]
  unfold lastLink at hcloses
  simp only [Bool.false_eq_true, if_false, hcloses, hproven]
  rfl

theorem clear_of_restore {lineage : Lineage} {id : String} {record payload : Json.Fields} {answer : Restoration}
    (hpayload : field record "payload" = .obj payload) (h : lineage.restoration env id record = .ok answer)
    (hrestore : answer.action = .restore) : ∃ items, Clear env lineage id items ∧
      usableAmount env (anchorCost env lineage items) = true ∧
      Json.eq env.fl (anchorCost env lineage items) (field payload "block_cost_usd") = false ∧
      answer.value = anchorCost env lineage items := by
  unfold Lineage.restoration at h
  simp only [hpayload] at h
  have hkeep : ∀ {x : Restoration}, (Except.ok x : Py Restoration) = .ok answer → x.action ≠ .restore → False := by
    intro x hx hne
    exact hne (Except.ok.inj hx ▸ hrestore)
  split at h
  · exact (hkeep h (by decide)).elim
  rename_i hnonempty
  split at h
  · exact (hkeep h (by simp [Lineage.withhold])).elim
  rename_i hown
  split at h
  · exact (hkeep h (by decide)).elim
  rename_i hactive
  split at h
  · cases h
  rename_i hhashable
  split at h
  · exact (hkeep h (by simp [Lineage.withhold])).elim
  rename_i hcloses
  split at h
  · exact (hkeep h (by simp [Lineage.withhold])).elim
  rename_i hproven
  split at h
  · exact (hkeep h (by decide)).elim
  rename_i hvalue
  simp only [Bool.not_eq_eq_eq_not, Bool.not_true, Bool.or_eq_true, not_or, List.isEmpty_iff,
    Bool.not_eq_false, Bool.not_eq_true] at hnonempty hown hactive hhashable hcloses hproven hvalue
  cases hheld : lineage.milestones.get? id with
  | none => rw [hheld] at hnonempty; exact absurd rfl hnonempty
  | some items =>
    rw [hheld, Option.getD_some] at hnonempty hactive hhashable hcloses hproven hvalue h
    refine ⟨items, ⟨hheld, hnonempty, hown, not_not.1 hactive, hhashable, fun close hclose => ?_, hproven⟩, hvalue.1,
      hvalue.2, ?_⟩
    · have hnone := List.any_eq_false.1 hcloses close hclose
      simpa using hnone
    · exact (congrArg Restoration.value (Except.ok.inj h)).symm

theorem held_lt_next {lineage : Lineage} {id : String} {items : List Occurrence}
    (h : lineage.milestones.get? id = some items) {o : Occurrence} (ho : o ∈ items) :
    o.availableAt < lineage.nextCoordinate := by
  have hmem : o ∈ lineage.allOccurrences :=
    List.mem_flatten.2 ⟨items, List.mem_append_left _ (Dict.mem_values.2 ⟨id, h⟩), ho⟩
  exact le_foldr_max (List.mem_map_of_mem hmem)

theorem coordinates_lt_next (lineage : Lineage) (block : Option Block) :
    ∀ c ∈ coordinates (lineage.closeHistories env block), c < lineage.nextCoordinate := by
  intro c hc
  obtain ⟨items, hitems, o, ho, rfl⟩ := mem_coordinates.1 hc
  obtain ⟨close, -, rfl⟩ := List.mem_map.1 hitems
  cases hclose : lineage.closes.get? close with
  | none => rw [hclose] at ho; cases ho
  | some l =>
    rw [hclose] at ho
    have hmem : o ∈ lineage.allOccurrences :=
      List.mem_flatten.2 ⟨l, List.mem_append_right _ (Dict.mem_values.2 ⟨close, hclose⟩), ho⟩
    exact le_foldr_max (List.mem_map_of_mem hmem)

theorem walk_eq (lineage : Lineage) {chain : Dict Nat Occurrence} {tail selected : Nat} {block : Option Block} {b : Nat}
    (hrevs : ∀ rev, tail < rev → rev ≤ selected → (link chain rev).availableAt < b)
    (hcoords : ∀ c ∈ coordinates (lineage.closeHistories env block), c < b) :
    lineage.walk env chain tail selected block =
      walkBefore env chain tail selected (lineage.closeHistories env block) block b := walk_eq_walkBefore hrevs hcoords

/-! ## The restoring write -/

section
variable {lineage lineage' : Lineage} {id : String} {items : List Occurrence} {hidden : Bool} {pair : Nat × String}
  {o : Occurrence}

theorem link_mem (h : CertainMilestone env items hidden pair) {rev : Nat} (hrev : rev ≤ topRevision items) :
    link (firstPerRevision items) rev ∈ items ∧ (link (firstPerRevision items) rev).rev = rev := by
  obtain ⟨o, ho, rfl⟩ := exists_of_noGap h.noGap hrev
  obtain ⟨hmem, heq, -⟩ := link_earliest h.sorted ho
  exact ⟨hmem, heq⟩

theorem lastLink_append (hrev : o.rev = topRevision items + 1) : lastLink (items ++ [o]) = o := by
  unfold lastLink
  rw [topRevision_append items (by omega)]
  exact link_append_self fun o' ho' => by have := le_topRevision ho'; omega

/-- **The walk after a write of the anchor's amount keeps the anchor's amount.** -/
theorem anchorCost_append (hclear : Clear env lineage id items) (hcertain : CertainMilestone env items hidden pair)
    (hrev : o.rev = topRevision items + 1) (hat : o.availableAt = lineage.nextCoordinate) (hactive : o.status = .active)
    (hblock : o.block = (lastLink items).block) (hcost : o.blockCost = anchorCost env lineage items)
    (husable : usableAmount env (anchorCost env lineage items) = true)
    (hdiffers : Json.eq env.fl (anchorCost env lineage items) (lastLink items).blockCost = false)
    (hhistories : lineage'.closeHistories env (lastLink items).block = lineage.closeHistories env (lastLink items).block) :
    (walkOf env lineage' (items ++ [o])).reasons = [] ∧
      anchorCost env lineage' (items ++ [o]) = anchorCost env lineage items := by
  have hlink : ∀ rev ≤ topRevision items,
      link (firstPerRevision (items ++ [o])) rev = link (firstPerRevision items) rev :=
    fun rev hle => link_append (by omega)
  have hself : link (firstPerRevision (items ++ [o])) (topRevision items + 1) = o := by
    rw [← hrev]
    exact link_append_self fun o' ho' => by have := le_topRevision ho'; omega
  have htop : topRevision (items ++ [o]) = topRevision items + 1 := by
    rw [topRevision_append items (by omega), hrev]
  have hts : Lineage.tailOf env (firstPerRevision items) (topRevision items) ≤ topRevision items := tailOf_le hclear.active
  have hrevs : ∀ rev ≤ topRevision items, (link (firstPerRevision items) rev).availableAt < lineage.nextCoordinate :=
    fun rev hle => held_lt_next hclear.held (link_mem hcertain hle).1
  have hwalk : walkOf env lineage items = walkBefore env (firstPerRevision items)
      (Lineage.tailOf env (firstPerRevision items) (topRevision items)) (topRevision items)
      (lineage.closeHistories env (lastLink items).block) (lastLink items).block lineage.nextCoordinate :=
    walk_eq lineage (fun rev _ hle => hrevs rev hle) (coordinates_lt_next lineage _)
  have hcoords : ∀ c ∈ coordinates (lineage'.closeHistories env (lastLink items).block), c < lineage.nextCoordinate := by
    rw [hhistories]
    exact coordinates_lt_next lineage _
  have hwalk' : walkOf env lineage' (items ++ [o]) = lineage'.walk env (firstPerRevision (items ++ [o]))
      (Lineage.tailOf env (firstPerRevision (items ++ [o])) (topRevision items + 1)) (topRevision items + 1)
      (lastLink items).block := by
    unfold walkOf
    rw [htop, lastLink_append hrev, hblock]
  have hat' : (link (firstPerRevision (items ++ [o])) (topRevision items + 1)).availableAt = lineage.nextCoordinate := by
    rw [hself, hat]
  have hnewactive : (link (firstPerRevision (items ++ [o])) (topRevision items + 1)).status = .active := by
    rw [hself, hactive]
  rcases @tailOf_append env _ _ _ hlink hnewactive with htail | htail
  · -- the same tail: the new write is one more coordinate of the same walk
    have hsame : ¬ SameAmount env (firstPerRevision items) (topRevision items) (walkOf env lineage items).anchor := by
      have hself' := eq_of_usable husable
      unfold anchorCost at hdiffers hself'
      rintro (heq | heq)
      · rw [← heq] at hdiffers hself'
        exact Bool.false_ne_true (hdiffers.symm.trans hself')
      · exact Bool.false_ne_true (hdiffers.symm.trans (Json.eq_symm env.fl heq))
    have hproven := hclear.proven
    rw [hwalk, ← hat'] at hsame hproven
    obtain ⟨hreasons, hanchor⟩ := walkBefore_restored hlink
      (inOrder_of_certain hcertain.sorted hcertain.noGap hcertain.ordered _) hts
      (by rw [hat']; exact hrevs _ (le_refl _)) (by rw [hat']; exact coordinates_lt_next lineage _) hproven hsame
    have hbound : walkOf env lineage' (items ++ [o]) = walkBefore env (firstPerRevision (items ++ [o]))
        (Lineage.tailOf env (firstPerRevision items) (topRevision items)) (topRevision items + 1)
        (lineage.closeHistories env (lastLink items).block) (lastLink items).block (lineage.nextCoordinate + 1) := by
      rw [hwalk', htail, ← hhistories]
      refine walk_eq lineage' (fun rev _ hle => ?_) fun c hc => Nat.lt_succ_of_lt (hcoords c hc)
      rcases Nat.lt_succ_iff_lt_or_eq.1 (Nat.lt_succ_of_le hle) with hlt | rfl
      · rw [hlink rev (Nat.le_of_lt_succ hlt)]
        exact Nat.lt_succ_of_lt (hrevs rev (Nat.le_of_lt_succ hlt))
      · rw [hat']
        exact Nat.lt_succ_self _
    rw [hat'] at hreasons hanchor
    have hle : (walkOf env lineage items).anchor ≤ topRevision items := by
      rw [hwalk]
      exact walkBefore_anchor_le hts _
    refine ⟨by rw [hbound]; exact hreasons, ?_⟩
    have hanchor' : (walkOf env lineage' (items ++ [o])).anchor = (walkOf env lineage items).anchor := by
      rw [hbound, hwalk, hanchor]
    unfold anchorCost
    rw [hanchor', hlink _ hle]
  · -- the new write starts a tail of its own, and nothing comes after it
    have hbound : walkOf env lineage' (items ++ [o]) = ⟨topRevision items + 1, [], false⟩ := by
      have hord : InOrder (firstPerRevision (items ++ [o])) (topRevision items + 1) (topRevision items + 1) :=
        fun rev hge hlt => absurd hlt (Nat.not_lt.2 hge)
      rw [hwalk', htail, walk_eq lineage' (b := lineage.nextCoordinate)
        (fun rev hlt hle => absurd hlt (Nat.not_lt.2 hle)) hcoords]
      exact walkBefore_start hord hat'.ge
    unfold anchorCost at hcost ⊢
    rw [hbound, hself]
    exact ⟨rfl, hcost⟩

end

end

end Cctally.FiveHour
