import Cctally.StatuslineRun

/-!
# The order the sessions are read in

`reduceCandidates_perm`: over candidates with distinct tokens a decision depends on
their order only in the order in which its contributors are listed, and not at all
on candidates that are not active.
-/

namespace Cctally.Statusline

variable {W : Type}

/-! ## Members in another order -/

section
variable {ms ms' : List (Member W)} (h : ms.Perm ms')
include h

theorem max?_perm {α : Type} [LinearOrder α] (f : Member W → α) : (ms.map f).max? = (ms'.map f).max? := by
  refine Option.ext fun a => ?_
  rw [List.max?_eq_some_iff, List.max?_eq_some_iff]
  simp only [(h.map f).mem_iff]

theorem min?_perm {α : Type} [LinearOrder α] (f : Member W → α) : (ms.map f).min? = (ms'.map f).min? := by
  refine Option.ext fun a => ?_
  rw [List.min?_eq_some_iff, List.min?_eq_some_iff]
  simp only [(h.map f).mem_iff]

theorem maximumAt_perm (key : Int) (dbAxis : Option AxisProjection) : maximumAt key dbAxis ms = maximumAt key dbAxis ms' := by
  unfold maximumAt rawAt
  rw [max?_perm h]
  congr 1
  funext maximum
  rw [min?_perm (h.filter _)]

theorem eligibleRise_perm (reduced : AxisValue) (facts : Facts) (db : AxisProjection) :
    eligibleRise reduced ms facts db = eligibleRise reduced ms' facts db := by
  unfold eligibleRise riseWindow
  rw [h.any_eq, max?_perm (h.filter _)]

theorem dropSide_perm {ds ds' : List (Member W)} (hd : ds.Perm ds') (reduced : AxisValue) (db : AxisProjection) :
    dropSide reduced ms ds db = dropSide reduced ms' ds' db := by
  unfold dropSide
  rw [h.length_eq, hd.length_eq, maximumAt_perm hd]

theorem supportersRetracted_perm (hnodup : (ms.map fun m => m.1.token).Nodup) (r : RetainedLow W) (db : AxisProjection) :
    supportersRetracted r ms db = supportersRetracted r ms' db := by
  have hget : (Dict.ofList (ms.map fun m => (m.1.token, m.2))).get? = (Dict.ofList (ms'.map fun m => (m.1.token, m.2))).get? :=
    funext fun token => Dict.get?_ofList_perm (by rwa [List.map_map]) (h.map _) token
  dsimp only [supportersRetracted]
  rw [hget]

end

theorem reducedCandidate_perm {cs cs' : List (Candidate W)} (h : cs.Perm cs') (axis : Axis) (tombstone : Option Tombstone)
    (dbAxis : Option AxisProjection) :
    Option.Rel (fun a b => a.1 = b.1 ∧ a.2.Perm b.2 ∧ a.2.Sublist (cs.filterMap (eligibleCandidateAxis axis tombstone)))
      (reducedCandidate cs axis tombstone dbAxis) (reducedCandidate cs' axis tombstone dbAxis) := by
  have heligible := h.filterMap (eligibleCandidateAxis axis tombstone)
  dsimp only [reducedCandidate]
  rw [← max?_perm heligible]
  cases hnewest : ((cs.filterMap (eligibleCandidateAxis axis tombstone)).map fun m => axisValueKey m.2).max? with
  | none => exact .none
  | some newest =>
    have hwindow : (membersAt newest (cs.filterMap (eligibleCandidateAxis axis tombstone))).Perm
        (membersAt newest (cs'.filterMap (eligibleCandidateAxis axis tombstone))) := heligible.filter _
    dsimp only [Option.bind_eq_bind, Option.bind_some]
    rw [← maximumAt_perm hwindow]
    cases maximumAt newest dbAxis (membersAt newest (cs.filterMap (eligibleCandidateAxis axis tombstone))) with
    | none => exact .none
    | some reduced => exact .some ⟨rfl, hwindow, List.filter_sublist⟩

section
variable (env : Env W) (axis : Axis)

def identityOf (m : Member W) : String := env.observationIdentity m.1.token axis m.2

theorem foldl_see : ∀ (ms : List (Member W)) (seen : Dict String (SupportingObservation W)),
    (ms.map (identityOf env axis)).Nodup → (∀ m ∈ ms, identityOf env axis m ∉ seen.keys) →
    ms.foldl (see env axis) seen =
      (ms.map fun m => (identityOf env axis m, observation env axis m)).foldl (fun d p => d.set p.1 p.2) seen
  | [], _, _, _ => rfl
  | m :: ms, seen, hnodup, hnew => by
    obtain ⟨hm, hms⟩ := List.nodup_cons.1 hnodup
    have hsee : see env axis seen m = seen.set (identityOf env axis m) (observation env axis m) := by
      have hnone : seen.get? (observation env axis m).observationId = none :=
        Dict.get?_eq_none.2 (hnew m (List.mem_cons_self ..))
      dsimp only [see]
      rw [hnone]
      rfl
    rw [List.foldl_cons, hsee, List.map_cons, List.foldl_cons]
    refine foldl_see ms _ hms fun n hn hmem => ?_
    rcases Dict.mem_keys_set.1 hmem with heq | hmem
    · exact hm (heq ▸ List.mem_map_of_mem hn)
    · exact hnew n (List.mem_cons_of_mem _ hn) hmem

theorem supportingObservations_perm {ms ms' : List (Member W)} (h : ms.Perm ms')
    (hnodup : (ms.map (identityOf env axis)).Nodup) (low : ℚ) :
    supportingObservations env ms axis low = supportingObservations env ms' axis low := by
  have hlow := h.filter fun m => decide (m.2.percent = low)
  have hn : ((ms.filter fun m => m.2.percent = low).map (identityOf env axis)).Nodup :=
    hnodup.sublist (List.filter_sublist.map _)
  have hn' := (hlow.map (identityOf env axis)).nodup_iff.1 hn
  have hvalues : ∀ ns : List (Member W), (ns.map (identityOf env axis)).Nodup →
      (ns.foldl (see env axis) Dict.empty).values.Perm (ns.map (observation env axis)) := by
    intro ns hns
    rw [foldl_see env axis ns _ hns fun _ _ hmem => List.not_mem_nil hmem]
    have hkeys : ((ns.map fun m => (identityOf env axis m, observation env axis m)).map Prod.fst).Nodup := by rwa [List.map_map]
    have hperm := (Dict.perm_ofList hkeys).map Prod.snd
    rwa [List.map_map] at hperm
  unfold supportingObservations
  refine insertionSort_congr SupportingObservation.observationId ?_ ((hvalues _ hn).trans ((hlow.map _).trans (hvalues _ hn').symm))
  rw [((hvalues _ hn).map _).nodup_iff, List.map_map]
  exact hn

end

structure SameDrop (p q : PendingDrop W) : Prop where
  fields : q = { p with contributors := q.contributors }
  contributors : ∀ token, p.contributors.get? token = q.contributors.get? token

theorem SameDrop.refl (p : PendingDrop W) : SameDrop p p := ⟨rfl, fun _ => rfl⟩

theorem SameDrop.exists_eq {p q : PendingDrop W} (h : SameDrop p q) :
    ∃ d : Dict String Contributor, q = { p with contributors := d } ∧ ∀ token, p.contributors.get? token = d.get? token :=
  ⟨q.contributors, h.fields, h.contributors⟩

theorem rel_refl (pending : Option (PendingDrop W)) : Option.Rel SameDrop pending pending := by
  cases pending with
  | none => exact .none
  | some p => exact .some (.refl p)

section
variable {p q : PendingDrop W} (h : SameDrop p q)
include h

theorem attempt_same (v : AxisValue) (db : AxisProjection) (scope : Option Scope) :
    Option.Rel SameDrop (pendingKernelAttempt p v db scope) (pendingKernelAttempt q v db scope) := by
  obtain ⟨d, rfl, hget⟩ := h.exists_eq
  dsimp only [pendingKernelAttempt]
  split
  · split
    · exact .none
    · exact .some ⟨rfl, hget⟩
  · split
    · exact .some ⟨rfl, hget⟩
    · exact .some ⟨rfl, hget⟩

theorem unanimous_same {rs rs' : List (Member W)} (hr : rs.Perm rs') (dropReduced : Option AxisValue) (db : AxisProjection) :
    unanimous dropReduced rs db p = unanimous dropReduced rs' db q := by
  have hperm := Dict.perm_of_get? h.contributors
  have hvalues : p.contributors.values.Perm q.contributors.values := hperm.map Prod.snd
  unfold unanimous
  rw [hr.any_eq, hvalues.all_eq, hperm.isEmpty_eq]

variable [DecidableEq W]

theorem samePending_right (pending : Option (PendingDrop W)) : samePending pending (some p) = samePending pending (some q) := by
  cases pending with
  | none => rfl
  | some r =>
    obtain ⟨d, rfl, hget⟩ := h.exists_eq
    have hperm := Dict.perm_of_get? hget
    dsimp only [samePending]
    rw [hperm.length_eq]
    simp only [hget]

end

theorem samePending_left [DecidableEq W] {a b : Option (PendingDrop W)} (h : Option.Rel SameDrop a b)
    (pending : Option (PendingDrop W)) : samePending a pending = samePending b pending := by
  cases h with
  | none => rfl
  | some h =>
    obtain ⟨d, rfl, hget⟩ := h.exists_eq
    cases pending with
    | none => rfl
    | some r =>
      have hperm := Dict.perm_of_get? hget
      dsimp only [samePending]
      rw [hperm.length_eq, hperm.all_eq]

section
variable {ms ms' : List (Member W)} (h : ms.Perm ms') (hnodup : (ms.map fun m => m.1.token).Nodup)
include h hnodup

theorem newPending_same (reduced : AxisValue) (now : Int) (r : RetainedLow W) :
    SameDrop (newPending reduced ms now r) (newPending reduced ms' now r) :=
  ⟨rfl, fun token => Dict.get?_ofList_perm (by rwa [List.map_map]) (h.map _) token⟩

theorem reconcilePending_get? (p : PendingDrop W) (token : String) :
    (reconcilePending p ms).contributors.get? token = (reconcilePending p ms').contributors.get? token := by
  dsimp only [reconcilePending]
  rw [Dict.get?_mapValues, Dict.get?_mapValues, Dict.get?_ofList_perm (by rwa [List.map_map]) (h.map _)]

end

/-! ## The same decision of an axis -/

structure SameAxis (d e : AxisDecision W) : Prop where
  action : d.action = e.action
  candidate : d.candidate = e.candidate
  pending : Option.Rel SameDrop d.pending e.pending
  unknown : d.unknown = e.unknown

theorem SameAxis.refl (d : AxisDecision W) : SameAxis d d := ⟨rfl, rfl, rel_refl _, rfl⟩

section
variable {env : Env W} {axis : Axis} {ms ms' : List (Member W)} (h : ms.Perm ms')
  (hnodup : (ms.map fun m => m.1.token).Nodup) (hidentity : (ms.map (identityOf env axis)).Nodup)
include h hnodup hidentity

theorem reduceUnarmed_same (key : Int) (rise dropReduced : Option AxisValue) (db : AxisProjection)
    (pending : Option (PendingDrop W)) (now : Int) :
    SameAxis (reduceUnarmed env axis key rise dropReduced ms db pending now)
      (reduceUnarmed env axis key rise dropReduced ms' db pending now) := by
  unfold reduceUnarmed
  rw [← min?_perm h]
  cases rise with
  | some value => exact .refl _
  | none =>
    dsimp only
    cases ((ms.map fun m => m.2.percent).min?).filter fun low => low < db.percent with
    | none => exact .refl _
    | some low =>
      dsimp only
      rw [← supportingObservations_perm env axis h hidentity]
      refine ⟨rfl, rfl, ?_, rfl⟩
      cases dropReduced with
      | none => exact .none
      | some d => exact .some (newPending_same h hnodup d now _)

theorem updatedPending_same (key : Int) (dropReduced : Option AxisValue) (db : AxisProjection) (p : PendingDrop W)
    (r : RetainedLow W) :
    SameDrop (updatedPending env axis key dropReduced ms db p r).1 (updatedPending env axis key dropReduced ms' db p r).1 ∧
      (updatedPending env axis key dropReduced ms db p r).2 = (updatedPending env axis key dropReduced ms' db p r).2 := by
  have hsupports : ∀ low, supportingObservations env ms axis low = supportingObservations env ms' axis low :=
    supportingObservations_perm env axis h hidentity
  dsimp only [updatedPending]
  rw [← min?_perm h]
  simp only [hsupports]
  exact ⟨⟨rfl, reconcilePending_get? h hnodup p⟩, trivial⟩

theorem reduceArmed_same [DecidableEq W] (key : Int) (rise dropReduced : Option AxisValue) {inWindow inWindow' rs rs' : List (Member W)}
    (hwindow : inWindow.Perm inWindow') (hwindowNodup : (inWindow.map fun m => m.1.token).Nodup) (hrise : rs.Perm rs')
    (db : AxisProjection) (p : PendingDrop W) (r : RetainedLow W) (now : Int) (scope : Option Scope) (allowed : Bool) :
    SameAxis (reduceArmed env axis key rise dropReduced inWindow ms rs db p r now scope allowed)
      (reduceArmed env axis key rise dropReduced inWindow' ms' rs' db p r now scope allowed) := by
  obtain ⟨hupdated, hkept⟩ := updatedPending_same h hnodup hidentity key dropReduced db p r
  unfold reduceArmed
  rw [← supportersRetracted_perm hwindow hwindowNodup]
  by_cases hover : supportersRetracted r inWindow db = true ∨ db.percent ≤ r.percent
  · rw [if_pos hover, if_pos hover]
    exact .refl _
  rw [if_neg hover, if_neg hover]
  generalize updatedPending env axis key dropReduced ms db p r = after at hupdated hkept ⊢
  generalize updatedPending env axis key dropReduced ms' db p r = after' at hupdated hkept ⊢
  obtain ⟨updated, kept⟩ := after
  obtain ⟨updated', kept'⟩ := after'
  dsimp only at hupdated hkept ⊢
  subst hkept
  rw [← samePending_right hupdated, ← unanimous_same hupdated hrise]
  have hunchanged : SameAxis
      (⟨if samePending (some p) (some updated) then .noop else .writeControl, none, some updated, false⟩ : AxisDecision W)
      ⟨if samePending (some p) (some updated) then .noop else .writeControl, none, some updated', false⟩ :=
    ⟨rfl, rfl, .some hupdated, rfl⟩
  cases rise with
  | some value => exact ⟨rfl, rfl, .some hupdated, rfl⟩
  | none =>
    dsimp only
    by_cases hallowed : allowed = false
    · rw [if_pos hallowed, if_pos hallowed]
      exact hunchanged
    rw [if_neg hallowed, if_neg hallowed]
    have hdeadline : updated'.deadlineAt = updated.deadlineAt := by rw [hupdated.fields]
    have hattempt := fun v => attempt_same hupdated v db scope
    cases unanimous dropReduced rs db updated with
    | some d =>
      have hspent := hattempt d
      dsimp only
      generalize pendingKernelAttempt updated d db scope = a at hspent ⊢
      generalize pendingKernelAttempt updated' d db scope = a' at hspent ⊢
      cases hspent with
      | none => exact hunchanged
      | some hsame => exact ⟨rfl, rfl, .some hsame, rfl⟩
    | none =>
      dsimp only
      rw [hdeadline]
      split
      · have hspent := hattempt (retainedAxisValue kept db)
        generalize pendingKernelAttempt updated (retainedAxisValue kept db) db scope = a at hspent ⊢
        generalize pendingKernelAttempt updated' (retainedAxisValue kept db) db scope = a' at hspent ⊢
        cases hspent with
        | none => exact .refl _
        | some hsame => exact ⟨rfl, rfl, .some hsame, rfl⟩
      · exact hunchanged

end

theorem reduceAbsent_perm {ms ms' : List (Member W)} (h : ms.Perm ms') (axis : Axis) (reduced : AxisValue)
    (pending : Option (PendingDrop W)) (now : Int) (scope : Option Scope) (allowed : Bool) (axisEvidence : AxisEvidence)
    (facts : Facts) :
    reduceAbsent axis reduced ms pending now scope allowed axisEvidence facts =
      reduceAbsent axis reduced ms' pending now scope allowed axisEvidence facts := by
  dsimp only [reduceAbsent, riseWindow]
  rw [maximumAt_perm ((h.filter _).filter _)]

def TellsApart (env : Env W) (cs : List (Candidate W)) : Prop :=
  ∀ axis, ∀ a ∈ cs, ∀ b ∈ cs, ∀ u v, candidateAxis a axis = some u → candidateAxis b axis = some v →
    env.observationIdentity a.token axis u = env.observationIdentity b.token axis v → a.token = b.token

theorem mem_eligible {axis : Axis} {tombstone : Option Tombstone} {cs : List (Candidate W)} {m : Member W}
    (h : m ∈ cs.filterMap (eligibleCandidateAxis axis tombstone)) : m.1 ∈ cs ∧ candidateAxis m.1 axis = some m.2 := by
  obtain ⟨c, hc, hm⟩ := List.mem_filterMap.1 h
  have hfst := eligibleCandidateAxis_fst hm
  obtain ⟨value, hvalue, hm⟩ := Option.bind_eq_some_iff.1 hm
  have hsnd : m.2 = value := by
    split at hm
    · cases hm
      rfl
    · cases hm
    · split at hm
      · cases hm
      · cases hm
        rfl
    · cases hm
      rfl
  rw [hfst, hsnd]
  exact ⟨hc, hvalue⟩

section
variable (env : Env W) (axis : Axis) {cs cs' : List (Candidate W)} (h : cs.Perm cs')
  (hnodup : (cs.map Candidate.token).Nodup) (hdigest : TellsApart env cs)

include hnodup hdigest in
theorem nodup_identities (tombstone : Option Tombstone) :
    ((cs.filterMap (eligibleCandidateAxis axis tombstone)).map (identityOf env axis)).Nodup := by
  have htokens := hnodup.sublist (tokens_filterMap axis tombstone cs)
  refine List.Nodup.map_on (fun m hm n hn heq => ?_) htokens.of_map
  obtain ⟨hmc, hmv⟩ := mem_eligible hm
  obtain ⟨hnc, hnv⟩ := mem_eligible hn
  exact List.inj_on_of_nodup_map htokens hm hn (hdigest axis m.1 hmc n.1 hnc m.2 n.2 hmv hnv heq)

variable [DecidableEq W]
include h hnodup hdigest

theorem reducePrunedAxis_same (dbAxis : Option AxisProjection) (pending : Option (PendingDrop W)) (tombstone : Option Tombstone)
    (now : Int) (scope : Option Scope) (allowed : Bool) (axisEvidence : AxisEvidence) (facts : Facts) :
    SameAxis (reducePrunedAxis env axis cs dbAxis pending tombstone now scope allowed axisEvidence facts)
      (reducePrunedAxis env axis cs' dbAxis pending tombstone now scope allowed axisEvidence facts) := by
  have hreduced := reducedCandidate_perm h axis tombstone dbAxis
  unfold reducePrunedAxis
  generalize reducedCandidate cs axis tombstone dbAxis = a at hreduced ⊢
  generalize reducedCandidate cs' axis tombstone dbAxis = a' at hreduced ⊢
  cases hreduced with
  | none => exact .refl _
  | @some r r' hr =>
    obtain ⟨reduced, inWindow⟩ := r
    obtain ⟨reduced', inWindow'⟩ := r'
    obtain ⟨heq, hwindow, hsub⟩ := hr
    dsimp only at heq hwindow hsub ⊢
    subst heq
    have hwindowNodup : (inWindow.map fun m => m.1.token).Nodup :=
      (hnodup.sublist (tokens_filterMap axis tombstone cs)).sublist (hsub.map _)
    have hidentity := (nodup_identities env axis hnodup hdigest tombstone).sublist (hsub.map (identityOf env axis))
    cases dbAxis with
    | none =>
      dsimp only
      rw [reduceAbsent_perm hwindow]
      exact .refl _
    | some db =>
      dsimp only
      split
      · exact .refl _
      · split
        · exact .refl _
        · have hdrop : (dropWindow facts inWindow).Perm (dropWindow facts inWindow') := hwindow.filter _
          have hdropSub : (dropWindow facts inWindow).Sublist inWindow := List.filter_sublist
          have hdropNodup := hwindowNodup.sublist (hdropSub.map _)
          have hdropIdentity := hidentity.sublist (hdropSub.map _)
          rw [← eligibleRise_perm hwindow, ← dropSide_perm hwindow hdrop]
          split
          · exact reduceUnarmed_same hdrop hdropNodup hdropIdentity ..
          · exact reduceArmed_same hdrop hdropNodup hdropIdentity _ _ _ hwindow hwindowNodup (hwindow.filter _) ..

theorem reduceAxis_same (dbAxis : Option AxisProjection) (pending : Option (PendingDrop W)) (tombstone : Option Tombstone)
    (now : Int) (scope : Option Scope) (allowed : Bool) (axisEvidence : AxisEvidence) (facts : Facts)
    (refuted : List (String × String)) :
    SameAxis (reduceAxis env axis cs dbAxis pending tombstone now scope allowed axisEvidence facts refuted)
      (reduceAxis env axis cs' dbAxis pending tombstone now scope allowed axisEvidence facts refuted) := by
  have hsame := reducePrunedAxis_same env axis h hnodup hdigest dbAxis (pruneRetained env pending refuted) tombstone now scope
    allowed axisEvidence facts
  dsimp only [reduceAxis]
  generalize reducePrunedAxis env axis cs dbAxis (pruneRetained env pending refuted) tombstone now scope allowed axisEvidence
    facts = d at hsame ⊢
  generalize reducePrunedAxis env axis cs' dbAxis (pruneRetained env pending refuted) tombstone now scope allowed axisEvidence
    facts = d' at hsame ⊢
  rw [← hsame.action, ← samePending_left hsame.pending]
  split
  · exact ⟨rfl, hsame.candidate, hsame.pending, hsame.unknown⟩
  · exact hsame

end

structure SameDecision (d e : ReductionDecision W) : Prop where
  action : d.action = e.action
  control : ∀ axis, Option.Rel SameDrop (d.control.pendingDrops axis) (e.control.pendingDrops axis)
  plan : d.plan = e.plan
  unknownAxes : d.unknownAxes = e.unknownAxes

section
variable [DecidableEq W] (env : Env W) (call : Call W) (control : ControlState W)

theorem sameDecision {other : Call W} (h : ∀ axis, SameAxis (decideAxis env call control axis) (decideAxis env other control axis)) :
    SameDecision (reduceCandidates env call control) (reduceCandidates env other control) := by
  unfold reduceCandidates
  simp only [(h _).action, (h _).candidate, (h _).unknown]
  split
  · exact ⟨rfl, fun axis => (h axis).pending, rfl, rfl⟩
  · split
    · exact ⟨rfl, fun axis => (h axis).pending, rfl, rfl⟩
    · exact ⟨rfl, fun axis => (h axis).pending, rfl, rfl⟩

/-- **A decision does not depend on the order of the candidates**, nor on candidates that are not active. -/
theorem reduceCandidates_perm :
    (∀ others : List (Candidate W), call.candidates.Perm others → (call.candidates.map Candidate.token).Nodup →
      TellsApart env call.candidates →
      SameDecision (reduceCandidates env call control) (reduceCandidates env { call with candidates := others } control)) ∧
    ∀ keep : Candidate W → Bool, (∀ c ∈ active call, keep c = true) →
      reduceCandidates env { call with candidates := call.candidates.filter keep } control =
        reduceCandidates env call control := by
  refine ⟨fun others h hnodup hdigest => sameDecision env call control fun axis => ?_, fun keep hkeep => ?_⟩
  · have hactive : (active call).Perm (active { call with candidates := others }) := h.filter _
    have hsub : (active call).Sublist call.candidates := List.filter_sublist
    refine reduceAxis_same env axis hactive (hnodup.sublist (hsub.map _)) (fun axis a ha b hb => ?_) ..
    exact hdigest axis a (hsub.subset ha) b (hsub.subset hb)
  · have hactive : active { call with candidates := call.candidates.filter keep } = active call := by
      have hall := List.filter_eq_self.2 hkeep
      unfold active at hall ⊢
      rw [List.filter_filter] at hall ⊢
      rw [← hall]
      refine List.filter_congr fun c _ => ?_
      exact Bool.and_comm ..
    unfold reduceCandidates decideAxis
    rw [hactive]

end

def twoSessions : Call Unit :=
  { workedCall 100 100 with
    candidates := [⟨"a", 100, none, some ⟨20, 1000, some 1⟩, none⟩, ⟨"b", 99, none, some ⟨30, 1000, some 1⟩, none⟩] }

theorem reduceCandidates_perm_two :
    SameDecision (reduceCandidates workedEnv twoSessions noDrops)
      (reduceCandidates workedEnv { twoSessions with candidates := twoSessions.candidates.reverse } noDrops) :=
  (reduceCandidates_perm workedEnv twoSessions noDrops).1 _ (List.reverse_perm _).symm (by decide)
    fun _ _ _ _ _ _ _ _ _ h => h

end Cctally.Statusline
