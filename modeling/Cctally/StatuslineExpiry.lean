import Cctally.StatuslineGeneration

/-!
# The first call past the deadline

With the gate open, the baseline above the low a record retains, no rise and no
retraction, a call at or past the deadline publishes the drop, unless the
attempts for the value it would publish are spent.
-/

namespace Cctally.Statusline

variable {W : Type}

section
variable {call : Call W} {axis : Axis} {dbAxis : Option AxisProjection} {key : Int} {ms : List (Member W)}

def eligible (call : Call W) (axis : Axis) : List (Member W) :=
  (active call).filterMap (eligibleCandidateAxis axis (call.tombstones axis))

theorem maximumAt_mem {v : AxisValue} (h : maximumAt key dbAxis ms = some v) : ∃ m ∈ ms, m.2.percent = v.percent := by
  obtain ⟨maximum, hmax, h⟩ := Option.bind_eq_some_iff.1 h
  obtain ⟨raw, -, h⟩ := Option.bind_eq_some_iff.1 h
  cases h
  exact List.mem_map.1 (List.max?_eq_some_iff.1 hmax).1

theorem maximumAt_isSome (key : Int) (dbAxis : Option AxisProjection) (h : ms ≠ []) : ∃ v, maximumAt key dbAxis ms = some v := by
  obtain ⟨maximum, hmax⟩ : ∃ maximum, (ms.map fun m => m.2.percent).max? = some maximum := by
    rw [← Option.isSome_iff_exists, List.isSome_max?_iff]
    simpa using h
  obtain ⟨m, hm, hpercent⟩ := List.mem_map.1 (List.max?_eq_some_iff.1 hmax).1
  obtain ⟨raw, hraw⟩ : ∃ raw, rawAt key dbAxis (ms.filter fun m => m.2.percent = maximum) = some raw := by
    unfold rawAt
    split
    · exact ⟨_, rfl⟩
    · rw [← Option.isSome_iff_exists, List.isSome_min?_iff, Ne, List.map_eq_nil_iff]
      exact List.ne_nil_of_mem (List.mem_filter.2 ⟨hm, decide_eq_true hpercent⟩)
  exact ⟨⟨maximum, raw, some key⟩, by simp [maximumAt, hmax, hraw]⟩

theorem members_eq (call : Call W) (axis : Axis) (key : Int) :
    members call axis key = membersAt key (eligible call axis) := rfl

theorem reducedCandidate_none (h : reducedCandidate (active call) axis (call.tombstones axis) dbAxis = none) :
    eligible call axis = [] := by
  by_contra hne
  change ((eligible call axis).map fun m => axisValueKey m.2).max?.bind _ = none at h
  obtain ⟨newest, hmax⟩ : ∃ newest, ((eligible call axis).map fun m => axisValueKey m.2).max? = some newest := by
    rw [← Option.isSome_iff_exists, List.isSome_max?_iff]
    simpa using hne
  obtain ⟨m, hm, hkey⟩ := List.mem_map.1 (List.max?_eq_some_iff.1 hmax).1
  have hat : membersAt newest (eligible call axis) ≠ [] :=
    List.ne_nil_of_mem (List.mem_filter.2 ⟨hm, decide_eq_true hkey⟩)
  obtain ⟨v, hv⟩ := maximumAt_isSome newest dbAxis hat
  rw [hmax, Option.bind_some] at h
  change (maximumAt newest dbAxis (membersAt newest (eligible call axis))).bind _ = none at h
  rw [hv] at h
  cases h

theorem reducedCandidate_newest {reduced : AxisValue} {inWindow : List (Member W)}
    (h : reducedCandidate (active call) axis (call.tombstones axis) dbAxis = some (reduced, inWindow)) :
    (∀ m ∈ eligible call axis, axisValueKey m.2 ≤ axisValueKey reduced) ∧
      (∃ m ∈ eligible call axis, axisValueKey m.2 = axisValueKey reduced) ∧
      ∃ m ∈ inWindow, m.2.percent = reduced.percent := by
  obtain ⟨newest, hmax, h⟩ := Option.bind_eq_some_iff.1 h
  obtain ⟨v, hv, h⟩ := Option.bind_eq_some_iff.1 h
  cases h
  have hkey : axisValueKey reduced = newest := by rw [axisValueKey, (maximumAt_spec hv).1, Option.getD_some]
  obtain ⟨hmem, hle⟩ := List.max?_eq_some_iff.1 hmax
  rw [hkey]
  exact ⟨fun m hm => hle _ (List.mem_map_of_mem hm), List.mem_map.1 hmem, maximumAt_mem hv⟩

theorem members_nil (h : ∀ m ∈ eligible call axis, axisValueKey m.2 < key) : members call axis key = [] := by
  rw [members_eq, membersAt, List.filter_eq_nil_iff]
  intro m hm hkey
  exact absurd (of_decide_eq_true hkey) (h m hm).ne

theorem dropSide_mem {reduced v : AxisValue} {facts : Facts} {inWindow : List (Member W)} {db : AxisProjection}
    (hmem : ∃ m ∈ inWindow, m.2.percent = reduced.percent)
    (h : dropSide reduced inWindow (dropWindow facts inWindow) db = some v) :
    ∃ m ∈ dropWindow facts inWindow, m.2.percent = v.percent := by
  unfold dropSide at h
  split at h
  · rename_i hlength
    cases h
    have hsame : dropWindow facts inWindow = inWindow := List.filter_sublist.eq_of_length hlength
    rwa [hsame]
  · exact maximumAt_mem h

end

/-! ## Due drops -/

section
variable (env : Env W) (call : Call W) (axis : Axis)

/-- The drop is due: the deadline has passed with the gate open and the baseline of the window above the retained low,
some support is not refuted, no reading is of a newer window, none rises, and no present supporter retracts. -/
structure Due (p : PendingDrop W) (b : AxisProjection) (r : RetainedLow W) : Prop where
  baseline : projectionAxis call.db axis = some b
  key : p.canonicalKey = b.canonicalKey
  retained : p.retained = some r
  below : r.percent < b.percent
  supported : ∃ o ∈ r.observations, supportIdentity env o ∉ call.refutedSupports axis
  due : p.deadlineAt ≤ call.nowEpoch
  gate : call.dropConsensusAllowed.allows axis = true
  newest : ∀ m ∈ eligible call axis, axisValueKey m.2 ≤ b.canonicalKey
  rises : ∀ m ∈ riseMembers call axis b.canonicalKey, m.2.percent ≤ b.percent
  retracts : ∀ o ∈ r.observations, supportIdentity env o ∉ call.refutedSupports axis →
    ∀ m ∈ members call axis b.canonicalKey, m.1.token = o.token → m.2.percent < b.percent

def lowAfter (b : AxisProjection) (r : RetainedLow W) : ℚ :=
  (((dropMembers call axis b.canonicalKey).map fun m => m.2.percent).min?.filter fun low => low < b.percent).getD r.percent

def UnanimousMaximum (b : AxisProjection) (v : AxisValue) : Prop :=
  (∃ m ∈ dropMembers call axis b.canonicalKey, m.2.percent = v.percent) ∧
    (∀ m ∈ dropMembers call axis b.canonicalKey, m.2.percent ≤ v.percent) ∧
    ∀ m ∈ riseMembers call axis b.canonicalKey, m.2.percent < b.percent

def callScope : Option Scope := call.accountKey.map fun account => (protocolGeneration, account, axis)

def Spent (p : PendingDrop W) (b : AxisProjection) (v : AxisValue) : Prop :=
  p.kernelStage = .suppressed ∧ p.retrySignature = some (buildRetrySignature v b (callScope call axis))

def Publishes (p : PendingDrop W) (b : AxisProjection) (r : RetainedLow W) (d : AxisDecision W) : Prop :=
  ∃ v, axisValueKey v = b.canonicalKey ∧ v.percent < b.percent ∧
    (v.percent = lowAfter call axis b r ∨ UnanimousMaximum call axis b v) ∧
    (d.action = .publishDb ∧ d.candidate = some v ∨ Spent call axis p b v)

end

section
variable {env : Env W} {call : Call W} {axis : Axis} {p : PendingDrop W} {b : AxisProjection} {r : RetainedLow W}

theorem attempt_none {p : PendingDrop W} {v : AxisValue} {scope : Option Scope} (h : pendingKernelAttempt p v b scope = none) :
    p.kernelStage = .suppressed ∧ p.retrySignature = some (buildRetrySignature v b scope) := by
  unfold pendingKernelAttempt at h
  dsimp only at h
  split at h
  · rename_i hstage
    split at h
    · rename_i hsignature
      exact ⟨hstage, hsignature⟩
    · cases h
  · split at h
    · cases h
    · cases h

theorem lowAfter_lt (h : r.percent < b.percent) : lowAfter call axis b r < b.percent := by
  unfold lowAfter
  cases hlow : ((dropMembers call axis b.canonicalKey).map fun m => m.2.percent).min?.filter
      (fun low => low < b.percent) with
  | none => exact h
  | some low => exact (low_spec hlow).1

theorem lowAfter_nil (h : members call axis b.canonicalKey = []) : lowAfter call axis b r = r.percent := by
  rw [lowAfter, dropMembers, h]
  rfl

theorem Due.pruned (h : Due env call axis p b r) :
    ∃ r', pruneRetained env (some p) (call.refutedSupports axis) = some { p with retained := some r' } ∧
      r'.percent = r.percent ∧ r'.canonicalKey = r.canonicalKey ∧ r'.observations ≠ [] ∧
      ∀ o ∈ r'.observations, o ∈ r.observations ∧ supportIdentity env o ∉ call.refutedSupports axis := by
  obtain ⟨hpercent, hkey, -⟩ := unrefuted_spec env (call.refutedSupports axis) r
  refine ⟨unrefuted env (call.refutedSupports axis) r, by rw [pruneRetained, Option.map_some, h.retained]; rfl, hpercent,
    hkey, ?_⟩
  obtain ⟨o, ho, hout⟩ := h.supported
  have hkept : o ∈ r.observations.filter fun o => supportIdentity env o ∉ call.refutedSupports axis :=
    List.mem_filter.2 ⟨ho, decide_eq_true hout⟩
  unfold unrefuted
  dsimp only
  split
  · rename_i hlength
    refine ⟨List.ne_nil_of_mem ho, fun o' ho' => ⟨ho', ?_⟩⟩
    rw [← List.filter_sublist.eq_of_length hlength] at ho'
    exact of_decide_eq_true (List.mem_filter.1 ho').2
  · refine ⟨List.ne_nil_of_mem hkept, fun o' ho' => ?_⟩
    rw [List.mem_filter, decide_eq_true_eq] at ho'
    exact ho'

theorem hold_publishes (h : Due env call axis p b r) (hkey : r.canonicalKey = p.canonicalKey)
    (hnil : members call axis b.canonicalKey = []) {r' : RetainedLow W} (hpercent : r'.percent = r.percent)
    (hkey' : r'.canonicalKey = r.canonicalKey) (hne : r'.observations ≠ []) :
    Publishes call axis p b r (holdPending (some { p with retained := some r' }) (some b) call.nowEpoch
      (callScope call axis) (call.dropConsensusAllowed.allows axis)) := by
  have hevidence : evidence (some r') = some r' := by simp [evidence, Option.filter, hne]
  have hbkey : (some b).filter (fun db => db.canonicalKey = p.canonicalKey) = some b := by
    simp [Option.filter, h.key]
  have habove : ¬ b.percent ≤ r'.percent := by
    rw [hpercent]
    exact not_le.2 h.below
  have hopen : ¬ (call.nowEpoch < p.deadlineAt ∨ call.dropConsensusAllowed.allows axis = false) := by
    rw [h.gate, not_or]
    exact ⟨not_lt.2 h.due, by simp⟩
  have hvkey : axisValueKey (retainedAxisValue r' b) = b.canonicalKey := by
    rw [retainedAxisValue, axisValueKey, Option.getD_some, hkey', hkey, h.key]
  refine ⟨retainedAxisValue r' b, hvkey, ?_, .inl ?_, ?_⟩
  · exact hpercent.trans_lt h.below
  · exact hpercent.trans (lowAfter_nil hnil).symm
  · rw [holdPending]
    simp only [hevidence, hbkey]
    rw [if_neg habove, if_neg hopen]
    cases hattempt : pendingKernelAttempt { p with retained := some r' } (retainedAxisValue r' b) b
        (callScope call axis) with
    | some attempted => exact .inl ⟨rfl, rfl⟩
    | none => exact .inr (attempt_none (p := { p with retained := some r' }) hattempt)

theorem not_retracted {inWindow : List (Member W)} {r' : RetainedLow W}
    (h : ∀ o ∈ r'.observations, ∀ m ∈ inWindow, m.1.token = o.token → m.2.percent < b.percent) :
    supportersRetracted r' inWindow b = false := by
  unfold supportersRetracted
  dsimp only
  rw [Bool.and_eq_false_iff, Bool.not_eq_false', List.isEmpty_iff]
  generalize hlive : ((r'.observations.map SupportingObservation.token).dedup).filterMap
    (Dict.ofList (inWindow.map fun m => (m.1.token, m.2))).get? = live
  cases live with
  | nil => exact .inl rfl
  | cons value live =>
    right
    obtain ⟨token, htoken, hget⟩ := List.mem_filterMap.1 (hlive ▸ List.mem_cons_self .. : value ∈ _)
    obtain ⟨o, ho, htoken⟩ := List.mem_map.1 (List.mem_dedup.1 htoken)
    obtain ⟨m, hm, heq⟩ := List.mem_map.1 (Dict.mem_of_get?_ofList hget)
    obtain ⟨hmtoken, hvalue⟩ := Prod.mk.inj heq
    have hlt : value.percent < b.percent := hvalue ▸ h o ho m hm (hmtoken.trans htoken.symm)
    rw [List.all_cons, decide_eq_false (not_le.2 hlt), Bool.false_and]

theorem no_rise {reduced : AxisValue} (h : Due env call axis p b r)
    (hmem : ∃ m ∈ members call axis b.canonicalKey, m.2.percent = reduced.percent) :
    (eligibleRise reduced (members call axis b.canonicalKey) (call.memberFacts axis) b).filter
      (fun value => value.percent > b.percent) = none := by
  rw [Option.filter_eq_none_iff]
  intro v hv hrise
  rw [decide_eq_true_eq] at hrise
  unfold eligibleRise at hv
  split at hv
  · obtain ⟨maximum, hmax, rfl⟩ := Option.map_eq_some_iff.1 hv
    obtain ⟨m, hm, rfl⟩ := List.mem_map.1 (List.max?_eq_some_iff.1 hmax).1
    exact absurd hrise (not_lt.2 (h.rises m hm))
  · rename_i hall
    cases hv
    rw [Bool.not_eq_true, List.any_eq_false] at hall
    obtain ⟨m, hm, hpercent⟩ := hmem
    have heligible : m ∈ riseMembers call axis b.canonicalKey :=
      List.mem_filter.2 ⟨hm, by simpa using hall m hm⟩
    rw [← hpercent] at hrise
    exact absurd hrise (not_lt.2 (h.rises m heligible))

variable [DecidableEq W]

theorem armed_publishes {dropReduced : Option AxisValue} (h : Due env call axis p b r)
    (hkey : r.canonicalKey = p.canonicalKey) {r' : RetainedLow W} (hpercent : r'.percent = r.percent)
    (hkey' : r'.canonicalKey = r.canonicalKey)
    (hobs : ∀ o ∈ r'.observations, o ∈ r.observations ∧ supportIdentity env o ∉ call.refutedSupports axis)
    (hdrop : ∀ d, dropReduced = some d → axisValueKey d = b.canonicalKey ∧
      (∀ m ∈ dropMembers call axis b.canonicalKey, m.2.percent ≤ d.percent) ∧
      ∃ m ∈ dropMembers call axis b.canonicalKey, m.2.percent = d.percent) :
    Publishes call axis p b r (reduceArmed env axis b.canonicalKey none dropReduced (members call axis b.canonicalKey)
      (dropMembers call axis b.canonicalKey) (riseMembers call axis b.canonicalKey) b { p with retained := some r' } r'
      call.nowEpoch (callScope call axis) (call.dropConsensusAllowed.allows axis)) := by
  have hstays : ¬ (supportersRetracted r' (members call axis b.canonicalKey) b = true ∨ b.percent ≤ r'.percent) := by
    rw [not_retracted fun o ho m hm htoken => h.retracts o (hobs o ho).1 (hobs o ho).2 m hm htoken, hpercent, not_or]
    exact ⟨Bool.false_ne_true, not_le.2 h.below⟩
  have hopen : ¬ call.dropConsensusAllowed.allows axis = false := by
    rw [h.gate]
    exact nofun
  rw [reduceArmed, if_neg hstays]
  generalize hupdated : updatedPending env axis b.canonicalKey dropReduced (dropMembers call axis b.canonicalKey) b
    { p with retained := some r' } r' = u
  obtain ⟨updated, kept⟩ := u
  have hkept : axisValueKey (retainedAxisValue kept b) = b.canonicalKey ∧ kept.percent = lowAfter call axis b r := by
    unfold updatedPending at hupdated
    dsimp only at hupdated
    cases hupdated
    rw [retainedAxisValue, axisValueKey, Option.getD_some, lowAfter]
    split
    · rename_i low hlow
      rw [hlow]
      exact ⟨rfl, rfl⟩
    · rename_i hlow
      rw [hlow]
      exact ⟨by rw [hkey', hkey, h.key], hpercent⟩
  have hrecord : updated.kernelStage = p.kernelStage ∧ updated.retrySignature = p.retrySignature ∧
      updated.deadlineAt = p.deadlineAt := by
    unfold updatedPending at hupdated
    dsimp only at hupdated
    cases hupdated
    exact ⟨rfl, rfl, rfl⟩
  have hspent : ∀ v, pendingKernelAttempt updated v b (callScope call axis) = none → Spent call axis p b v := by
    intro v hnone
    obtain ⟨hstage, hsignature⟩ := attempt_none hnone
    exact ⟨hrecord.1.symm.trans hstage, hrecord.2.1.symm.trans hsignature⟩
  dsimp only
  rw [if_neg hopen]
  cases hunanimous : unanimous dropReduced (riseMembers call axis b.canonicalKey) b updated with
  | some d =>
    obtain ⟨hd, hagreed⟩ := Option.filter_eq_some_iff.1 hunanimous
    simp only [Bool.and_eq_true, decide_eq_true_eq, Bool.not_eq_true', List.any_eq_false, not_le] at hagreed
    obtain ⟨⟨⟨hlt, hdissent⟩, -⟩, -⟩ := hagreed
    obtain ⟨hdkey, hmax, hmem⟩ := hdrop d hd
    refine ⟨d, hdkey, hlt, .inr ⟨hmem, hmax, hdissent⟩, ?_⟩
    dsimp only
    cases hattempt : pendingKernelAttempt updated d b (callScope call axis) with
    | some attempted => exact .inl ⟨rfl, rfl⟩
    | none => exact .inr (hspent d hattempt)
  | none =>
    have hdue : updated.deadlineAt ≤ call.nowEpoch := hrecord.2.2.trans_le h.due
    refine ⟨retainedAxisValue kept b, hkept.1, ?_, .inl hkept.2, ?_⟩
    · exact hkept.2.trans_lt (lowAfter_lt h.below)
    · dsimp only
      rw [if_pos hdue]
      cases hattempt : pendingKernelAttempt updated (retainedAxisValue kept b) b (callScope call axis) with
      | some attempted => exact .inl ⟨rfl, rfl⟩
      | none => exact .inr (hspent _ hattempt)

theorem due_publishes {control : ControlState W} (hp : control.pendingDrops axis = some p)
    (h : Due env call axis p b r) (hkey : r.canonicalKey = p.canonicalKey) :
    Publishes call axis p b r (decideAxis env call control axis) := by
  obtain ⟨r', hpruned, hpercent, hkey', hne, hobs⟩ := h.pruned
  have hreduce : Publishes call axis p b r (reducePrunedAxis env axis (active call) (some b)
      (some { p with retained := some r' }) (call.tombstones axis) call.nowEpoch (callScope call axis)
      (call.dropConsensusAllowed.allows axis) (axisEvidence call.db axis) (call.memberFacts axis)) := by
    unfold reducePrunedAxis
    cases hreduced : reducedCandidate (active call) axis (call.tombstones axis) (some b) with
    | none =>
      have hnil : members call axis b.canonicalKey = [] := members_nil fun m hm => by
        rw [reducedCandidate_none hreduced] at hm
        cases hm
      exact hold_publishes h hkey hnil hpercent hkey' hne
    | some e =>
      obtain ⟨reduced, inWindow⟩ := e
      obtain ⟨hwindow, -, hle⟩ := reducedCandidate_spec hreduced
      obtain ⟨hnewest, ⟨m, hm, hmkey⟩, hmem⟩ := reducedCandidate_newest hreduced
      have hnot : ¬ axisValueKey reduced > b.canonicalKey := by
        rw [← hmkey]
        exact not_lt.2 (h.newest m hm)
      dsimp only
      rw [if_neg hnot]
      split
      · rename_i holder
        have hnil : members call axis b.canonicalKey = [] :=
          members_nil fun m hm => lt_of_le_of_lt (hnewest m hm) holder
        exact hold_publishes h hkey hnil hpercent hkey' hne
      · rename_i holder
        have hat : axisValueKey reduced = b.canonicalKey := by omega
        rw [hat] at hwindow ⊢
        subst hwindow
        have harmed : armed (some { p with retained := some r' }) b.canonicalKey =
            some ({ p with retained := some r' }, r') := by
          simp [armed, evidence, Option.filter, hne, h.key]
        rw [no_rise h hmem, harmed]
        refine armed_publishes h hkey hpercent hkey' hobs fun d hd => ?_
        obtain ⟨hdkey, hmax⟩ := dropSide_spec hle hd
        exact ⟨hdkey.trans hat, hmax, dropSide_mem hmem hd⟩
  rw [decideAxis, reduceAxis, hp, hpruned, h.baseline]
  split
  · -- an unpublished decision may write its control
    obtain ⟨v, hvkey, hlt, hvalue, hdone⟩ := hreduce
    rename_i hnoop
    refine ⟨v, hvkey, hlt, hvalue, hdone.imp_left fun hpublished => ?_⟩
    exact absurd (hpublished.1.symm.trans hnoop.2.1) (by simp)
  · exact hreduce

end

end Cctally.Statusline
