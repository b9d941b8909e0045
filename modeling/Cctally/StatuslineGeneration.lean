import Cctally.StatuslineRun

/-!
# One generation of a pending drop

A record that stays keeps its window and its times, the baseline of each contributor
that stays, and its attempts but for the one a publication spends. A new record is
armed only where none of its window is left with support.
-/

namespace Cctally.Statusline

variable {W : Type}

structure Carries (p q : PendingDrop W) : Prop where
  key : q.canonicalKey = p.canonicalKey
  firstSeen : q.firstSeenAt = p.firstSeenAt
  deadline : q.deadlineAt = p.deadlineAt
  contributors : ∀ token c₀ c, p.contributors.get? token = some c₀ → q.contributors.get? token = some c →
    c.baselineReceivedAt = c₀.baselineReceivedAt ∧ (c₀.satisfied = true → c.satisfied = true)

structure Unspent (p q : PendingDrop W) : Prop where
  stage : q.kernelStage = p.kernelStage
  attempts : q.attempts = p.attempts
  signature : q.retrySignature = p.retrySignature

structure Fresh (now : Int) (q : PendingDrop W) : Prop where
  firstSeen : q.firstSeenAt = now
  deadline : q.deadlineAt = now + pendingDropDeadlineSeconds
  stage : q.kernelStage = .settling
  attempts : q.attempts = 0
  signature : q.retrySignature = none
  contributors : ∀ token c, q.contributors.get? token = some c → c.satisfied = false

def NoDrop (dbAxis : Option AxisProjection) (candidate : Option AxisValue) : Prop :=
  ∀ b v, dbAxis = some b → candidate = some v → axisValueKey v = b.canonicalKey → b.percent ≤ v.percent

inductive Outcome (drops : Int → List (Member W)) (dbAxis : Option AxisProjection) (scope : Option Scope) (now : Int)
    (pending : Option (PendingDrop W)) (d : AxisDecision W) : Prop
  | gone (hq : d.pending = none) (hn : NoDrop dbAxis d.candidate)
  | kept {p q : PendingDrop W} (hp : pending = some p) (hq : d.pending = some q) (hc : Carries p q) (hu : Unspent p q)
      (hn : NoDrop dbAxis d.candidate)
  | tried {p p' q : PendingDrop W} {b : AxisProjection} {v : AxisValue} (hp : pending = some p) (hb : dbAxis = some b)
      (hc : Carries p p') (hu : Unspent p p') (ha : pendingKernelAttempt p' v b scope = some q) (hq : d.pending = some q)
      (hv : d.candidate = some v)
  | fresh {q : PendingDrop W} {b : AxisProjection} (hb : dbAxis = some b) (hp : armed pending b.canonicalKey = none)
      (hlow : ∃ m ∈ drops b.canonicalKey, m.2.percent < b.percent) (hq : d.pending = some q) (hf : Fresh now q)
      (hn : d.candidate = none)

theorem Carries.refl (p : PendingDrop W) : Carries p p where
  key := rfl
  firstSeen := rfl
  deadline := rfl
  contributors _ c₀ c h₀ h := by
    cases h₀.symm.trans h
    exact ⟨rfl, id⟩

theorem Unspent.refl (p : PendingDrop W) : Unspent p p := ⟨rfl, rfl, rfl⟩

theorem noDrop_none (dbAxis : Option AxisProjection) : NoDrop dbAxis none := fun _ _ _ h => nomatch h

section
variable {drops : Int → List (Member W)} {dbAxis : Option AxisProjection} {scope : Option Scope} {now : Int} {pending : Option (PendingDrop W)}

theorem hold_outcome (allowed : Bool) :
    Outcome drops dbAxis scope now pending (holdPending pending dbAxis now scope allowed) := by
  unfold holdPending
  split
  · exact .gone rfl (noDrop_none _)
  · rename_i p
    split
    · exact .gone rfl (noDrop_none _)
    · rename_i r _
      split
      · exact .kept rfl rfl (.refl p) (.refl p) (noDrop_none _)
      · rename_i db hdb
        split
        · exact .gone rfl (noDrop_none _)
        · split
          · exact .kept rfl rfl (.refl p) (.refl p) (noDrop_none _)
          · dsimp only
            split
            · rename_i attempted hattempt
              exact .tried rfl (Option.filter_eq_some_iff.1 hdb).1 (.refl p) (.refl p) hattempt rfl rfl
            · exact .gone rfl (noDrop_none _)

theorem absent_outcome {axis : Axis} {reduced : AxisValue} {inWindow : List (Member W)} {allowed : Bool}
    {ev : AxisEvidence} {facts : Facts} :
    Outcome drops none scope now pending (reduceAbsent axis reduced inWindow pending now scope allowed ev facts) := by
  have hno : ∀ c, NoDrop none c := fun _ _ _ h => nomatch h
  have hpublish : ∀ (v : AxisValue) (keep : PendingDrop W → Bool),
      Outcome drops none scope now pending ⟨.publishDb, some v, pending.filter keep, false⟩ := by
    intro v keep
    cases hkeep : pending.filter keep with
    | none => exact .gone rfl (hno _)
    | some q => exact .kept (Option.filter_eq_some_iff.1 hkeep).1 rfl (.refl q) (.refl q) (hno _)
  unfold reduceAbsent
  dsimp only
  split
  · exact hpublish _ _
  · exact hold_outcome allowed
  · cases pending with
    | none => exact .gone rfl (hno _)
    | some p => exact .kept rfl rfl (.refl p) (.refl p) (hno _)
  · split
    · exact hold_outcome allowed
    · exact hpublish _ _

variable {axis : Axis} {key : Int} {b : AxisProjection} (env : Env W)

theorem fresh_newPending {reduced : AxisValue} {ms : List (Member W)} {r : RetainedLow W} :
    Fresh now (newPending reduced ms now r) where
  firstSeen := rfl
  deadline := rfl
  stage := rfl
  attempts := rfl
  signature := rfl
  contributors _ _ h := (get?_newContributors h).1

theorem unarmed_outcome {rise dropReduced : Option AxisValue} (hkey : key = b.canonicalKey)
    (hrise : ∀ v, rise = some v → b.percent < v.percent) (hp : armed pending key = none) :
    Outcome drops (some b) scope now pending (reduceUnarmed env axis key rise dropReduced (drops key) b pending now) := by
  subst hkey
  unfold reduceUnarmed
  cases rise with
  | some value =>
    refine .gone rfl fun b' v hb hv _ => ?_
    cases hb
    cases hv
    exact (hrise value rfl).le
  | none =>
    dsimp only
    split
    · exact .gone rfl (noDrop_none _)
    · rename_i low hlow
      obtain ⟨hlt, m, hm, hpercent⟩ := low_spec hlow
      cases dropReduced with
      | none => exact .gone rfl (noDrop_none _)
      | some d => exact .fresh rfl hp ⟨m, hm, hpercent.trans_lt hlt⟩ rfl fresh_newPending rfl

theorem carries_reconcile (p : PendingDrop W) (ms : List (Member W)) (percent : ℚ) (retained : Option (RetainedLow W)) :
    Carries p { reconcilePending p ms with reducedPercent := percent, retained := retained } where
  key := rfl
  firstSeen := rfl
  deadline := rfl
  contributors token c₀ c h₀ h := by
    dsimp only [reconcilePending] at h
    rw [Dict.get?_mapValues] at h
    obtain ⟨candidate, hget, rfl⟩ := Option.map_eq_some_iff.1 h
    obtain ⟨m, -, heq⟩ := List.mem_map.1 (Dict.mem_of_get?_ofList hget)
    cases heq
    rw [reconciled, h₀]
    exact ⟨rfl, fun hsat => by simp [hsat]⟩

variable [DecidableEq W]

theorem armed_outcome {rise dropReduced : Option AxisValue} {inWindow ms ms' : List (Member W)} {p : PendingDrop W}
    {r : RetainedLow W} {allowed : Bool} (hrise : ∀ v, rise = some v → b.percent < v.percent) :
    Outcome drops (some b) scope now (some p)
      (reduceArmed env axis key rise dropReduced inWindow ms ms' b p r now scope allowed) := by
  have hno : NoDrop (some b) rise := by
    intro b' v hb hv _
    cases hb
    exact (hrise v hv).le
  unfold reduceArmed updatedPending
  dsimp only
  have hc := fun percent retained => carries_reconcile p ms percent retained
  split
  · exact .gone rfl hno
  · split
    · exact .kept rfl rfl (hc _ _) ⟨rfl, rfl, rfl⟩ hno
    · split
      · exact .kept rfl rfl (hc _ _) ⟨rfl, rfl, rfl⟩ (noDrop_none _)
      · split
        · split
          · rename_i attempted hattempt
            exact .tried rfl rfl (hc _ _) ⟨rfl, rfl, rfl⟩ hattempt rfl rfl
          · exact .kept rfl rfl (hc _ _) ⟨rfl, rfl, rfl⟩ (noDrop_none _)
        · split
          · split
            · rename_i attempted hattempt
              exact .tried rfl rfl (hc _ _) ⟨rfl, rfl, rfl⟩ hattempt rfl rfl
            · exact .gone rfl (noDrop_none _)
          · exact .kept rfl rfl (hc _ _) ⟨rfl, rfl, rfl⟩ (noDrop_none _)

theorem pruned_outcome {call : Call W} (hdrops : drops = dropMembers call axis) (scope : Option Scope) (allowed : Bool)
    (ev : AxisEvidence) : Outcome drops dbAxis scope now pending (reducePrunedAxis env axis (active call) dbAxis pending
      (call.tombstones axis) now scope allowed ev (call.memberFacts axis)) := by
  unfold reducePrunedAxis
  split
  · exact hold_outcome allowed
  · rename_i reduced inWindow hreduced
    obtain ⟨hwindow, -, hle⟩ := reducedCandidate_spec hreduced
    split
    · exact absent_outcome
    · rename_i db
      dsimp only
      split
      · rename_i hnewer
        refine .gone rfl fun b v hb hv hkey => ?_
        cases hb
        cases hv
        omega
      · rename_i hnewer
        split
        · exact hold_outcome allowed
        · rename_i holder
          have hkey : axisValueKey reduced = db.canonicalKey := by omega
          have hms : dropWindow (call.memberFacts axis) inWindow = drops (axisValueKey reduced) := by
            rw [hdrops, hwindow]
            rfl
          have hrise : ∀ v, (eligibleRise reduced inWindow (call.memberFacts axis) db).filter
              (fun value => value.percent > db.percent) = some v → db.percent < v.percent := by
            intro v hv
            exact of_decide_eq_true (Option.filter_eq_some_iff.1 hv).2
          cases harmed : armed pending (axisValueKey reduced) with
          | none =>
            rw [hms]
            exact unarmed_outcome env hkey hrise harmed
          | some e =>
            obtain ⟨p, r⟩ := e
            obtain ⟨rfl, -⟩ := armed_spec harmed
            exact armed_outcome env hrise

end

/-! ## One call -/

section
variable [DecidableEq W] (env : Env W)

/-- The call arms a drop in the place of the record: the projected baseline is of another window, or the call refutes
all the support of the record, and a drop-eligible member is below the baseline. -/
def Rearms (call : Call W) (axis : Axis) (p : PendingDrop W) : Prop :=
  ∃ b, projectionAxis call.db axis = some b ∧
    (p.canonicalKey = b.canonicalKey → ∀ r, p.retained = some r →
      ∀ o ∈ r.observations, supportIdentity env o ∈ call.refutedSupports axis) ∧
    ∃ m ∈ dropMembers call axis b.canonicalKey, m.2.percent < b.percent

def publishedDrop (call : Call W) (control : ControlState W) (axis : Axis) : Option AxisValue := do
  let b ← projectionAxis call.db axis
  let plan ← (reduceCandidates env call control).plan
  let v ← plan.value axis
  if axisValueKey v = b.canonicalKey ∧ v.percent < b.percent then return v else none

inductive Continued (call : Call W) (control : ControlState W) (axis : Axis) (p q : PendingDrop W) : Prop
  | kept (hc : Carries p q) (hu : Unspent p q) (hn : publishedDrop env call control axis = none)
  | tried {p' : PendingDrop W} {b : AxisProjection} {v : AxisValue} {scope : Option Scope} (hc : Carries p p')
      (hu : Unspent p p') (ha : pendingKernelAttempt p' v b scope = some q)

variable {env} {call : Call W} {control : ControlState W} {axis : Axis} {p q : PendingDrop W}

theorem publishedDrop_spec {v : AxisValue} (h : publishedDrop env call control axis = some v) :
    ∃ b, projectionAxis call.db axis = some b ∧ (decideAxis env call control axis).candidate = some v ∧
      axisValueKey v = b.canonicalKey ∧ v.percent < b.percent := by
  obtain ⟨b, hb, h⟩ := Option.bind_eq_some_iff.1 h
  obtain ⟨plan, hplan, h⟩ := Option.bind_eq_some_iff.1 h
  obtain ⟨w, hw, h⟩ := Option.bind_eq_some_iff.1 h
  rw [plan_value hplan] at hw
  split at h
  · rename_i hdrop
    cases h
    exact ⟨b, hb, hw, hdrop⟩
  · cases h

theorem publishedDrop_none (h : NoDrop (projectionAxis call.db axis) (decideAxis env call control axis).candidate) :
    publishedDrop env call control axis = none := by
  rw [Option.eq_none_iff_forall_not_mem]
  intro v hv
  obtain ⟨b, hb, hv, hkey, hlt⟩ := publishedDrop_spec hv
  exact absurd (h b v hb hv hkey) (not_le.2 hlt)

omit [DecidableEq W] in
theorem refuted_of_unarmed {key : Int} {refuted : List (String × String)}
    (h : armed (pruneRetained env (some p) refuted) key = none) (hkey : p.canonicalKey = key) {r : RetainedLow W}
    (hr : p.retained = some r) : ∀ o ∈ r.observations, supportIdentity env o ∈ refuted := by
  by_contra hsome
  push Not at hsome
  obtain ⟨o, ho, hout⟩ := hsome
  have hne : (unrefuted env refuted r).observations ≠ [] := by
    unfold unrefuted
    dsimp only
    split
    · exact List.ne_nil_of_mem ho
    · exact List.ne_nil_of_mem (List.mem_filter.2 ⟨ho, decide_eq_true hout⟩)
  simp [armed, pruneRetained, hr, evidence, Option.filter, hne, hkey] at h

omit [DecidableEq W] in
theorem Carries.attempt {p' : PendingDrop W} {b : AxisProjection} {v : AxisValue} {scope : Option Scope}
    (h : Carries p p') (ha : pendingKernelAttempt p' v b scope = some q) : Carries p q := by
  obtain ⟨stage, attempts, signature, rfl⟩ := attempt_spec ha
  exact ⟨h.key, h.firstSeen, h.deadline, h.contributors⟩

theorem Continued.carries (h : Continued env call control axis p q) : Carries p q := by
  cases h with
  | kept hc _ _ => exact hc
  | tried hc _ ha => exact hc.attempt ha

theorem decideAxis_outcome (env : Env W) (call : Call W) (control : ControlState W) (axis : Axis) :
    ∃ scope, Outcome (dropMembers call axis) (projectionAxis call.db axis) scope call.nowEpoch
      (pruneRetained env (control.pendingDrops axis) (call.refutedSupports axis)) (decideAxis env call control axis) := by
  refine ⟨call.accountKey.map fun account => (protocolGeneration, account, axis), ?_⟩
  rw [decideAxis, reduceAxis]
  have h : Outcome (dropMembers call axis) (projectionAxis call.db axis)
      (call.accountKey.map fun account => (protocolGeneration, account, axis)) call.nowEpoch
      (pruneRetained env (control.pendingDrops axis) (call.refutedSupports axis))
      (reducePrunedAxis env axis (active call) (projectionAxis call.db axis)
        (pruneRetained env (control.pendingDrops axis) (call.refutedSupports axis)) (call.tombstones axis) call.nowEpoch
        (call.accountKey.map fun account => (protocolGeneration, account, axis)) (call.dropConsensusAllowed.allows axis)
        (axisEvidence call.db axis) (call.memberFacts axis)) := pruned_outcome env rfl _ _ _
  split
  · -- the control is written, and the decision is otherwise the same
    cases h with
    | gone hq hn => exact .gone hq hn
    | kept hp hq hc hu hn => exact .kept hp hq hc hu hn
    | tried hp hb hc hu ha hq hv => exact .tried hp hb hc hu ha hq hv
    | fresh hb hp hlow hq hf hn => exact .fresh hb hp hlow hq hf hn
  · exact h

theorem decideAxis_continued (hp : control.pendingDrops axis = some p)
    (hq : (decideAxis env call control axis).pending = some q) (hno : ¬ Rearms env call axis p) :
    Continued env call control axis p q := by
  obtain ⟨scope, h⟩ := decideAxis_outcome env call control axis
  rw [hp] at h
  cases h with
  | gone hq' _ =>
    rw [hq'] at hq
    cases hq
  | kept hp' hq' hc hu hn =>
    cases hp'
    cases hq'.symm.trans hq
    exact .kept ⟨hc.key, hc.firstSeen, hc.deadline, hc.contributors⟩ ⟨hu.stage, hu.attempts, hu.signature⟩
      (publishedDrop_none hn)
  | tried hp' hb hc hu ha hq' hv =>
    cases hp'
    cases hq'.symm.trans hq
    exact .tried ⟨hc.key, hc.firstSeen, hc.deadline, hc.contributors⟩ ⟨hu.stage, hu.attempts, hu.signature⟩ ha
  | fresh hb hunarmed hlow hq' hf hn =>
    exact absurd ⟨_, hb, fun hkey r hr => refuted_of_unarmed hunarmed hkey hr, hlow⟩ hno

/-! ## Attempts -/

def KernelStage.spent : KernelStage → Nat
  | .settling => 0
  | .ready | .zeroArmed => 1
  | .suppressed => 2

structure Staged (p : PendingDrop W) : Prop where
  attempts : p.attempts = p.kernelStage.spent
  settling : p.kernelStage = .settling → p.retrySignature = none

omit [DecidableEq W] in
theorem Staged.le_two (h : Staged p) : p.attempts ≤ 2 := by
  rw [h.attempts]
  cases p.kernelStage <;> simp [KernelStage.spent]

omit [DecidableEq W] in
theorem Staged.of_unspent (h : Staged p) (hu : Unspent p q) : Staged q where
  attempts := by rw [hu.attempts, hu.stage, h.attempts]
  settling := by rw [hu.stage, hu.signature]; exact h.settling

omit [DecidableEq W] in
theorem Staged.attempt {b : AxisProjection} {v : AxisValue} {scope : Option Scope} (h : Staged p)
    (ha : pendingKernelAttempt p v b scope = some q) :
    Staged q ∧ 0 < q.attempts ∧ (p.retrySignature = q.retrySignature → q.attempts = p.attempts + 1) := by
  have hstage : (if v.percent = 0 then KernelStage.zeroArmed else .ready).spent = 1 := by
    split
    · rfl
    · rfl
  have hsettled : (if v.percent = 0 then KernelStage.zeroArmed else .ready) ≠ .settling := by
    split
    · exact nofun
    · exact nofun
  unfold pendingKernelAttempt at ha
  dsimp only at ha
  split at ha
  · split at ha
    · cases ha
    · rename_i hsignature
      cases ha
      exact ⟨⟨hstage.symm, fun hs => absurd hs hsettled⟩, Nat.one_pos, fun heq => absurd heq hsignature⟩
  · rename_i hsuppressed
    split at ha
    · rename_i hfirst
      cases ha
      refine ⟨⟨hstage.symm, fun hs => absurd hs hsettled⟩, Nat.one_pos, fun heq => ?_⟩
      obtain hs | hne := hfirst
      · rw [h.settling hs] at heq
        cases heq
      · exact absurd heq hne
    · rename_i hagain
      cases ha
      refine ⟨⟨rfl, nofun⟩, Nat.two_pos, fun _ => ?_⟩
      have hone : p.kernelStage.spent = 1 := by
        cases hs : p.kernelStage with
        | settling => exact absurd (.inl hs) hagain
        | ready => rfl
        | zeroArmed => rfl
        | suppressed => exact absurd hs hsuppressed
      rw [h.attempts, hone]

theorem decideAxis_staged (hp : ∀ p, control.pendingDrops axis = some p → Staged p)
    (hq : (decideAxis env call control axis).pending = some q) : Staged q := by
  have hpruned : ∀ p', pruneRetained env (control.pendingDrops axis) (call.refutedSupports axis) = some p' → Staged p' := by
    intro p' hp'
    obtain ⟨p, hpending, rfl⟩ := Option.map_eq_some_iff.1 hp'
    exact ⟨(hp p hpending).attempts, (hp p hpending).settling⟩
  obtain ⟨scope, h⟩ := decideAxis_outcome env call control axis
  cases h with
  | gone hq' _ =>
    rw [hq'] at hq
    cases hq
  | kept hp' hq' _ hu _ =>
    cases hq'.symm.trans hq
    exact (hpruned _ hp').of_unspent hu
  | tried hp' _ _ hu ha hq' _ =>
    cases hq'.symm.trans hq
    exact (((hpruned _ hp').of_unspent hu).attempt ha).1
  | fresh _ _ _ hq' hf _ =>
    cases hq'.symm.trans hq
    exact ⟨by rw [hf.attempts, hf.stage]; rfl, fun _ => hf.signature⟩

theorem staged_of_pending {initial : ControlState W} (hinitial : ∀ axis, initial.pendingDrops axis = none)
    (calls : List (Call W)) (h : pendingAfter env initial calls axis = some p) : Staged p := by
  induction calls using List.reverseRecOn generalizing p with
  | nil =>
    rw [pendingAfter, controlAfter, List.foldl_nil, hinitial] at h
    cases h
  | append_singleton calls call ih =>
    rw [pendingAfter_snoc] at h
    exact decideAxis_staged (fun _ => ih) h

theorem Continued.spends (h : Continued env call control axis p q) (hp : Staged p)
    (hsignature : p.retrySignature = q.retrySignature) :
    p.attempts + (publishedDrop env call control axis).toList.length ≤ q.attempts := by
  cases h with
  | kept hc hu hn =>
    rw [hn, hu.attempts]
    exact Nat.le_refl _
  | tried hc hu ha =>
    rw [((hp.of_unspent hu).attempt ha).2.2 (hu.signature.trans hsignature), hu.attempts]
    exact Nat.add_le_add_left Option.length_toList_le _

theorem Continued.first (h : Continued env call control axis p q) (hp : Staged p) :
    (publishedDrop env call control axis).toList.length ≤ q.attempts := by
  cases h with
  | kept hc hu hn =>
    rw [hn]
    exact Nat.zero_le _
  | tried hc hu ha => exact Option.length_toList_le.trans ((hp.of_unspent hu).attempt ha).2.1

end

end Cctally.Statusline
