import Cctally.Statusline

/-!
# What one evaluation does to a pending drop

A record an evaluation leaves is either armed in it or continues the record
carried into it. A value below the baseline of its own window comes from a
carried record: by the agreement of the drop-eligible members, or at expiry.
-/

namespace Cctally.Statusline

variable {W : Type}

section
variable (call : Call W) (axis : Axis) (key : Int)

def members : List (Member W) := membersAt key ((active call).filterMap (eligibleCandidateAxis axis (call.tombstones axis)))

def dropMembers : List (Member W) := dropWindow (call.memberFacts axis) (members call axis key)

def riseMembers : List (Member W) := riseWindow (call.memberFacts axis) (members call axis key)

end

theorem maximumAt_spec {key : Int} {dbAxis : Option AxisProjection} {ms : List (Member W)} {v : AxisValue}
    (h : maximumAt key dbAxis ms = some v) : v.canonicalKey = some key ∧ ∀ m ∈ ms, m.2.percent ≤ v.percent := by
  obtain ⟨maximum, hmax, h⟩ := Option.bind_eq_some_iff.1 h
  obtain ⟨raw, -, h⟩ := Option.bind_eq_some_iff.1 h
  cases h
  refine ⟨rfl, fun m hm => ?_⟩
  exact (List.max?_eq_some_iff.1 hmax).2 _ (List.mem_map_of_mem hm)

theorem reducedCandidate_spec {call : Call W} {axis : Axis} {dbAxis : Option AxisProjection} {reduced : AxisValue}
    {inWindow : List (Member W)}
    (h : reducedCandidate (active call) axis (call.tombstones axis) dbAxis = some (reduced, inWindow)) :
    inWindow = members call axis (axisValueKey reduced) ∧ reduced.canonicalKey = some (axisValueKey reduced) ∧
      ∀ m ∈ inWindow, m.2.percent ≤ reduced.percent := by
  obtain ⟨newestKey, -, h⟩ := Option.bind_eq_some_iff.1 h
  obtain ⟨v, hv, h⟩ := Option.bind_eq_some_iff.1 h
  obtain ⟨hkey, hle⟩ := maximumAt_spec hv
  cases h
  have hnewest : axisValueKey reduced = newestKey := by rw [axisValueKey, hkey, Option.getD_some]
  rw [hnewest]
  exact ⟨rfl, hkey, hle⟩

theorem dropSide_spec {reduced v : AxisValue} {facts : Facts} {inWindow : List (Member W)} {db : AxisProjection}
    (hle : ∀ m ∈ inWindow, m.2.percent ≤ reduced.percent)
    (h : dropSide reduced inWindow (dropWindow facts inWindow) db = some v) :
    axisValueKey v = axisValueKey reduced ∧ ∀ m ∈ dropWindow facts inWindow, m.2.percent ≤ v.percent := by
  unfold dropSide at h
  split at h
  · cases h
    exact ⟨rfl, fun m hm => hle m (List.mem_of_mem_filter hm)⟩
  · obtain ⟨hv, hmax⟩ := maximumAt_spec h
    exact ⟨by rw [axisValueKey, hv, Option.getD_some], hmax⟩

theorem eligibleCandidateAxis_fst {axis : Axis} {tombstone : Option Tombstone} {c : Candidate W} {m : Member W}
    (h : eligibleCandidateAxis axis tombstone c = some m) : m.1 = c := by
  obtain ⟨value, -, h⟩ := Option.bind_eq_some_iff.1 h
  split at h
  · cases h
    rfl
  · cases h
  · split at h
    · cases h
    · cases h
      rfl
  · cases h
    rfl

theorem tokens_filterMap (axis : Axis) (tombstone : Option Tombstone) : ∀ cs : List (Candidate W),
    ((cs.filterMap (eligibleCandidateAxis axis tombstone)).map fun m => m.1.token).Sublist (cs.map Candidate.token)
  | [] => List.Sublist.refl _
  | c :: cs => by
    have ih := tokens_filterMap axis tombstone cs
    cases h : eligibleCandidateAxis axis tombstone c with
    | none =>
      rw [List.filterMap_cons_none h]
      exact ih.cons _
    | some m =>
      rw [List.filterMap_cons_some h, List.map_cons, List.map_cons, eligibleCandidateAxis_fst h]
      exact ih.cons_cons _

theorem nodup_dropMembers {call : Call W} (h : (call.candidates.map Candidate.token).Nodup) (axis : Axis) (key : Int) :
    ((dropMembers call axis key).map fun m => m.1.token).Nodup := by
  have hactive : ((active call).map Candidate.token).Nodup := h.sublist (List.filter_sublist.map _)
  have heligible := hactive.sublist (tokens_filterMap axis (call.tombstones axis) (active call))
  have hsub : (dropMembers call axis key).Sublist
      ((active call).filterMap (eligibleCandidateAxis axis (call.tombstones axis))) :=
    List.filter_sublist.trans List.filter_sublist
  exact heligible.sublist (hsub.map _)

/-! ## Supports -/

section
variable {α β : Type} {f : Dict String α → β → Dict String α}

theorem mem_values_foldl {g : β → α} (h : ∀ d b v, v ∈ (f d b).values → v ∈ d.values ∨ v = g b) :
    ∀ (l : List β) (d : Dict String α) {v : α}, v ∈ (l.foldl f d).values → v ∈ d.values ∨ ∃ b ∈ l, v = g b
  | [], _, _, hv => .inl hv
  | b :: l, d, v, hv => by
    obtain hv | ⟨b', hb', heq⟩ := mem_values_foldl h l _ hv
    · exact (h d b v hv).imp_right fun heq => ⟨b, List.mem_cons_self .., heq⟩
    · exact .inr ⟨b', List.mem_cons_of_mem _ hb', heq⟩

theorem values_foldl_ne (h : ∀ d b, (f d b).values ≠ []) :
    ∀ (l : List β) (d : Dict String α), l ≠ [] → (l.foldl f d).values ≠ []
  | [], _, hne => absurd rfl hne
  | [b], d, _ => h d b
  | b :: b' :: l, d, _ => values_foldl_ne h (b' :: l) (f d b) (List.cons_ne_nil _ _)

theorem values_set_ne (d : Dict String α) (k : String) (v : α) : (d.set k v).values ≠ [] :=
  List.ne_nil_of_mem (Dict.mem_values.2 ⟨k, Dict.get?_set_self d k v⟩)

end

section
variable (env : Env W)

theorem see_cases (axis : Axis) (seen : Dict String (SupportingObservation W)) (m : Member W) :
    see env axis seen m = seen.set (observation env axis m).observationId (observation env axis m) ∨
      (see env axis seen m = seen ∧ seen.values ≠ []) := by
  unfold see
  dsimp only
  split
  · rename_i existing hget
    split
    · exact .inl rfl
    · exact .inr ⟨rfl, List.ne_nil_of_mem (Dict.mem_values.2 ⟨_, hget⟩)⟩
  · exact .inl rfl

theorem offer_cases (merged : Dict String (SupportingObservation W)) (item : SupportingObservation W) :
    offer env merged item = merged.set item.observationId item ∨
      (offer env merged item = merged ∧ merged.values ≠ []) := by
  unfold offer
  split
  · exact .inl rfl
  · rename_i current hget
    split
    · exact .inl rfl
    · exact .inr ⟨rfl, List.ne_nil_of_mem (Dict.mem_values.2 ⟨_, hget⟩)⟩

theorem mem_supportingObservations {ms : List (Member W)} {axis : Axis} {low : ℚ} {o : SupportingObservation W}
    (h : o ∈ supportingObservations env ms axis low) : ∃ m ∈ ms, m.2.percent = low ∧ o = observation env axis m := by
  have hsee : ∀ d m (v : SupportingObservation W), v ∈ (see env axis d m).values → v ∈ d.values ∨ v = observation env axis m := by
    intro d m v hv
    obtain heq | ⟨heq, -⟩ := see_cases env axis d m
    · rw [heq] at hv
      exact (Dict.mem_values_set hv).symm
    · exact .inl (heq ▸ hv)
  rw [supportingObservations, List.mem_insertionSort] at h
  obtain h | ⟨m, hm, ho⟩ := mem_values_foldl hsee _ _ h
  · cases h
  · rw [List.mem_filter, decide_eq_true_eq] at hm
    exact ⟨m, hm.1, hm.2, ho⟩

theorem supportingObservations_ne {ms : List (Member W)} {axis : Axis} {low : ℚ} {m : Member W} (hm : m ∈ ms)
    (hlow : m.2.percent = low) : supportingObservations env ms axis low ≠ [] := by
  have hsee : ∀ d (m : Member W), (see env axis d m).values ≠ [] := by
    intro d m
    obtain heq | ⟨heq, hne⟩ := see_cases env axis d m
    · rw [heq]
      exact values_set_ne _ _ _
    · rwa [heq]
  have hlows : (ms.filter fun m => m.2.percent = low) ≠ [] :=
    List.ne_nil_of_mem (List.mem_filter.2 ⟨hm, decide_eq_true hlow⟩)
  intro hnil
  rw [supportingObservations] at hnil
  exact values_foldl_ne hsee _ Dict.empty hlows (List.perm_nil.1 (hnil ▸ (List.perm_insertionSort _ _).symm))

theorem mem_mergedRetained {previous : Option (RetainedLow W)} {key : Int} {low : ℚ}
    {observations : List (SupportingObservation W)} {o : SupportingObservation W}
    (h : o ∈ (mergedRetained env previous key low observations).observations) :
    (∃ r, previous = some r ∧ r.percent = low ∧ o ∈ r.observations) ∨ o ∈ observations := by
  have hoffer : ∀ d item (v : SupportingObservation W), v ∈ (offer env d item).values → v ∈ d.values ∨ v = item := by
    intro d item v hv
    obtain heq | ⟨heq, -⟩ := offer_cases env d item
    · rw [heq] at hv
      exact (Dict.mem_values_set hv).symm
    · exact .inl (heq ▸ hv)
  rw [mergedRetained] at h
  dsimp only at h
  rw [List.mem_insertionSort] at h
  obtain h | ⟨item, hitem, rfl⟩ := mem_values_foldl hoffer _ _ h
  · cases h
  · obtain hitem | hitem := List.mem_append.1 hitem
    · left
      cases previous with
      | none => cases hitem
      | some r =>
        unfold alreadyRetained at hitem
        dsimp only at hitem
        split at hitem
        · rename_i hsame
          exact ⟨r, rfl, hsame.2, hitem⟩
        · cases hitem
    · exact .inr hitem

theorem mergedRetained_ne {previous : Option (RetainedLow W)} {key : Int} {low : ℚ}
    {observations : List (SupportingObservation W)} (h : observations ≠ []) :
    (mergedRetained env previous key low observations).observations ≠ [] := by
  have hoffer : ∀ d (item : SupportingObservation W), (offer env d item).values ≠ [] := by
    intro d item
    obtain heq | ⟨heq, hne⟩ := offer_cases env d item
    · rw [heq]
      exact values_set_ne _ _ _
    · rwa [heq]
  intro hnil
  rw [mergedRetained] at hnil
  have hitems : alreadyRetained previous key low ++ observations ≠ [] := fun happend =>
    h (List.append_eq_nil_iff.1 happend).2
  exact values_foldl_ne hoffer _ Dict.empty hitems (List.perm_nil.1 (hnil ▸ (List.perm_insertionSort _ _).symm))

end

/-! ## Arming and continuing -/

section
variable (call : Call W) (axis : Axis)

def Reported (key : Int) (o : SupportingObservation W) : Prop :=
  ∃ b, projectionAxis call.db axis = some b ∧ b.canonicalKey = key ∧ o.percent < b.percent ∧
    ∃ m ∈ dropMembers call axis key, m.1.token = o.token ∧ m.1.receivedAt = o.receivedAt ∧ m.2.percent = o.percent

structure Arms (q : PendingDrop W) : Prop where
  below : ∃ b, projectionAxis call.db axis = some b ∧ b.canonicalKey = q.canonicalKey ∧
    ∃ m ∈ dropMembers call axis q.canonicalKey, m.2.percent < b.percent
  firstSeen : q.firstSeenAt = call.nowEpoch
  deadline : q.deadlineAt = call.nowEpoch + pendingDropDeadlineSeconds
  contributors : ∀ token c, q.contributors.get? token = some c → c.satisfied = false ∧
    ∃ m ∈ dropMembers call axis q.canonicalKey, m.1.token = token ∧ m.1.receivedAt = c.baselineReceivedAt
  retained : ∀ r, q.retained = some r → r.canonicalKey = q.canonicalKey ∧
    ∀ o ∈ r.observations, o.percent = r.percent ∧ Reported call axis q.canonicalKey o

def Seen (p : PendingDrop W) (token : String) (c : Contributor) : Prop :=
  ∃ m ∈ dropMembers call axis p.canonicalKey, m.1.token = token ∧
    (c = ⟨m.1.receivedAt, false⟩ ∨ ∃ c₀, p.contributors.get? token = some c₀ ∧
      c.baselineReceivedAt = c₀.baselineReceivedAt ∧
      (c.satisfied = true → c₀.satisfied = true ∨ c₀.baselineReceivedAt < m.1.receivedAt))

structure Continues (p q : PendingDrop W) : Prop where
  key : q.canonicalKey = p.canonicalKey
  firstSeen : q.firstSeenAt = p.firstSeenAt
  deadline : q.deadlineAt = p.deadlineAt
  contributors : ∀ token c, q.contributors.get? token = some c →
    p.contributors.get? token = some c ∨ Seen call axis p token c
  retained : ∀ r, q.retained = some r →
    (r.canonicalKey = p.canonicalKey ∨ ∃ r₀, p.retained = some r₀ ∧ r.canonicalKey = r₀.canonicalKey) ∧
      ∀ o ∈ r.observations, (∃ r₀, p.retained = some r₀ ∧ o ∈ r₀.observations ∧ r₀.percent = r.percent) ∨
        (o.percent = r.percent ∧ Reported call axis p.canonicalKey o)

end

section
variable {call : Call W} {axis : Axis} {p q : PendingDrop W}

theorem Continues.refl (p : PendingDrop W) : Continues call axis p p where
  key := rfl
  firstSeen := rfl
  deadline := rfl
  contributors _ _ h := .inl h
  retained r hr := ⟨.inr ⟨r, hr, rfl⟩, fun _ ho => .inl ⟨r, hr, ho, rfl⟩⟩

theorem attempt_spec {v : AxisValue} {db : AxisProjection} {scope : Option Scope}
    (h : pendingKernelAttempt p v db scope = some q) :
    ∃ stage attempts signature, q = { p with kernelStage := stage, attempts := attempts, retrySignature := signature } := by
  unfold pendingKernelAttempt at h
  dsimp only at h
  split at h
  · split at h
    · cases h
    · cases h
      exact ⟨_, _, _, rfl⟩
  · split at h
    · cases h
      exact ⟨_, _, _, rfl⟩
    · cases h
      exact ⟨_, _, _, rfl⟩

theorem Continues.attempt {q' : PendingDrop W} {v : AxisValue} {db : AxisProjection} {scope : Option Scope}
    (h : Continues call axis p q) (hq : pendingKernelAttempt q v db scope = some q') : Continues call axis p q' := by
  obtain ⟨stage, attempts, signature, rfl⟩ := attempt_spec hq
  exact ⟨h.key, h.firstSeen, h.deadline, h.contributors, h.retained⟩

theorem unrefuted_spec (env : Env W) (refuted : List (String × String)) (r : RetainedLow W) :
    (unrefuted env refuted r).percent = r.percent ∧ (unrefuted env refuted r).canonicalKey = r.canonicalKey ∧
      ∀ o ∈ (unrefuted env refuted r).observations, o ∈ r.observations := by
  unfold unrefuted
  dsimp only
  split
  · exact ⟨rfl, rfl, fun _ ho => ho⟩
  · exact ⟨rfl, rfl, fun _ ho => List.mem_of_mem_filter ho⟩

theorem Continues.of_pruned (env : Env W) (refuted : List (String × String))
    (h : Continues call axis { p with retained := p.retained.map (unrefuted env refuted) } q) :
    Continues call axis p q where
  key := h.key
  firstSeen := h.firstSeen
  deadline := h.deadline
  contributors := h.contributors
  retained r hr := by
    obtain ⟨hkey, hobs⟩ := h.retained r hr
    refine ⟨hkey.imp_right ?_, fun o ho => (hobs o ho).imp_left ?_⟩
    · rintro ⟨r₀, hr₀, heq⟩
      obtain ⟨r₁, hr₁, rfl⟩ := Option.map_eq_some_iff.1 hr₀
      exact ⟨r₁, hr₁, heq.trans (unrefuted_spec env refuted r₁).2.1⟩
    · rintro ⟨r₀, hr₀, hmem, heq⟩
      obtain ⟨r₁, hr₁, rfl⟩ := Option.map_eq_some_iff.1 hr₀
      obtain ⟨hpercent, -, hsub⟩ := unrefuted_spec env refuted r₁
      exact ⟨r₁, hr₁, hsub o hmem, hpercent.symm.trans heq⟩

theorem evidence_spec {retained : Option (RetainedLow W)} {r : RetainedLow W} (h : evidence retained = some r) :
    retained = some r ∧ r.observations ≠ [] := by
  obtain ⟨hr, hne⟩ := Option.filter_eq_some_iff.1 h
  exact ⟨hr, of_decide_eq_true hne⟩

theorem hold_pending {pending : Option (PendingDrop W)} {dbAxis : Option AxisProjection} {now : Int}
    {scope : Option Scope} {allowed : Bool} (h : (holdPending pending dbAxis now scope allowed).pending = some q) :
    ∃ p, pending = some p ∧ Continues call axis p q := by
  unfold holdPending at h
  split at h
  · cases h
  · rename_i p
    refine ⟨p, rfl, ?_⟩
    split at h
    · cases h
    · split at h
      · cases h
        exact .refl _
      · split at h
        · cases h
        · split at h
          · cases h
            exact .refl _
          · dsimp only at h
            split at h
            · rename_i attempted hattempt
              cases h
              exact (Continues.refl p).attempt hattempt
            · cases h

theorem hold_candidate {pending : Option (PendingDrop W)} {dbAxis : Option AxisProjection} {now : Int}
    {scope : Option Scope} {allowed : Bool} {v : AxisValue}
    (h : (holdPending pending dbAxis now scope allowed).candidate = some v) :
    allowed = true ∧ ∃ p db r q, pending = some p ∧ dbAxis = some db ∧ db.canonicalKey = p.canonicalKey ∧
      p.deadlineAt ≤ now ∧ (holdPending pending dbAxis now scope allowed).pending = some q ∧ q.retained = some r ∧
      r.observations ≠ [] ∧ v.percent = r.percent := by
  unfold holdPending at h ⊢
  cases pending with
  | none => cases h
  | some p =>
    dsimp only at h ⊢
    cases hevidence : evidence p.retained with
    | none =>
      rw [hevidence] at h
      cases h
    | some r =>
      obtain ⟨hr, hne⟩ := evidence_spec hevidence
      cases hdb : dbAxis.filter fun db => db.canonicalKey = p.canonicalKey with
      | none =>
        rw [hevidence, hdb] at h
        cases h
      | some db =>
        obtain ⟨hdb', hkey⟩ := Option.filter_eq_some_iff.1 hdb
        rw [hevidence, hdb] at h
        dsimp only at h ⊢
        split at h
        · cases h
        · rename_i hpercent
          split at h
          · cases h
          · rename_i hdue
            rw [not_or, not_lt] at hdue
            split at h
            · rename_i attempted hattempt
              obtain ⟨stage, attempts, signature, rfl⟩ := attempt_spec hattempt
              cases h
              refine ⟨by simpa using hdue.2, p, db, r,
                { p with kernelStage := stage, attempts := attempts, retrySignature := signature }, rfl, hdb',
                of_decide_eq_true hkey, hdue.1, ?_, hr, hne, rfl⟩
              rw [if_neg hpercent, if_neg (not_or.2 ⟨not_lt.2 hdue.1, hdue.2⟩)]
            · cases h

end

section
variable {call : Call W} {axis : Axis} {key : Int} {b : AxisProjection} (env : Env W)

theorem low_spec {ms : List (Member W)} {low : ℚ}
    (h : ((ms.map fun m => m.2.percent).min?).filter (fun low => low < b.percent) = some low) :
    low < b.percent ∧ ∃ m ∈ ms, m.2.percent = low := by
  obtain ⟨hmin, hlt⟩ := Option.filter_eq_some_iff.1 h
  obtain ⟨m, hm, heq⟩ := List.mem_map.1 (List.min?_eq_some_iff.1 hmin).1
  exact ⟨of_decide_eq_true hlt, m, hm, heq⟩

theorem reported_of_supporting {low : ℚ} {o : SupportingObservation W} (hb : projectionAxis call.db axis = some b)
    (hkey : b.canonicalKey = key) (hlow : low < b.percent)
    (ho : o ∈ supportingObservations env (dropMembers call axis key) axis low) :
    o.percent = low ∧ Reported call axis key o := by
  obtain ⟨m, hm, hpercent, rfl⟩ := mem_supportingObservations env ho
  exact ⟨hpercent, b, hb, hkey, hpercent.trans_lt hlow, m, hm, rfl, rfl, rfl⟩

theorem get?_newContributors {ms : List (Member W)} {token : String} {c : Contributor}
    (h : (Dict.ofList (ms.map fun m => (m.1.token, (⟨m.1.receivedAt, false⟩ : Contributor)))).get? token = some c) :
    c.satisfied = false ∧ ∃ m ∈ ms, m.1.token = token ∧ m.1.receivedAt = c.baselineReceivedAt := by
  obtain ⟨m, hm, heq⟩ := List.mem_map.1 (Dict.mem_of_get?_ofList h)
  cases heq
  exact ⟨rfl, m, hm, rfl, rfl⟩

theorem get?_reconcilePending {p : PendingDrop W} {token : String} {c : Contributor} (hkey : p.canonicalKey = key)
    (h : (reconcilePending p (dropMembers call axis key)).contributors.get? token = some c) :
    Seen call axis p token c := by
  rw [reconcilePending] at h
  dsimp only at h
  rw [Dict.get?_mapValues] at h
  obtain ⟨candidate, hget, hc⟩ := Option.map_eq_some_iff.1 h
  obtain ⟨m, hm, heq⟩ := List.mem_map.1 (Dict.mem_of_get?_ofList hget)
  cases heq
  refine ⟨m, hkey ▸ hm, rfl, ?_⟩
  unfold reconciled at hc
  split at hc
  · exact .inl hc.symm
  · rename_i c₀ hold
    subst hc
    refine .inr ⟨c₀, hold, rfl, fun hsat => ?_⟩
    simpa using hsat

theorem mem_reconcilePending {p : PendingDrop W} (htokens : (call.candidates.map Candidate.token).Nodup) {m : Member W}
    (hm : m ∈ dropMembers call axis key) :
    ∃ c, (reconcilePending p (dropMembers call axis key)).contributors.get? m.1.token = some c := by
  have hnodup : (((dropMembers call axis key).map fun m => (m.1.token, m.1)).map Prod.fst).Nodup := by
    rw [List.map_map]
    exact nodup_dropMembers htokens axis key
  have hget : (Dict.ofList ((dropMembers call axis key).map fun m => (m.1.token, m.1))).get? m.1.token = some m.1 := by
    rw [Dict.get?_eq_some, (Dict.perm_ofList hnodup).mem_iff]
    exact List.mem_map_of_mem hm
  refine ⟨reconciled p.contributors m.1, ?_⟩
  rw [reconcilePending]
  dsimp only
  rw [Dict.get?_mapValues, hget, Option.map_some]

theorem updated_spec {p : PendingDrop W} {r : RetainedLow W} (dropReduced : Option AxisValue)
    (hb : projectionAxis call.db axis = some b) (hkey : b.canonicalKey = key) (hp : p.canonicalKey = key)
    (hr : p.retained = some r) (hne : r.observations ≠ []) :
    ∃ updated kept, updatedPending env axis key dropReduced (dropMembers call axis key) b p r = (updated, kept) ∧
      Continues call axis p updated ∧ updated.retained = some kept ∧ kept.observations ≠ [] ∧
      updated.contributors = (reconcilePending p (dropMembers call axis key)).contributors := by
  obtain rfl := hp
  refine ⟨_, _, rfl, ?_, rfl, ?_, rfl⟩
  · refine ⟨rfl, rfl, rfl, fun token c h => .inr (get?_reconcilePending rfl h), fun r' hr' => ?_⟩
    cases hr'
    split
    · rename_i low hlow
      obtain ⟨hlt, -⟩ := low_spec hlow
      refine ⟨.inl rfl, fun o ho => ?_⟩
      obtain ⟨r₀, hr₀, hpercent, hmem⟩ | hsup := mem_mergedRetained env ho
      · cases hr₀
        exact .inl ⟨r, hr, hmem, hpercent⟩
      · exact .inr (reported_of_supporting env hb hkey hlt hsup)
    · exact ⟨.inr ⟨r, hr, rfl⟩, fun o ho => .inl ⟨r, hr, ho, rfl⟩⟩
  · split
    · rename_i low hlow
      obtain ⟨-, m, hm, hpercent⟩ := low_spec hlow
      exact mergedRetained_ne env (supportingObservations_ne env hm hpercent)
    · exact hne

end

/-! ## The decision -/

section
variable (call : Call W) (axis : Axis)

def Agreed (b : AxisProjection) (q : PendingDrop W) : Prop :=
  (∀ m ∈ dropMembers call axis b.canonicalKey, m.2.percent < b.percent) ∧
    (∀ m ∈ riseMembers call axis b.canonicalKey, m.2.percent < b.percent) ∧
    ∀ m ∈ dropMembers call axis b.canonicalKey, ∃ c, q.contributors.get? m.1.token = some c ∧ c.satisfied = true

def Expired (p q : PendingDrop W) (v : AxisValue) : Prop :=
  p.deadlineAt ≤ call.nowEpoch ∧ ∃ r, q.retained = some r ∧ r.observations ≠ [] ∧ v.percent = r.percent

end

section
variable {call : Call W} {axis : Axis} {key : Int} {b : AxisProjection} {q : PendingDrop W} {v : AxisValue} (env : Env W)

theorem armed_spec {pending : Option (PendingDrop W)} {p : PendingDrop W} {r : RetainedLow W}
    (h : armed pending key = some (p, r)) :
    pending = some p ∧ p.retained = some r ∧ r.observations ≠ [] ∧ p.canonicalKey = key := by
  obtain ⟨p', rfl, h⟩ := Option.bind_eq_some_iff.1 h
  obtain ⟨r', hr', h⟩ := Option.bind_eq_some_iff.1 h
  obtain ⟨hr, hne⟩ := evidence_spec hr'
  split at h
  · rename_i hkey
    cases h
    exact ⟨rfl, hr, hne, hkey⟩
  · cases h

theorem absent_pending {reduced : AxisValue} {inWindow : List (Member W)} {pending : Option (PendingDrop W)}
    {now : Int} {scope : Option Scope} {allowed : Bool} {ev : AxisEvidence} {facts : Facts}
    (h : (reduceAbsent axis reduced inWindow pending now scope allowed ev facts).pending = some q) :
    ∃ p, pending = some p ∧ Continues call axis p q := by
  have hkept : ∀ {keep : PendingDrop W → Bool}, pending.filter keep = some q → ∃ p, pending = some p ∧ Continues call axis p q :=
    fun hq => ⟨q, (Option.filter_eq_some_iff.1 hq).1, .refl q⟩
  unfold reduceAbsent at h
  dsimp only at h
  split at h
  · exact hkept h
  · exact hold_pending h
  · exact ⟨q, h, .refl q⟩
  · split at h
    · exact hold_pending h
    · exact hkept h

theorem unarmed_pending {reduced : AxisValue} {inWindow : List (Member W)} {rise : Option AxisValue}
    {pending : Option (PendingDrop W)} (hb : projectionAxis call.db axis = some b) (hkey : b.canonicalKey = key)
    (hreduced : axisValueKey reduced = key) (hwindow : inWindow = members call axis key)
    (hle : ∀ m ∈ inWindow, m.2.percent ≤ reduced.percent)
    (h : (reduceUnarmed env axis key rise (dropSide reduced inWindow (dropWindow (call.memberFacts axis) inWindow) b)
      (dropWindow (call.memberFacts axis) inWindow) b pending call.nowEpoch).pending = some q) : Arms call axis q := by
  subst hwindow
  unfold reduceUnarmed at h
  split at h
  · cases h
  · split at h
    · cases h
    · rename_i low hlow
      obtain ⟨hlt, m, hm, hpercent⟩ := low_spec hlow
      obtain ⟨d, hd, rfl⟩ := Option.map_eq_some_iff.1 h
      have hqkey : axisValueKey d = key := (dropSide_spec hle hd).1.trans hreduced
      subst hqkey
      refine ⟨⟨b, hb, hkey, m, hm, hpercent.trans_lt hlt⟩, rfl, rfl, fun token c hc => get?_newContributors hc,
        fun r hr => ?_⟩
      cases hr
      refine ⟨rfl, fun o ho => ?_⟩
      obtain ⟨r₀, hnone, -⟩ | hsup := mem_mergedRetained env ho
      · cases hnone
      · exact reported_of_supporting env hb hkey hlt hsup

variable [DecidableEq W]

theorem armed_pending {rise dropReduced : Option AxisValue} {inWindow ms : List (Member W)} {p : PendingDrop W}
    {r : RetainedLow W} {scope : Option Scope} {allowed : Bool} (hb : projectionAxis call.db axis = some b)
    (hkey : b.canonicalKey = key) (hp : p.canonicalKey = key) (hr : p.retained = some r) (hne : r.observations ≠ [])
    (h : (reduceArmed env axis key rise dropReduced inWindow (dropMembers call axis key) ms b p r call.nowEpoch scope
      allowed).pending = some q) : Continues call axis p q := by
  obtain ⟨updated, kept, heq, hcont, -⟩ := updated_spec env dropReduced hb hkey hp hr hne
  unfold reduceArmed at h
  rw [heq] at h
  dsimp only at h
  split at h
  · cases h
  · split at h
    · cases h
      exact hcont
    · split at h
      · cases h
        exact hcont
      · split at h
        · split at h
          · rename_i attempted hattempt
            cases h
            exact hcont.attempt hattempt
          · cases h
            exact hcont
        · split at h
          · split at h
            · rename_i attempted hattempt
              cases h
              exact hcont.attempt hattempt
            · cases h
          · cases h
            exact hcont

theorem armed_candidate {rise dropReduced : Option AxisValue} {inWindow : List (Member W)} {p : PendingDrop W}
    {r : RetainedLow W} {scope : Option Scope} {allowed : Bool} (htokens : (call.candidates.map Candidate.token).Nodup)
    (hb : projectionAxis call.db axis = some b) (hp : p.canonicalKey = b.canonicalKey) (hr : p.retained = some r)
    (hne : r.observations ≠ [])
    (hdrop : ∀ d, dropReduced = some d → ∀ m ∈ dropMembers call axis b.canonicalKey, m.2.percent ≤ d.percent)
    {decided : AxisDecision W}
    (hdecided : reduceArmed env axis b.canonicalKey rise dropReduced inWindow (dropMembers call axis b.canonicalKey)
      (riseMembers call axis b.canonicalKey) b p r call.nowEpoch scope allowed = decided)
    (h : decided.candidate = some v) : rise = some v ∨
      (allowed = true ∧ ∃ q, decided.pending = some q ∧ Continues call axis p q ∧
        (Agreed call axis b q ∨ Expired call p q v)) := by
  obtain ⟨updated, kept, heq, hcont, hkept, hkeptne, hcontributors⟩ :=
    updated_spec env dropReduced hb rfl hp hr hne
  unfold reduceArmed at hdecided
  rw [heq] at hdecided
  dsimp only at hdecided
  split at hdecided
  · subst hdecided
    exact .inl h
  · split at hdecided
    · subst hdecided
      exact .inl h
    · split at hdecided
      · subst hdecided
        cases h
      · rename_i hallowed
        split at hdecided
        · rename_i d hunanimous
          obtain ⟨hd, hagreed⟩ := Option.filter_eq_some_iff.1 hunanimous
          simp only [Bool.and_eq_true, decide_eq_true_eq, Bool.not_eq_true', List.any_eq_false, not_le,
            List.all_eq_true] at hagreed
          obtain ⟨⟨⟨hlt, hdissent⟩, -⟩, hsatisfied⟩ := hagreed
          split at hdecided
          · rename_i attempted hattempt
            subst hdecided
            obtain ⟨stage, attempts, signature, rfl⟩ := attempt_spec hattempt
            refine .inr ⟨by simpa using hallowed, _, rfl, hcont.attempt hattempt,
              .inl ⟨fun m hm => (hdrop d hd m hm).trans_lt hlt, hdissent, fun m hm => ?_⟩⟩
            obtain ⟨c, hc⟩ := mem_reconcilePending (p := p) htokens hm
            rw [← hcontributors] at hc
            exact ⟨c, hc, hsatisfied c (Dict.mem_values.2 ⟨_, hc⟩)⟩
          · subst hdecided
            cases h
        · split at hdecided
          · rename_i hdue
            split at hdecided
            · rename_i attempted hattempt
              subst hdecided
              obtain ⟨stage, attempts, signature, rfl⟩ := attempt_spec hattempt
              cases h
              rw [hcont.deadline] at hdue
              exact .inr ⟨by simpa using hallowed, _, rfl, hcont.attempt hattempt,
                .inr ⟨hdue, kept, hkept, hkeptne, rfl⟩⟩
            · subst hdecided
              cases h
          · subst hdecided
            cases h

theorem decideAxis_pending {control : ControlState W} (h : (decideAxis env call control axis).pending = some q) :
    Arms call axis q ∨ ∃ p, control.pendingDrops axis = some p ∧ Continues call axis p q := by
  rw [decideAxis, reduceAxis] at h
  have hpruned : ∀ {p'}, pruneRetained env (control.pendingDrops axis) (call.refutedSupports axis) = some p' →
      Continues call axis p' q → ∃ p, control.pendingDrops axis = some p ∧ Continues call axis p q := by
    intro p' hp' hcont
    obtain ⟨p, hp, rfl⟩ := Option.map_eq_some_iff.1 hp'
    exact ⟨p, hp, hcont.of_pruned env _⟩
  generalize hpending : pruneRetained env (control.pendingDrops axis) (call.refutedSupports axis) = pending at h hpruned
  replace h : (reducePrunedAxis env axis (active call) (projectionAxis call.db axis) pending (call.tombstones axis)
      call.nowEpoch (call.accountKey.map fun account => (protocolGeneration, account, axis))
      (call.dropConsensusAllowed.allows axis) (axisEvidence call.db axis) (call.memberFacts axis)).pending = some q := by
    split at h
    · exact h
    · exact h
  unfold reducePrunedAxis at h
  split at h
  · obtain ⟨p', hp', hcont⟩ := hold_pending h
    exact .inr (hpruned hp' hcont)
  · rename_i reduced inWindow hreduced
    obtain ⟨hwindow, -, hle⟩ := reducedCandidate_spec hreduced
    split at h
    · obtain ⟨p', hp', hcont⟩ := absent_pending h
      exact .inr (hpruned hp' hcont)
    · rename_i db hdb
      dsimp only at h
      split at h
      · cases h
      · rename_i hnewer
        split at h
        · obtain ⟨p', hp', hcont⟩ := hold_pending h
          exact .inr (hpruned hp' hcont)
        · rename_i holder
          have hkey : db.canonicalKey = axisValueKey reduced := by omega
          split at h
          · exact .inl (unarmed_pending env hdb hkey rfl hwindow hle h)
          · rename_i p r harmed
            obtain ⟨hp', hr, hne, hpkey⟩ := armed_spec harmed
            subst hwindow
            exact .inr (hpruned hp' (armed_pending env hdb hkey hpkey hr hne h))

theorem decideAxis_candidate {control : ControlState W} (htokens : (call.candidates.map Candidate.token).Nodup)
    (hb : projectionAxis call.db axis = some b) (h : (decideAxis env call control axis).candidate = some v)
    (hkey : axisValueKey v = b.canonicalKey) (hlt : v.percent < b.percent) :
    call.dropConsensusAllowed.allows axis = true ∧ ∃ p, control.pendingDrops axis = some p ∧
      p.canonicalKey = b.canonicalKey ∧ ∃ q, (decideAxis env call control axis).pending = some q ∧
        Continues call axis p q ∧ (Agreed call axis b q ∨ Expired call p q v) := by
  generalize hdecision : decideAxis env call control axis = decision at h ⊢
  rw [decideAxis, reduceAxis] at hdecision
  have hpruned : ∀ {p'}, pruneRetained env (control.pendingDrops axis) (call.refutedSupports axis) = some p' →
      ∃ p, control.pendingDrops axis = some p ∧ p.canonicalKey = p'.canonicalKey ∧ p.deadlineAt = p'.deadlineAt ∧
        ∀ q, Continues call axis p' q → Continues call axis p q := by
    intro p' hp'
    obtain ⟨p, hp, rfl⟩ := Option.map_eq_some_iff.1 hp'
    exact ⟨p, hp, rfl, rfl, fun q hcont => hcont.of_pruned env _⟩
  generalize pruneRetained env (control.pendingDrops axis) (call.refutedSupports axis) = pending at hdecision hpruned
  have hsame : ∃ decided, reducePrunedAxis env axis (active call) (projectionAxis call.db axis) pending
      (call.tombstones axis) call.nowEpoch (call.accountKey.map fun account => (protocolGeneration, account, axis))
      (call.dropConsensusAllowed.allows axis) (axisEvidence call.db axis) (call.memberFacts axis) = decided ∧
      decided.candidate = some v ∧ decided.pending = decision.pending := by
    split at hdecision
    · subst hdecision
      exact ⟨_, rfl, h, rfl⟩
    · subst hdecision
      exact ⟨_, rfl, h, rfl⟩
  obtain ⟨decided, hdecided, hcandidate, hpending⟩ := hsame
  rw [← hpending]
  rw [hb] at hdecided
  unfold reducePrunedAxis at hdecided
  have hheld : holdPending pending (some b) call.nowEpoch
      (call.accountKey.map fun account => (protocolGeneration, account, axis)) (call.dropConsensusAllowed.allows axis) =
        decided → call.dropConsensusAllowed.allows axis = true ∧ ∃ p, control.pendingDrops axis = some p ∧
          p.canonicalKey = b.canonicalKey ∧ ∃ q, decided.pending = some q ∧ Continues call axis p q ∧
            (Agreed call axis b q ∨ Expired call p q v) := by
    intro heq
    subst heq
    obtain ⟨hallowed, p', db, r, q, hp', hdb, hdbkey, hdue, hq, hr, hne, hpercent⟩ := hold_candidate hcandidate
    cases hdb
    obtain ⟨p, hp, hpkey, hdeadline, hcont⟩ := hpruned hp'
    have hheld : ∃ p, pending = some p ∧ Continues call axis p q := hold_pending hq
    obtain ⟨p'', hp'', hcont'⟩ := hheld
    rw [hp', Option.some.injEq] at hp''
    subst hp''
    exact ⟨hallowed, p, hp, hpkey.trans hdbkey.symm, q, hq, hcont q hcont',
      .inr ⟨hdeadline ▸ hdue, r, hr, hne, hpercent⟩⟩
  split at hdecided
  · exact hheld hdecided
  · rename_i reduced inWindow hreduced
    obtain ⟨hwindow, -, hle⟩ := reducedCandidate_spec hreduced
    dsimp only at hdecided
    split at hdecided
    · rename_i hnewer
      subst hdecided
      cases hcandidate
      omega
    · rename_i hnewer
      split at hdecided
      · exact hheld hdecided
      · rename_i holder
        have hreducedkey : axisValueKey reduced = b.canonicalKey := by omega
        rw [hreducedkey] at hwindow hdecided
        have hrising : ∀ {rise : Option AxisValue} {w}, (rise.filter fun value => value.percent > b.percent) = some w →
            b.percent < w.percent := fun hrise => of_decide_eq_true (Option.filter_eq_some_iff.1 hrise).2
        split at hdecided
        · unfold reduceUnarmed at hdecided
          split at hdecided
          · rename_i value hrise
            subst hdecided
            cases hcandidate
            exact absurd hlt (hrising hrise).asymm
          · split at hdecided
            · subst hdecided
              cases hcandidate
            · subst hdecided
              cases hcandidate
        · rename_i p' r harmed
          obtain ⟨hp', hr, hne, hpkey⟩ := armed_spec harmed
          subst hwindow
          obtain hrise | ⟨hallowed, q, hq, hcont', hpublished⟩ := armed_candidate env htokens hb hpkey hr hne
            (fun d hd m hm => (dropSide_spec hle hd).2 m hm) hdecided hcandidate
          · exact absurd hlt (hrising hrise).asymm
          · obtain ⟨p, hp, hpkey', hdeadline, hcont⟩ := hpruned hp'
            exact ⟨hallowed, p, hp, hpkey'.trans hpkey, q, hq, hcont q hcont',
              hpublished.imp_right fun ⟨hdue, hretained⟩ => ⟨hdeadline ▸ hdue, hretained⟩⟩

end

end Cctally.Statusline
