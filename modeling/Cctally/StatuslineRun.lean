import Cctally.StatuslineDrop

/-!
# Runs of evaluations

A pending drop is followed from the evaluation that armed it: the contributors
it took in and received again, and the observations it retains, are those of
the evaluations since.
-/

namespace Cctally.Statusline

variable {W : Type} [DecidableEq W] (env : Env W)

section
variable (initial : ControlState W)

def controlAfter (calls : List (Call W)) : ControlState W :=
  calls.foldl (fun control call => (reduceCandidates env call control).control) initial

def pendingAfter (calls : List (Call W)) (axis : Axis) : Option (PendingDrop W) :=
  (controlAfter env initial calls).pendingDrops axis

def Held (axis : Axis) (start rest : List (Call W)) (P : PendingDrop W → Prop) : Prop :=
  ∀ mid tail, rest = mid ++ tail → ∃ q, pendingAfter env initial (start ++ mid) axis = some q ∧ P q

/-- A call since the arming saw the token among the drop-eligible members, at the receipt time the record has held for
it ever since. -/
def TakenIn (axis : Axis) (key : Int) (armed : Nat) (run : List (Call W)) (token : String) (received : Int)
    (since : List (Call W)) : Prop :=
  ∃ before call, run = before ++ call :: since ∧ armed ≤ before.length ∧
    (∃ m ∈ dropMembers call axis key, m.1.token = token ∧ m.1.receivedAt = received) ∧
    Held env initial axis (before ++ [call]) since fun q =>
      ∃ c, q.contributors.get? token = some c ∧ c.baselineReceivedAt = received

def ReceivedIn (axis : Axis) (key : Int) (calls : List (Call W)) (token : String) (received : Int) : Prop :=
  ∃ call ∈ calls, ∃ m ∈ dropMembers call axis key, m.1.token = token ∧ received < m.1.receivedAt

structure History (axis : Axis) (before : List (Call W)) (arming : Call W) (rest : List (Call W)) (q : PendingDrop W) :
    Prop where
  below : ∃ b, projectionAxis arming.db axis = some b ∧ b.canonicalKey = q.canonicalKey ∧
    ∃ m ∈ dropMembers arming axis q.canonicalKey, m.2.percent < b.percent
  firstSeen : q.firstSeenAt = arming.nowEpoch
  deadline : q.deadlineAt = arming.nowEpoch + pendingDropDeadlineSeconds
  held : Held env initial axis (before ++ [arming]) rest fun p =>
    p.canonicalKey = q.canonicalKey ∧ p.firstSeenAt = q.firstSeenAt ∧ p.deadlineAt = q.deadlineAt
  contributors : ∀ token c, q.contributors.get? token = some c → ∃ since,
    TakenIn env initial axis q.canonicalKey before.length (before ++ arming :: rest) token c.baselineReceivedAt since ∧
      (c.satisfied = true → ReceivedIn axis q.canonicalKey since token c.baselineReceivedAt)
  retained : ∀ r, q.retained = some r → r.canonicalKey = q.canonicalKey ∧ ∀ o ∈ r.observations,
    o.percent = r.percent ∧ ∃ call ∈ arming :: rest, Reported call axis q.canonicalKey o

variable {env initial}

theorem pendingAfter_snoc (calls : List (Call W)) (call : Call W) (axis : Axis) :
    pendingAfter env initial (calls ++ [call]) axis =
      (decideAxis env call (controlAfter env initial calls) axis).pending := by
  rw [pendingAfter, controlAfter, List.foldl_append]
  change (reduceCandidates env call (controlAfter env initial calls)).control.pendingDrops axis = _
  rw [reduceCandidates]
  split
  · rfl
  · split
    · rfl
    · rfl

theorem Held.snoc {axis : Axis} {start rest : List (Call W)} {P : PendingDrop W → Prop} {call : Call W}
    {q : PendingDrop W} (h : Held env initial axis start rest P)
    (hq : pendingAfter env initial (start ++ rest ++ [call]) axis = some q) (hP : P q) :
    Held env initial axis start (rest ++ [call]) P := by
  intro mid tail heq
  obtain ⟨tail', rfl⟩ | rfl : (∃ tail', tail = tail' ++ [call]) ∨ tail = [] := by
    induction tail using List.reverseRecOn with
    | nil => exact .inr rfl
    | append_singleton tail c _ =>
      rw [← List.append_assoc] at heq
      have hc : [call] = [c] := (List.append_inj' heq rfl).2
      exact .inl ⟨tail, by rw [hc]⟩
  · rw [← List.append_assoc] at heq
    exact h mid tail' (List.append_inj' heq rfl).1
  · rw [List.append_nil] at heq
    rw [← heq, ← List.append_assoc]
    exact ⟨q, hq, hP⟩

theorem Held.start {axis : Axis} {start : List (Call W)} {P : PendingDrop W → Prop} {q : PendingDrop W}
    (hq : pendingAfter env initial start axis = some q) (hP : P q) : Held env initial axis start [] P := by
  intro mid tail heq
  obtain ⟨rfl, -⟩ := List.append_eq_nil_iff.1 heq.symm
  rw [List.append_nil]
  exact ⟨q, hq, hP⟩

theorem history_arms {axis : Axis} {calls : List (Call W)} {call : Call W} {q : PendingDrop W}
    (hq : pendingAfter env initial (calls ++ [call]) axis = some q) (h : Arms call axis q) :
    History env initial axis calls call [] q where
  below := h.below
  firstSeen := h.firstSeen
  deadline := h.deadline
  held := .start hq ⟨rfl, rfl, rfl⟩
  contributors token c hc := by
    obtain ⟨hsat, hm⟩ := h.contributors token c hc
    refine ⟨[], ⟨calls, call, rfl, le_rfl, hm, .start hq ⟨c, hc, rfl⟩⟩, fun htrue => ?_⟩
    rw [hsat] at htrue
    cases htrue
  retained r hr := by
    obtain ⟨hkey, hobs⟩ := h.retained r hr
    exact ⟨hkey, fun o ho => ⟨(hobs o ho).1, call, List.mem_cons_self .., (hobs o ho).2⟩⟩

theorem History.continues {axis : Axis} {before rest : List (Call W)} {arming call : Call W} {p q : PendingDrop W}
    (h : History env initial axis before arming rest p)
    (hq : pendingAfter env initial (before ++ arming :: rest ++ [call]) axis = some q)
    (hcont : Continues call axis p q) : History env initial axis before arming (rest ++ [call]) q where
  below := hcont.key ▸ h.below
  firstSeen := hcont.firstSeen.trans h.firstSeen
  deadline := hcont.deadline.trans h.deadline
  held := by
    rw [hcont.key, hcont.firstSeen, hcont.deadline]
    refine h.held.snoc (q := q) ?_ ⟨hcont.key, hcont.firstSeen, hcont.deadline⟩
    rw [List.append_assoc before, List.singleton_append]
    exact hq
  contributors token c hc := by
    -- a contributor carried into the call, whatever its state after it
    have hcarried : ∀ c₀, p.contributors.get? token = some c₀ → c.baselineReceivedAt = c₀.baselineReceivedAt →
        ∃ since, TakenIn env initial axis p.canonicalKey before.length (before ++ arming :: rest ++ [call]) token
          c.baselineReceivedAt (since ++ [call]) ∧
          (c₀.satisfied = true → ReceivedIn axis p.canonicalKey since token c.baselineReceivedAt) := by
      intro c₀ hc₀ hbaseline
      obtain ⟨since, ⟨start, taking, heq, hlen, hm, hheld⟩, hreceived⟩ := h.contributors token c₀ hc₀
      rw [← hbaseline] at hm hheld hreceived
      refine ⟨since, ⟨start, taking, by rw [heq, List.append_assoc, List.cons_append], hlen, hm,
        hheld.snoc (q := q) ?_ ⟨c, hc, rfl⟩⟩, hreceived⟩
      rw [List.append_assoc start, List.singleton_append, ← heq]
      exact hq
    rw [hcont.key, ← List.cons_append, ← List.append_assoc]
    obtain hold | ⟨m, hm, htoken, rfl | ⟨c₀, hc₀, hbaseline, hsat⟩⟩ := hcont.contributors token c hc
    · obtain ⟨since, htaken, hreceived⟩ := hcarried c hold rfl
      refine ⟨since ++ [call], htaken, fun htrue => ?_⟩
      obtain ⟨later, hlater, hm⟩ := hreceived htrue
      exact ⟨later, List.mem_append_left _ hlater, hm⟩
    · refine ⟨[], ⟨before ++ arming :: rest, call, rfl, ?_, ⟨m, hm, htoken, rfl⟩, .start hq ⟨_, hc, rfl⟩⟩, nofun⟩
      rw [List.length_append]
      exact Nat.le_add_right _ _
    · obtain ⟨since, htaken, hreceived⟩ := hcarried c₀ hc₀ hbaseline
      refine ⟨since ++ [call], htaken, fun htrue => ?_⟩
      obtain hsat | hlt := hsat htrue
      · obtain ⟨later, hlater, hm⟩ := hreceived hsat
        exact ⟨later, List.mem_append_left _ hlater, hm⟩
      · exact ⟨call, List.mem_append_right _ (List.mem_singleton_self _), m, hm, htoken, hbaseline ▸ hlt⟩
  retained r hr := by
    obtain ⟨hkey, hobs⟩ := hcont.retained r hr
    rw [hcont.key]
    refine ⟨?_, fun o ho => ?_⟩
    · obtain hkey | ⟨r₀, hr₀, hkey⟩ := hkey
      · exact hkey
      · exact hkey.trans (h.retained r₀ hr₀).1
    · obtain ⟨r₀, hr₀, hmem, hpercent⟩ | ⟨hpercent, hreported⟩ := hobs o ho
      · obtain ⟨hpercent₀, reporter, hreporter, hreported⟩ := (h.retained r₀ hr₀).2 o hmem
        exact ⟨hpercent₀.trans hpercent, reporter, List.mem_append_left _ hreporter, hreported⟩
      · exact ⟨hpercent, call, List.mem_append_right (arming :: rest) (List.mem_singleton_self _), hreported⟩

theorem history_of_pending (hinitial : ∀ axis, initial.pendingDrops axis = none) {axis : Axis} (calls : List (Call W))
    {q : PendingDrop W} (h : pendingAfter env initial calls axis = some q) :
    ∃ before arming rest, calls = before ++ arming :: rest ∧ History env initial axis before arming rest q := by
  induction calls using List.reverseRecOn generalizing q with
  | nil =>
    rw [pendingAfter, controlAfter, List.foldl_nil, hinitial] at h
    cases h
  | append_singleton calls call ih =>
    have hdecided := h
    rw [pendingAfter_snoc] at hdecided
    obtain harms | ⟨p, hp, hcont⟩ := decideAxis_pending env hdecided
    · exact ⟨calls, call, [], rfl, history_arms h harms⟩
    · obtain ⟨before, arming, rest, rfl, hhistory⟩ := ih hp
      exact ⟨before, arming, rest ++ [call], by simp, hhistory.continues h hcont⟩

end

/-! ## What is published -/

def PublicationPlan.value (plan : PublicationPlan) : Axis → Option AxisValue
  | .fiveHour => plan.fiveHour
  | .sevenDay => plan.sevenDay

omit [DecidableEq W] in
def FirstSaw (axis : Axis) (key : Int) (calls : List (Call W)) (token : String) (received : Int) : Prop :=
  ∃ before call rest, calls = before ++ call :: rest ∧
    (∀ earlier ∈ before, ∀ m ∈ dropMembers earlier axis key, m.1.token ≠ token) ∧
    ∃ m ∈ dropMembers call axis key, m.1.token = token ∧ m.1.receivedAt = received

def Forward (run : List (Call W)) : Prop :=
  run.Pairwise fun c d => ∀ x ∈ c.candidates, ∀ y ∈ d.candidates, x.token = y.token → x.receivedAt ≤ y.receivedAt

section
variable {env} {initial : ControlState W} {axis : Axis} {key : Int}

theorem plan_value {call : Call W} {control : ControlState W} {plan : PublicationPlan}
    (h : (reduceCandidates env call control).plan = some plan) (axis : Axis) :
    plan.value axis = (decideAxis env call control axis).candidate := by
  rw [reduceCandidates] at h
  split at h
  · cases h
    cases axis
    · rfl
    · rfl
  · split at h
    · cases h
    · cases h

omit [DecidableEq W] in
theorem mem_candidates {call : Call W} {m : Member W} (h : m ∈ dropMembers call axis key) : m.1 ∈ call.candidates := by
  obtain ⟨c, hc, helig⟩ := List.mem_filterMap.1 (List.mem_of_mem_filter (List.mem_of_mem_filter h))
  rw [eligibleCandidateAxis_fst helig]
  exact List.mem_of_mem_filter hc

omit [DecidableEq W] in
theorem candidate_unique {call : Call W} (htokens : (call.candidates.map Candidate.token).Nodup) {x y : Candidate W}
    (hx : x ∈ call.candidates) (hy : y ∈ call.candidates) (h : x.token = y.token) : x = y :=
  List.inj_on_of_nodup_map htokens hx hy h

theorem marks_cases {α : Type} {a b : α} : ∀ {pre post mid since : List α}, pre ++ a :: post = mid ++ b :: since →
    b ∈ pre ∨ a = b ∨ a ∈ mid
  | [], _, [], _, h => .inr (.inl (List.cons.inj h).1)
  | [], _, _ :: _, _, h => .inr (.inr ((List.cons.inj h).1 ▸ List.mem_cons_self ..))
  | _ :: _, _, [], _, h => .inl ((List.cons.inj h).1 ▸ List.mem_cons_self ..)
  | _ :: _, _, _ :: _, _, h =>
    (marks_cases (List.cons.inj h).2).imp (List.mem_cons_of_mem _) (Or.imp_right (List.mem_cons_of_mem _))

theorem first_lt_of_forward {before rest calls : List (Call W)} {arming call : Call W} {m : Member W}
    {received : Int} {since : List (Call W)}
    (hcalls : calls ++ [call] = before ++ arming :: rest) (hforward : Forward (calls ++ [call]))
    (htokens : ∀ c ∈ calls ++ [call], (c.candidates.map Candidate.token).Nodup) (hm : m ∈ dropMembers call axis key)
    (htaken : TakenIn env initial axis key before.length (calls ++ [call]) m.1.token received since)
    (hagain : ReceivedIn axis key since m.1.token received) {first : Int}
    (hfirst : FirstSaw axis key (arming :: rest) m.1.token first) : first < m.1.receivedAt := by
  obtain ⟨start, taking, hrun, hlen, ⟨m₁, hm₁, htoken₁, rfl⟩, -⟩ := htaken
  obtain ⟨later, hlater, m₂, hm₂, htoken₂, hlt⟩ := hagain
  have hsub : later ∈ calls ++ [call] := by
    rw [hrun]
    exact List.mem_append_right _ (List.mem_cons_of_mem _ hlater)
  -- the later receipt is at or before the one of this call
  have hlast : m₂.1.receivedAt ≤ m.1.receivedAt := by
    obtain hearlier | heq := List.mem_append.1 hsub
    · exact (List.pairwise_append.1 hforward).2.2 later hearlier call (List.mem_singleton_self _) m₂.1
        (mem_candidates hm₂) m.1 (mem_candidates hm) htoken₂
    · obtain rfl := List.mem_singleton.1 heq
      rw [candidate_unique (htokens _ hsub) (mem_candidates hm₂) (mem_candidates hm) htoken₂]
  -- the first sighting is at or before the one the record took in
  obtain ⟨pre, firstCall, post, heq, hnone, m₀, hm₀, htoken₀, rfl⟩ := hfirst
  have htail : ∃ mid, start = before ++ mid ∧ arming :: rest = mid ++ taking :: since := by
    rw [hcalls] at hrun
    obtain ⟨mid, hstart, hmid⟩ | ⟨mid, hbefore, hmid⟩ := List.append_eq_append_iff.1 hrun
    · exact ⟨mid, hstart, hmid⟩
    · have hnil : mid = [] := by
        have := congrArg List.length hbefore
        rw [List.length_append] at this
        exact List.length_eq_zero_iff.1 (by omega)
      subst hnil
      rw [List.append_nil] at hbefore
      exact ⟨[], by rw [hbefore, List.append_nil], by simpa using hmid.symm⟩
  obtain ⟨mid, hstart, hmid⟩ := htail
  have hfirst : m₀.1.receivedAt ≤ m₁.1.receivedAt := by
    obtain hearlier | rfl | hlater := marks_cases (heq ▸ hmid)
    · exact absurd htoken₁ (hnone taking hearlier m₁ hm₁)
    · have htaking : firstCall ∈ calls ++ [call] := by
        rw [hrun]
        exact List.mem_append_right _ (List.mem_cons_self ..)
      rw [candidate_unique (htokens _ htaking) (mem_candidates hm₀) (mem_candidates hm₁) (htoken₀.trans htoken₁.symm)]
    · have hpair : Forward (start ++ taking :: since) := hrun ▸ hforward
      exact (List.pairwise_append.1 hpair).2.2 firstCall (hstart ▸ List.mem_append_right _ hlater) taking
        (List.mem_cons_self ..) m₀.1 (mem_candidates hm₀) m₁.1 (mem_candidates hm₁) (htoken₀.trans htoken₁.symm)
  exact lt_of_le_of_lt hfirst (lt_of_lt_of_le hlt hlast)

/-- **A drop is published on a record carried into the call, armed below the baseline of its window, and either every
drop-eligible member has agreed since or the deadline passed over a low some observation reported.** -/
theorem drop_on_evidence (env : Env W) (initial : ControlState W) (hinitial : ∀ axis, initial.pendingDrops axis = none)
    (calls : List (Call W)) (call : Call W) (htimes : ((calls ++ [call]).map Call.nowEpoch).Pairwise (· ≤ ·))
    (htokens : ∀ c ∈ calls ++ [call], (c.candidates.map Candidate.token).Nodup) (axis : Axis) (b : AxisProjection)
    (hb : projectionAxis call.db axis = some b) (plan : PublicationPlan)
    (hplan : (reduceCandidates env call (controlAfter env initial calls)).plan = some plan) (v : AxisValue)
    (hv : plan.value axis = some v) (hkey : axisValueKey v = b.canonicalKey) (hlt : v.percent < b.percent) :
    call.dropConsensusAllowed.allows axis = true ∧
      ∃ p before arming rest, pendingAfter env initial calls axis = some p ∧ p.canonicalKey = b.canonicalKey ∧
        calls = before ++ arming :: rest ∧ arming.nowEpoch ≤ call.nowEpoch ∧ p.firstSeenAt = arming.nowEpoch ∧
        (∃ b₀, projectionAxis arming.db axis = some b₀ ∧ b₀.canonicalKey = b.canonicalKey ∧
          ∃ m ∈ dropMembers arming axis b.canonicalKey, m.2.percent < b₀.percent) ∧
        (Held env initial axis (before ++ [arming]) rest fun q =>
          q.canonicalKey = p.canonicalKey ∧ q.firstSeenAt = p.firstSeenAt ∧ q.deadlineAt = p.deadlineAt) ∧
        (((∀ m ∈ dropMembers call axis b.canonicalKey, m.2.percent < b.percent) ∧
            (∀ m ∈ riseMembers call axis b.canonicalKey, m.2.percent < b.percent) ∧
            (∀ m ∈ dropMembers call axis b.canonicalKey, ∃ received since,
              TakenIn env initial axis b.canonicalKey before.length (calls ++ [call]) m.1.token received since ∧
                ReceivedIn axis b.canonicalKey since m.1.token received) ∧
            (Forward (calls ++ [call]) → ∀ m ∈ dropMembers call axis b.canonicalKey, ∀ first,
              FirstSaw axis b.canonicalKey (arming :: (rest ++ [call])) m.1.token first → first < m.1.receivedAt)) ∨
          (p.deadlineAt ≤ call.nowEpoch ∧ ∃ q r o, pendingAfter env initial (calls ++ [call]) axis = some q ∧
            q.retained = some r ∧ v.percent = r.percent ∧ o ∈ r.observations ∧ o.percent = v.percent ∧
            ∃ c ∈ arming :: (rest ++ [call]), Reported c axis b.canonicalKey o)) := by
  rw [plan_value hplan] at hv
  obtain ⟨hallowed, p, hp, hpkey, q, hq, hcont, hpublished⟩ := decideAxis_candidate env
    (htokens call (List.mem_append_right _ (List.mem_singleton_self _))) hb hv hkey hlt
  obtain ⟨before, arming, rest, rfl, hhistory⟩ := history_of_pending hinitial calls hp
  have hnow : pendingAfter env initial (before ++ arming :: rest ++ [call]) axis = some q :=
    (pendingAfter_snoc _ _ _).trans hq
  have hafter := hhistory.continues hnow hcont
  have htime : arming.nowEpoch ≤ call.nowEpoch := by
    rw [List.map_append, List.pairwise_append] at htimes
    exact htimes.2.2 _ (List.mem_map_of_mem (List.mem_append_right _ (List.mem_cons_self ..))) _
      (List.mem_map_of_mem (List.mem_singleton_self _))
  have hqkey : q.canonicalKey = b.canonicalKey := hcont.key.trans hpkey
  refine ⟨hallowed, p, before, arming, rest, hp, hpkey, rfl, htime, hhistory.firstSeen, hpkey ▸ hhistory.below,
    hhistory.held, ?_⟩
  obtain ⟨hbelow, hdissent, hsatisfied⟩ | ⟨hdue, r, hr, hne, hpercent⟩ := hpublished
  · have hreceived : ∀ m ∈ dropMembers call axis b.canonicalKey, ∃ received since,
        TakenIn env initial axis b.canonicalKey before.length (before ++ arming :: rest ++ [call]) m.1.token received
          since ∧ ReceivedIn axis b.canonicalKey since m.1.token received := by
      intro m hm
      obtain ⟨c, hc, hsat⟩ := hsatisfied m hm
      obtain ⟨since, htaken, hagain⟩ := hafter.contributors m.1.token c hc
      rw [hqkey, ← List.cons_append, ← List.append_assoc] at htaken
      rw [hqkey] at hagain
      exact ⟨c.baselineReceivedAt, since, htaken, hagain hsat⟩
    refine .inl ⟨hbelow, hdissent, hreceived, fun hforward m hm first hfirst => ?_⟩
    obtain ⟨received, since, htaken, hagain⟩ := hreceived m hm
    exact first_lt_of_forward (by simp) hforward htokens hm htaken hagain hfirst
  · obtain ⟨o, ho⟩ := List.exists_mem_of_ne_nil _ hne
    obtain ⟨hopercent, reporter, hreporter, hreported⟩ := (hafter.retained r hr).2 o ho
    exact .inr ⟨hdue, q, r, o, hnow, hr, hpercent, ho, hopercent.trans hpercent.symm, reporter, hreporter,
      hqkey ▸ hreported⟩

end

def workedEnv : Env Unit := ⟨fun token _ _ => token, fun _ => "", fun text => text, fun _ _ => ⊤⟩

def workedBaseline : AxisProjection := ⟨50, 1000, 1, .epoch 0⟩

def workedCall (now received : Int) : Call Unit where
  candidates := [⟨"a", received, none, some ⟨20, 1000, some 1⟩, none⟩]
  db := ⟨none, some workedBaseline, fun _ => none⟩
  tombstones _ := none
  nowEpoch := now
  accountKey := none
  dropConsensusAllowed := .both true
  memberFacts _ := Dict.empty
  refutedSupports _ := []

def workedMember (received : Int) : Member Unit :=
  (⟨"a", received, none, some ⟨20, 1000, some 1⟩, none⟩, ⟨20, 1000, some 1⟩)

def noDrops : ControlState Unit := ⟨fun _ => none⟩

def workedPlan : PublicationPlan := ⟨some ⟨20, 1000, some 1⟩, none⟩

theorem drop_on_evidence_worked :
    ∃ p, pendingAfter workedEnv noDrops [workedCall 100 100] .sevenDay = some p ∧ p.canonicalKey = 1 := by
  have hplan : (reduceCandidates workedEnv (workedCall 101 101)
      (controlAfter workedEnv noDrops [workedCall 100 100])).plan = some workedPlan := by decide +kernel
  obtain ⟨-, p, -, -, -, hp, hkey, -⟩ := drop_on_evidence workedEnv noDrops (fun _ => rfl) [workedCall 100 100]
    (workedCall 101 101) (by decide) (by decide) .sevenDay workedBaseline rfl workedPlan hplan ⟨20, 1000, some 1⟩ rfl
    rfl (by decide +kernel)
  exact ⟨p, hp, hkey⟩

/-- A contributor once received again stays satisfied: a drop is published although the receipt time of its only
member is then before the one at which the drop first saw it. -/
theorem drop_on_an_earlier_receipt :
    ¬ ∀ (calls : List (Call Unit)) (call : Call Unit), ((calls ++ [call]).map Call.nowEpoch).Pairwise (· ≤ ·) →
      (∀ c ∈ calls ++ [call], (c.candidates.map Candidate.token).Nodup) →
      ∀ (axis : Axis) (b : AxisProjection), projectionAxis call.db axis = some b → ∀ plan,
      (reduceCandidates workedEnv call (controlAfter workedEnv noDrops calls)).plan = some plan → ∀ v,
      plan.value axis = some v → axisValueKey v = b.canonicalKey → v.percent < b.percent →
      ∃ p before arming rest, pendingAfter workedEnv noDrops calls axis = some p ∧ calls = before ++ arming :: rest ∧
        p.firstSeenAt = arming.nowEpoch ∧
        ((∀ m ∈ dropMembers call axis b.canonicalKey, ∀ first,
          FirstSaw axis b.canonicalKey (arming :: (rest ++ [call])) m.1.token first → first < m.1.receivedAt) ∨
          p.deadlineAt ≤ call.nowEpoch) := by
  intro h
  have hplan : (reduceCandidates workedEnv (workedCall 102 99)
      (controlAfter workedEnv noDrops [workedCall 100 100, workedCall 101 101])).plan = some workedPlan := by decide +kernel
  have htimes : (pendingAfter workedEnv noDrops [workedCall 100 100, workedCall 101 101] .sevenDay).map
      (fun p => (p.firstSeenAt, p.deadlineAt)) = some (100, 280) := by decide +kernel
  obtain ⟨p, before, arming, rest, hp, heq, hfirst, hc⟩ := h [workedCall 100 100, workedCall 101 101]
    (workedCall 102 99) (by decide) (by decide) .sevenDay workedBaseline rfl workedPlan hplan ⟨20, 1000, some 1⟩ rfl rfl
    (by decide +kernel)
  rw [hp, Option.map_some, Option.some.injEq, Prod.mk.injEq] at htimes
  obtain ⟨hseen, hdeadline⟩ := htimes
  obtain hall | hdue := hc
  · have hm : workedMember 99 ∈ dropMembers (workedCall 102 99) .sevenDay workedBaseline.canonicalKey := by decide +kernel
    have hm₀ : workedMember 100 ∈ dropMembers (workedCall 100 100) .sevenDay workedBaseline.canonicalKey := by
      decide +kernel
    obtain _ | ⟨c, before⟩ := before
    · obtain ⟨rfl, rfl⟩ := List.cons.inj heq
      have hsaw : FirstSaw .sevenDay workedBaseline.canonicalKey
          (workedCall 100 100 :: ([workedCall 101 101] ++ [workedCall 102 99])) (workedMember 99).1.token 100 := by
        refine ⟨[], workedCall 100 100, [workedCall 101 101] ++ [workedCall 102 99], List.nil_append _, ?_,
          workedMember 100, hm₀, rfl, rfl⟩
        intro earlier hearlier
        cases hearlier
      have hlt : (100 : Int) < (workedMember 99).1.receivedAt := hall (workedMember 99) hm 100 hsaw
      exact absurd hlt (by decide)
    · have htail : [workedCall 101 101] = before ++ arming :: rest := (List.cons.inj heq).2
      have harming : arming = workedCall 101 101 := by
        cases before with
        | nil => exact (List.cons.inj htail).1.symm
        | cons c before => simp at htail
      rw [hseen, harming] at hfirst
      cases hfirst
  · rw [hdeadline] at hdue
    exact absurd hdue (by decide)

end Cctally.Statusline
