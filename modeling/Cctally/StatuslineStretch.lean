import Cctally.StatuslineExpiry

/-!
# A pending drop is one bounded generation

Along a stretch of calls none of which arms a drop in the place of the pending
one, the window and the times of the record never change, a contributor that
stays keeps its baseline and its agreement, and two drops at most are published
under one retry signature.
-/

namespace Cctally.Statusline

variable {W : Type} [DecidableEq W] (env : Env W)

section
variable (initial : ControlState W) (axis : Axis)

def Stays (start rest : List (Call W)) : Prop :=
  ∀ mid call tail, rest = mid ++ call :: tail → ∃ p q, pendingAfter env initial (start ++ mid) axis = some p ∧
    pendingAfter env initial (start ++ mid ++ [call]) axis = some q ∧ ¬ Rearms env call axis p

def publishedDrops (control : ControlState W) : List (Call W) → List AxisValue
  | [] => []
  | call :: rest =>
    (publishedDrop env call control axis).toList ++ publishedDrops (reduceCandidates env call control).control rest

end

section
variable {env} {initial : ControlState W} {axis : Axis}

theorem publishedDrops_snoc (control : ControlState W) (calls : List (Call W)) (call : Call W) :
    publishedDrops env axis control (calls ++ [call]) =
      publishedDrops env axis control calls ++ (publishedDrop env call (controlAfter env control calls) axis).toList := by
  induction calls generalizing control with
  | nil => simp [publishedDrops, controlAfter]
  | cons first calls ih =>
    rw [List.cons_append, publishedDrops, publishedDrops, ih, List.append_assoc]
    rfl

theorem Stays.init {start rest : List (Call W)} {call : Call W} (h : Stays env initial axis start (rest ++ [call])) :
    Stays env initial axis start rest := by
  intro mid c tail heq
  apply h mid c (tail ++ [call])
  rw [heq, List.append_assoc, List.cons_append]

theorem Stays.last {start rest : List (Call W)} {call : Call W} (h : Stays env initial axis start (rest ++ [call]))
    {q : PendingDrop W} (hq : pendingAfter env initial (start ++ rest ++ [call]) axis = some q) :
    ∃ p, pendingAfter env initial (start ++ rest) axis = some p ∧
      Continued env call (controlAfter env initial (start ++ rest)) axis p q := by
  obtain ⟨p, -, hp, -, hno⟩ := h rest call [] rfl
  rw [pendingAfter_snoc] at hq
  exact ⟨p, hp, decideAxis_continued hp hq hno⟩

theorem Held.init {start rest : List (Call W)} {P : PendingDrop W → Prop} {call : Call W}
    (h : Held env initial axis start (rest ++ [call]) P) : Held env initial axis start rest P := by
  intro mid tail heq
  apply h mid (tail ++ [call])
  rw [heq, List.append_assoc]

theorem Held.last {start rest : List (Call W)} {P : PendingDrop W → Prop} (h : Held env initial axis start rest P)
    {q : PendingDrop W} (hq : pendingAfter env initial (start ++ rest) axis = some q) : P q := by
  obtain ⟨q', hq', hP⟩ := h rest [] (List.append_nil rest).symm
  cases hq.symm.trans hq'
  exact hP

theorem same_generation {start rest : List (Call W)} (h : Stays env initial axis start rest) {p q : PendingDrop W}
    (hp : pendingAfter env initial start axis = some p) (hq : pendingAfter env initial (start ++ rest) axis = some q) :
    q.canonicalKey = p.canonicalKey ∧ q.firstSeenAt = p.firstSeenAt ∧ q.deadlineAt = p.deadlineAt := by
  induction rest using List.reverseRecOn generalizing q with
  | nil =>
    rw [List.append_nil] at hq
    cases hp.symm.trans hq
    exact ⟨rfl, rfl, rfl⟩
  | append_singleton rest call ih =>
    rw [← List.append_assoc] at hq
    obtain ⟨p', hp', hcont⟩ := h.last hq
    obtain ⟨hkey, hfirst, hdeadline⟩ := ih h.init hp'
    have hc := hcont.carries
    exact ⟨hc.key.trans hkey, hc.firstSeen.trans hfirst, hc.deadline.trans hdeadline⟩

theorem same_contributor {start rest : List (Call W)} (h : Stays env initial axis start rest) {token : String}
    (hstays : Held env initial axis start rest fun q => ∃ c, q.contributors.get? token = some c) {p q : PendingDrop W}
    (hp : pendingAfter env initial start axis = some p) (hq : pendingAfter env initial (start ++ rest) axis = some q)
    {c₀ c : Contributor} (hc₀ : p.contributors.get? token = some c₀) (hc : q.contributors.get? token = some c) :
    c.baselineReceivedAt = c₀.baselineReceivedAt ∧ (c₀.satisfied = true → c.satisfied = true) := by
  induction rest using List.reverseRecOn generalizing q c with
  | nil =>
    rw [List.append_nil] at hq
    cases hp.symm.trans hq
    cases hc₀.symm.trans hc
    exact ⟨rfl, id⟩
  | append_singleton rest call ih =>
    rw [← List.append_assoc] at hq
    obtain ⟨p', hp', hcont⟩ := h.last hq
    obtain ⟨c₁, hc₁⟩ := hstays.init.last hp'
    obtain ⟨hbaseline, hsatisfied⟩ := ih h.init hstays.init hp' hc₁
    obtain ⟨hbaseline', hsatisfied'⟩ := hcont.carries.contributors token c₁ c hc₁ hc
    exact ⟨hbaseline'.trans hbaseline, fun hsat => hsatisfied' (hsatisfied hsat)⟩

theorem published_le_attempts (hinitial : ∀ axis, initial.pendingDrops axis = none) {start more : List (Call W)}
    {call : Call W} (h : Stays env initial axis start (call :: more)) {signature : Option RetrySignature}
    (hheld : Held env initial axis (start ++ [call]) more fun q => q.retrySignature = signature) {q : PendingDrop W}
    (hq : pendingAfter env initial (start ++ call :: more) axis = some q) :
    (publishedDrops env axis (controlAfter env initial start) (call :: more)).length ≤ q.attempts := by
  induction more using List.reverseRecOn generalizing q with
  | nil =>
    obtain ⟨p, hp, hcont⟩ := Stays.last (show Stays env initial axis start ([] ++ [call]) from h) (by rwa [List.append_nil])
    rw [List.append_nil] at hp hcont
    rw [publishedDrops, publishedDrops, List.append_nil]
    exact hcont.first (staged_of_pending hinitial start hp)
  | append_singleton more last ih =>
    rw [← List.cons_append] at h hq ⊢
    rw [← List.append_assoc] at hq
    obtain ⟨p, hp, hcont⟩ := h.last hq
    have hsignature : p.retrySignature = q.retrySignature := by
      have hlast : start ++ call :: more ++ [last] = start ++ [call] ++ (more ++ [last]) := by simp
      rw [hlast] at hq
      rw [hheld.last hq]
      apply hheld.init.last
      rwa [List.append_assoc, List.singleton_append]
    have hbefore := ih h.init hheld.init hp
    have hspends := hcont.spends (staged_of_pending hinitial _ hp) hsignature
    have hafter : controlAfter env (controlAfter env initial start) (call :: more) =
        controlAfter env initial (start ++ call :: more) := by
      rw [controlAfter, controlAfter, controlAfter, List.foldl_append]
    rw [publishedDrops_snoc, List.length_append, hafter]
    omega

theorem published_of_action {call : Call W} {control : ControlState W} {b : AxisProjection} {v : AxisValue}
    (hb : projectionAxis call.db axis = some b) (haction : (decideAxis env call control axis).action = .publishDb)
    (hv : (decideAxis env call control axis).candidate = some v) (hkey : axisValueKey v = b.canonicalKey)
    (hlt : v.percent < b.percent) : publishedDrop env call control axis = some v := by
  have hplan : ∃ plan, (reduceCandidates env call control).plan = some plan := by
    rw [reduceCandidates]
    rw [if_pos]
    · exact ⟨_, rfl⟩
    · cases axis
      · exact .inl haction
      · exact .inr haction
  obtain ⟨plan, hplan⟩ := hplan
  have hvalue : plan.value axis = some v := (plan_value hplan axis).trans hv
  simp [publishedDrop, hb, hplan, hvalue, hkey, hlt]

end

/-- **A pending drop is one bounded generation: while no call arms another in its place, its window and its times never
change, a contributor that stays keeps its baseline and its agreement, two drops at most are published under one
signature, and a call past the deadline in which the drop is due publishes it unless its attempts are spent.** -/
theorem one_generation (env : Env W) (initial : ControlState W) (hinitial : ∀ axis, initial.pendingDrops axis = none)
    (axis : Axis) (start rest : List (Call W)) (hstays : Stays env initial axis start rest) (p q : PendingDrop W)
    (hp : pendingAfter env initial start axis = some p)
    (hq : pendingAfter env initial (start ++ rest) axis = some q) :
    (q.canonicalKey = p.canonicalKey ∧ q.firstSeenAt = p.firstSeenAt ∧ q.deadlineAt = p.deadlineAt ∧
      q.deadlineAt = q.firstSeenAt + 180) ∧
    (∀ token, Held env initial axis start rest (fun q => ∃ c, q.contributors.get? token = some c) → ∀ c₀ c,
      p.contributors.get? token = some c₀ → q.contributors.get? token = some c →
      c.baselineReceivedAt = c₀.baselineReceivedAt ∧ (c₀.satisfied = true → c.satisfied = true)) ∧
    q.attempts ≤ 2 ∧
    (∀ signature call more, rest = call :: more →
      Held env initial axis (start ++ [call]) more (fun q => q.retrySignature = signature) →
      (publishedDrops env axis (controlAfter env initial start) rest).length ≤ 2) ∧
    ∀ call b r, Due env call axis q b r → ∃ v, axisValueKey v = b.canonicalKey ∧ v.percent < b.percent ∧
      (v.percent = lowAfter call axis b r ∨ UnanimousMaximum call axis b v) ∧
      (publishedDrop env call (controlAfter env initial (start ++ rest)) axis = some v ∨
        (q.attempts = 2 ∧ q.retrySignature = some (buildRetrySignature v b (callScope call axis)))) := by
  have hstaged := staged_of_pending hinitial _ hq
  obtain ⟨before, arming, since, -, hhistory⟩ := history_of_pending hinitial _ hq
  obtain ⟨hkey, hfirst, hdeadline⟩ := same_generation hstays hp hq
  refine ⟨⟨hkey, hfirst, hdeadline, ?_⟩, fun token hheld c₀ c hc₀ hc => same_contributor hstays hheld hp hq hc₀ hc,
    hstaged.le_two, ?_, fun call b r hdue => ?_⟩
  · rw [hhistory.deadline, hhistory.firstSeen]
    rfl
  · intro signature call more heq hheld
    subst heq
    exact (published_le_attempts hinitial hstays hheld hq).trans hstaged.le_two
  · have hrkey : r.canonicalKey = q.canonicalKey := (hhistory.retained r hdue.retained).1
    obtain ⟨v, hvkey, hlt, hvalue, hdone⟩ := due_publishes hq hdue hrkey
    refine ⟨v, hvkey, hlt, hvalue, ?_⟩
    obtain ⟨haction, hv⟩ | ⟨hstage, hsignature⟩ := hdone
    · exact .inl (published_of_action hdue.baseline haction hv hvkey hlt)
    · exact .inr ⟨by rw [hstaged.attempts, hstage]; rfl, hsignature⟩

/-! ## A record that is replaced -/

theorem worked_record : ∃ p r, pendingAfter workedEnv noDrops [workedCall 100 100] .sevenDay = some p ∧
    p.canonicalKey = 1 ∧ p.firstSeenAt = 100 ∧ p.deadlineAt = 280 ∧ p.attempts = 0 ∧ p.retained = some r ∧ r.percent = 20 ∧
    r.observations.map SupportingObservation.observationId = ["a"] := by
  have hfields : (pendingAfter workedEnv noDrops [workedCall 100 100] .sevenDay).map (fun p =>
      ((p.canonicalKey, p.firstSeenAt, p.deadlineAt, p.attempts),
        p.retained.map fun r => (r.percent, r.observations.map SupportingObservation.observationId))) =
      some ((1, 100, 280, 0), some (20, ["a"])) := by decide
  obtain ⟨p, hp, heq⟩ := Option.map_eq_some_iff.1 hfields
  simp only [Prod.mk.injEq, Option.map_eq_some_iff] at heq
  obtain ⟨⟨hkey, hfirst, hdeadline, hattempts⟩, r, hr, hpercent, hobs⟩ := heq
  exact ⟨p, r, hp, hkey, hfirst, hdeadline, hattempts, hr, hpercent, hobs⟩

theorem one_generation_worked :
    ∃ p q, pendingAfter workedEnv noDrops [workedCall 100 100] .sevenDay = some p ∧
      pendingAfter workedEnv noDrops [workedCall 100 100, workedCall 101 100] .sevenDay = some q ∧
      q.firstSeenAt = p.firstSeenAt ∧ q.attempts ≤ 2 := by
  obtain ⟨p, r, hp, hkey, -, -, -, hr, -, hobs⟩ := worked_record
  have hafter : (pendingAfter workedEnv noDrops [workedCall 100 100, workedCall 101 100] .sevenDay).isSome = true := by
    decide +kernel
  obtain ⟨q, hq⟩ := Option.isSome_iff_exists.1 hafter
  have hstays : Stays workedEnv noDrops .sevenDay [workedCall 100 100] [workedCall 101 100] := by
    intro mid call tail heq
    obtain ⟨rfl, rfl, rfl⟩ : mid = [] ∧ call = workedCall 101 100 ∧ tail = [] := by
      cases mid with
      | nil => exact ⟨rfl, (List.cons.inj heq).1.symm, (List.cons.inj heq).2.symm⟩
      | cons c mid => simp at heq
    refine ⟨p, q, hp, hq, fun hrearms => ?_⟩
    obtain ⟨b, hb, hrefuted, -⟩ := hrearms
    cases hb
    obtain ⟨o, ho⟩ : ∃ o, o ∈ r.observations := by
      cases hr' : r.observations with
      | nil => simp [hr'] at hobs
      | cons o _ => exact ⟨o, List.mem_cons_self ..⟩
    have hnone := hrefuted hkey r hr o ho
    cases hnone
  obtain ⟨⟨-, hfirst, -⟩, -, hattempts, -⟩ := one_generation workedEnv noDrops (fun _ => rfl) .sevenDay
    [workedCall 100 100] [workedCall 101 100] hstays p q hp hq
  exact ⟨p, q, hp, hq, hfirst, hattempts⟩

def nextCall : Call Unit :=
  { workedCall 101 101 with
    candidates := [⟨"a", 101, none, some ⟨20, 2000, some 2⟩, none⟩]
    db := ⟨none, some ⟨50, 2000, 2, .epoch 0⟩, fun _ => none⟩ }

def refutedCall : Call Unit :=
  { workedCall 300 300 with
    candidates := []
    refutedSupports := fun _ => [("a", "")] }

def newerCall : Call Unit :=
  { workedCall 300 300 with candidates := [⟨"b", 300, none, some ⟨10, 2000, some 2⟩, none⟩] }

/-- A drop that stays pending may be another drop, of the next window; and past the deadline nothing is published
where the call refutes the support, or takes a reading of a newer window. -/
theorem generation_replaced :
    (¬ ∀ start rest : List (Call Unit), Held workedEnv noDrops .sevenDay start rest (fun _ => True) → ∀ p q,
      pendingAfter workedEnv noDrops start .sevenDay = some p →
      pendingAfter workedEnv noDrops (start ++ rest) .sevenDay = some q →
      q.canonicalKey = p.canonicalKey ∧ q.firstSeenAt = p.firstSeenAt ∧ q.deadlineAt = p.deadlineAt) ∧
    ∀ call ∈ [refutedCall, newerCall], ¬ ∀ p b r,
      pendingAfter workedEnv noDrops [workedCall 100 100] .sevenDay = some p →
      projectionAxis call.db .sevenDay = some b → p.canonicalKey = b.canonicalKey → p.retained = some r →
      r.percent < b.percent → p.deadlineAt ≤ call.nowEpoch → call.dropConsensusAllowed.allows .sevenDay = true →
      (∀ m ∈ riseMembers call .sevenDay b.canonicalKey, m.2.percent ≤ b.percent) →
      (∀ m ∈ members call .sevenDay b.canonicalKey, m.2.percent < b.percent) →
      (publishedDrop workedEnv call (controlAfter workedEnv noDrops [workedCall 100 100]) .sevenDay).isSome ∨
        p.attempts = 2 := by
  obtain ⟨p, r, hp, hkey, hfirst, hdeadline, hattempts, hr, hpercent, -⟩ := worked_record
  constructor
  · intro h
    have hfields : (pendingAfter workedEnv noDrops [workedCall 100 100, nextCall] .sevenDay).map
        PendingDrop.canonicalKey = some 2 := by decide +kernel
    obtain ⟨q, hq, hqkey⟩ := Option.map_eq_some_iff.1 hfields
    have hheld : Held workedEnv noDrops .sevenDay [workedCall 100 100] [nextCall] fun _ => True :=
      (Held.start hp trivial).snoc (q := q) hq trivial
    obtain ⟨hsame, -⟩ := h [workedCall 100 100] [nextCall] hheld p q hp hq
    rw [hkey, hqkey] at hsame
    exact absurd hsame (by decide)
  · intro call hcall h
    obtain ⟨hnil, hsilent, hb, hnow⟩ : members call .sevenDay 1 = [] ∧
        publishedDrop workedEnv call (controlAfter workedEnv noDrops [workedCall 100 100]) .sevenDay = none ∧
        projectionAxis call.db .sevenDay = some workedBaseline ∧ call.nowEpoch = 300 := by
      simp only [List.mem_cons, List.not_mem_nil, or_false] at hcall
      obtain rfl | rfl := hcall
      · exact ⟨by decide +kernel, by decide +kernel, rfl, rfl⟩
      · exact ⟨by decide +kernel, by decide +kernel, rfl, rfl⟩
    have hrises : riseMembers call .sevenDay 1 = [] := by
      rw [riseMembers, hnil]
      rfl
    have hgate : call.dropConsensusAllowed.allows .sevenDay = true := by
      simp only [List.mem_cons, List.not_mem_nil, or_false] at hcall
      obtain rfl | rfl := hcall
      · rfl
      · rfl
    have hdone := h p workedBaseline r hp hb hkey hr (by rw [hpercent]; decide +kernel)
      (by rw [hdeadline, hnow]; decide) hgate
      (by
        intro m hm
        change m ∈ riseMembers call .sevenDay 1 at hm
        rw [hrises] at hm
        cases hm)
      (by
        intro m hm
        change m ∈ members call .sevenDay 1 at hm
        rw [hnil] at hm
        cases hm)
    rw [hsilent, hattempts] at hdone
    exact absurd hdone (by decide)

end Cctally.Statusline
