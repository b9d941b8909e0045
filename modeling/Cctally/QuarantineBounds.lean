import Cctally.QuarantineAgree
import Mathlib.Order.Monotone.Basic

/-!
# What the bounds stand for

The bounds of a scope are running maxima of what it absorbed. A witness is judged against
the merged bounds of three scopes, and that is to judge it against every reading, effect
and cohort of the prefix: each is a test that a maximum passes when both its sides do.
-/

namespace Cctally.Quarantine

open State

section
variable {α : Type*}

@[simp] theorem absentOr_none (p : α → Prop) : absentOr none p := nofun

@[simp] theorem absentOr_some (v : α) (p : α → Prop) : absentOr (some v) p ↔ p v :=
  ⟨fun h => h v rfl, fun h _ hb => Option.some.inj hb ▸ h⟩

variable [LinearOrder α] {p : α → Prop}

theorem absentOr_maxOpt (hp : Antitone p) (a b : Option α) :
    absentOr (maxOpt a b) p ↔ absentOr a p ∧ absentOr b p := by
  cases a with
  | none => exact ⟨fun h => ⟨absentOr_none p, h⟩, And.right⟩
  | some v =>
    cases b with
    | none => exact ⟨fun h => ⟨h, absentOr_none p⟩, And.left⟩
    | some w =>
      simp only [maxOpt, absentOr_some]
      split
      next hle => exact ⟨fun h => ⟨h, hp hle h⟩, And.left⟩
      next hlt => exact ⟨fun h => ⟨hp (not_le.1 hlt).le h, h⟩, And.right⟩

@[simp] theorem absentOr_maxOpt_lt (v : α) (a b : Option α) :
    absentOr (maxOpt a b) (fun x => x < v) ↔ absentOr a (fun x => x < v) ∧ absentOr b (fun x => x < v) :=
  absentOr_maxOpt (fun _ _ hle h => hle.trans_lt h) a b

@[simp] theorem absentOr_maxOpt_le (v : α) (a b : Option α) :
    absentOr (maxOpt a b) (fun x => x ≤ v) ↔ absentOr a (fun x => x ≤ v) ∧ absentOr b (fun x => x ≤ v) :=
  absentOr_maxOpt (fun _ _ hle h => hle.trans h) a b

@[simp] theorem absentOr_maxOpt_separated (v d : Int) (a b : Option Int) : absentOr (maxOpt a b) (fun x => x + d < v) ↔
    absentOr a (fun x => x + d < v) ∧ absentOr b (fun x => x + d < v) :=
  absentOr_maxOpt (fun _ _ hle h => (Int.add_le_add_right hle d).trans_lt h) a b

end

inductive Item where
  | reading (scope : String) (r : Reading) (possibleEffect excluded : Bool)
  | weeklyEffect (scope : String) (effect : WeeklyEffect)
  | fiveHourEffect (scope : String) (effect : FiveHourEffect)
  | cohort (c : Cohort)

namespace Item

def scope : Item → String
  | reading scope .. => scope
  | weeklyEffect scope _ => scope
  | fiveHourEffect scope _ => scope
  | cohort _ => COHORT_SCOPE

def absorb (b : ScopeBounds) : Item → ScopeBounds
  | reading _ r possibleEffect excluded => ⟨b.weekly.absorbReading r possibleEffect, b.fiveHour.absorbReading r excluded⟩
  | weeklyEffect _ effect => ⟨b.weekly.absorbEffect effect, b.fiveHour⟩
  | fiveHourEffect _ effect => ⟨b.weekly, b.fiveHour.absorbEffect effect⟩
  | cohort c => ⟨b.weekly.absorbCohort c, b.fiveHour.absorbCohort c⟩

def bearsOn (account : String) (item : Item) : Prop := item.scope ∈ [EXCLUDED_SCOPE, COHORT_SCOPE, account]

end Item

def State.absorb (s : State) (item : Item) : State := s.setScope item.scope (item.absorb (s.scope item.scope))

theorem scope_empty (nonInertCrossPeriod : Bool) (name : String) : (State.empty nonInertCrossPeriod).scope name = .empty :=
  rfl

theorem scope_absorb (s : State) (item : Item) (name : String) :
    (s.absorb item).scope name = if item.scope = name then item.absorb (s.scope name) else s.scope name := by
  obtain ⟨bounds, dirty, heq, hget⟩ := Agree.setScope_eq s item.scope (item.absorb (s.scope item.scope))
  rw [State.absorb, heq, State.scope, hget]
  split
  next h => rw [h]
  next => rfl

/-- A state and the items its scopes absorbed, in their order. What else the fold does
between them leaves the bounds alone. -/
inductive Absorbed : State → List Item → Prop
  | empty (nonInertCrossPeriod : Bool) : Absorbed (.empty nonInertCrossPeriod) []
  | absorb {s : State} {items : List Item} (item : Item) (h : Absorbed s items) :
      Absorbed (s.absorb item) (items ++ [item])
  | unbound {s s' : State} {items : List Item} (h : Absorbed s items) (hs : s'.scope = s.scope) : Absorbed s' items

structure Candidate where
  reading : Reading
  date : String
  weekEnd : Int
  start : Int
  key : Int
  raw : Int
  hasDate : reading.weekStartDate = some date
  hasWeekEnd : reading.weeklyEndEpoch = some weekEnd
  hasStart : reading.weekStartAtEpoch = some start
  hasKey : reading.fiveHourKey = some key
  hasRaw : reading.rawFiveHourReset = some raw

namespace Candidate

variable (c : Candidate)

theorem weekly_iff (b : WeeklyBounds) : weeklyWitnessQualifies c.reading b = true ↔
    absentOr b.s7Date (fun s => s < c.date) ∧ absentOr b.s7End (fun s => s < c.weekEnd) ∧
      absentOr b.c7 (fun x => x < c.start) ∧ absentOr b.x7 (fun x => x ≤ c.start) ∧
      captureOrderOk c.reading b.k7 b.t7 ∧ absentOr b.s7End (fun s => s < c.reading.detectionEpoch) := by
  simp only [weeklyWitnessQualifies, c.hasDate, c.hasWeekEnd, c.hasStart, decide_eq_true_eq]

theorem fiveHour_iff (b : FiveHourBounds) (floor : Option Int) :
    fiveHourWitnessQualifies c.reading b floor = true ↔
      absentOr b.k5 (fun k => k < c.key) ∧ absentOr b.rawUpper5 (fun u => u + FIVE_HOUR_SEPARATION_S < c.raw) ∧
        captureOrderOk c.reading b.k5c b.t5 ∧ absentOr floor (fun f => f < c.reading.detectionEpoch) := by
  simp only [fiveHourWitnessQualifies, c.hasKey, c.hasRaw, decide_eq_true_eq]

def weeklyPast : Item → Prop
  | .reading _ r possibleEffect _ => ∀ date, r.weekStartDate = some date →
      date < c.date ∧ absentOr r.weeklyEndEpoch (fun e => e < c.weekEnd) ∧
        (possibleEffect = true → r.captureEpoch < c.start) ∧
        (r.captureEpoch ≤ c.reading.captureEpoch ∧ r.captureText ≤ c.reading.captureText) ∧
        absentOr r.weeklyEndEpoch (fun e => e < c.reading.detectionEpoch)
  | .weeklyEffect _ e =>
      absentOr e.weekStartDate (fun d => d < c.date) ∧ absentOr e.weekEndEpoch (fun e => e < c.weekEnd) ∧
        absentOr e.effectiveEpoch (fun x => x < c.start) ∧ absentOr e.exclusiveEnd (fun x => x ≤ c.start) ∧
        (absentOr e.captureEpoch (fun k => k ≤ c.reading.captureEpoch) ∧
          absentOr e.captureText (fun t => t ≤ c.reading.captureText)) ∧
        absentOr e.weekEndEpoch (fun e => e < c.reading.detectionEpoch)
  | .fiveHourEffect .. => True
  | .cohort u =>
      u.u7Date < c.date ∧ u.u7End < c.weekEnd ∧ u.e < c.start ∧ u.u7End ≤ c.start ∧ u.u7End < c.reading.detectionEpoch

def fiveHourPast : Item → Prop
  | .reading _ r _ excluded => ∀ key, r.fiveHourKey = some key →
      key < c.key ∧ absentOr r.rawFiveHourReset (fun u => u + FIVE_HOUR_SEPARATION_S < c.raw) ∧
        key + FIVE_HOUR_SEPARATION_S + FIVE_HOUR_SEPARATION_S < c.raw ∧
        (r.captureEpoch ≤ c.reading.captureEpoch ∧ r.captureText ≤ c.reading.captureText) ∧
        (excluded = true → absentOr r.rawFiveHourReset (fun u => u < c.reading.detectionEpoch))
  | .weeklyEffect .. => True
  | .fiveHourEffect _ e =>
      absentOr e.fiveHourKey (fun k => k < c.key) ∧
        absentOr e.rawReset (fun u => u + FIVE_HOUR_SEPARATION_S < c.raw) ∧
        absentOr e.fiveHourKey (fun k => k + FIVE_HOUR_SEPARATION_S + FIVE_HOUR_SEPARATION_S < c.raw) ∧
        absentOr e.captureEpoch (fun k => k ≤ c.reading.captureEpoch) ∧
        absentOr e.captureText (fun t => t ≤ c.reading.captureText)
  | .cohort u =>
      u.u5Key < c.key ∧ u.u5Raw + FIVE_HOUR_SEPARATION_S < c.raw ∧
        u.u5Key + FIVE_HOUR_SEPARATION_S + FIVE_HOUR_SEPARATION_S < c.raw ∧ u.u5Raw < c.reading.detectionEpoch

def past : Axis → Item → Prop
  | .sevenDay => c.weeklyPast
  | .fiveHour => c.fiveHourPast

/-! ## What one item adds -/

theorem weekly_empty : weeklyWitnessQualifies c.reading .empty = true := by
  simp [weekly_iff, WeeklyBounds.empty, captureOrderOk]

theorem fiveHour_empty : fiveHourWitnessQualifies c.reading .empty FiveHourBounds.empty.detectFloor = true := by
  simp [fiveHour_iff, FiveHourBounds.empty, captureOrderOk]

theorem qualifies_empty (x : Axis) : qualifies c.reading .empty x = true := by
  cases x with
  | sevenDay => rw [qualifies, ScopeBounds.empty, weekly_empty]
  | fiveHour => rw [qualifies, ScopeBounds.empty, fiveHour_empty]

theorem weekly_absorb (b : ScopeBounds) (item : Item) : weeklyWitnessQualifies c.reading (item.absorb b).weekly = true ↔
    weeklyWitnessQualifies c.reading b.weekly = true ∧ c.weeklyPast item := by
  cases item with
  | reading _ r possible _ =>
    simp only [Item.absorb, WeeklyBounds.absorbReading, weeklyPast]
    cases hd : r.weekStartDate with
    | none => simp
    | some date =>
      simp only [reduceCtorEq, if_false, weekly_iff, captureOrderOk, absentOr_maxOpt_lt, absentOr_maxOpt_le,
        absentOr_some, Option.some.injEq, forall_eq']
      cases possible
      · simp only [Bool.false_eq_true, if_false, false_implies, true_and]
        tauto
      · simp only [if_true, true_implies, absentOr_maxOpt_lt, absentOr_some]
        tauto
  | weeklyEffect _ e =>
    simp only [Item.absorb, WeeklyBounds.absorbEffect, weeklyPast, weekly_iff, captureOrderOk, absentOr_maxOpt_lt,
      absentOr_maxOpt_le]
    tauto
  | fiveHourEffect _ e => rw [Item.absorb, weeklyPast, and_true]
  | cohort u =>
    simp only [Item.absorb, WeeklyBounds.absorbCohort, weeklyPast, weekly_iff, captureOrderOk, absentOr_maxOpt_lt,
      absentOr_maxOpt_le, absentOr_some]
    tauto

theorem fiveHour_absorb (b : ScopeBounds) (item : Item) :
    fiveHourWitnessQualifies c.reading (item.absorb b).fiveHour (item.absorb b).fiveHour.detectFloor = true ↔
      fiveHourWitnessQualifies c.reading b.fiveHour b.fiveHour.detectFloor = true ∧ c.fiveHourPast item := by
  cases item with
  | reading _ r _ excluded =>
    simp only [Item.absorb, FiveHourBounds.absorbReading, fiveHourPast]
    cases hk : r.fiveHourKey with
    | none => simp
    | some key =>
      simp only [fiveHour_iff, captureOrderOk, absentOr_maxOpt_lt, absentOr_maxOpt_le, absentOr_maxOpt_separated,
        absentOr_some, Option.some.injEq, forall_eq']
      cases excluded
      · simp only [Bool.false_eq_true, if_false, false_implies, and_true]
        tauto
      · simp only [if_true, true_implies, absentOr_maxOpt_lt]
        tauto
  | weeklyEffect _ e => rw [Item.absorb, fiveHourPast, and_true]
  | fiveHourEffect _ e =>
    simp only [Item.absorb, FiveHourBounds.absorbEffect, fiveHourPast]
    cases hk : e.fiveHourKey <;>
      simp only [fiveHour_iff, captureOrderOk, absentOr_maxOpt_lt, absentOr_maxOpt_le, absentOr_maxOpt_separated,
        absentOr_none, absentOr_some] <;>
      tauto
  | cohort u =>
    have hmax : max u.u5Raw (u.u5Key + FIVE_HOUR_SEPARATION_S) + FIVE_HOUR_SEPARATION_S < c.raw ↔
        u.u5Raw + FIVE_HOUR_SEPARATION_S < c.raw ∧
          u.u5Key + FIVE_HOUR_SEPARATION_S + FIVE_HOUR_SEPARATION_S < c.raw := by
      omega
    simp only [Item.absorb, FiveHourBounds.absorbCohort, fiveHourPast, fiveHour_iff, captureOrderOk, absentOr_maxOpt_lt,
      absentOr_maxOpt_separated, absentOr_some, hmax]
    tauto

theorem qualifies_absorb (b : ScopeBounds) (item : Item) (x : Axis) :
    qualifies c.reading (item.absorb b) x = true ↔ qualifies c.reading b x = true ∧ c.past x item := by
  cases x with
  | sevenDay => rw [qualifies, c.weekly_absorb, qualifies, past]
  | fiveHour => rw [qualifies, c.fiveHour_absorb, qualifies, past]

theorem weekly_merge (parts : List WeeklyBounds) : weeklyWitnessQualifies c.reading (WeeklyBounds.merge parts) = true ↔
    ∀ b ∈ parts, weeklyWitnessQualifies c.reading b = true := by
  have hfold : ∀ (parts : List WeeklyBounds) (out : WeeklyBounds),
      weeklyWitnessQualifies c.reading (parts.foldl (fun out b =>
        { s7Date := maxOpt out.s7Date b.s7Date, s7End := maxOpt out.s7End b.s7End, k7 := maxOpt out.k7 b.k7
          t7 := maxOpt out.t7 b.t7, c7 := maxOpt out.c7 b.c7, x7 := maxOpt out.x7 b.x7 }) out) = true ↔
        weeklyWitnessQualifies c.reading out = true ∧ ∀ b ∈ parts, weeklyWitnessQualifies c.reading b = true := by
    intro parts
    induction parts with
    | nil => simp
    | cons b parts ih =>
      intro out
      rw [List.foldl_cons, ih, List.forall_mem_cons, ← and_assoc]
      refine and_congr_left fun _ => ?_
      simp only [weekly_iff, captureOrderOk, absentOr_maxOpt_lt, absentOr_maxOpt_le]
      tauto
  rw [WeeklyBounds.merge, hfold, and_iff_right c.weekly_empty]

theorem fiveHour_merge (parts : List FiveHourBounds) :
    fiveHourWitnessQualifies c.reading (FiveHourBounds.merge parts) (FiveHourBounds.merge parts).detectFloor = true ↔
      ∀ b ∈ parts, fiveHourWitnessQualifies c.reading b b.detectFloor = true := by
  have hfold : ∀ (parts : List FiveHourBounds) (out : FiveHourBounds),
      (fun m : FiveHourBounds => fiveHourWitnessQualifies c.reading m m.detectFloor) (parts.foldl (fun out b =>
        { k5 := maxOpt out.k5 b.k5, rawUpper5 := maxOpt out.rawUpper5 b.rawUpper5, k5c := maxOpt out.k5c b.k5c
          t5 := maxOpt out.t5 b.t5, detectFloor := maxOpt out.detectFloor b.detectFloor }) out) = true ↔
        fiveHourWitnessQualifies c.reading out out.detectFloor = true ∧
          ∀ b ∈ parts, fiveHourWitnessQualifies c.reading b b.detectFloor = true := by
    intro parts
    induction parts with
    | nil => simp
    | cons b parts ih =>
      intro out
      rw [List.foldl_cons, ih, List.forall_mem_cons, ← and_assoc]
      refine and_congr_left fun _ => ?_
      simp only [fiveHour_iff, captureOrderOk, absentOr_maxOpt_lt, absentOr_maxOpt_le, absentOr_maxOpt_separated]
      tauto
  rw [FiveHourBounds.merge, hfold, and_iff_right c.fiveHour_empty]

theorem qualifies_merged (s : State) (account : String) (x : Axis) :
    qualifies c.reading (s.merged (some account)) x = true ↔
      ∀ name ∈ [EXCLUDED_SCOPE, COHORT_SCOPE, account], qualifies c.reading (s.scope name) x = true := by
  cases x with
  | sevenDay => simp [qualifies, State.merged, weekly_merge]
  | fiveHour => simp [qualifies, State.merged, fiveHour_merge]

end Candidate

section
variable {s : State} {items : List Item}

theorem Absorbed.qualifies_scope (h : Absorbed s items) (c : Candidate) (name : String) (x : Axis) :
    qualifies c.reading (s.scope name) x = true ↔ ∀ item ∈ items, item.scope = name → c.past x item := by
  induction h with
  | empty n =>
    rw [scope_empty]
    exact ⟨fun _ _ hi => absurd hi List.not_mem_nil, fun _ => c.qualifies_empty x⟩
  | absorb item _ ih =>
    rw [scope_absorb, List.forall_mem_append, List.forall_mem_singleton, ← ih]
    by_cases hs : item.scope = name
    · rw [if_pos hs, c.qualifies_absorb, forall_prop_of_true hs]
    · rw [if_neg hs, forall_prop_of_false hs, and_true]
  | unbound _ hs ih => rw [hs, ih]

theorem Absorbed.qualifies_merged (h : Absorbed s items) (c : Candidate) (account : String) (x : Axis) :
    qualifies c.reading (s.merged (some account)) x = true ↔ ∀ item ∈ items, item.bearsOn account → c.past x item := by
  rw [c.qualifies_merged]
  simp only [h.qualifies_scope c]
  refine ⟨fun hall item hi hb => hall _ hb item hi rfl, fun hall name hn item hi hs => ?_⟩
  exact hall item hi (by rwa [Item.bearsOn, hs])

/-- **The bounds decide the witness conditions.** A candidate qualifies against the merged
bounds of its account just when it is past every item of the prefix that bears on the
account; a reading without a week counts for no weekly condition, and one without a window
for none of five hours. -/
theorem witness_qualifies_iff (h : Absorbed s items) (c : Candidate) (account : String) :
    (weeklyWitnessQualifies c.reading (s.merged (some account)).weekly = true ↔
      ∀ item ∈ items, item.bearsOn account → c.weeklyPast item) ∧
    (fiveHourWitnessQualifies c.reading (s.merged (some account)).fiveHour (s.merged (some account)).fiveHour.detectFloor =
        true ↔
      ∀ item ∈ items, item.bearsOn account → c.fiveHourPast item) :=
  ⟨h.qualifies_merged c account .sevenDay, h.qualifies_merged c account .fiveHour⟩

end

def windowOnly : Reading :=
  { observationId := "o1", accountKey := some "a", captureText := "2026-01-08T00:01:40Z", captureEpoch := 1767830500
    detectionEpoch := 1767830500, weekStartDate := none, weekStartAtEpoch := none, weeklyEndEpoch := none
    fiveHourKey := some 1767834000, rawFiveHourReset := some 1767834000, observedAxes := AXES, eligibleAxes := [] }

def freshWeek : Candidate where
  reading :=
    { observationId := "o2", accountKey := some "a", captureText := "2026-01-08T00:00:00Z", captureEpoch := 1767830400
      detectionEpoch := 1767830400, weekStartDate := some "2026-01-08", weekStartAtEpoch := some 1767830400
      weeklyEndEpoch := some 1768435200, fiveHourKey := some 1767848400, rawFiveHourReset := some 1767848400
      observedAxes := AXES, eligibleAxes := AXES }
  date := "2026-01-08"
  weekEnd := 1768435200
  start := 1767830400
  key := 1767848400
  raw := 1767848400
  hasDate := rfl
  hasWeekEnd := rfl
  hasStart := rfl
  hasKey := rfl
  hasRaw := rfl

theorem witness_qualifies_effect :
    weeklyWitnessQualifies freshWeek.reading
      (((State.empty true).absorb (.weeklyEffect EXCLUDED_SCOPE { exclusiveEnd := some 1767830400 })).merged
        (some "a")).weekly = true :=
  (witness_qualifies_iff (.absorb _ (.empty true)) freshWeek "a").1.2 fun item hi _ => by
    rw [List.nil_append, List.mem_singleton] at hi
    subst hi
    simp [Candidate.weeklyPast, freshWeek]

theorem witness_qualifies_windowOnly :
    weeklyWitnessQualifies freshWeek.reading
        (((State.empty true).absorb (.reading "a" windowOnly false false)).merged (some "a")).weekly = true ∧
      ¬ windowOnly.captureEpoch ≤ freshWeek.reading.captureEpoch ∧
      ¬ windowOnly.captureText ≤ freshWeek.reading.captureText := by
  decide +kernel

/-! ## The fold -/

def Grows (s s' : State) : Prop := ∀ items, Absorbed s items → ∃ more, Absorbed s' (items ++ more)

namespace Grows

variable {s s' s'' : State}

theorem of_scope (hs : s'.scope = s.scope) : Grows s s' := fun items h =>
  ⟨[], (List.append_nil items).symm ▸ h.unbound hs⟩

theorem refl (s : State) : Grows s s := of_scope rfl

theorem trans (h : Grows s s') (h' : Grows s' s'') : Grows s s'' := by
  intro items habs
  obtain ⟨more, hmore⟩ := h items habs
  obtain ⟨rest, hrest⟩ := h' _ hmore
  exact ⟨more ++ rest, by rwa [← List.append_assoc]⟩

theorem absorb (s : State) (item : Item) : Grows s (s.absorb item) := fun _ h => ⟨[item], h.absorb item⟩

theorem of_frame (h : Frame s s') : Grows s s' := of_scope (funext h.scope)

theorem setPosition (cal : Calendar) (s : State) : Grows s (s.setPosition cal) := by
  have hcohort : Grows s { s with cohort := some (Cohort.fromH cal (s.maxAdmittedAt.getD 0)), expired := false } :=
    of_scope rfl
  exact (hcohort.trans (absorb _ (.cohort (Cohort.fromH cal (s.maxAdmittedAt.getD 0))))).trans (of_scope rfl)

theorem closeCurrent (s : State) (at_ : Coordinate) (time : Option String) : Grows s (s.closeCurrent at_ time) := by
  unfold State.closeCurrent
  split
  · exact refl s
  · exact of_scope rfl

theorem onEpisodeOpen (s : State) (key : Coordinate) (time : Option String) : Grows s (s.onEpisodeOpen key time) :=
  (closeCurrent s key time).trans (of_scope rfl)

theorem onEpisodeClose (s : State) (at_ : Coordinate) (time : Option String) (episode : Option Coordinate) :
    Grows s (s.onEpisodeClose at_ time episode).2 := by
  unfold State.onEpisodeClose
  split
  · exact refl s
  · split
    · exact (closeCurrent s at_ time).trans (of_scope rfl)
    · exact refl s

theorem absorbReading (s : State) (name : String) (r : Reading) (possible excluded : Bool) :
    Grows s (s.absorbReading name r possible excluded) :=
  absorb s (.reading name r possible excluded)

theorem absorbWeeklyEffect (s : State) (name : String) (effect : WeeklyEffect) :
    Grows s (s.absorbWeeklyEffect name effect) :=
  absorb s (.weeklyEffect name effect)

theorem absorbFiveHourEffect (s : State) (name : String) (effect : FiveHourEffect) :
    Grows s (s.absorbFiveHourEffect name effect) :=
  absorb s (.fiveHourEffect name effect)

theorem absorbEvent (s : State) (name : String) (event : Event) (excluded : Bool) :
    Grows s (s.absorbEvent name event excluded) := by
  cases event with
  | snapshotAccept _ _ _ _ key _ =>
    cases key with
    | none => exact absorbWeeklyEffect s name _
    | some key => exact (absorbWeeklyEffect s name _).trans (absorbFiveHourEffect _ name _)
  | weekReset => exact absorbWeeklyEffect s name _
  | fiveHourCredit key =>
    cases key with
    | none => exact refl s
    | some key => exact absorbFiveHourEffect s name _
  | weeklyCreditEffects => exact refl s
  | other => exact refl s

theorem onDeletionOutcome (s : State) (a : Option String) (time : Option String) :
    Grows s (s.onDeletionOutcome a time) := by
  unfold State.onDeletionOutcome
  split
  · exact refl s
  split
  · exact of_frame (frame_revokeAll s _ time AXES false)
  · exact of_frame (frame_revokeAxes _ time false AXES s _)

theorem onAuthorityCompletion (s : State) (a id : String) (generation : Option Int) (observation : Option String)
    (axes : List String) : Grows s (s.onAuthorityCompletion a id generation observation axes).2 := by
  unfold State.onAuthorityCompletion
  split
  · exact refl s
  split
  swap
  · exact refl s
  split
  · exact refl s
  dsimp only
  split
  · exact refl s
  split
  · exact (of_frame (frame_cover id a _ s)).trans (absorbWeeklyEffect _ a _)
  · exact of_frame (frame_cover id a _ s)

theorem onRelease (s : State) (a : String) (x : Option Axis) (generation : Option Int)
    (witness completion : Option String) (id : String) (time : Option String) :
    Grows s (s.onRelease a x generation witness completion id time).2 := by
  rcases onRelease_cases s a x generation witness completion id time with h | ⟨y, c, _, _, _, _, _, _, _, h⟩
  · rw [h]
    exact refl s
  · rw [h]
    exact of_scope rfl

theorem onReading (cal : Calendar) (s : State) (r : Reading) (controlAxes : List Axis) :
    Grows s (onReading cal s r controlAxes).2 := by
  obtain ⟨t, name, possible, hframe, heq⟩ := evaluateReading_eq cal s r.accountKey r
  have hread : Grows s (s.evaluateReading cal r.accountKey r).2 := heq ▸ (of_frame hframe).trans (absorbReading t name r _ _)
  unfold Quarantine.onReading
  dsimp only
  split
  · split
    · exact hread
    · refine hread.trans (of_scope ?_)
      unfold State.onControlWitness
      split
      · rfl
      split <;> rfl
  · exact hread

theorem onEvent (s : State) (rec_ : Rec) (event : Event) : Grows s (onEvent s rec_ event) := by
  have h := absorbEvent s (scopeOf rec_) event false
  unfold Quarantine.onEvent
  dsimp only
  split
  · exact h.trans (onDeletionOutcome _ _ _)
  · exact h

theorem onExcluded (s : State) (at_ : Coordinate) (rec_ : Rec) : Grows s (onExcluded s at_ rec_) := by
  have h : Grows s (s.onTrigger .excluded rec_.family at_ rec_.time) := of_scope rfl
  unfold Quarantine.onExcluded
  dsimp only
  split
  · exact h.trans (absorbReading _ _ _ _ _)
  · exact h.trans (absorbEvent _ _ _ _)
  · exact h.trans (absorbWeeklyEffect _ _ _)
  · exact h

theorem closeAndPlace (cal : Calendar) (s : State) (at_ : Coordinate) (time : Option String)
    (episode : Option Coordinate) :
    Grows s (match s.onEpisodeClose at_ time episode with | (true, s) => s.setPosition cal | (false, s) => s) := by
  have hclose := onEpisodeClose s at_ time episode
  split
  next heq =>
    rw [heq] at hclose
    exact hclose.trans (setPosition cal _)
  next heq =>
    rw [heq] at hclose
    exact hclose

theorem onOp (cal : Calendar) (s : State) (at_ : Coordinate) (rec_ : Rec) (op : Op) :
    Grows s (onOp cal s at_ rec_ op) := by
  have htrigger (reason : String) : Grows s (s.onTrigger .legacySpool reason at_ rec_.time) := of_scope rfl
  unfold Quarantine.onOp
  split
  next reason =>
    split
    · exact refl s
    dsimp only
    split
    · exact (htrigger reason).trans (onEpisodeOpen _ _ _)
    · refine Grows.trans ?_ (setPosition cal _)
      split
      · exact (htrigger reason).trans (onEpisodeClose _ _ _ _)
      · exact htrigger reason
  next =>
    split
    · exact refl s
    split
    · exact closeAndPlace cal s at_ rec_.time none
    split
    · exact refl s
    · exact (htrigger _).trans (onEpisodeOpen _ _ _)
  next episode =>
    split
    · exact refl s
    · exact closeAndPlace cal s at_ rec_.time episode
  next account generation observation axes =>
    split
    · exact refl s
    · exact onAuthorityCompletion s account rec_.id generation observation axes
  next => exact refl s
  next account axis generation witness authority =>
    split
    · exact refl s
    · exact onRelease s account axis generation witness authority rec_.id rec_.time
  next => exact refl s
  next =>
    dsimp only
    refine Grows.trans ?_ (absorbWeeklyEffect _ _ _)
    split
    · exact of_frame (frame_revokeAll s _ rec_.time _ false)
    · exact of_frame (frame_rewrite s _ _ _)
  next => exact of_frame (frame_revokeAll s _ rec_.time AXES true)
  next => exact refl s

theorem onEntry (cal : Calendar) (s : State) (e : Entry) : Grows s (onEntry cal s e) := by
  have htimes : Grows s (noteTimes s e.rec_) := of_scope (noteTimes_scope s e.rec_)
  unfold Quarantine.onEntry
  split
  · exact onExcluded s e.at_ e.rec_
  unfold Quarantine.onRecord
  split
  · exact refl s
  · split
    · exact htimes.trans (onReading cal _ _ _)
    · exact htimes
  · exact htimes.trans (onOp cal _ e.at_ e.rec_ _)
  · exact htimes.trans (of_frame (frame_revokeAll _ _ _ _ _))
  · exact htimes.trans (onEvent _ e.rec_ _)
  · exact htimes

theorem fold (cal : Calendar) (entries : List Entry) (s : State) : Grows s (fold cal s entries) := by
  unfold Quarantine.fold
  induction entries generalizing s with
  | nil => exact refl s
  | cons e entries ih => exact (onEntry cal s e).trans (ih _)

end Grows

end Cctally.Quarantine
