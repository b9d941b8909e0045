import Cctally.QuarantineChange
import Cctally.Since

/-!
# The way back of an axis

What the records of a journal say about a released axis: a control reading, a
completion, a witness and a release, in this order and all after the last trigger.
The state keeps the end of that history; each record extends it, or takes it away.
-/

namespace Cctally.Quarantine

open State

/-! ## Histories -/

section
variable (cal : Calendar) (nonInertCrossPeriod : Bool)

def run (entries : List Entry) : State := fold cal (State.empty nonInertCrossPeriod) entries

def SameGeneration (l : List Entry) (e : Entry) : Prop :=
  (run cal nonInertCrossPeriod (l ++ [e])).generation = (run cal nonInertCrossPeriod l).generation

def Controlled (a : String) (x : Axis) (obs : String) (capture : Int) : List Entry → Prop :=
  Since (fun _ e => ControlReading e a x obs capture) (SameGeneration cal nonInertCrossPeriod)

def Covered (a : String) (x : Axis) (completion : String) : List Entry → Prop :=
  Since
    (fun l e => ∃ obs capture, Controlled cal nonInertCrossPeriod a x obs capture l ∧
      Completes (run cal nonInertCrossPeriod l) e a x completion obs capture)
    (SameGeneration cal nonInertCrossPeriod)

def Witnessed (a : String) (x : Axis) (completion witness : String) (key : Option WitnessKey) : List Entry → Prop :=
  Since
    (fun l e => Covered cal nonInertCrossPeriod a x completion l ∧
      Witnesses (run cal nonInertCrossPeriod l) e a x witness key)
    (fun l e => SameGeneration cal nonInertCrossPeriod l e ∧ ¬ Bears e a x)

def Recovered (a : String) (x : Axis) (key : Option WitnessKey) : List Entry → Prop :=
  Since
    (fun l e => ∃ completion witness, Witnessed cal nonInertCrossPeriod a x completion witness key l ∧
      Releases (run cal nonInertCrossPeriod l) e a x witness completion)
    (fun l e => SameGeneration cal nonInertCrossPeriod l e ∧ ¬ Revokes (run cal nonInertCrossPeriod l) e a x key)

structure Told (l : List Entry) : Prop where
  control : ∀ a w, (run cal nonInertCrossPeriod l).control.get? a = some w → ∀ x ∈ w.axes,
    Controlled cal nonInertCrossPeriod a x w.observationId w.captureEpoch l
  coverage : ∀ a x id, ((run cal nonInertCrossPeriod l).axis a x).coverageId = some id →
    (run cal nonInertCrossPeriod l).hasTrigger = true ∧ Covered cal nonInertCrossPeriod a x id l
  pending : ∀ a x w, ((run cal nonInertCrossPeriod l).axis a x).pending = some w →
    ∃ id, ((run cal nonInertCrossPeriod l).axis a x).coverageId = some id ∧
      Witnessed cal nonInertCrossPeriod a x id w ((run cal nonInertCrossPeriod l).axis a x).witnessKey l
  recovered : ∀ a x, ((run cal nonInertCrossPeriod l).axis a x).state = .recovered →
    ((run cal nonInertCrossPeriod l).axis a x).coverageId ≠ none ∧
      Recovered cal nonInertCrossPeriod a x ((run cal nonInertCrossPeriod l).axis a x).witnessKey l

variable {cal nonInertCrossPeriod} {l : List Entry} {e : Entry}

theorem run_snoc (l : List Entry) (e : Entry) :
    run cal nonInertCrossPeriod (l ++ [e]) = onEntry cal (run cal nonInertCrossPeriod l) e := by
  rw [run, fold, List.foldl_append]
  rfl

theorem pending_freshAxis (s : State) : s.freshAxis.pending = none := rfl

theorem told_fresh (hx : ∀ a x, (run cal nonInertCrossPeriod l).axis a x = (run cal nonInertCrossPeriod l).freshAxis)
    (hc : ∀ a, (run cal nonInertCrossPeriod l).control.get? a = none) : Told cal nonInertCrossPeriod l where
  control a w hw := by rw [hc] at hw; cases hw
  coverage a x id h := by rw [hx] at h; cases h
  pending a x w h := by rw [hx, pending_freshAxis] at h; cases h
  recovered a x h := by rw [hx] at h; cases h

theorem told_nil : Told cal nonInertCrossPeriod [] := by
  refine told_fresh (fun a x => axis_absent ?_ x) fun a => Dict.get?_empty a
  simp [run, fold, State.empty, Dict.keys, Dict.empty]

theorem Told.snoc (h : Told cal nonInertCrossPeriod l)
    (hs : Steps (run cal nonInertCrossPeriod l) e (run cal nonInertCrossPeriod (l ++ [e])))
    (hu : ¬ UnwitnessedRelease (run cal nonInertCrossPeriod l) e) : Told cal nonInertCrossPeriod (l ++ [e]) := by
  have hsame : SameGeneration cal nonInertCrossPeriod l e := hs.generation
  have htrigger : (run cal nonInertCrossPeriod (l ++ [e])).hasTrigger = (run cal nonInertCrossPeriod l).hasTrigger := by
    rw [hasTrigger, hasTrigger, hs.generation]
  have hkept {a x id} (hc : ((run cal nonInertCrossPeriod l).axis a x).coverageId = some id) :
      (run cal nonInertCrossPeriod (l ++ [e])).hasTrigger = true ∧ Covered cal nonInertCrossPeriod a x id (l ++ [e]) := by
    obtain ⟨ht, hcov⟩ := h.coverage a x id hc
    exact ⟨htrigger ▸ ht, hcov.later hsame⟩
  constructor
  · intro a w hw x hx
    obtain hw | hw := hs.control a w hw
    · exact (h.control a w hw x hx).later hsame
    · exact .now (hw x hx)
  · intro a x id hc
    generalize hnew : (run cal nonInertCrossPeriod (l ++ [e])).axis a x = new at hc
    cases hnew ▸ hs.axis a x with
    | kept => exact hkept hc
    | voided _ _ hc' => exact hkept (by rcases hc' with hc' | hc' <;> rw [hc'] at hc <;> first | cases hc | exact hc)
    | covered ht _ _ hw hx hcomp =>
      cases hc
      exact ⟨htrigger ▸ ht, .now ⟨_, _, h.control a _ hw x hx, hcomp⟩⟩
    | witnessed _ hc' => exact hkept (hc' ▸ hc)
    | released _ _ hc' => exact hkept (hc' ▸ hc)
  · intro a x w hw
    generalize hnew : (run cal nonInertCrossPeriod (l ++ [e])).axis a x = new at hw ⊢
    have hpending : new.state = .paused ∧ new.witnessId = some w := by
      unfold AxisRecovery.pending at hw
      split at hw
      · rename_i hp; exact ⟨hp.1, hw⟩
      · cases hw
    cases hnew ▸ hs.axis a x with
    | kept hb _ =>
      obtain ⟨id, hc, hwit⟩ := h.pending a x w hw
      obtain ⟨ht, -⟩ := h.coverage a x id hc
      exact ⟨id, hc, hwit.later ⟨hsame, hb ht (by rw [hw]; simp)⟩⟩
    | voided _ hw' => rw [hw'] at hpending; cases hpending.2
    | covered _ _ hn =>
      obtain ⟨id, hc, -⟩ := h.pending a x w hw
      rw [hn] at hc
      cases hc
    | witnessed _ hc hn hw' hwit =>
      rw [hw'] at hpending
      cases hpending.2
      obtain ⟨id, hid⟩ := Option.ne_none_iff_exists'.1 hn
      exact ⟨id, hc.trans hid, .now ⟨(h.coverage a x id hid).2, hwit⟩⟩
    | released hs' => rw [hs'] at hpending; cases hpending.1
  · intro a x hr
    generalize hnew : (run cal nonInertCrossPeriod (l ++ [e])).axis a x = new at hr ⊢
    cases hnew ▸ hs.axis a x with
    | kept _ hrev =>
      obtain ⟨hc, hrec⟩ := h.recovered a x hr
      obtain ⟨id, hid⟩ := Option.ne_none_iff_exists'.1 hc
      exact ⟨hc, hrec.later ⟨hsame, hrev (h.coverage a x id hid).1 hr⟩⟩
    | voided hs' => rw [hs'] at hr; cases hr
    | covered _ hs' => rw [hs'] at hr; cases hr
    | witnessed hs' => rw [hs'] at hr; cases hr
    | @released _ completion _ hk hc _ _ hn hw hu' =>
      refine ⟨by rw [hc, hn]; simp, ?_⟩
      rw [hk]
      cases hp : ((run cal nonInertCrossPeriod l).axis a x).pending with
      | none => exact absurd (hu' hp) hu
      | some w =>
        obtain ⟨id, hid, hwit⟩ := h.pending a x w hp
        rw [hn] at hid
        cases hid
        exact .now ⟨completion, w, hwit, hw w hp⟩

theorem told (h : Throughout (fun l e => ¬ UnwitnessedRelease (run cal nonInertCrossPeriod l) e) l) :
    Told cal nonInertCrossPeriod l := by
  induction l using List.reverseRecOn with
  | nil => exact told_nil
  | append_singleton l e ih =>
    obtain ⟨hl, he⟩ := throughout_snoc.1 h
    obtain hr | hs := onEntry_cases cal (run cal nonInertCrossPeriod l) e
    · rw [← run_snoc] at hr
      exact told_fresh hr.axis hr.control
    · rw [← run_snoc] at hs
      exact (ih hl).snoc hs he

/-- **No outcome without a recovery.** In a run without a release that names no witness, an axis gate
that is open after a trigger stands for a control reading, a completion, a witness and a release
of the account, in this order and after the last trigger, and for no revocation since. -/
theorem recovered_of_allowed (cal : Calendar) (nonInertCrossPeriod : Bool) (entries : List Entry)
    (h : Throughout (fun l e => ¬ UnwitnessedRelease (run cal nonInertCrossPeriod l) e) entries)
    (account : Option String) (x : Axis) (ht : (run cal nonInertCrossPeriod entries).hasTrigger = true)
    (hg : ((run cal nonInertCrossPeriod entries).axisGate account x).allowed = true) :
    ∃ a key, account = some a ∧ Recovered cal nonInertCrossPeriod a x key entries := by
  unfold axisGate at hg
  rw [ht] at hg
  cases account with
  | none => cases hg
  | some a =>
    refine ⟨a, _, rfl, ((told h).recovered a x ?_).2⟩
    by_contra hr
    have hr' : (run cal nonInertCrossPeriod entries).released a x = false := by simp [released, hr]
    dsimp only at hg
    rw [hr'] at hg
    cases hg

end

def plainCalendar : Calendar := ⟨id, fun _ => "", fun _ => ""⟩

def aReading (obs : String) (capture : Int) (window : Option Int) (eligible : List Axis) : Reading :=
  { observationId := obs, accountKey := some "a", captureText := "", captureEpoch := capture, detectionEpoch := capture
    weekStartDate := none, weekStartAtEpoch := none, weeklyEndEpoch := none, fiveHourKey := window
    rawFiveHourReset := window, observedAxes := [.fiveHour], eligibleAxes := eligible }

def record (offset capture : Int) (excluded : Bool) (id : String) (body : Body) : Entry :=
  ⟨("journal", offset), excluded, ⟨id, none, some capture, true, some "a", "", body⟩⟩

def controlRecord : Entry :=
  record 1 10 false "control" (.observation true (some 10) (some (aReading "control" 10 none [])) [.fiveHour])

def completionRecord : Entry :=
  record 2 11 false "completion" (.op (.authorityCompletion (some "a") (some 1) (some "control") ["fiveHour"]))

def releaseRecord (witness : Option String) : Entry :=
  record 4 21 false "release" (.op (.axisRelease (some "a") (some .fiveHour) (some 1) witness (some "completion")))

def unwitnessedJournal : List Entry :=
  [record 0 0 true "excluded" .other, controlRecord, completionRecord, releaseRecord none]

def witnessedJournal : List Entry :=
  [record 0 0 true "excluded" .other, controlRecord, completionRecord,
    record 3 20 false "witness" (.observation true (some 20) (some (aReading "witness" 20 (some 3000) [.fiveHour])) []),
    releaseRecord (some "witness")]

theorem recovered_of_allowed_witnessed :
    ((run plainCalendar false witnessedJournal).axisGate (some "a") .fiveHour).allowed = true ∧
      ∃ a key, some "a" = some a ∧ Recovered plainCalendar false a .fiveHour key witnessedJournal := by
  have hg : ((run plainCalendar false witnessedJournal).axisGate (some "a") .fiveHour).allowed = true := by decide +kernel
  refine ⟨hg, recovered_of_allowed plainCalendar false witnessedJournal ?_ _ _ (by decide +kernel) hg⟩
  rintro pre e rest hl ⟨a, x, completion, -, -, hb, -⟩
  have he : e ∈ witnessedJournal := by rw [hl]; simp
  generalize ((run plainCalendar false pre).generation : Int) = g at hb
  simp only [witnessedJournal, List.mem_cons, List.not_mem_nil, or_false] at he
  rcases he with rfl | rfl | rfl | rfl | rfl <;> cases hb

/-- A release that names no witness opens the gate of an axis that no reading is a witness of. -/
theorem released_without_witness :
    (run plainCalendar false unwitnessedJournal).hasTrigger = true ∧
      ((run plainCalendar false unwitnessedJournal).axisGate (some "a") .fiveHour).allowed = true ∧
      ¬ ∃ a key, some "a" = some a ∧ Recovered plainCalendar false a .fiveHour key unwitnessedJournal := by
  refine ⟨by decide +kernel, by decide +kernel, ?_⟩
  rintro ⟨a, key, -, pre, e, rest, hl, ⟨completion, witness, -, hb, -⟩, -⟩
  have he : e ∈ unwitnessedJournal := by rw [hl]; simp
  generalize ((run plainCalendar false pre).generation : Int) = g at hb
  simp only [unwitnessedJournal, List.mem_cons, List.not_mem_nil, or_false] at he
  rcases he with rfl | rfl | rfl | rfl <;> cases hb

end Cctally.Quarantine
