import Mathlib

/-!
# When a writer checkpoints its log

A process counts the frames that its writers append, and holds a flag that a
commit sets and a complete checkpoint clears. Each section under the policy's lock
is one step. Between them any thread may take its steps: a writer commits and later
records its frames, and asks whether an attempt is due; the timer asks too; an
attempt starts, copies, and notes what came of it. Beside the policy the state
keeps what happened: the commits, the starts, the checkpoints and the results.
-/

namespace Cctally.WalPolicy

def TIMER_SECONDS : ℚ := 60

def SIZE_TRIGGER_BYTES : Nat := 16 * 1024 * 1024

def WAL_FRAME_HEADER_BYTES : Nat := 24

/-- `WalCheckpointPolicy`; the last result and the shrink's limit are not read here. -/
structure Policy where
  pending : Bool
  pendingSince : Option ℚ
  framesSinceAttempt : Nat
  lastAttempt : Option ℚ
  lastAttemptUnsuccessful : Bool
  armedAt : Option ℚ
  pageSize : Nat
  attempts : Nat
  completions : Nat
  deriving DecidableEq

namespace Policy

def new : Policy := ⟨false, none, 0, none, false, none, 4096, 0, 0⟩

variable (p : Policy) (now : ℚ)

def frameBytes : Nat := p.pageSize + WAL_FRAME_HEADER_BYTES

def noteArmed : Policy := if p.armedAt.isNone then { p with armedAt := some now } else p

def recordFrames (frames : Nat) : Policy :=
  if frames = 0 then p
  else
    let p := if p.pending then p else { p with pending := true, pendingSince := some now }
    { p with framesSinceAttempt := p.framesSinceAttempt + frames }

def sizeDue : Bool :=
  if !(p.pending && decide (SIZE_TRIGGER_BYTES ≤ p.framesSinceAttempt * p.frameBytes)) then false
  else !p.lastAttemptUnsuccessful ||
    match p.lastAttempt with
    | none => true
    | some last => decide (TIMER_SECONDS ≤ now - last)

def timerDue : Bool :=
  match p.lastAttempt.or (p.armedAt.or p.pendingSince) with
  | none => false
  | some reference => decide (TIMER_SECONDS ≤ now - reference)

def checkpointCompleted : Policy :=
  { p with pending := false, pendingSince := none, lastAttemptUnsuccessful := false, completions := p.completions + 1 }

/-- The first section of `attempt`. -/
def attemptStarted : Policy :=
  { p with lastAttempt := some now, framesSinceAttempt := 0, attempts := p.attempts + 1 }

/-- The last section of `attempt`. -/
def attemptFailed : Policy := { p with lastAttemptUnsuccessful := true }

end Policy

/-- The row of the pragma, `none` after an error; a value that is no integer is `none`. -/
abbrev Row := Option (List (Option Int))

def checkpointComplete : Row → Bool
  | some [some busy, some log, some checkpointed] => busy = 0 ∧ 0 ≤ log ∧ 0 ≤ checkpointed ∧ log = checkpointed
  | _ => false

/-! ## The threads -/

abbrev Thread := Nat

structure Batch where
  writer : Thread
  frames : Nat
  recorded : Bool
  deriving DecidableEq

/-- A checkpoint of an attempt: it copies the batches before `upTo` if it is complete. -/
structure Checkpoint where
  attempt : Nat
  complete : Bool
  upTo : Nat
  deriving DecidableEq

/-- Where a thread is. With a check that found an attempt due stand its instant, the number of
attempts started by then, and whether the last of them had noted its result. -/
inductive Stage
  | idle
  | due (at_ : ℚ) (starts : Nat) (noted : Bool)
  | started (attempt : Nat)
  | copied (c : Checkpoint)
  deriving DecidableEq

structure World where
  policy : Policy
  now : ℚ
  stage : Thread → Stage
  committed : List Batch
  starts : List ℚ
  checkpoints : List Checkpoint
  /-- The attempts that noted their results, and whether these were complete. -/
  noted : List (Nat × Bool)

def initial : World := ⟨Policy.new, 0, fun _ => .idle, [], [], [], []⟩

inductive Action
  | tick (d : ℚ)
  | noteArmed
  | setPageSize (bytes : Nat)
  | commit (t : Thread) (frames : Nat)
  | record (t : Thread)
  | checkSize (t : Thread)
  | checkTimer (t : Thread)
  /-- The connection is in a transaction, or the timer found the store replaced. -/
  | abandon (t : Thread)
  | start (t : Thread)
  /-- The attempt of the finalizer, which asks nothing. -/
  | startUnasked (t : Thread)
  | checkpoint (t : Thread) (row : Row)
  | result (t : Thread)

/-- `take_frames`: the frames of a connection that the policy was not told of. -/
def untold (committed : List Batch) (t : Thread) : Nat :=
  ((committed.filter fun b => b.writer = t ∧ b.recorded = false).map (·.frames)).sum

def tell (t : Thread) (b : Batch) : Batch := if b.writer = t then { b with recorded := true } else b

def lastNoted (w : World) : Bool := w.noted.any fun r => r.1 + 1 = w.starts.length

def goTo (w : World) (t : Thread) (s : Stage) : World := { w with stage := Function.update w.stage t s }

def check (w : World) (t : Thread) (isDue : Bool) : Option World :=
  if w.stage t = .idle then
    some (if isDue then goTo w t (.due w.now w.starts.length (lastNoted w)) else w)
  else none

def begin_ (w : World) (t : Thread) : World :=
  goTo { w with policy := w.policy.attemptStarted w.now, starts := w.starts ++ [w.now] } t (.started w.starts.length)

def step (w : World) : Action → Option World
  | .tick d => if 0 ≤ d then some { w with now := w.now + d } else none
  | .noteArmed => some { w with policy := w.policy.noteArmed w.now }
  | .setPageSize bytes => some { w with policy := { w.policy with pageSize := bytes } }
  | .commit t frames =>
    if w.stage t = .idle ∧ 0 < frames then some { w with committed := w.committed ++ [⟨t, frames, false⟩] } else none
  | .record t =>
    if w.stage t = .idle then
      some { w with policy := w.policy.recordFrames w.now (untold w.committed t), committed := w.committed.map (tell t) }
    else none
  | .checkSize t => check w t (w.policy.sizeDue w.now)
  | .checkTimer t => check w t (w.policy.timerDue w.now)
  | .abandon t =>
    match w.stage t with
    | .due _ _ _ => some (goTo w t .idle)
    | _ => none
  | .start t =>
    match w.stage t with
    | .due _ _ _ => some (begin_ w t)
    | _ => none
  | .startUnasked t => if w.stage t = .idle then some (begin_ w t) else none
  | .checkpoint t row =>
    match w.stage t with
    | .started attempt =>
      let c : Checkpoint := ⟨attempt, checkpointComplete row, w.committed.length⟩
      some (goTo { w with checkpoints := w.checkpoints ++ [c] } t (.copied c))
    | _ => none
  | .result t =>
    match w.stage t with
    | .copied c =>
      let policy := if c.complete then w.policy.checkpointCompleted else w.policy.attemptFailed
      some (goTo { w with policy := policy, noted := w.noted ++ [(c.attempt, c.complete)] } t .idle)
    | _ => none

def run (w : World) : List Action → Option World
  | [] => some w
  | a :: as => (step w a).bind fun w' => run w' as

def Copied (w : World) : Prop :=
  ∀ i b, w.committed[i]? = some b → b.recorded = true → ∃ c ∈ w.checkpoints, c.complete = true ∧ i < c.upTo

def Succeeded (w : World) : Prop :=
  ∃ c ∈ w.checkpoints.dropWhile (fun c => c.attempt + 1 ≠ w.starts.length), c.complete = true

/-- An attempt may start: the last one was `TIMER_SECONDS` ago, or a complete checkpoint came of it or after it. -/
def Spaced (w : World) : Prop :=
  (∀ last, w.starts.getLast? = some last → TIMER_SECONDS ≤ w.now - last) ∨ Succeeded w

def Undisturbed (w : World) : Action → Prop
  | .result t => ∀ c, w.stage t = .copied c → c.complete = true →
    (∀ i b, w.committed[i]? = some b → b.recorded = true → i < c.upTo) ∧ ∀ k, (k, false) ∈ w.noted → k < c.attempt
  | .start t => ∀ at_ starts noted, w.stage t = .due at_ starts noted → starts = w.starts.length ∧
    (noted = true ∨ ∀ last, w.starts.getLast? = some last → TIMER_SECONDS ≤ at_ - last)
  | _ => True

inductive Reached : World → Prop
  | initial : Reached initial
  | step {w w' : World} {a : Action} (h : Reached w) (ha : Undisturbed w a) (hs : step w a = some w') : Reached w'

def StageOk (w : World) : Stage → Prop
  | .idle => True
  | .due at_ starts noted => at_ ≤ w.now ∧ starts ≤ w.starts.length ∧ (starts = w.starts.length →
      (∀ last, w.starts.getLast? = some last → TIMER_SECONDS ≤ at_ - last) ∨ (noted = true → Succeeded w))
  | .started k => k < w.starts.length
  | .copied c => c ∈ w.checkpoints ∧ c.attempt < w.starts.length

structure Inv (w : World) : Prop where
  last : w.policy.lastAttempt = w.starts.getLast?
  copied : w.policy.pending = false → Copied w
  frames : ∀ b ∈ w.committed, 0 < b.frames
  stage : ∀ t, StageOk w (w.stage t)
  noted_lt : ∀ r ∈ w.noted, r.1 < w.starts.length
  noted : ∀ r ∈ w.noted, ∃ c ∈ w.checkpoints, c.attempt = r.1 ∧ c.complete = r.2
  flag : lastNoted w = true → w.policy.lastAttemptUnsuccessful = false → Succeeded w

theorem inv_initial : Inv initial where
  last := rfl
  copied := fun _ i b h => by simp [initial] at h
  frames := fun _ h => by cases h
  stage := fun _ => trivial
  noted_lt := fun _ h => by cases h
  noted := fun _ h => by cases h
  flag := fun h => by cases h

theorem mem_dropWhile {α : Type} {p : α → Bool} {a : α} : ∀ {l : List α}, a ∈ l → p a = false → a ∈ l.dropWhile p
  | b :: l, ha, hp => by
    cases hb : p b with
    | false => rw [List.dropWhile_cons_of_neg (by simp [hb])]; exact ha
    | true =>
      rw [List.dropWhile_cons_of_pos hb]
      rcases List.mem_cons.1 ha with rfl | ha
      · rw [hp] at hb; cases hb
      · exact mem_dropWhile ha hp

theorem Succeeded.append {w w' : World} (h : Succeeded w) {c : Checkpoint} (hstarts : w'.starts = w.starts)
    (hcheckpoints : w'.checkpoints = w.checkpoints ++ [c]) : Succeeded w' := by
  obtain ⟨d, hd, hcomplete⟩ := h
  refine ⟨d, ?_, hcomplete⟩
  rw [hcheckpoints, hstarts, List.dropWhile_append, if_neg]
  · exact List.mem_append_left _ hd
  · rw [List.isEmpty_iff]
    exact List.ne_nil_of_mem hd

theorem succeeded_of_own {w : World} {c : Checkpoint} (h : c ∈ w.checkpoints) (hlast : c.attempt + 1 = w.starts.length)
    (hcomplete : c.complete = true) : Succeeded w :=
  ⟨c, mem_dropWhile h (by simp [hlast]), hcomplete⟩

theorem sizeDue_cases {p : Policy} {now : ℚ} (h : p.sizeDue now = true) :
    p.lastAttemptUnsuccessful = false ∨ ∀ last, p.lastAttempt = some last → TIMER_SECONDS ≤ now - last := by
  unfold Policy.sizeDue at h
  split at h
  · cases h
  · rw [Bool.or_eq_true, Bool.not_eq_true'] at h
    rcases h with h | h
    · exact .inl h
    · refine .inr fun last hlast => ?_
      rw [hlast] at h
      simpa using h

theorem timerDue_last {p : Policy} {now : ℚ} (h : p.timerDue now = true) :
    ∀ last, p.lastAttempt = some last → TIMER_SECONDS ≤ now - last := by
  intro last hlast
  unfold Policy.timerDue at h
  rw [hlast, Option.some_or] at h
  simpa using h

theorem recordFrames_pending {p : Policy} {now : ℚ} {frames : Nat} (h : (p.recordFrames now frames).pending = false) :
    frames = 0 := by
  unfold Policy.recordFrames at h
  by_contra hne
  rw [if_neg hne] at h
  dsimp only at h
  split at h
  · rename_i hp
    rw [hp] at h
    cases h
  · cases h

theorem tell_of_untold {committed : List Batch} {t : Thread} (hframes : ∀ b ∈ committed, 0 < b.frames)
    (h : untold committed t = 0) : committed.map (tell t) = committed := by
  refine (List.map_congr_left fun b hb => ?_).trans (List.map_id committed)
  unfold tell
  split
  · rename_i hw
    cases hr : b.recorded with
    | true => cases b; simp_all
    | false =>
      have hmem : b.frames ∈ (committed.filter fun b => b.writer = t ∧ b.recorded = false).map (·.frames) :=
        List.mem_map_of_mem (List.mem_filter.2 ⟨hb, by simp [hw, hr]⟩)
      have hzero := List.sum_eq_zero_iff_forall_eq_nat.1 h _ hmem
      exact absurd hzero (hframes b hb).ne'
  · rfl

/-! ## What a step keeps -/

section
variable {w : World}

theorem Inv.goTo (h : Inv w) (t : Thread) {s : Stage} (hs : StageOk w s) : Inv (goTo w t s) where
  last := h.last
  copied := h.copied
  frames := h.frames
  stage := fun u => by
    show StageOk w (Function.update w.stage t s u)
    by_cases hu : u = t
    · rw [hu, Function.update_self]
      exact hs
    · rw [Function.update_of_ne hu]
      exact h.stage u
  noted_lt := h.noted_lt
  noted := h.noted
  flag := h.flag

theorem Inv.settings (h : Inv w) {policy : Policy} {now : ℚ} (hnow : w.now ≤ now)
    (hlast : policy.lastAttempt = w.policy.lastAttempt) (hpending : policy.pending = w.policy.pending)
    (hflag : policy.lastAttemptUnsuccessful = w.policy.lastAttemptUnsuccessful) : Inv { w with policy := policy, now := now } where
  last := hlast.trans h.last
  copied := fun hp => h.copied (hpending ▸ hp)
  frames := h.frames
  stage := fun t => by
    have ht := h.stage t
    show StageOk _ (w.stage t)
    cases hst : w.stage t with
    | due at_ starts noted =>
      rw [hst] at ht
      exact ⟨ht.1.trans hnow, ht.2⟩
    | _ => rw [hst] at ht; exact ht
  noted_lt := h.noted_lt
  noted := h.noted
  flag := fun hn hf => h.flag hn (hflag ▸ hf)

theorem Inv.commit (h : Inv w) (t : Thread) {frames : Nat} (hf : 0 < frames) :
    Inv { w with committed := w.committed ++ [⟨t, frames, false⟩] } where
  last := h.last
  copied := fun hp i b hb hr => by
    rcases Nat.lt_or_ge i w.committed.length with hi | hi
    · rw [List.getElem?_append_left hi] at hb
      exact h.copied hp i b hb hr
    · rw [List.getElem?_append_right hi, List.getElem?_singleton] at hb
      split at hb
      · cases hb
        cases hr
      · cases hb
  frames := fun b hb => by
    rcases List.mem_append.1 hb with hb | hb
    · exact h.frames b hb
    · rw [List.mem_singleton] at hb
      rw [hb]
      exact hf
  stage := h.stage
  noted_lt := h.noted_lt
  noted := h.noted
  flag := h.flag

theorem recordFrames_keeps (p : Policy) (now : ℚ) (frames : Nat) :
    (p.recordFrames now frames).lastAttempt = p.lastAttempt ∧
      (p.recordFrames now frames).lastAttemptUnsuccessful = p.lastAttemptUnsuccessful := by
  unfold Policy.recordFrames
  by_cases hf : frames = 0
  · rw [if_pos hf]
    exact ⟨rfl, rfl⟩
  · rw [if_neg hf]
    cases p.pending <;> exact ⟨rfl, rfl⟩

theorem Inv.record (h : Inv w) (t : Thread) : Inv { w with
    policy := w.policy.recordFrames w.now (untold w.committed t), committed := w.committed.map (tell t) } where
  last := (recordFrames_keeps ..).1.trans h.last
  copied := fun hp => by
    have huntold := recordFrames_pending hp
    dsimp only at hp ⊢
    rw [huntold, Policy.recordFrames, if_pos rfl] at hp
    rw [tell_of_untold h.frames huntold]
    exact h.copied hp
  frames := fun b hb => by
    obtain ⟨b', hb', rfl⟩ := List.mem_map.1 hb
    unfold tell
    split
    · exact h.frames b' hb'
    · exact h.frames b' hb'
  stage := h.stage
  noted_lt := h.noted_lt
  noted := h.noted
  flag := fun hn hf => h.flag hn ((recordFrames_keeps ..).2 ▸ hf)

theorem Inv.begin_ (h : Inv w) (t : Thread) : Inv (begin_ w t) := by
  have hlength : (w.starts ++ [w.now]).length = w.starts.length + 1 := List.length_append
  have hstarted : Inv { w with policy := w.policy.attemptStarted w.now, starts := w.starts ++ [w.now] } :=
    { last := (List.getLast?_concat ..).symm
      copied := h.copied
      frames := h.frames
      stage := fun u => by
        have hu := h.stage u
        show StageOk _ (w.stage u)
        cases hst : w.stage u with
        | idle => trivial
        | due at_ starts noted =>
          rw [hst] at hu
          refine ⟨hu.1, ?_, fun heq => ?_⟩
          · have := hu.2.1
            simp only [hlength]
            omega
          · have := hu.2.1
            simp only [hlength] at heq
            omega
        | started k =>
          rw [hst] at hu
          exact (Nat.lt_succ_of_lt hu).trans_eq hlength.symm
        | copied c =>
          rw [hst] at hu
          exact ⟨hu.1, (Nat.lt_succ_of_lt hu.2).trans_eq hlength.symm⟩
      noted_lt := fun r hr => hlength ▸ Nat.lt_succ_of_lt (h.noted_lt r hr)
      noted := h.noted
      flag := fun hn => by
        unfold lastNoted at hn
        obtain ⟨r, hr, heq⟩ := List.any_eq_true.1 hn
        have hlt := h.noted_lt r hr
        simp only [hlength, decide_eq_true_eq] at heq
        omega }
  exact hstarted.goTo t (by show w.starts.length < (w.starts ++ [w.now]).length; omega)

theorem Inv.check {w' : World} (h : Inv w) (t : Thread) {isDue : Bool}
    (hdue : isDue = true → w.policy.lastAttemptUnsuccessful = false ∨
      ∀ last, w.policy.lastAttempt = some last → TIMER_SECONDS ≤ w.now - last)
    (hs : check w t isDue = some w') : Inv w' := by
  unfold WalPolicy.check at hs
  split at hs
  · cases hs
    cases isDue with
    | false => exact h
    | true =>
      refine h.goTo t ⟨le_refl _, le_refl _, fun _ => ?_⟩
      rcases hdue rfl with hflag | hlast
      · exact .inr fun hn => h.flag hn hflag
      · exact .inl fun last heq => hlast last (h.last.trans heq)
  · cases hs

theorem Inv.checkpoint (h : Inv w) (t : Thread) {c : Checkpoint} (hc : c.attempt < w.starts.length) :
    Inv (WalPolicy.goTo { w with checkpoints := w.checkpoints ++ [c] } t (.copied c)) := by
  have hadded : Inv { w with checkpoints := w.checkpoints ++ [c] } :=
    { last := h.last
      copied := fun hp i b hb hr => by
        obtain ⟨d, hd, hcopied⟩ := h.copied hp i b hb hr
        exact ⟨d, List.mem_append_left _ hd, hcopied⟩
      frames := h.frames
      stage := fun u => by
        have hu := h.stage u
        show StageOk _ (w.stage u)
        cases hst : w.stage u with
        | idle => trivial
        | due at_ starts noted =>
          rw [hst] at hu
          exact ⟨hu.1, hu.2.1, fun heq => (hu.2.2 heq).imp_right fun hsucceeded hn => (hsucceeded hn).append rfl rfl⟩
        | started k => rw [hst] at hu; exact hu
        | copied d => rw [hst] at hu; exact ⟨List.mem_append_left _ hu.1, hu.2⟩
      noted_lt := h.noted_lt
      noted := fun r hr => by
        obtain ⟨d, hd, heq⟩ := h.noted r hr
        exact ⟨d, List.mem_append_left _ hd, heq⟩
      flag := fun hn hf => (h.flag hn hf).append rfl rfl }
  exact hadded.goTo t ⟨List.mem_append_right _ (List.mem_singleton_self c), hc⟩

theorem Inv.result (h : Inv w) (t : Thread) {c : Checkpoint} (hc : w.stage t = .copied c)
    (hu : Undisturbed w (.result t)) :
    Inv (WalPolicy.goTo { w with
      policy := if c.complete then w.policy.checkpointCompleted else w.policy.attemptFailed
      noted := w.noted ++ [(c.attempt, c.complete)] } t .idle) := by
  have hstage := h.stage t
  rw [hc] at hstage
  obtain ⟨hmem, hlt⟩ := hstage
  refine Inv.goTo ?_ t trivial
  refine ⟨?_, fun hp => ?_, h.frames, h.stage, fun r hr => ?_, fun r hr => ?_, fun hn hf => ?_⟩
  · cases c.complete <;> exact h.last
  · cases hcomplete : c.complete with
    | false =>
      rw [hcomplete] at hp
      exact h.copied hp
    | true =>
      intro i b hb hr
      exact ⟨c, hmem, hcomplete, (hu c hc hcomplete).1 i b hb hr⟩
  · rcases List.mem_append.1 hr with hr | hr
    · exact h.noted_lt r hr
    · rw [List.mem_singleton] at hr
      rw [hr]
      exact hlt
  · rcases List.mem_append.1 hr with hr | hr
    · exact h.noted r hr
    · rw [List.mem_singleton] at hr
      rw [hr]
      exact ⟨c, hmem, rfl, rfl⟩
  · cases hcomplete : c.complete with
    | false =>
      rw [hcomplete] at hf
      cases hf
    | true =>
      unfold lastNoted at hn
      obtain ⟨r, hr, heq⟩ := List.any_eq_true.1 hn
      simp only [decide_eq_true_eq] at heq
      rcases List.mem_append.1 hr with hr | hr
      · -- the last attempt noted its result before: it was complete, or this one is later
        obtain ⟨d, hd, hattempt, hd'⟩ := h.noted r hr
        cases hr2 : r.2 with
        | true => exact succeeded_of_own hd (hattempt ▸ heq) (hd'.trans hr2)
        | false =>
          have hbefore := (hu c hc hcomplete).2 r.1 (hr2 ▸ hr)
          omega
      · rw [List.mem_singleton] at hr
        rw [hr] at heq
        exact succeeded_of_own hmem heq hcomplete

theorem Inv.step {w' : World} {a : Action} (h : Inv w) (ha : Undisturbed w a) (hs : step w a = some w') : Inv w' := by
  cases a with
  | tick d =>
    dsimp only [WalPolicy.step] at hs
    split at hs
    · rename_i hd
      cases hs
      exact h.settings (by linarith) rfl rfl rfl
    · cases hs
  | noteArmed =>
    cases hs
    unfold Policy.noteArmed
    split <;> exact h.settings (le_refl _) rfl rfl rfl
  | setPageSize bytes =>
    cases hs
    exact h.settings (le_refl _) rfl rfl rfl
  | commit t frames =>
    dsimp only [WalPolicy.step] at hs
    split at hs
    · rename_i hc
      cases hs
      exact h.commit t hc.2
    · cases hs
  | record t =>
    dsimp only [WalPolicy.step] at hs
    split at hs
    · cases hs
      exact h.record t
    · cases hs
  | checkSize t => exact h.check t sizeDue_cases hs
  | checkTimer t => exact h.check t (fun hdue => .inr (timerDue_last hdue)) hs
  | abandon t =>
    dsimp only [WalPolicy.step] at hs
    split at hs
    · cases hs
      exact h.goTo t trivial
    · cases hs
  | start t =>
    dsimp only [WalPolicy.step] at hs
    split at hs
    · cases hs
      exact h.begin_ t
    · cases hs
  | startUnasked t =>
    dsimp only [WalPolicy.step] at hs
    split at hs
    · cases hs
      exact h.begin_ t
    · cases hs
  | checkpoint t row =>
    dsimp only [WalPolicy.step] at hs
    split at hs
    · rename_i k hk
      cases hs
      have hstage := h.stage t
      rw [hk] at hstage
      exact h.checkpoint t hstage
    · cases hs
  | result t =>
    dsimp only [WalPolicy.step] at hs
    split at hs
    · rename_i c hc
      cases hs
      exact h.result t hc ha
    · cases hs

end

theorem Reached.inv {w : World} (h : Reached w) : Inv w := by
  induction h with
  | initial => exact inv_initial
  | step _ ha hs ih => exact ih.step ha hs

theorem spaced_of_start {w w' : World} {t : Thread} (h : Inv w) (ha : Undisturbed w (.start t))
    (hs : step w (.start t) = some w') : Spaced w := by
  dsimp only [step] at hs
  split at hs
  · rename_i at_ starts noted hst
    have hstage := h.stage t
    rw [hst] at hstage
    obtain ⟨hnow, -, hdue⟩ := hstage
    obtain ⟨hstarts, hseen⟩ := ha at_ starts noted hst
    have hago : (∀ last, w.starts.getLast? = some last → TIMER_SECONDS ≤ at_ - last) →
        ∀ last, w.starts.getLast? = some last → TIMER_SECONDS ≤ w.now - last := fun hlast last heq => by
      have := hlast last heq
      linarith
    rcases hdue hstarts with hlast | hsucceeded
    · exact .inl (hago hlast)
    · rcases hseen with hnoted | hlast
      · exact .inr (hsucceeded hnoted)
      · exact .inl (hago hlast)
  · cases hs

def Quiet : Action → Prop
  | .result _ => False
  | .start _ => False
  | _ => True

theorem Reached.run : ∀ {as : List Action} {w w' : World}, (∀ a ∈ as, Quiet a) → Reached w →
    run w as = some w' → Reached w'
  | [], _, _, _, h, hr => by cases hr; exact h
  | a :: as, w, w', hq, h, hr => by
    obtain ⟨w₁, hs, hr⟩ := Option.bind_eq_some_iff.1 hr
    have ha : Undisturbed w a := by
      have hqa := hq a (List.mem_cons_self ..)
      cases a with
      | result t => cases hqa
      | start t => cases hqa
      | _ => trivial
    exact Reached.run (fun b hb => hq b (List.mem_cons_of_mem _ hb)) (h.step ha hs) hr

def losing : List Action :=
  [.noteArmed, .commit 1 5, .record 1, .tick 60, .checkTimer 0, .start 0, .checkpoint 0 (some [some 0, some 5, some 5]),
    .commit 1 7, .record 1, .result 0]

def hammering : List Action :=
  [.noteArmed, .tick 60, .commit 1 5000, .record 1, .checkSize 1, .checkTimer 0, .start 0,
    .checkpoint 0 (some [some 0, some 5000, some 10]), .result 0]

def asking : List Action := [.noteArmed, .tick 60, .checkTimer 0]

end Cctally.WalPolicy
