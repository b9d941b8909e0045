import Cctally.QuarantineAgree
import Cctally.QuarantineTables
import Cctally.WriteBehind

/-!
# Every change is marked

A transition that starts no generation marks each scope, control witness, account,
episode and clock that it changes.
-/

namespace Cctally.Quarantine

open State

/-! ## Episodes at rest -/

def Matches (dirty : List Coordinate) : List Episode → List Episode → Prop
  | [], eps => ∀ e ∈ eps, e.opener ∈ dirty
  | _ :: _, [] => False
  | row :: rows, e :: eps =>
    row.opener = e.opener ∧ row.openedAt = e.openedAt ∧ (row = e ∨ e.opener ∈ dirty) ∧ Matches dirty rows eps

def openers (eps : List Episode) : List Coordinate := eps.map Episode.opener

theorem Matches.mono {dirty dirty' : List Coordinate} (hd : ∀ k ∈ dirty, k ∈ dirty') :
    ∀ {rows eps : List Episode}, Matches dirty rows eps → Matches dirty' rows eps
  | [], _, h => fun e he => hd _ (h e he)
  | _ :: _, _ :: _, ⟨h₁, h₂, h₃, h⟩ => ⟨h₁, h₂, h₃.imp_right (hd _), h.mono hd⟩

theorem Matches.snoc {dirty : List Coordinate} {e : Episode} (he : e.opener ∈ dirty) :
    ∀ {rows eps : List Episode}, Matches dirty rows eps → Matches dirty rows (eps ++ [e])
  | [], eps, h => by
    intro f hf
    rcases List.mem_append.1 hf with hf | hf
    · exact h f hf
    · rwa [List.mem_singleton.1 hf]
  | _ :: _, _ :: _, ⟨h₁, h₂, h₃, h⟩ => ⟨h₁, h₂, h₃, h.snoc he⟩

inductive Closers (dirty : List Coordinate) : List Episode → List Episode → Prop
  | nil : Closers dirty [] []
  | keep {e eps eps'} : Closers dirty eps eps' → Closers dirty (e :: eps) (e :: eps')
  | close {e eps eps' closer closedAt} : e.opener ∈ dirty → Closers dirty eps eps' →
      Closers dirty (e :: eps) ({ e with closer := closer, closedAt := closedAt } :: eps')

theorem Closers.refl (dirty : List Coordinate) : ∀ eps, Closers dirty eps eps
  | [] => .nil
  | _ :: eps => .keep (Closers.refl dirty eps)

theorem Closers.openers {dirty : List Coordinate} {eps eps' : List Episode} (h : Closers dirty eps eps') :
    openers eps' = openers eps := by
  induction h with
  | nil => rfl
  | @keep e _ _ _ ih => exact congrArg (e.opener :: ·) ih
  | @close e _ _ _ _ _ _ ih => exact congrArg (e.opener :: ·) ih

theorem Closers.matches {dirty : List Coordinate} {rows eps eps' : List Episode} (h : Closers dirty eps eps')
    (hm : Matches dirty rows eps) : Matches dirty rows eps' := by
  induction h generalizing rows with
  | nil => exact hm
  | @keep e eps eps' _ ih =>
    cases rows with
    | nil =>
      have htail : Matches dirty [] eps := fun f hf => hm f (List.mem_cons_of_mem _ hf)
      intro f hf
      rcases List.mem_cons.1 hf with rfl | hf
      · exact hm f List.mem_cons_self
      · exact ih htail f hf
    | cons row rows => exact ⟨hm.1, hm.2.1, hm.2.2.1, ih hm.2.2.2⟩
  | @close e eps eps' _ _ he _ ih =>
    cases rows with
    | nil =>
      have htail : Matches dirty [] eps := fun f hf => hm f (List.mem_cons_of_mem _ hf)
      intro f hf
      rcases List.mem_cons.1 hf with rfl | hf
      · exact he
      · exact ih htail f hf
    | cons row rows => exact ⟨hm.1, hm.2.1, .inr he, ih hm.2.2.2⟩

theorem closers_modifyOpen {dirty : List Coordinate} {closer : Option Coordinate} {closedAt : Option String} :
    ∀ {eps : List Episode}, (∀ e, eps.reverse.find? Episode.isOpen = some e → e.opener ∈ dirty) →
      Closers dirty eps (modifyOpen (fun e => { e with closer := closer, closedAt := closedAt }) eps)
  | [], _ => .nil
  | e :: eps, h => by
    have hrev : (e :: eps).reverse.find? Episode.isOpen =
        (eps.reverse.find? Episode.isOpen).or (if e.isOpen then some e else none) := by
      rw [List.reverse_cons, List.find?_append]
      cases he : e.isOpen <;> simp [he]
    rw [hrev] at h
    unfold modifyOpen
    cases hf : eps.reverse.find? Episode.isOpen with
    | some f =>
      have hany : eps.any Episode.isOpen = true := by
        have := List.find?_some hf
        exact List.any_eq_true.2 ⟨f, List.mem_reverse.1 (List.mem_of_find?_eq_some hf), this⟩
      rw [if_pos hany]
      refine .keep (closers_modifyOpen fun g hg => h g ?_)
      rw [hf] at hg ⊢
      cases hg
      rfl
    | none =>
      have hany : ¬ eps.any Episode.isOpen = true := by
        rw [List.any_eq_true]
        rintro ⟨g, hg, hgo⟩
        have := List.find?_eq_none.1 hf g (List.mem_reverse.2 hg)
        exact this hgo
      rw [if_neg hany]
      split
      · rename_i he
        refine .close (h e ?_) (Closers.refl dirty eps)
        rw [hf, Option.none_or, if_pos he]
      · exact .refl dirty _

theorem closers_modifyKey {dirty : List Coordinate} {key : Coordinate} (hk : key ∈ dirty) {closer : Option Coordinate}
    {closedAt : Option String} : ∀ eps : List Episode,
      Closers dirty eps (modifyKey key (fun e => { e with closer := closer, closedAt := closedAt }) eps)
  | [] => .nil
  | e :: eps => by
    unfold modifyKey
    split
    · rename_i he
      exact .close (he ▸ hk) (Closers.refl dirty eps)
    · exact .keep (closers_modifyKey hk eps)

def EpisodesStored (rows : List Episode) (s : State) : Prop :=
  Matches s.dirtyEpisodes rows s.episodes ∧ (openers s.episodes).Nodup

/-! ## Marks -/

def metaOf (s : State) : Meta := ⟨s.cohort, s.expired, s.maxAdmittedAt⟩

structure Marks (s s' : State) : Prop where
  generation : s'.generation = s.generation
  latestTrigger : s'.latestTrigger = s.latestTrigger
  newTriggers : s'.newTriggers = s.newTriggers
  episodes : ∀ rows, EpisodesStored rows s → EpisodesStored rows s'
  scope : Marked s.scope s'.scope s.dirtyBounds s'.dirtyBounds
  control : Marked s.control.get? s'.control.get? s.dirtyControl s'.dirtyControl
  axis : Marked s.axis s'.axis s.dirtyAccounts s'.dirtyAccounts
  metaRow : s'.dirtyMeta = false → s.dirtyMeta = false ∧ metaOf s' = metaOf s
  nonInert : s'.nonInertCrossPeriod = s.nonInertCrossPeriod

namespace Marks

variable {s s' s'' : State}

theorem refl (s : State) : Marks s s :=
  ⟨rfl, rfl, rfl, fun _ h => h, .refl _ _, .refl _ _, .refl _ _, fun h => ⟨h, rfl⟩, rfl⟩

theorem trans (h : Marks s s') (h' : Marks s' s'') : Marks s s'' where
  generation := h'.generation.trans h.generation
  latestTrigger := h'.latestTrigger.trans h.latestTrigger
  newTriggers := h'.newTriggers.trans h.newTriggers
  episodes rows hr := h'.episodes rows (h.episodes rows hr)
  scope := h.scope.trans h'.scope
  control := h.control.trans h'.control
  axis := h.axis.trans h'.axis
  metaRow hm := by
    obtain ⟨hm, he'⟩ := h'.metaRow hm
    obtain ⟨hm, he⟩ := h.metaRow hm
    exact ⟨hm, he'.trans he⟩
  nonInert := h'.nonInert.trans h.nonInert

theorem foldl {α : Type*} {f : State → α → State} (hf : ∀ s x, Marks s (f s x)) : ∀ (l : List α) (s : State),
    Marks s (l.foldl f s)
  | [], s => refl s
  | x :: l, s => (hf s x).trans (foldl hf l _)

theorem setScope (s : State) (name : String) (value : ScopeBounds) : Marks s (s.setScope name value) := by
  unfold State.setScope
  split
  · exact refl s
  · refine ⟨rfl, rfl, rfl, fun _ h => h, marked_append (l := [name]) fun m hm => ?_, .refl _ _, .refl _ _, fun h => ⟨h, rfl⟩, rfl⟩
    rw [State.scope, State.scope, Dict.get?_set_ne _ _ fun h => hm (by rw [h]; exact List.mem_singleton_self m)]

theorem touchAllAccounts (s : State) : Marks s s.touchAllAccounts :=
  ⟨rfl, rfl, rfl, fun _ h => h, .refl _ _, .refl _ _, marked_append fun _ _ => rfl, fun h => ⟨h, rfl⟩, rfl⟩

theorem setAxis (s : State) (a : String) (x : Axis) (rec_ : AxisRecovery) : Marks s (s.setAxis a x rec_) := by
  refine ⟨rfl, rfl, rfl, fun _ h => h, .refl _ _, .refl _ _, marked_append (l := [a]) fun b hb => ?_, fun h => ⟨h, rfl⟩, rfl⟩
  funext y
  rw [axis_setAxis, if_neg fun h => hb (by rw [h.1]; exact List.mem_singleton_self b)]

theorem rewrite (s : State) (a : String) (x : Axis) (new : Option AxisRecovery) : Marks s (s.rewrite a x new) := by
  cases new with
  | none => exact refl s
  | some rec_ => exact setAxis s a x rec_

theorem onControlWitness (s : State) (a : String) (w : ControlWitness) : Marks s (s.onControlWitness a w) := by
  unfold State.onControlWitness
  split
  · exact refl s
  split
  · exact refl s
  refine ⟨rfl, rfl, rfl, fun _ h => h, .refl _ _, marked_append (l := [a]) fun b hb => ?_, .refl _ _, fun h => ⟨h, rfl⟩, rfl⟩
  rw [Dict.get?_set_ne _ _ fun h => hb (by rw [h]; exact List.mem_singleton_self b)]

theorem clock {s s' : State} (hs : s' = { s with
    cohort := s'.cohort, expired := s'.expired, maxAdmittedAt := s'.maxAdmittedAt, dirtyMeta := true }) : Marks s s' := by
  rw [hs]
  exact ⟨rfl, rfl, rfl, fun _ h => h, .refl _ _, .refl _ _, .refl _ _, nofun, rfl⟩

theorem noteAdmitted (s : State) (t : Option Int) : Marks s (s.noteAdmitted t) := by
  unfold State.noteAdmitted
  split
  · exact refl s
  split
  · exact clock rfl
  · exact refl s

theorem noteClock (s : State) (t : Option Int) : Marks s (s.noteClock t) := by
  unfold State.noteClock
  split
  · split
    · exact (clock rfl).trans (touchAllAccounts _)
    · exact refl s
  · exact refl s

theorem noteTimes (s : State) (rec_ : Rec) : Marks s (noteTimes s rec_) :=
  (noteClock s _).trans (noteAdmitted _ _)

theorem setPosition (cal : Calendar) (s : State) : Marks s (s.setPosition cal) := by
  unfold State.setPosition
  dsimp only
  generalize Cohort.fromH cal (s.maxAdmittedAt.getD 0) = k
  generalize (⟨(s.scope COHORT_SCOPE).weekly.absorbCohort k, (s.scope COHORT_SCOPE).fiveHour.absorbCohort k⟩ : ScopeBounds) = v
  -- the marks commute: the cohort is placed and marked first
  have hmark : Marks s { s with cohort := some k, expired := false, dirtyMeta := true } := clock rfl
  have hcomm : { ({ s with cohort := some k, expired := false }.setScope COHORT_SCOPE v) with dirtyMeta := true } =
      ({ s with cohort := some k, expired := false, dirtyMeta := true }.setScope COHORT_SCOPE v) := by
    unfold State.setScope
    dsimp only
    split <;> rfl
  rw [hcomm]
  exact (hmark.trans (setScope _ _ _)).trans (touchAllAccounts _)

theorem closeCurrent (s : State) (at_ : Coordinate) (time : Option String) : Marks s (s.closeCurrent at_ time) := by
  unfold State.closeCurrent
  split
  · exact refl s
  · rename_i current hc
    refine ⟨rfl, rfl, rfl, fun rows hr => ?_, .refl _ _, .refl _ _, .refl _ _, fun h => ⟨h, rfl⟩, rfl⟩
    have hclosers : Closers (current.opener :: s.dirtyEpisodes) s.episodes
        (modifyOpen (fun e => { e with closer := some at_, closedAt := time }) s.episodes) := by
      refine closers_modifyOpen fun e he => ?_
      rw [openEpisode, he] at hc
      cases hc
      exact List.mem_cons_self
    exact ⟨hclosers.matches (hr.1.mono fun k => List.mem_cons_of_mem _), hclosers.openers ▸ hr.2⟩

theorem onEpisodeOpen (s : State) (key : Coordinate) (time : Option String) : Marks s (s.onEpisodeOpen key time) := by
  refine (closeCurrent s key time).trans ?_
  unfold State.onEpisodeOpen
  dsimp only
  generalize s.closeCurrent key time = t
  refine Marks.trans ?_ (touchAllAccounts _)
  refine ⟨rfl, rfl, rfl, fun rows hr => ?_, .refl _ _, .refl _ _, .refl _ _, nofun, rfl⟩
  have hmatches : Matches (key :: t.dirtyEpisodes) rows t.episodes := hr.1.mono fun k => List.mem_cons_of_mem _
  dsimp only [EpisodesStored]
  split
  · have hclosers : Closers (key :: t.dirtyEpisodes) t.episodes
        (modifyKey key (fun e => { e with closer := none, closedAt := none }) t.episodes) :=
      closers_modifyKey List.mem_cons_self t.episodes
    exact ⟨hclosers.matches hmatches, hclosers.openers ▸ hr.2⟩
  · rename_i hany
    have hkey : (⟨key, time, none, none⟩ : Episode).opener ∈ key :: t.dirtyEpisodes := List.mem_cons_self
    refine ⟨hmatches.snoc hkey, ?_⟩
    rw [openers, List.map_append, List.nodup_append]
    refine ⟨hr.2, List.nodup_singleton _, ?_⟩
    rintro k hk _ hk' rfl
    rw [List.map_singleton, List.mem_singleton] at hk'
    obtain ⟨e, he, rfl⟩ := List.mem_map.1 hk
    exact hany (List.any_eq_true.2 ⟨e, he, decide_eq_true hk'⟩)

theorem onEpisodeClose (s : State) (at_ : Coordinate) (time : Option String) (episode : Option Coordinate) :
    Marks s (s.onEpisodeClose at_ time episode).2 := by
  unfold State.onEpisodeClose
  split
  · exact refl s
  split
  · exact (closeCurrent s at_ time).trans (touchAllAccounts _)
  · exact refl s

theorem absorbEvent (s : State) (name : String) (event : Event) (excluded : Bool) :
    Marks s (s.absorbEvent name event excluded) := by
  cases event with
  | snapshotAccept _ _ _ _ key _ =>
    cases key with
    | none => exact setScope s name _
    | some key => exact (setScope s name _).trans (setScope _ name _)
  | weekReset => exact setScope s name _
  | fiveHourCredit key =>
    cases key with
    | none => exact refl s
    | some key => exact setScope s name _
  | weeklyCreditEffects => exact refl s
  | other => exact refl s

theorem revokeAxes (reason : Revocation) (time : Option String) (v : Bool) (axes : List Axis) (s : State) (a : String) :
    Marks s (axes.foldl (fun s x => revokeAxis reason time v s a x) s) :=
  foldl (fun s x => rewrite s a x _) axes s

theorem revokeAll (s : State) (reason : Revocation) (time : Option String) (axes : List Axis) (v : Bool) :
    Marks s (s.revokeAll reason time axes v) :=
  foldl (fun s a => revokeAxes reason time v axes s a) _ s

theorem onDeletionOutcome (s : State) (a : Option String) (time : Option String) : Marks s (s.onDeletionOutcome a time) := by
  unfold State.onDeletionOutcome
  split
  · exact refl s
  split
  · exact revokeAll s _ _ _ _
  · exact revokeAxes _ _ _ _ s _

theorem onAuthorityCompletion (s : State) (a id : String) (generation : Option Int) (observation : Option String)
    (axes : List String) : Marks s (s.onAuthorityCompletion a id generation observation axes).2 := by
  have hcover (l : List Axis) : Marks s (l.foldl (cover id a) s) := by
    have h (s : State) (x : Axis) : Marks s (cover id a s x) := setAxis s a x _
    exact foldl h l s
  unfold State.onAuthorityCompletion
  split
  · exact refl s
  split
  swap
  · exact refl s
  split
  · exact refl s
  dsimp only
  split
  · exact refl s
  split
  · exact (hcover _).trans (setScope _ a _)
  · exact hcover _

theorem onRelease (s : State) (a : String) (x : Option Axis) (generation : Option Int)
    (witness completion : Option String) (id : String) (time : Option String) :
    Marks s (s.onRelease a x generation witness completion id time).2 := by
  obtain h | ⟨y, c, -, -, -, -, -, -, -, h⟩ := onRelease_cases s a x generation witness completion id time
  · rw [h]; exact refl s
  · rw [h]; exact setAxis s a y _

theorem evaluateReading (cal : Calendar) (s : State) (a : Option String) (r : Reading) :
    Marks s (s.evaluateReading cal a r).2 := by
  cases a with
  | none => exact setScope s EXCLUDED_SCOPE _
  | some a =>
    have hsettle : Marks s (if s.hasTrigger then AXES.foldl (settleAxis cal (s.scope a) a r) s else s) := by
      split
      · exact foldl (fun s x => rewrite s a x _) AXES s
      · exact refl s
    have hwitness (m : ScopeBounds) (t : State) :
        Marks t (if t.hasTrigger && t.barrierOpen then AXES.foldl (witnessAxis m a r) t else t) := by
      split
      · exact foldl (fun s x => rewrite s a x _) AXES t
      · exact refl t
    exact (hsettle.trans (hwitness _ _)).trans (setScope _ a _)

end Marks

end Cctally.Quarantine
