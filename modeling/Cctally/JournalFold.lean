import Cctally.Journal
import Cctally.Except

/-!
# What the record fold retains

Reading an entry does not depend on the fold, and applying a reading never
raises. The first marker of each phase and the first action of each sequence
stay; every later one that differs adds to a log of taints.
-/

namespace Cctally

/-! ## Reading a list -/

section
variable (rt : Runtime)

def readEntries : List Json → Nat → Py (List Reading)
  | [], _ => pure []
  | entry :: entries, s => do
    let r ← readEntry rt entry s
    let rs ← readEntries entries (s + 1)
    pure (r :: rs)

def SelectorFold.applyAll : SelectorFold → Nat → List Reading → SelectorFold
  | fold, _, [] => fold
  | fold, s, r :: rs => applyAll (fold.apply rt s r) (s + 1) rs

variable {rt}

theorem readEntries_cons {entry : Json} {entries : List Json} {s : Nat} {rs : List Reading} :
    readEntries rt (entry :: entries) s = .ok rs ↔
      ∃ r rs', readEntry rt entry s = .ok r ∧ readEntries rt entries (s + 1) = .ok rs' ∧ rs = r :: rs' := by
  simp only [readEntries, Except.bind_eq_ok, Except.pure_eq_ok]
  constructor
  · rintro ⟨r, hr, rs', hrs, rfl⟩; exact ⟨r, rs', hr, hrs, rfl⟩
  · rintro ⟨r, rs', hr, hrs, rfl⟩; exact ⟨r, hr, rs', hrs, rfl⟩

theorem readEntries_length : ∀ {entries : List Json} {s : Nat} {rs : List Reading},
    readEntries rt entries s = .ok rs → rs.length = entries.length
  | [], _, _, h => by cases h; rfl
  | _ :: _, _, _, h => by
    obtain ⟨r, rs', -, hrs, rfl⟩ := readEntries_cons.mp h
    simp [readEntries_length hrs]

theorem readEntries_append : ∀ {P D : List Json} {s : Nat} {rs : List Reading},
    readEntries rt (P ++ D) s = .ok rs ↔
      ∃ rs₁ rs₂, readEntries rt P s = .ok rs₁ ∧ readEntries rt D (s + P.length) = .ok rs₂ ∧ rs = rs₁ ++ rs₂
  | [], D, s, rs => by simp [readEntries]
  | entry :: P, D, s, rs => by
    have hs : s + (entry :: P).length = s + 1 + P.length := by simp; omega
    rw [List.cons_append, readEntries_cons, hs]
    constructor
    · rintro ⟨r, rs', hr, hrs, rfl⟩
      obtain ⟨rs₁, rs₂, h₁, h₂, rfl⟩ := readEntries_append.mp hrs
      exact ⟨r :: rs₁, rs₂, readEntries_cons.mpr ⟨r, rs₁, hr, h₁, rfl⟩, h₂, rfl⟩
    · rintro ⟨rs₁, rs₂, h₁, h₂, rfl⟩
      obtain ⟨r, rs', hr, hrs, rfl⟩ := readEntries_cons.mp h₁
      exact ⟨r, rs' ++ rs₂, hr, readEntries_append.mpr ⟨rs', rs₂, hrs, h₂, rfl⟩, rfl⟩

theorem readEntries_getElem : ∀ {entries : List Json} {s : Nat} {rs : List Reading},
    readEntries rt entries s = .ok rs → ∀ {i : Nat} {entry : Json}, entries[i]? = some entry →
      ∃ r, rs[i]? = some r ∧ readEntry rt entry (s + i) = .ok r
  | [], _, _, _, i, entry, hi => by simp at hi
  | _ :: _, s, _, h, i, entry, hi => by
    obtain ⟨r, rs', hr, hrs, rfl⟩ := readEntries_cons.mp h
    cases i with
    | zero => simp only [List.getElem?_cons_zero, Option.some.injEq] at hi; subst hi; exact ⟨r, rfl, hr⟩
    | succ i =>
      rw [List.getElem?_cons_succ] at hi
      obtain ⟨r', h₁, h₂⟩ := readEntries_getElem hrs hi
      exact ⟨r', h₁, by rw [show s + (i + 1) = s + 1 + i by omega]; exact h₂⟩

theorem foldRecords_eq_ok : ∀ {entries : List Json} {fold : SelectorFold} {s : Nat} {r : SelectorFold × Nat},
    foldRecords rt fold entries s = .ok r ↔
      ∃ rs, readEntries rt entries s = .ok rs ∧ r = (fold.applyAll rt s rs, s + entries.length)
  | [], fold, s, r => by
    simp only [foldRecords, readEntries, Except.pure_eq_ok, List.length_nil, Nat.add_zero]
    constructor
    · rintro rfl; exact ⟨[], rfl, rfl⟩
    · rintro ⟨_, rfl, rfl⟩; rfl
  | entry :: entries, fold, s, r => by
    have hs : s + (entry :: entries).length = s + 1 + entries.length := by simp; omega
    simp only [foldRecords, foldOne, Except.bind_eq_ok, Except.map_eq_ok, hs]
    constructor
    · rintro ⟨_, ⟨x, hx, rfl⟩, h⟩
      obtain ⟨rs, hrs, rfl⟩ := foldRecords_eq_ok.mp h
      exact ⟨x :: rs, readEntries_cons.mpr ⟨x, rs, hx, hrs, rfl⟩, rfl⟩
    · rintro ⟨_, h, rfl⟩
      obtain ⟨x, rs, hx, hrs, rfl⟩ := readEntries_cons.mp h
      exact ⟨_, ⟨x, hx, rfl⟩, foldRecords_eq_ok.mpr ⟨rs, hrs, rfl⟩⟩

theorem applyAll_append : ∀ (rs₁ rs₂ : List Reading) (fold : SelectorFold) (s : Nat),
    fold.applyAll rt s (rs₁ ++ rs₂) = (fold.applyAll rt s rs₁).applyAll rt (s + rs₁.length) rs₂
  | [], _, _, _ => rfl
  | r :: rs₁, rs₂, fold, s => by
    rw [List.cons_append, SelectorFold.applyAll, applyAll_append rs₁ rs₂, SelectorFold.applyAll]
    congr 1; simp; omega

structure Taints where
  batches : Finset String
  violations : Dict (String × String × String) ProtocolViolation
  availableAfter : Dict String Nat

abbrev TaintLog := List (ProtocolViolation × Nat)

def SelectorFold.taints (fold : SelectorFold) : Taints :=
  ⟨fold.taintedBatches, fold.violations, fold.violationAvailableAfter⟩

variable (rt) in
def Taints.add (t : Taints) (entry : ProtocolViolation × Nat) : Taints :=
  let fingerprint := entry.1.fingerprint rt
  ⟨insert entry.1.batchId t.batches, t.violations.set (entry.1.batchId, entry.1.kind, fingerprint) entry.1,
    t.availableAfter.set fingerprint (min entry.2 ((t.availableAfter.get? fingerprint).getD entry.2))⟩

variable (rt) in
def Taints.addAll (t : Taints) (log : TaintLog) : Taints := log.foldl (Taints.add rt) t

theorem taintAll_taints : ∀ (log : TaintLog) (fold : SelectorFold),
    (fold.taintAll rt log).taints = fold.taints.addAll rt log
  | [], _ => rfl
  | entry :: log, fold => taintAll_taints log (fold.taint rt entry.1 entry.2)

theorem taintAll_frame : ∀ (log : TaintLog) (fold : SelectorFold),
    fold.taintAll rt log = { fold with
      taintedBatches := (fold.taints.addAll rt log).batches
      violations := (fold.taints.addAll rt log).violations
      violationAvailableAfter := (fold.taints.addAll rt log).availableAfter }
  | [], _ => rfl
  | entry :: log, fold => taintAll_frame log (fold.taint rt entry.1 entry.2)

theorem addAll_append (t : Taints) (l₁ l₂ : TaintLog) :
    t.addAll rt (l₁ ++ l₂) = (t.addAll rt l₁).addAll rt l₂ := List.foldl_append ..

theorem mem_addAll_batches {b : String} : ∀ {log : TaintLog} {t : Taints},
    b ∈ (t.addAll rt log).batches ↔ b ∈ t.batches ∨ ∃ entry ∈ log, entry.1.batchId = b
  | [], t => by simp [Taints.addAll]
  | entry :: log, t => by
    have ih := @mem_addAll_batches b log (t.add rt entry)
    rw [show t.addAll rt (entry :: log) = (t.add rt entry).addAll rt log from rfl, ih]
    simp only [Taints.add, Finset.mem_insert, List.mem_cons, exists_eq_or_imp, @eq_comm _ b]
    tauto

end

/-! ## First-seen markers and actions -/

def Reading.marker? (r : Reading) (s : Nat) (b : String) (ph : Phase) : Option Marker :=
  match r with
  | .marker b' ph' core digest identity => if b' = b ∧ ph' = ph then some ⟨core, digest, identity, s⟩ else none
  | _ => none

def Reading.action? (r : Reading) (s : Nat) (b : String) (k : Nat) : Option BatchAction :=
  match r with
  | .action c digest => if c.batch = b ∧ c.seq = k then some ⟨some c, digest, s⟩ else none
  | _ => none

def firstMarker (b : String) (ph : Phase) : Nat → List Reading → Option Marker
  | _, [] => none
  | s, r :: rs => (r.marker? s b ph).or (firstMarker b ph (s + 1) rs)

def firstAction (b : String) (k : Nat) : Nat → List Reading → Option BatchAction
  | _, [] => none
  | s, r :: rs => (r.action? s b k).or (firstAction b k (s + 1) rs)

section
variable {rt : Runtime}

theorem addMarker_actions (fold : SelectorFold) (b : String) (ph : Phase) (m : Marker) :
    (fold.addMarker rt b ph m).actions = fold.actions := by
  unfold SelectorFold.addMarker
  split
  · split
    · rfl
    · rfl
  · rfl

theorem addAction_markers (fold : SelectorFold) (b : String) (k : Nat) (a : BatchAction) :
    (fold.addAction rt b k a).markers = fold.markers := by
  unfold SelectorFold.addAction
  split
  · split
    · rfl
    · rfl
  · rfl

theorem marker_addMarker (fold : SelectorFold) (b b' : String) (ph ph' : Phase) (m : Marker) :
    (fold.addMarker rt b ph m).marker b' ph' =
      (fold.marker b' ph').or (if b = b' ∧ ph = ph' then some m else none) := by
  unfold SelectorFold.addMarker
  cases h : fold.marker b ph with
  | some prior =>
    have hm : ∀ f : SelectorFold, f.markers = fold.markers → f.marker b' ph' =
        (fold.marker b' ph').or (if b = b' ∧ ph = ph' then some m else none) := by
      intro f hf
      have hf' : f.marker b' ph' = fold.marker b' ph' := by rw [SelectorFold.marker, hf]; rfl
      rw [hf']
      split
      · rename_i he; rw [← he.1, ← he.2, h]; rfl
      · rw [Option.or_none]
    simp only
    split
    · exact hm _ rfl
    · exact hm _ rfl
  | none =>
    simp only [SelectorFold.marker, Dict.getSub?_setSub]
    split
    · rename_i he
      rw [← he.1, ← he.2, show fold.markers.getSub? b ph = none from h]; rfl
    · rw [Option.or_none]

theorem action_addAction (fold : SelectorFold) (b b' : String) (k k' : Nat) (a : BatchAction) :
    (fold.addAction rt b k a).action b' k' =
      (fold.action b' k').or (if b = b' ∧ k = k' then some a else none) := by
  unfold SelectorFold.addAction
  cases h : fold.action b k with
  | some prior =>
    have hm : ∀ f : SelectorFold, f.actions = fold.actions → f.action b' k' =
        (fold.action b' k').or (if b = b' ∧ k = k' then some a else none) := by
      intro f hf
      have hf' : f.action b' k' = fold.action b' k' := by rw [SelectorFold.action, hf]; rfl
      rw [hf']
      split
      · rename_i he; rw [← he.1, ← he.2, h]; rfl
      · rw [Option.or_none]
    simp only
    split
    · exact hm _ rfl
    · exact hm _ rfl
  | none =>
    simp only [SelectorFold.action, Dict.getSub?_setSub]
    split
    · rename_i he
      rw [← he.1, ← he.2, show fold.actions.getSub? b k = none from h]; rfl
    · rw [Option.or_none]

theorem marker_apply (fold : SelectorFold) (s : Nat) (r : Reading) (b : String) (ph : Phase) :
    (fold.apply rt s r).marker b ph = (fold.marker b ph).or (r.marker? s b ph) := by
  cases r with
  | marker b' ph' core digest identity => exact marker_addMarker ..
  | action c digest =>
    simp only [Reading.marker?, Option.or_none, SelectorFold.marker, SelectorFold.apply, addAction_markers]
  | _ => simp only [Reading.marker?, Option.or_none, SelectorFold.marker, SelectorFold.apply]

theorem action_apply (fold : SelectorFold) (s : Nat) (r : Reading) (b : String) (k : Nat) :
    (fold.apply rt s r).action b k = (fold.action b k).or (r.action? s b k) := by
  cases r with
  | marker b' ph' core digest identity =>
    simp only [Reading.action?, Option.or_none, SelectorFold.action, SelectorFold.apply, addMarker_actions]
  | action c digest => exact action_addAction ..
  | _ => simp only [Reading.action?, Option.or_none, SelectorFold.action, SelectorFold.apply]

theorem marker_applyAll (b : String) (ph : Phase) : ∀ (rs : List Reading) (fold : SelectorFold) (s : Nat),
    (fold.applyAll rt s rs).marker b ph = (fold.marker b ph).or (firstMarker b ph s rs)
  | [], fold, s => by simp [SelectorFold.applyAll, firstMarker]
  | r :: rs, fold, s => by
    rw [SelectorFold.applyAll, marker_applyAll b ph rs, marker_apply, firstMarker, Option.or_assoc]

theorem action_applyAll (b : String) (k : Nat) : ∀ (rs : List Reading) (fold : SelectorFold) (s : Nat),
    (fold.applyAll rt s rs).action b k = (fold.action b k).or (firstAction b k s rs)
  | [], fold, s => by simp [SelectorFold.applyAll, firstAction]
  | r :: rs, fold, s => by
    rw [SelectorFold.applyAll, action_applyAll b k rs, action_apply, firstAction, Option.or_assoc]

theorem firstMarker_range (b : String) (ph : Phase) : ∀ {rs : List Reading} {s : Nat} {m : Marker},
    firstMarker b ph s rs = some m → s ≤ m.sequence ∧ m.sequence < s + rs.length
  | r :: rs, s, m, h => by
    rw [firstMarker, Option.or_eq_some_iff] at h
    rcases h with h | ⟨-, h⟩
    · cases r with
      | marker b' ph' core digest identity =>
        simp only [Reading.marker?, Option.ite_none_right_eq_some, Option.some.injEq] at h
        rw [← h.2]; simp
      | _ => cases h
    · have := firstMarker_range b ph h
      rw [List.length_cons]; omega

theorem firstAction_range (b : String) (k : Nat) : ∀ {rs : List Reading} {s : Nat} {a : BatchAction},
    firstAction b k s rs = some a → s ≤ a.sequence ∧ a.sequence < s + rs.length
  | r :: rs, s, a, h => by
    rw [firstAction, Option.or_eq_some_iff] at h
    rcases h with h | ⟨-, h⟩
    · cases r with
      | action c digest =>
        simp only [Reading.action?, Option.ite_none_right_eq_some, Option.some.injEq] at h
        rw [← h.2]; simp
      | _ => cases h
    · have := firstAction_range b k h
      rw [List.length_cons]; omega

def Reading.conflicts (r : Reading) (fold : SelectorFold) (s : Nat) : TaintLog :=
  match r with
  | .marker b ph _ digest _ =>
    match fold.marker b ph with
    | some prior =>
      if prior.digest ≠ digest then [(⟨b, .markerConflict ph prior.digest digest⟩, max prior.sequence s)] else []
    | none => []
  | .action c digest =>
    match fold.action c.batch c.seq with
    | some prior =>
      if prior.digest ≠ digest then
        [(⟨c.batch, .actionSequenceConflict c.seq prior.digest digest⟩, max prior.sequence s)]
      else []
    | none => []
  | _ => []

variable (rt) in
def conflictLog : SelectorFold → Nat → List Reading → TaintLog
  | _, _, [] => []
  | fold, s, r :: rs => r.conflicts fold s ++ conflictLog (fold.apply rt s r) (s + 1) rs

theorem taints_apply (fold : SelectorFold) (s : Nat) (r : Reading) :
    (fold.apply rt s r).taints = fold.taints.addAll rt (r.conflicts fold s) := by
  cases r with
  | marker b ph core digest identity =>
    simp only [SelectorFold.apply, SelectorFold.addMarker, Reading.conflicts]
    cases fold.marker b ph with
    | none => rfl
    | some prior => simp only; split <;> rfl
  | action c digest =>
    simp only [SelectorFold.apply, SelectorFold.addAction, Reading.conflicts]
    cases fold.action c.batch c.seq with
    | none => rfl
    | some prior => simp only; split <;> rfl
  | _ => rfl

theorem taints_applyAll : ∀ (rs : List Reading) (fold : SelectorFold) (s : Nat),
    (fold.applyAll rt s rs).taints = fold.taints.addAll rt (conflictLog rt fold s rs)
  | [], _, _ => rfl
  | r :: rs, fold, s => by
    rw [SelectorFold.applyAll, taints_applyAll rs, taints_apply, ← addAll_append, conflictLog]

def Reading.candidate? : Reading → Option EffectiveEvent
  | .evt candidate => some candidate
  | _ => none

def resolutionsOf : Nat → List Reading → List (Nat × Resolution)
  | _, [] => []
  | s, .resolution res :: rs => (s, res) :: resolutionsOf (s + 1) rs
  | s, _ :: rs => resolutionsOf (s + 1) rs

theorem addMarker_rest (fold : SelectorFold) (b : String) (ph : Phase) (m : Marker) :
    (fold.addMarker rt b ph m).candidates = fold.candidates ∧
    (fold.addMarker rt b ph m).resolutions = fold.resolutions ∧
    (fold.addMarker rt b ph m).completed = fold.completed := by
  unfold SelectorFold.addMarker
  split
  · split <;> exact ⟨rfl, rfl, rfl⟩
  · exact ⟨rfl, rfl, rfl⟩

theorem addAction_rest (fold : SelectorFold) (b : String) (k : Nat) (a : BatchAction) :
    (fold.addAction rt b k a).candidates = fold.candidates ∧
    (fold.addAction rt b k a).resolutions = fold.resolutions ∧
    (fold.addAction rt b k a).completed = fold.completed := by
  unfold SelectorFold.addAction
  split
  · split <;> exact ⟨rfl, rfl, rfl⟩
  · exact ⟨rfl, rfl, rfl⟩

theorem candidates_applyAll : ∀ (rs : List Reading) (fold : SelectorFold) (s : Nat),
    (fold.applyAll rt s rs).candidates = fold.candidates ++ rs.filterMap Reading.candidate?
  | [], fold, s => by simp [SelectorFold.applyAll]
  | r :: rs, fold, s => by
    rw [SelectorFold.applyAll, candidates_applyAll rs]
    cases r with
    | marker b ph core digest identity =>
      rw [SelectorFold.apply, (addMarker_rest ..).1]; rfl
    | action c digest => rw [SelectorFold.apply, (addAction_rest ..).1]; rfl
    | evt candidate => simp [SelectorFold.apply, Reading.candidate?]
    | _ => rfl

theorem completed_applyAll : ∀ (rs : List Reading) (fold : SelectorFold) (s : Nat),
    (fold.applyAll rt s rs).completed = fold.completed
  | [], _, _ => rfl
  | r :: rs, fold, s => by
    rw [SelectorFold.applyAll, completed_applyAll rs]
    cases r with
    | marker b ph core digest identity => exact (addMarker_rest ..).2.2
    | action c digest => exact (addAction_rest ..).2.2
    | _ => rfl

theorem resolutions_applyAll : ∀ (rs : List Reading) (fold : SelectorFold) (s : Nat),
    (fold.applyAll rt s rs).resolutions = fold.resolutions ++ resolutionsOf s rs
  | [], fold, s => by simp [SelectorFold.applyAll, resolutionsOf]
  | r :: rs, fold, s => by
    rw [SelectorFold.applyAll, resolutions_applyAll rs]
    cases r with
    | marker b ph core digest identity => rw [SelectorFold.apply, (addMarker_rest ..).2.1]; rfl
    | action c digest => rw [SelectorFold.apply, (addAction_rest ..).2.1]; rfl
    | resolution res => simp [SelectorFold.apply, resolutionsOf]
    | _ => rfl

end

end Cctally
