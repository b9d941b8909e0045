import Mathlib.Data.List.Basic
import Mathlib.Order.Nat

/-!
# A reader of lines that may be stopped

The reader hands one complete line after the other to a step with a state. It
stops where it is told to, and before a line that is not complete in the bytes
it can see. Reading on from there, all lines are read as in one pass.
-/

namespace LineReader

section
variable {α : Type*} [DecidableEq α] (nl : α)

def readline : List α → List α
  | [] => []
  | c :: cs => if c = nl then [c] else c :: readline cs

def Complete (line : List α) : Prop := line.getLast? = some nl

instance (line : List α) : Decidable (Complete nl line) := inferInstanceAs (Decidable (_ = _))

theorem prefix_readline : ∀ l : List α, readline nl l <+: l
  | [] => List.prefix_refl []
  | c :: cs => by
    unfold readline
    split
    · exact (List.prefix_cons_inj c).2 (List.nil_prefix)
    · exact (List.prefix_cons_inj c).2 (prefix_readline cs)

variable {nl}

omit [DecidableEq α] in
theorem Complete.ne_nil {line : List α} (h : Complete nl line) : line ≠ [] := by
  rintro rfl
  cases h

omit [DecidableEq α] in
theorem complete_cons {c : α} {cs : List α} (hc : c ≠ nl) (h : Complete nl (c :: cs)) : Complete nl cs := by
  cases cs with
  | nil => exact absurd (Option.some.inj h) hc
  | cons d ds => exact h

theorem readline_of_prefix : ∀ {p l : List α}, p <+: l → Complete nl (readline nl p) → readline nl l = readline nl p
  | [], _, _, h => absurd rfl h.ne_nil
  | c :: p, [], hp, _ => absurd (List.prefix_nil.1 hp) (List.cons_ne_nil c p)
  | c :: p, d :: l, hp, h => by
    obtain ⟨rfl, hrest⟩ := List.cons_prefix_cons.1 hp
    by_cases hc : c = nl
    · rw [readline, readline, if_pos hc, if_pos hc]
    · rw [readline, if_neg hc] at h
      have htail : Complete nl (readline nl p) := complete_cons hc h
      rw [readline, readline, if_neg hc, if_neg hc, readline_of_prefix hrest htail]

theorem readline_readline : ∀ l : List α, readline nl (readline nl l) = readline nl l
  | [] => rfl
  | c :: cs => by
    by_cases hc : c = nl
    · rw [readline, if_pos hc, readline, if_pos hc]
    · rw [readline, if_neg hc, readline, if_neg hc, readline_readline cs]

theorem not_mem_of_not_complete : ∀ {l : List α}, ¬Complete nl (readline nl l) → nl ∉ l
  | [], _ => List.not_mem_nil
  | c :: cs, h => by
    by_cases hc : c = nl
    · rw [readline, if_pos hc, hc] at h
      exact absurd rfl h
    · rw [readline, if_neg hc] at h
      have hrest : ¬Complete nl (readline nl cs) := fun hcs => by
        refine h ?_
        have hne := hcs.ne_nil
        unfold Complete at hcs ⊢
        rw [List.getLast?_cons_of_ne_nil hne, hcs]
      rw [List.mem_cons, not_or]
      exact ⟨fun he => hc he.symm, not_mem_of_not_complete hrest⟩

end

/-! ## Runs -/

structure Run (σ β ε : Type*) where
  emitted : List β
  offset : Nat
  state : σ
  raised : Option ε

structure Session where
  stop : Nat → Bool
  visible : Nat → Nat

section
variable {α σ β ε : Type*} [DecidableEq α] (nl : α) (consume : Nat → List α → σ → σ × Option (Except ε β))

def Run.emit (e : β) (r : Run σ β ε) : Run σ β ε := { r with emitted := e :: r.emitted }

/-- The loop of the reader. Each turn takes at least one byte of the file, so one turn more
than it has bytes is enough. -/
def drain (file : List α) (w : Session) : Nat → Nat → σ → Run σ β ε
  | 0, offset, s => ⟨[], offset, s, none⟩
  | fuel + 1, offset, s =>
    if w.stop offset then ⟨[], offset, s, none⟩
    else
      let line := readline nl ((file.take (w.visible offset)).drop offset)
      if Complete nl line then
        match consume offset line s with
        | (s, none) => drain file w fuel (offset + line.length) s
        | (s, some (.ok e)) => (drain file w fuel (offset + line.length) s).emit e
        | (s, some (.error x)) => ⟨[], offset + line.length, s, some x⟩
      else ⟨[], offset, s, none⟩

def read (file : List α) (w : Session) (offset : Nat) (s : σ) : Run σ β ε :=
  drain nl consume file w (file.length + 1) offset s

def whole (file : List α) : Session := ⟨fun _ => false, fun _ => file.length⟩

def pass (file : List α) (offset : Nat) (s : σ) : Run σ β ε := read nl consume file (whole file) offset s

def Run.after (es : List β) (r : Run σ β ε) : Run σ β ε := { r with emitted := es ++ r.emitted }

variable {nl consume} {file : List α}

omit [DecidableEq α] in
theorem prefix_visible (file : List α) (v o : Nat) : (file.take v).drop o <+: file.drop o := by
  rw [List.drop_take]
  exact List.take_prefix _ _

theorem readline_pos {l : List α} (h : Complete nl (readline nl l)) : 0 < (readline nl l).length :=
  List.length_pos_iff.2 h.ne_nil

theorem drain_past (w : Session) {o : Nat} (ho : file.length < o) (s : σ) :
    ∀ n, drain nl consume file w n o s = ⟨[], o, s, none⟩
  | 0 => rfl
  | n + 1 => by
    have hnil : (file.take (w.visible o)).drop o = [] := by
      rw [List.drop_eq_nil_iff, List.length_take]
      omega
    have hinc : ¬Complete nl (readline nl ([] : List α)) := fun h => h.ne_nil rfl
    unfold drain
    dsimp only
    rw [hnil, if_neg hinc, ite_self]

theorem drain_enough (w : Session) : ∀ (m n o : Nat) (s : σ), file.length < m + o → file.length < n + o →
    drain nl consume file w m o s = drain nl consume file w n o s
  | 0, n, o, s, hm, _ => by rw [drain_past w (by omega), drain_past w (by omega)]
  | m + 1, 0, o, s, _, hn => by rw [drain_past w (by omega), drain_past w (by omega)]
  | m + 1, n + 1, o, s, hm, hn => by
    unfold drain
    split
    · rfl
    dsimp only
    split
    case isTrue hline =>
      have hpos := readline_pos hline
      rcases hc : consume o (readline nl ((file.take (w.visible o)).drop o)) s with ⟨s', none | x | e⟩
      · exact drain_enough w m n _ s' (by omega) (by omega)
      · rfl
      · exact congrArg (Run.emit e) (drain_enough w m n _ s' (by omega) (by omega))
    case isFalse => rfl

theorem pass_eq (o : Nat) (s : σ) :
    pass nl consume file o s =
      if Complete nl (readline nl (file.drop o)) then
        match consume o (readline nl (file.drop o)) s with
        | (s, none) => pass nl consume file (o + (readline nl (file.drop o)).length) s
        | (s, some (.ok e)) => (pass nl consume file (o + (readline nl (file.drop o)).length) s).emit e
        | (s, some (.error x)) => ⟨[], o + (readline nl (file.drop o)).length, s, some x⟩
      else ⟨[], o, s, none⟩ := by
  have hvisible : file.take ((whole file).visible o) = file := List.take_length
  have hgo : ¬(whole file).stop o = true := Bool.false_ne_true
  conv_lhs => unfold pass read drain
  rw [if_neg hgo, hvisible]
  dsimp only
  split
  case isTrue hline =>
    have hpos := readline_pos hline
    rcases hc : consume o (readline nl (file.drop o)) s with ⟨s', none | x | e⟩
    · exact drain_enough (whole file) _ _ _ s' (by omega) (by omega)
    · rfl
    · exact congrArg (Run.emit e) (drain_enough (whole file) _ _ _ s' (by omega) (by omega))
  case isFalse => rfl

theorem pass_of_drain (w : Session) : ∀ (n o : Nat) (s : σ),
    (∀ x, (drain nl consume file w n o s).raised = some x →
      pass nl consume file o s = drain nl consume file w n o s) ∧
    ((drain nl consume file w n o s).raised = none →
      pass nl consume file o s =
        (pass nl consume file (drain nl consume file w n o s).offset (drain nl consume file w n o s).state).after
          (drain nl consume file w n o s).emitted)
  | 0, o, s => ⟨fun _ h => (nomatch h), fun _ => rfl⟩
  | n + 1, o, s => by
    have hstop : (∀ x, (⟨[], o, s, none⟩ : Run σ β ε).raised = some x →
        pass nl consume file o s = ⟨[], o, s, none⟩) ∧ ((⟨[], o, s, none⟩ : Run σ β ε).raised = none →
          pass nl consume file o s = (pass nl consume file o s).after []) :=
      ⟨fun _ h => (nomatch h), fun _ => rfl⟩
    unfold drain
    split
    · exact hstop
    dsimp only
    split
    case isTrue hline =>
      have hsame := readline_of_prefix (prefix_visible file (w.visible o) o) hline
      rw [pass_eq o s, hsame, if_pos hline]
      rcases hc : consume o (readline nl ((file.take (w.visible o)).drop o)) s with ⟨s', none | x | e⟩
      · exact pass_of_drain w n _ s'
      · exact ⟨fun _ _ => rfl, fun h => (nomatch h)⟩
      · obtain ⟨hraised, hon⟩ := pass_of_drain w n (o + (readline nl ((file.take (w.visible o)).drop o)).length) s'
        exact ⟨fun x hx => congrArg (Run.emit e) (hraised x hx), fun hnone => congrArg (Run.emit e) (hon hnone)⟩
    case isFalse => exact hstop

theorem pass_of_read (nl : α) (consume : Nat → List α → σ → σ × Option (Except ε β)) (file : List α) (w : Session)
    (o : Nat) (s : σ) :
    (∀ x, (read nl consume file w o s).raised = some x → pass nl consume file o s = read nl consume file w o s) ∧
      ((read nl consume file w o s).raised = none → pass nl consume file o s =
        (pass nl consume file (read nl consume file w o s).offset (read nl consume file w o s).state).after
          (read nl consume file w o s).emitted) :=
  pass_of_drain w _ o s

/-! ## Where a run ends -/

variable (nl consume file) in
theorem le_offset_drain (w : Session) : ∀ (n o : Nat) (s : σ), o ≤ (drain nl consume file w n o s).offset
  | 0, o, s => le_refl o
  | n + 1, o, s => by
    unfold drain
    split
    · exact le_refl o
    dsimp only
    split
    · rcases consume o (readline nl ((file.take (w.visible o)).drop o)) s with ⟨s', none | x | e⟩
      · exact (Nat.le_add_right _ _).trans (le_offset_drain w n _ s')
      · exact Nat.le_add_right _ _
      · exact (Nat.le_add_right _ _).trans (le_offset_drain w n _ s')
    · exact le_refl o

omit [DecidableEq α] in
theorem take_line {o : Nat} {l : List α} (hp : l <+: file.drop o) (hl : Complete nl l) :
    ∃ p, file.take (o + l.length) = p ++ [nl] := by
  obtain ⟨l', rfl⟩ : ∃ l', l = l' ++ [nl] := ⟨_, (List.dropLast_append_getLast? nl hl).symm⟩
  refine ⟨file.take o ++ l', ?_⟩
  rw [List.take_add, List.append_assoc, List.append_cancel_left_eq]
  exact (List.prefix_iff_eq_take.1 hp).symm

theorem boundary_drain (w : Session) : ∀ (n o : Nat) (s : σ),
    (drain nl consume file w n o s).offset = o ∨ ∃ p, file.take (drain nl consume file w n o s).offset = p ++ [nl]
  | 0, o, s => Or.inl rfl
  | n + 1, o, s => by
    unfold drain
    split
    · exact Or.inl rfl
    dsimp only
    split
    case isTrue hline =>
      have hp := (prefix_readline nl _).trans (prefix_visible file (w.visible o) o)
      have hbehind := take_line hp hline
      have hon : ∀ s', ∃ p, file.take (drain nl consume file w n
          (o + (readline nl ((file.take (w.visible o)).drop o)).length) s').offset = p ++ [nl] := fun s' => by
        rcases boundary_drain w n (o + (readline nl ((file.take (w.visible o)).drop o)).length) s' with h | h
        · rw [h]
          exact hbehind
        · exact h
      rcases consume o (readline nl ((file.take (w.visible o)).drop o)) s with ⟨s', none | x | e⟩
      · exact Or.inr (hon s')
      · exact Or.inr hbehind
      · exact Or.inr (hon s')
    case isFalse => exact Or.inl rfl

theorem pass_end : ∀ (n o : Nat) (s : σ), file.length < n + o → (pass nl consume file o s).raised = none →
    nl ∉ file.drop (pass nl consume file o s).offset
  | 0, o, s, hn, _ => by
    have hpast : pass nl consume file o s = ⟨[], o, s, none⟩ := drain_past (whole file) (by omega) s _
    rw [hpast, List.drop_eq_nil_of_le (by dsimp only; omega)]
    exact List.not_mem_nil
  | n + 1, o, s, hn, hnone => by
    rw [pass_eq] at hnone ⊢
    by_cases hline : Complete nl (readline nl (file.drop o))
    · have hpos := readline_pos hline
      rw [if_pos hline] at hnone ⊢
      rcases hc : consume o (readline nl (file.drop o)) s with ⟨s', none | x | e⟩ <;> rw [hc] at hnone
      · exact pass_end n _ s' (by omega) hnone
      · cases hnone
      · exact pass_end n _ s' (by omega) hnone
    · rw [if_neg hline]
      exact not_mem_of_not_complete hline

variable (consume) in
theorem pass_stops {o : Nat} (h : nl ∉ file.drop o) (s : σ) : pass nl consume file o s = ⟨[], o, s, none⟩ := by
  have hline : ¬Complete nl (readline nl (file.drop o)) := fun hline =>
    h ((prefix_readline nl _).subset (List.mem_of_getLast? hline))
  rw [pass_eq, if_neg hline]

theorem pass_take {e : Nat} : ∀ (n o : Nat) (s : σ), file.length < n + o →
    (pass nl consume file o s).offset ≤ e → pass nl consume (file.take e) o s = pass nl consume file o s
  | 0, o, s, hn, _ => by
    have hlen : (file.take e).length ≤ file.length := (List.take_prefix e file).length_le
    have hpast : pass nl consume file o s = ⟨[], o, s, none⟩ := drain_past (whole file) (by omega) s _
    rw [hpast]
    exact drain_past (whole (file.take e)) (by omega) s _
  | n + 1, o, s, hn, he => by
    rw [pass_eq o s] at he
    rw [pass_eq o s, pass_eq o s]
    by_cases hline : Complete nl (readline nl (file.drop o))
    · have hpos := readline_pos hline
      rw [if_pos hline] at he ⊢
      have hin : o + (readline nl (file.drop o)).length ≤ e := by
        rcases hc : consume o (readline nl (file.drop o)) s with ⟨s', none | x | v⟩ <;> rw [hc] at he
        · exact (le_offset_drain nl consume file (whole file) _ _ s').trans he
        · exact he
        · exact (le_offset_drain nl consume file (whole file) _ _ s').trans he
      have hp : readline nl (file.drop o) <+: (file.take e).drop o := by
        rw [List.drop_take]
        exact List.prefix_take_iff.2 ⟨prefix_readline nl _, by omega⟩
      have hsame : readline nl ((file.take e).drop o) = readline nl (file.drop o) := by
        have h := readline_of_prefix hp (by rwa [readline_readline])
        rwa [readline_readline] at h
      rw [hsame, if_pos hline]
      rcases hc : consume o (readline nl (file.drop o)) s with ⟨s', none | x | v⟩
      · rw [hc] at he
        exact pass_take n _ s' (by omega) he
      · rfl
      · rw [hc] at he
        exact congrArg (Run.emit v) (pass_take n _ s' (by omega) he)
    · have hprefix : ¬Complete nl (readline nl ((file.take e).drop o)) := fun h => by
        rw [← readline_of_prefix (prefix_visible file e o) h] at h
        exact hline h
      rw [if_neg hline, if_neg hprefix]

theorem pairwise_drain (w : Session) {at_ : β → Nat}
    (hat : ∀ o line s s' e, consume o line s = (s', some (.ok e)) → at_ e = o) : ∀ (n o : Nat) (s : σ),
      (((drain nl consume file w n o s).emitted.map at_).Pairwise (· < ·)) ∧
        ∀ e ∈ (drain nl consume file w n o s).emitted, o ≤ at_ e ∧ at_ e < (drain nl consume file w n o s).offset
  | 0, o, s => ⟨List.Pairwise.nil, fun _ h => (nomatch h)⟩
  | n + 1, o, s => by
    unfold drain
    split
    · exact ⟨List.Pairwise.nil, fun _ h => (nomatch h)⟩
    dsimp only
    split
    case isTrue hline =>
      have hpos := readline_pos hline
      rcases hc : consume o (readline nl ((file.take (w.visible o)).drop o)) s with ⟨s', none | x | e⟩
      · obtain ⟨hsorted, hin⟩ := pairwise_drain w hat n (o + (readline nl ((file.take (w.visible o)).drop o)).length) s'
        exact ⟨hsorted, fun v hv => ⟨(Nat.le_add_right _ _).trans (hin v hv).1, (hin v hv).2⟩⟩
      · exact ⟨List.Pairwise.nil, fun _ h => (nomatch h)⟩
      · obtain ⟨hsorted, hin⟩ := pairwise_drain w hat n (o + (readline nl ((file.take (w.visible o)).drop o)).length) s'
        have hhere := hat _ _ _ _ _ hc
        have hend := le_offset_drain nl consume file w n (o + (readline nl ((file.take (w.visible o)).drop o)).length) s'
        refine ⟨List.pairwise_cons.2 ⟨fun x hx => ?_, hsorted⟩, fun v hv => ?_⟩
        · obtain ⟨v, hv, rfl⟩ := List.mem_map.1 hx
          have hv := (hin v hv).1
          omega
        · rcases List.mem_cons.1 hv with rfl | hv
          · exact ⟨le_of_eq hhere.symm, by rw [hhere]; exact lt_of_lt_of_le (by omega) hend⟩
          · exact ⟨(Nat.le_add_right _ _).trans (hin v hv).1, (hin v hv).2⟩
    case isFalse => exact ⟨List.Pairwise.nil, fun _ h => (nomatch h)⟩

/-! ## Runs that resume -/

def Run.map {τ : Type*} (f : σ → τ) (r : Run σ β ε) : Run τ β ε := ⟨r.emitted, r.offset, f r.state, r.raised⟩

theorem drain_keeps (w : Session) {I : σ → Prop} (hI : ∀ o line s, I s → I (consume o line s).1) :
    ∀ (n o : Nat) (s : σ), I s → I (drain nl consume file w n o s).state
  | 0, _, _, h => h
  | n + 1, o, s, h => by
    unfold drain
    split
    · exact h
    dsimp only
    split
    · have hs := hI o (readline nl ((file.take (w.visible o)).drop o)) s h
      rcases hc : consume o (readline nl ((file.take (w.visible o)).drop o)) s with ⟨s', none | x | e⟩ <;> rw [hc] at hs
      · exact drain_keeps w hI n _ s' hs
      · exact hs
      · exact drain_keeps w hI n _ s' hs
    · exact h

section
variable {τ : Type*} {f : σ → τ}
  (hf : ∀ o line s t, f s = f t → (consume o line s).2 = (consume o line t).2 ∧
    f (consume o line s).1 = f (consume o line t).1)
include hf

theorem drain_map (w : Session) : ∀ (n o : Nat) (s t : σ), f s = f t →
    (drain nl consume file w n o s).map f = (drain nl consume file w n o t).map f
  | 0, o, s, t, h => by
    unfold drain Run.map
    rw [h]
  | n + 1, o, s, t, h => by
    have hstop : (⟨[], o, s, none⟩ : Run σ β ε).map f = (⟨[], o, t, none⟩ : Run σ β ε).map f := by
      unfold Run.map
      rw [h]
    unfold drain
    split
    · exact hstop
    dsimp only
    split
    · obtain ⟨hout, hstate⟩ := hf o (readline nl ((file.take (w.visible o)).drop o)) s t h
      rcases hs : consume o (readline nl ((file.take (w.visible o)).drop o)) s with ⟨s', out⟩
      rcases ht : consume o (readline nl ((file.take (w.visible o)).drop o)) t with ⟨t', out'⟩
      rw [hs, ht] at hout hstate
      dsimp only at hout hstate
      subst hout
      rcases out with none | x | e
      · exact drain_map w n _ s' t' hstate
      · unfold Run.map
        dsimp only
        rw [hstate]
      · have hrest := drain_map w n (o + (readline nl ((file.take (w.visible o)).drop o)).length) s' t' hstate
        exact congrArg (Run.emit e) hrest
    · exact hstop

theorem pass_map (nl : α) (file : List α) (o : Nat) {s t : σ} (h : f s = f t) :
    (pass nl consume file o s).map f = (pass nl consume file o t).map f :=
  drain_map hf (whole file) _ o s t h

end

def resume (nl : α) (consume : Nat → List α → σ → σ × Option (Except ε β)) (reenter : σ → σ) (file : List α) :
    List Session → Nat → σ → Run σ β ε
  | [], o, s => ⟨[], o, s, none⟩
  | w :: ws, o, s =>
    let r := read nl consume file w o (reenter s)
    match r.raised with
    | some _ => r
    | none => (resume nl consume reenter file ws r.offset r.state).after r.emitted

theorem resume_one (nl : α) (consume : Nat → List α → σ → σ × Option (Except ε β)) (reenter : σ → σ) (file : List α)
    (w : Session) (o : Nat) (s : σ) : resume nl consume reenter file [w] o s = read nl consume file w o (reenter s) := by
  rw [resume]
  cases hr : (read nl consume file w o (reenter s)).raised with
  | some x => rfl
  | none =>
    unfold resume Run.after
    dsimp only
    rw [List.append_nil, ← hr]

theorem resume_append (nl : α) (consume : Nat → List α → σ → σ × Option (Except ε β)) (reenter : σ → σ) (file : List α) :
    ∀ (ws vs : List Session) (o : Nat) (s : σ),
    (∀ x, (resume nl consume reenter file ws o s).raised = some x →
      resume nl consume reenter file (ws ++ vs) o s = resume nl consume reenter file ws o s) ∧
    ((resume nl consume reenter file ws o s).raised = none → resume nl consume reenter file (ws ++ vs) o s =
      (resume nl consume reenter file vs (resume nl consume reenter file ws o s).offset
        (resume nl consume reenter file ws o s).state).after (resume nl consume reenter file ws o s).emitted)
  | [], vs, o, s => ⟨fun _ h => (nomatch h), fun _ => rfl⟩
  | w :: ws, vs, o, s => by
    rw [List.cons_append, resume, resume]
    cases hr : (read nl consume file w o (reenter s)).raised with
    | some x => exact ⟨fun _ _ => rfl, fun h => absurd (hr.symm.trans h) (Option.some_ne_none x)⟩
    | none =>
      obtain ⟨hraised, hon⟩ := resume_append nl consume reenter file ws vs (read nl consume file w o (reenter s)).offset
        (read nl consume file w o (reenter s)).state
      refine ⟨fun x hx => congrArg (Run.after _) (hraised x hx), fun hnone => ?_⟩
      refine (congrArg (Run.after _) (hon hnone)).trans ?_
      unfold Run.after
      dsimp only
      rw [List.append_assoc]

section
variable {τ : Type*} {f : σ → τ} {I : σ → Prop} {reenter : σ → σ}
  (hf : ∀ o line s t, f s = f t → (consume o line s).2 = (consume o line t).2 ∧
    f (consume o line s).1 = f (consume o line t).1)
  (hI : ∀ o line s, I s → I (consume o line s).1)
  (hre : ∀ s, I s → I (reenter s) ∧ f (reenter s) = f s)
include hf hI hre

/-- **Sessions that end with a pass read what one pass reads.** -/
theorem resume_whole : ∀ (ws : List Session) (o : Nat) (s : σ), I (reenter s) →
    (resume nl consume reenter file (ws ++ [whole file]) o s).map f = (pass nl consume file o (reenter s)).map f
  | [], o, s, _ => by
    rw [List.nil_append, resume_one]
    rfl
  | w :: ws, o, s, hs => by
    obtain ⟨hraised, hon⟩ := pass_of_read nl consume file w o (reenter s)
    have hkeep : I (read nl consume file w o (reenter s)).state := drain_keeps w hI _ o (reenter s) hs
    rw [List.cons_append, resume]
    cases hr : (read nl consume file w o (reenter s)).raised with
    | some x => rw [hraised x hr]
    | none =>
      obtain ⟨hIr, hfr⟩ := hre _ hkeep
      have ih := resume_whole ws (read nl consume file w o (reenter s)).offset
        (read nl consume file w o (reenter s)).state hIr
      rw [hon hr]
      have hpass := ih.trans (pass_map hf nl file _ hfr)
      exact congrArg (Run.after _) hpass

theorem resume_prefix : ∀ (ws : List Session) (o : Nat) (s : σ), I (reenter s) →
    (resume nl consume reenter file ws o s).emitted <+: (pass nl consume file o (reenter s)).emitted
  | [], _, _, _ => List.nil_prefix
  | w :: ws, o, s, hs => by
    obtain ⟨hraised, hon⟩ := pass_of_read nl consume file w o (reenter s)
    have hkeep : I (read nl consume file w o (reenter s)).state := drain_keeps w hI _ o (reenter s) hs
    rw [resume]
    cases hr : (read nl consume file w o (reenter s)).raised with
    | some x =>
      exact hraised x hr ▸ List.prefix_rfl
    | none =>
      obtain ⟨hIr, hfr⟩ := hre _ hkeep
      have ih := resume_prefix ws (read nl consume file w o (reenter s)).offset
        (read nl consume file w o (reenter s)).state hIr
      have hsame : (pass nl consume file (read nl consume file w o (reenter s)).offset
          (reenter (read nl consume file w o (reenter s)).state)).emitted =
            (pass nl consume file (read nl consume file w o (reenter s)).offset
              (read nl consume file w o (reenter s)).state).emitted :=
        congrArg (fun r : Run τ β ε => r.emitted) (pass_map hf nl file _ hfr)
      rw [hsame] at ih
      rw [hon hr]
      exact (List.prefix_append_right_inj _).2 ih

omit hf in
theorem resume_keeps : ∀ (ws : List Session) (o : Nat) (s : σ), I s ∨ ws ≠ [] → I (reenter s) →
    I (resume nl consume reenter file ws o s).state
  | [], _, _, h, _ => h.resolve_right fun hne => hne rfl
  | w :: ws, o, s, _, hs => by
    have hkeep : I (read nl consume file w o (reenter s)).state := drain_keeps w hI _ o (reenter s) hs
    rw [resume]
    cases (read nl consume file w o (reenter s)).raised with
    | some x => exact hkeep
    | none => exact resume_keeps ws _ _ (Or.inl hkeep) (hre _ hkeep).1

/-- **Sessions that leave no complete line have read what one pass reads.** -/
theorem resume_done {ws : List Session} {o : Nat} {s : σ} (h : I s ∨ ws ≠ []) (hs : I (reenter s))
    (hend : (resume nl consume reenter file ws o s).raised = none →
      nl ∉ file.drop (resume nl consume reenter file ws o s).offset) :
    (resume nl consume reenter file ws o s).map f = (pass nl consume file o (reenter s)).map f := by
  have hwhole : (resume nl consume reenter file (ws ++ [whole file]) o s).map f = _ := resume_whole hf hI hre ws o s hs
  have hkeep : I (resume nl consume reenter file ws o s).state := resume_keeps hI hre ws o s h hs
  obtain ⟨hraised, hon⟩ := resume_append nl consume reenter file ws [whole file] o s
  rw [← hwhole]
  cases hr : (resume nl consume reenter file ws o s).raised with
  | some x => rw [hraised x hr]
  | none =>
    have hstop := pass_stops consume (hend hr) (reenter (resume nl consume reenter file ws o s).state)
    rw [pass] at hstop
    rw [hon hr, resume_one, hstop]
    unfold Run.after Run.map
    rw [List.append_nil, (hre _ hkeep).2, hr]

end

end

section
variable {α σ β ε : Type*} [DecidableEq α]

def linesFrom (nl : α) (file : List α) (stop : Nat) : Nat → Nat → List (List α)
  | 0, _ => []
  | fuel + 1, o =>
    if o < stop then readline nl (file.drop o) :: linesFrom nl file stop fuel (o + (readline nl (file.drop o)).length)
    else []

def linesBetween (nl : α) (file : List α) (after before : Nat) : List (List α) :=
  (linesFrom nl file before (file.length + 1) after).tail

inductive Reads (nl : α) (consume : Nat → List α → σ → σ × Option (Except ε β)) (file : List α) :
    Nat → σ → List (List α) → List β → Nat → σ → Prop
  | stop (o : Nat) (s : σ) : Reads nl consume file o s [] [] o s
  | quiet {o : Nat} {s s' : σ} {lines : List (List α)} {es : List β} {b : Nat} {t : σ}
      (complete : Complete nl (readline nl (file.drop o)))
      (consumed : consume o (readline nl (file.drop o)) s = (s', none))
      (rest : Reads nl consume file (o + (readline nl (file.drop o)).length) s' lines es b t) :
      Reads nl consume file o s (readline nl (file.drop o) :: lines) es b t
  | emit {o : Nat} {s s' : σ} {e : β} {lines : List (List α)} {es : List β} {b : Nat} {t : σ}
      (complete : Complete nl (readline nl (file.drop o)))
      (consumed : consume o (readline nl (file.drop o)) s = (s', some (.ok e)))
      (rest : Reads nl consume file (o + (readline nl (file.drop o)).length) s' lines es b t) :
      Reads nl consume file o s (readline nl (file.drop o) :: lines) (e :: es) b t

variable {nl : α} {consume : Nat → List α → σ → σ × Option (Except ε β)} {file : List α}

theorem reads_of_drain (w : Session) : ∀ (n o : Nat) (s : σ), (drain nl consume file w n o s).raised = none →
    ∃ lines, Reads nl consume file o s lines (drain nl consume file w n o s).emitted
      (drain nl consume file w n o s).offset (drain nl consume file w n o s).state
  | 0, o, s, _ => ⟨[], .stop o s⟩
  | n + 1, o, s, h => by
    unfold drain at h ⊢
    split
    · exact ⟨[], .stop o s⟩
    rename_i hgo
    rw [if_neg hgo] at h
    dsimp only at h ⊢
    split
    case isTrue hline =>
      rw [if_pos hline] at h
      have hsame := readline_of_prefix (prefix_visible file (w.visible o) o) hline
      rw [← hsame] at hline h ⊢
      rcases hc : consume o (readline nl (file.drop o)) s with ⟨s', none | x | e⟩
      · rw [hc] at h
        obtain ⟨lines, hr⟩ := reads_of_drain w n _ s' h
        exact ⟨_, .quiet hline hc hr⟩
      · rw [hc] at h
        cases h
      · rw [hc] at h
        obtain ⟨lines, hr⟩ := reads_of_drain w n _ s' h
        exact ⟨_, .emit hline hc hr⟩
    case isFalse => exact ⟨[], .stop o s⟩

variable {o b : Nat} {s t : σ} {lines : List (List α)} {es : List β}

theorem Reads.le (h : Reads nl consume file o s lines es b t) : o ≤ b := by
  induction h with
  | stop o s => exact le_refl o
  | quiet _ _ _ ih => exact (Nat.le_add_right _ _).trans ih
  | emit _ _ _ ih => exact (Nat.le_add_right _ _).trans ih

theorem Reads.linesFrom (h : Reads nl consume file o s lines es b t) : ∀ n, file.length < n + o →
    LineReader.linesFrom nl file b n o = lines := by
  have hnone : ∀ (n o : Nat), LineReader.linesFrom nl file o n o = [] := by
    intro n o
    cases n with
    | zero => rfl
    | succ n => rw [LineReader.linesFrom, if_neg (lt_irrefl o)]
  -- a complete line is not empty, so the file is not read out
  have hstep : ∀ {o b n : Nat} {lines : List (List α)}, Complete nl (readline nl (file.drop o)) →
      o + (readline nl (file.drop o)).length ≤ b → file.length < n + o →
      (∀ m, file.length < m + (o + (readline nl (file.drop o)).length) →
        LineReader.linesFrom nl file b m (o + (readline nl (file.drop o)).length) = lines) →
      LineReader.linesFrom nl file b n o = readline nl (file.drop o) :: lines := by
    intro o b n lines hline hle hn ih
    have hpos := readline_pos hline
    have hin : (readline nl (file.drop o)).length ≤ file.length - o := by
      rw [← List.length_drop]
      exact (prefix_readline nl _).length_le
    cases n with
    | zero => omega
    | succ n => rw [LineReader.linesFrom, if_pos (by omega), ih n (by omega)]
  induction h with
  | stop o s => exact fun n _ => hnone n o
  | quiet hline _ hrest ih => exact fun n hn => hstep hline hrest.le hn ih
  | emit hline _ hrest ih => exact fun n hn => hstep hline hrest.le hn ih

end

end LineReader
