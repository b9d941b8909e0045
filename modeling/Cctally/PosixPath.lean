import Mathlib.Data.List.Infix
import Mathlib.Data.List.Basic

/-!
# Paths and their spellings

A path is an anchor and the segments behind it. A spelling is split at its
separators; empty and dot segments say nothing. The text of a path under the one
separator is the trail of its segments, and prefixes of such texts that end at a
separator are the paths above.
-/

namespace PosixPath

abbrev Text := List Char

abbrev Segment := { s : Text // s ≠ [] ∧ s ≠ ['.'] ∧ '/' ∉ s }

inductive Anchor
  | none
  | one
  | two
  deriving DecidableEq

structure PurePath where
  anchor : Anchor
  parts : List Segment
  deriving DecidableEq

def segment? (s : Text) : Option Segment := if h : s ≠ [] ∧ s ≠ ['.'] ∧ '/' ∉ s then some ⟨s, h⟩ else none

def segments (t : Text) : List Segment := (t.splitOn '/').filterMap segment?

/-- Exactly two leading separators are an anchor of their own. -/
def anchorOf : Text → Anchor
  | '/' :: '/' :: '/' :: _ => .one
  | '/' :: '/' :: _ => .two
  | '/' :: _ => .one
  | _ => .none

def parse (t : Text) : PurePath := ⟨anchorOf t, segments t⟩

def Anchor.text : Anchor → Text
  | .none => []
  | .one => ['/']
  | .two => ['/', '/']

namespace PurePath

def str (p : PurePath) : Text :=
  if p.anchor = .none ∧ p.parts = [] then ['.'] else p.anchor.text ++ ['/'].intercalate (p.parts.map Subtype.val)

def parent (p : PurePath) : PurePath := ⟨p.anchor, p.parts.dropLast⟩

/-- `p.relative_to(r)` does not raise. -/
def contains (r p : PurePath) : Bool := r.anchor = p.anchor ∧ r.parts <+: p.parts

def absolute (cwd p : PurePath) : PurePath := if p.anchor = .none then ⟨cwd.anchor, cwd.parts ++ p.parts⟩ else p

end PurePath

def trail (ts : List Text) : Text := ts.flatMap fun s => '/' :: s

@[simp] theorem trail_nil : trail [] = [] := rfl

@[simp] theorem trail_cons (s : Text) (ts : List Text) : trail (s :: ts) = '/' :: (s ++ trail ts) := rfl

@[simp] theorem trail_append (as bs : List Text) : trail (as ++ bs) = trail as ++ trail bs := List.flatMap_append

theorem intercalate_trail : ∀ {ts : List Text}, ts ≠ [] → '/' :: ['/'].intercalate ts = trail ts
  | [s], _ => by simp
  | s :: t :: ts, _ => by
    rw [List.intercalate_cons_cons, trail_cons, ← intercalate_trail (List.cons_ne_nil t ts)]
    simp

theorem not_mem_splitOn {t : Text} : ∀ s ∈ t.splitOn '/', '/' ∉ s := by
  induction t with
  | nil => simp
  | cons c t ih =>
    rw [List.splitOn_cons_eq_if_modifyHead]
    split
    · exact List.forall_mem_cons.2 ⟨List.not_mem_nil, ih⟩
    · rename_i hc
      cases hsplit : t.splitOn '/' with
      | nil => exact absurd hsplit (List.splitOn_ne_nil _ _)
      | cons s ss =>
        rw [hsplit] at ih
        obtain ⟨hs, hss⟩ := List.forall_mem_cons.1 ih
        refine List.forall_mem_cons.2 ⟨fun hmem => ?_, hss⟩
        rcases List.mem_cons.1 hmem with rfl | hmem
        · exact hc rfl
        · exact hs hmem

theorem trail_splitOn (t : Text) : trail (t.splitOn '/') = '/' :: t := by
  rw [← intercalate_trail (List.splitOn_ne_nil _ _), List.intercalate_splitOn]

theorem trail_eq_nil {ts : List Text} : trail ts = [] ↔ ts = [] := by
  cases ts with
  | nil => simp
  | cons s ts => simp

theorem segments_append (a b : Text) : segments (a ++ '/' :: b) = segments a ++ segments b := by
  unfold segments
  rw [List.splitOn_append_cons_self, List.filterMap_append]

theorem segments_segment (s : Segment) : segments s.val = [s] := by
  unfold segments segment?
  rw [List.splitOn_eq_singleton s.property.2.2]
  simp [s.property]

abbrev texts (ps : List Segment) : List Text := ps.map Subtype.val

theorem segments_trail (ps : List Segment) : segments (trail (texts ps)) = ps := by
  induction ps using List.reverseRecOn with
  | nil => rfl
  | append_singleton ps s ih =>
    rw [texts, List.map_append, trail_append]
    show segments (trail (texts ps) ++ '/' :: (s.val ++ [])) = _
    rw [List.append_nil, segments_append, ih, segments_segment]

theorem segment_cons (s : Segment) : ∃ c cs, s.val = c :: cs ∧ c ≠ '/' := by
  obtain ⟨s, hne, -, hsep⟩ := s
  cases s with
  | nil => exact absurd rfl hne
  | cons c cs => exact ⟨c, cs, rfl, fun h => hsep (h ▸ List.mem_cons_self ..)⟩

def oneText (ps : List Segment) : Text := if ps = [] then ['/'] else trail (texts ps)

theorem oneText_eq (ps : List Segment) : oneText ps = (PurePath.mk .one ps).str := by
  unfold oneText PurePath.str
  by_cases hps : ps = []
  · subst hps; rfl
  · rw [if_neg hps, if_neg (by simp), ← intercalate_trail fun h => hps (List.map_eq_nil_iff.1 h)]
    rfl

theorem segments_oneText (ps : List Segment) : segments (oneText ps) = ps := by
  unfold oneText
  by_cases hps : ps = []
  · subst hps; rfl
  · rw [if_neg hps, segments_trail]

theorem oneText_inj {ps qs : List Segment} (h : oneText ps = oneText qs) : ps = qs := by
  rw [← segments_oneText ps, h, segments_oneText]

theorem oneText_cons (ps : List Segment) : ∃ cs, oneText ps = '/' :: cs ∧ cs.head? ≠ some '/' := by
  unfold oneText
  cases ps with
  | nil => exact ⟨[], rfl, by simp⟩
  | cons s ps =>
    obtain ⟨c, cs, hs, hc⟩ := segment_cons s
    refine ⟨s.val ++ trail (texts ps), by simp, ?_⟩
    rw [hs]
    simpa using hc

theorem anchorOf_oneText (ps : List Segment) : anchorOf (oneText ps) = .one := by
  obtain ⟨cs, hcs, hhead⟩ := oneText_cons ps
  rw [hcs]
  unfold anchorOf
  split
  · rfl
  · rename_i heq
    cases heq
    exact absurd rfl hhead
  · rfl
  · rename_i h
    exact absurd rfl (h _)

theorem parse_oneText (ps : List Segment) : parse (oneText ps) = ⟨.one, ps⟩ := by
  rw [parse, anchorOf_oneText, segments_oneText]

theorem length_le_oneText (ps : List Segment) : ps.length ≤ (oneText ps).length := by
  unfold oneText
  by_cases hps : ps = []
  · subst hps; exact Nat.zero_le _
  · rw [if_neg hps]
    clear hps
    induction ps with
    | nil => exact le_rfl
    | cons s ps ih =>
      show ps.length + 1 ≤ ('/' :: (s.val ++ trail (texts ps))).length
      rw [List.length_cons, List.length_append]
      omega

theorem exists_texts : ∀ {ts : List Text}, (∀ t ∈ ts, t ≠ [] ∧ t ≠ ['.'] ∧ '/' ∉ t) → ∃ ps, ts = texts ps
  | [], _ => ⟨[], rfl⟩
  | t :: ts, h => by
    obtain ⟨ht, hts⟩ := List.forall_mem_cons.1 h
    obtain ⟨ps, rfl⟩ := exists_texts hts
    exact ⟨⟨t, ht⟩ :: ps, rfl⟩

def below (r : Text) : Text := if ['/'] <:+ r then r else r ++ ['/']

theorem not_suffix_trail {ps : List Segment} (h : ps ≠ []) : ¬ ['/'] <:+ trail (texts ps) := by
  obtain ⟨qs, s, rfl⟩ : ∃ qs s, ps = qs ++ [s] := ⟨ps.dropLast, ps.getLast h, (List.dropLast_append_getLast h).symm⟩
  intro hsuffix
  have hsep : ['/'] <:+ s.val := by
    have htrail : trail (texts (qs ++ [s])) = (trail (texts qs) ++ ['/']) ++ s.val := by simp
    rw [htrail] at hsuffix
    obtain ⟨c, cs, hs, -⟩ := segment_cons s
    exact List.suffix_of_suffix_length_le hsuffix (List.suffix_append _ _) (by rw [hs]; simp)
  exact s.property.2.2 (hsep.subset (List.mem_singleton_self _))

/-- **A path is above another** exactly where its text is the other's or, up to a separator, begins it. -/
theorem contains_iff (r : PurePath) (ps : List Segment) :
    (oneText ps = r.str ∨ below r.str <+: oneText ps) ↔ r.contains ⟨.one, ps⟩ = true := by
  obtain ⟨anchor, rs⟩ := r
  simp only [PurePath.contains, decide_eq_true_eq]
  cases anchor with
  | one =>
    rw [← oneText_eq]
    simp only [true_and]
    unfold below
    by_cases hrs : rs = []
    · subst hrs
      have hprefix : ['/'] <+: oneText ps := by
        obtain ⟨cs, hcs, -⟩ := oneText_cons ps
        exact ⟨cs, hcs.symm⟩
      have hroot : oneText [] = ['/'] := rfl
      rw [hroot, if_pos (List.suffix_refl _)]
      exact ⟨fun _ => List.nil_prefix, fun _ => .inr hprefix⟩
    · have htrail : oneText rs = trail (texts rs) := if_neg hrs
      rw [if_neg (by rw [htrail]; exact not_suffix_trail hrs)]
      constructor
      · rintro (h | ⟨t, h⟩)
        · rw [oneText_inj h]
        · refine ⟨segments t, ?_⟩
          rw [← segments_oneText ps, ← h, List.append_assoc, List.singleton_append, segments_append, segments_oneText]
      · rintro ⟨qs, rfl⟩
        cases qs with
        | nil => exact .inl (by rw [List.append_nil])
        | cons q qs =>
          have happend : oneText (rs ++ q :: qs) = trail (texts rs) ++ '/' :: (q.val ++ trail (texts qs)) := by
            rw [oneText, if_neg (by simp)]
            simp
          refine .inr ⟨q.val ++ trail (texts qs), ?_⟩
          rw [htrail, happend]
          simp
  | two =>
    have hstr : ∃ cs, (PurePath.mk .two rs).str = '/' :: '/' :: cs :=
      ⟨['/'].intercalate (rs.map Subtype.val), by simp [PurePath.str, Anchor.text]⟩
    obtain ⟨cs, hstr⟩ := hstr
    obtain ⟨ds, hone, hhead⟩ := oneText_cons ps
    have hno : ∀ t, '/' :: '/' :: t ≠ '/' :: ds := by
      intro t ht
      rw [List.cons.injEq] at ht
      exact hhead (by rw [← ht.2]; rfl)
    refine ⟨fun h => ?_, fun h => by cases h.1⟩
    rw [hstr, hone] at h
    rcases h with h | ⟨t, h⟩
    · exact absurd h.symm (hno cs)
    · unfold below at h
      split at h
      · exact absurd h (hno (cs ++ t))
      · exact absurd h (hno (cs ++ ['/'] ++ t))
  | none =>
    have hstr : ∃ c cs, (PurePath.mk .none rs).str = c :: cs ∧ c ≠ '/' := by
      unfold PurePath.str
      cases rs with
      | nil => exact ⟨'.', [], rfl, by decide⟩
      | cons s rs =>
        obtain ⟨c, cs, hs, hc⟩ := segment_cons s
        refine ⟨c, ?_⟩
        rw [if_neg (by simp)]
        cases rs with
        | nil => exact ⟨cs, by simp [Anchor.text, hs], hc⟩
        | cons q rs =>
          exact ⟨cs ++ ['/'] ++ ['/'].intercalate ((q :: rs).map Subtype.val), by simp [Anchor.text, hs], hc⟩
    obtain ⟨c, cs, hstr, hc⟩ := hstr
    obtain ⟨ds, hone, -⟩ := oneText_cons ps
    refine ⟨fun h => ?_, fun h => by cases h.1⟩
    rw [hstr, hone] at h
    rcases h with h | ⟨t, h⟩
    · exact absurd (List.cons.inj h).1.symm hc
    · unfold below at h
      split at h
      · exact absurd (List.cons.inj h).1 hc
      · exact absurd (List.cons.inj h).1 hc

end PosixPath
