import Cctally.AccountProtocol
import Mathlib.Algebra.Group.Int.Defs
import Mathlib.Data.Prod.Lex
import Mathlib.Data.String.Basic

/-!
# The journal under the attribution tables

Segments in canonical order, each a list of complete lines at byte offsets. An append
goes to the last segment or opens one after it; a traversal reads from a cursor to a
pinned end.
-/

namespace Cctally.Attribution

open AccountProtocol

def SEGMENT_PREFIX : String := "observations-"
def BOOTSTRAP_PREFIX : String := "bootstrap-"

def segmentSortKey (name : String) : Nat ×ₗ String :=
  if BOOTSTRAP_PREFIX.isPrefixOf name then toLex (0, name)
  else if SEGMENT_PREFIX.isPrefixOf name then toLex (1, name)
  else toLex (2, name)

/-- What `_item_values` reads of an item. -/
structure ItemValues where
  decisionKey : String
  form : String
  msgId : Option String
  reqId : Option String
  loc : Option String
  byteOffset : Option Int
  digest : Option String
  recordTs : Option String
  projectionJson : Option String
  deriving DecidableEq

/-- The payload of a valid `claude_cost_account` op. -/
structure DecisionOp where
  accountKey : Option String
  basis : String
  reason : Option String
  rule : String
  decidedAt : String
  items : List ItemValues
  deriving DecidableEq

structure ObservationRow where
  captured : String
  precision : Int
  account : Option String
  deriving DecidableEq

inductive Body
  | decision (op : DecisionOp)
  | observation (row : ObservationRow)
  | cutover (boundary : CutoverBoundary)
  | revision (boundary : RevisionBoundary)
  | revision3 (boundary : Revision3Boundary)
  | other

structure Line where
  body : Body
  stamped : Bool
  currentRevision : Bool
  successorRevision : Bool
  length : Nat
  length_pos : 0 < length

def size : List Line → Int
  | [] => 0
  | l :: ls => l.length + size ls

def place (segment : String) : Int → List Line → List (Coordinate × Line)
  | _, [] => []
  | offset, l :: ls => (⟨segment, offset⟩, l) :: place segment (offset + l.length) ls

abbrev Entries := List (String × List Line)

def segments (entries : Entries) : List String := entries.map Prod.fst

def placed (entries : Entries) : List (Coordinate × Line) := entries.flatMap fun e => place e.1 0 e.2

/-- The segments in canonical order. No append crashes, so each one holds a line. -/
structure Journal where
  entries : Entries
  sorted : (segments entries).Pairwise fun a b => segmentSortKey a < segmentSortKey b
  held : ∀ e ∈ entries, e.2 ≠ []

theorem size_append (a b : List Line) : size (a ++ b) = size a + size b := by
  induction a with
  | nil => rw [List.nil_append, size, zero_add]
  | cons l a ih => rw [List.cons_append, size, size, ih, add_assoc]

theorem place_append (segment : String) : ∀ (offset : Int) (a b : List Line),
    place segment offset (a ++ b) = place segment offset a ++ place segment (offset + size a) b
  | offset, [], b => by rw [size, add_zero]; rfl
  | offset, l :: a, b => by
    rw [List.cons_append, place, place, size, place_append segment _ a b, add_assoc, List.cons_append]

theorem of_mem_place {segment : String} {p : Coordinate × Line} : ∀ {offset : Int} {lines : List Line},
    p ∈ place segment offset lines →
      p.1.segment = segment ∧ offset ≤ p.1.offset ∧ p.1.offset + p.2.length ≤ offset + size lines
  | _, [], h => nomatch h
  | offset, l :: ls, h => by
    have hs : 0 ≤ size ls := by
      clear h
      induction ls with
      | nil => exact le_refl _
      | cons k ls ih => rw [size]; omega
    rw [place, List.mem_cons] at h
    obtain rfl | h := h
    · refine ⟨rfl, le_refl _, ?_⟩
      rw [size]
      simp only
      omega
    · obtain ⟨hseg, hlo, hhi⟩ := of_mem_place h
      rw [size]
      exact ⟨hseg, by omega, by omega⟩

theorem placed_append (a b : Entries) : placed (a ++ b) = placed a ++ placed b := List.flatMap_append

theorem placed_cons (seg : String) (lines : List Line) (rest : Entries) :
    placed ((seg, lines) :: rest) = place seg 0 lines ++ placed rest := List.flatMap_cons

theorem placed_nil : placed [] = [] := rfl

/-! ## Appending -/

/-- `_validate_append_target`: the last segment, or an absent one that sorts after all. A later
segment is never empty here, so none is removed. -/
def AppendTarget (entries : Entries) (seg : String) : Prop :=
  (segments entries).getLast? = some seg ∨ ∀ s ∈ segments entries, segmentSortKey s < segmentSortKey seg

instance (entries : Entries) (seg : String) : Decidable (AppendTarget entries seg) :=
  inferInstanceAs (Decidable (_ ∨ _))

def extend (seg : String) (new : List Line) : Entries → Entries
  | [] => [(seg, new)]
  | (s, lines) :: [] => if s = seg then [(s, lines ++ new)] else [(s, lines), (seg, new)]
  | e :: e' :: rest => e :: extend seg new (e' :: rest)

theorem extend_snoc (seg s : String) (new lines : List Line) : ∀ init : Entries,
    extend seg new (init ++ [(s, lines)]) =
      init ++ if s = seg then [(s, lines ++ new)] else [(s, lines), (seg, new)]
  | [] => rfl
  | [e] => rfl
  | e :: e' :: init => by
    rw [List.cons_append, List.cons_append, extend, ← List.cons_append, extend_snoc seg s new lines (e' :: init)]
    rfl

theorem segments_snoc (init : Entries) (s : String) (lines : List Line) :
    segments (init ++ [(s, lines)]) = segments init ++ [s] := List.map_append

theorem extend_cases {entries : Entries} {seg : String} (new : List Line) (h : AppendTarget entries seg) :
    (∃ init lines, entries = init ++ [(seg, lines)] ∧ extend seg new entries = init ++ [(seg, lines ++ new)]) ∨
      (∀ s ∈ segments entries, segmentSortKey s < segmentSortKey seg) ∧ extend seg new entries = entries ++ [(seg, new)] := by
  rcases entries.eq_nil_or_concat with rfl | ⟨init, ⟨s, lines⟩, rfl⟩
  · exact .inr ⟨nofun, rfl⟩
  rw [List.concat_eq_append] at h ⊢
  rw [extend_snoc]
  by_cases hs : s = seg
  · subst hs
    rw [if_pos rfl]
    exact .inl ⟨init, lines, rfl, rfl⟩
  · rw [if_neg hs]
    refine .inr ⟨?_, by rw [List.append_assoc]; rfl⟩
    rcases h with h | h
    · rw [segments_snoc, List.getLast?_append] at h
      exact absurd (Option.some.inj h) hs
    · exact h

theorem extend_sorted {entries : Entries} {seg : String} {new : List Line} (h : AppendTarget entries seg)
    (hs : (segments entries).Pairwise fun a b => segmentSortKey a < segmentSortKey b) :
    (segments (extend seg new entries)).Pairwise fun a b => segmentSortKey a < segmentSortKey b := by
  obtain ⟨init, lines, rfl, he⟩ | ⟨hlast, he⟩ := extend_cases new h
  · rw [he, segments_snoc]
    rwa [segments_snoc] at hs
  · rw [he, segments_snoc, List.pairwise_append]
    refine ⟨hs, List.pairwise_singleton _ _, fun a ha b hb => ?_⟩
    rw [List.mem_singleton.1 hb]
    exact hlast a ha

theorem extend_held {entries : Entries} {seg : String} {new : List Line} (h : AppendTarget entries seg) (hnew : new ≠ [])
    (hs : ∀ e ∈ entries, e.2 ≠ []) : ∀ e ∈ extend seg new entries, e.2 ≠ [] := by
  intro e hmem
  obtain ⟨init, lines, rfl, he⟩ | ⟨_, he⟩ := extend_cases new h
  · rw [he, List.mem_append, List.mem_singleton] at hmem
    rcases hmem with hmem | rfl
    · exact hs e (List.mem_append_left _ hmem)
    · exact fun h => hnew (List.append_eq_nil_iff.1 h).2
  · rw [he, List.mem_append, List.mem_singleton] at hmem
    rcases hmem with hmem | rfl
    · exact hs e hmem
    · exact hnew

/-- One locked append; refused for a target that is not the last segment. -/
def Journal.append (journal : Journal) (seg : String) (new : List Line) : Option Journal :=
  if h : AppendTarget journal.entries seg ∧ new ≠ [] then
    some ⟨extend seg new journal.entries, extend_sorted h.1 journal.sorted, extend_held h.1 h.2 journal.held⟩
  else none

def endOffset (journal : Journal) (seg : String) : Int :=
  match journal.entries.find? (·.1 = seg) with
  | some e => size e.2
  | none => 0

theorem nodup_segments (journal : Journal) : (segments journal.entries).Nodup :=
  journal.sorted.imp fun h hab => by subst hab; exact lt_irrefl _ h

def extents (journal : Journal) : Dict String Int :=
  ⟨journal.entries.map fun e => (e.1, size e.2), by
    have hmap : ((journal.entries.map fun e => (e.1, size e.2)).map Prod.fst) = segments journal.entries := by
      rw [List.map_map]
      rfl
    rw [hmap]
    exact nodup_segments journal⟩

/-- `journal_safe_high_water`: the end of the last segment. -/
def highWater (journal : Journal) : Option Coordinate := journal.entries.getLast?.map fun e => ⟨e.1, size e.2⟩

/-- `_iter_segment_lines`: the complete lines of a segment within `lo` and `hi`. -/
def iterSegmentLines (seg : String) (lines : List Line) (lo hi : Int) : List (Coordinate × Line) :=
  (place seg 0 lines).filter fun p => decide (lo ≤ p.1.offset) && decide (p.1.offset + p.2.length ≤ hi)

/-- The first segment from `lo`, the last one to the pinned size. -/
def traverse (hwSize : Int) : Int → Entries → List (Coordinate × Line)
  | _, [] => []
  | lo, (seg, lines) :: [] => iterSegmentLines seg lines lo hwSize
  | lo, (seg, lines) :: e :: rest => iterSegmentLines seg lines lo (size lines) ++ traverse hwSize 0 (e :: rest)

/-- `iter_range`: a cursor in no listed segment restarts the traversal. -/
def iterRange (cursor : Option Coordinate) (hw : Coordinate) (entries : Entries) : List (Coordinate × Line) :=
  if hw.segment ∈ segments entries then
    let upto := entries.take ((segments entries).idxOf hw.segment + 1)
    match cursor with
    | none => traverse hw.offset 0 upto
    | some c =>
      if c.segment ∈ segments entries then
        traverse hw.offset c.offset (upto.drop ((segments entries).idxOf c.segment))
      else traverse hw.offset 0 upto
  else []

theorem iterSegmentLines_mid (seg : String) (a b c : List Line) :
    iterSegmentLines seg (a ++ b ++ c) (size a) (size (a ++ b)) = place seg (size a) b := by
  rw [iterSegmentLines, place_append, place_append, List.filter_append, List.filter_append, zero_add, zero_add]
  have ha : (place seg 0 a).filter (fun p => decide (size a ≤ p.1.offset) && decide (p.1.offset + p.2.length ≤ size (a ++ b))) = [] := by
    rw [List.filter_eq_nil_iff]
    intro p hp hin
    have hpos := p.2.length_pos
    obtain ⟨_, _, hhi⟩ := of_mem_place hp
    simp only [Bool.and_eq_true, decide_eq_true_eq] at hin
    omega
  have hc : (place seg (size (a ++ b)) c).filter
      (fun p => decide (size a ≤ p.1.offset) && decide (p.1.offset + p.2.length ≤ size (a ++ b))) = [] := by
    rw [List.filter_eq_nil_iff]
    intro p hp hin
    have hpos := p.2.length_pos
    obtain ⟨_, hlo, _⟩ := of_mem_place hp
    simp only [Bool.and_eq_true, decide_eq_true_eq] at hin
    omega
  have hb : (place seg (size a) b).filter
      (fun p => decide (size a ≤ p.1.offset) && decide (p.1.offset + p.2.length ≤ size (a ++ b))) = place seg (size a) b := by
    rw [List.filter_eq_self]
    intro p hp
    obtain ⟨_, hlo, hhi⟩ := of_mem_place hp
    rw [size_append]
    simp only [Bool.and_eq_true, decide_eq_true_eq]
    exact ⟨hlo, hhi⟩
  rw [ha, hb, hc, List.nil_append, List.append_nil]

theorem iterSegmentLines_from (seg : String) (a b : List Line) :
    iterSegmentLines seg (a ++ b) (size a) (size (a ++ b)) = place seg (size a) b := by
  have h := iterSegmentLines_mid seg a b []
  rwa [List.append_nil] at h

theorem iterSegmentLines_upto (seg : String) (b c : List Line) :
    iterSegmentLines seg (b ++ c) 0 (size b) = place seg 0 b := iterSegmentLines_mid seg [] b c

theorem iterSegmentLines_whole (seg : String) (b : List Line) : iterSegmentLines seg b 0 (size b) = place seg 0 b :=
  iterSegmentLines_from seg [] b

theorem traverse_start (hwSize : Int) (seg : String) (lines : List Line) : ∀ init : Entries,
    traverse hwSize 0 (init ++ [(seg, lines)]) = placed init ++ iterSegmentLines seg lines 0 hwSize
  | [] => rfl
  | [(s, l)] => by
    rw [placed_cons, placed_nil, List.append_nil, ← iterSegmentLines_whole s l]
    rfl
  | (s, l) :: e :: init => by
    rw [placed_cons, List.append_assoc, ← traverse_start hwSize seg lines (e :: init), ← iterSegmentLines_whole s l]
    rfl

theorem traverse_cons_snoc (hwSize lo : Int) (s seg : String) (l lines : List Line) (mid : Entries) :
    traverse hwSize lo ((s, l) :: (mid ++ [(seg, lines)])) =
      iterSegmentLines s l lo (size l) ++ (placed mid ++ iterSegmentLines seg lines 0 hwSize) := by
  rw [← traverse_start]
  cases mid <;> rfl

/-! ## Growth -/

def Grows (old new : Journal) : Prop :=
  ∀ init seg lines, old.entries = init ++ [(seg, lines)] → ∃ more rest, new.entries = init ++ (seg, lines ++ more) :: rest

theorem Grows.refl (journal : Journal) : Grows journal journal := fun init seg lines h =>
  ⟨[], [], by rw [List.append_nil]; exact h⟩

theorem Grows.append {old mid new : Journal} {seg : String} {lines : List Line} (h : Grows old mid)
    (happ : mid.append seg lines = some new) : Grows old new := by
  intro init s l hold
  obtain ⟨more, rest, hmid⟩ := h init s l hold
  unfold Journal.append at happ
  split at happ
  next hc =>
    rw [← Option.some.inj happ]
    simp only
    obtain ⟨init', lines', hent, hext⟩ | ⟨_, hext⟩ := extend_cases lines hc.1
    · rw [hmid] at hent
      rcases rest.eq_nil_or_concat with rfl | ⟨rest', e, rfl⟩
      · obtain ⟨rfl, hlast⟩ := List.append_inj' hent rfl
        obtain ⟨rfl, rfl⟩ := Prod.mk.inj (List.cons.inj hlast).1
        exact ⟨more ++ lines, [], by rw [hext, ← List.append_assoc]⟩
      · rw [List.concat_eq_append, ← List.cons_append, ← List.append_assoc] at hent
        obtain ⟨rfl, -⟩ := List.append_inj' hent rfl
        exact ⟨more, rest' ++ [(seg, lines' ++ lines)], by rw [hext, List.append_assoc, List.cons_append]⟩
    · exact ⟨more, rest ++ [(seg, lines)], by rw [hext, hmid, List.append_assoc, List.cons_append]⟩
  next => cases happ

theorem Grows.trans {a b c : Journal} (hab : Grows a b) (hbc : Grows b c) : Grows a c := by
  intro init s l ha
  obtain ⟨more, rest, hb⟩ := hab init s l ha
  rcases rest.eq_nil_or_concat with rfl | ⟨rest', ⟨s', l'⟩, rfl⟩
  · obtain ⟨more', rest', hc⟩ := hbc _ _ _ hb
    exact ⟨more ++ more', rest', by rw [hc, List.append_assoc]⟩
  · rw [List.concat_eq_append, ← List.cons_append, ← List.append_assoc] at hb
    obtain ⟨more', rest'', hc⟩ := hbc _ _ _ hb
    exact ⟨more, rest' ++ (s', l' ++ more') :: rest'', by rw [hc, List.append_assoc, List.cons_append]⟩

theorem Grows.placed_eq {old new : Journal} (h : Grows old new) :
    ∃ later, placed new.entries = placed old.entries ++ later := by
  rcases old.entries.eq_nil_or_concat with hold | ⟨init, ⟨s, l⟩, hold⟩
  · exact ⟨placed new.entries, by rw [hold]; rfl⟩
  · rw [List.concat_eq_append] at hold
    obtain ⟨more, rest, hnew⟩ := h init s l hold
    refine ⟨place s (size l) more ++ placed rest, ?_⟩
    rw [hold, hnew, placed_append, placed_append, placed_cons, placed_cons, placed_nil, place_append, zero_add,
      List.append_nil, List.append_assoc, List.append_assoc]

theorem highWater_eq {journal : Journal} {hw : Coordinate} (h : highWater journal = some hw) :
    ∃ init lines, journal.entries = init ++ [(hw.segment, lines)] ∧ hw.offset = size lines := by
  unfold highWater at h
  rcases journal.entries.eq_nil_or_concat with hnil | ⟨init, ⟨s, l⟩, hsnoc⟩
  · rw [hnil] at h
    cases h
  · rw [List.concat_eq_append] at hsnoc
    rw [hsnoc, List.getLast?_append] at h
    obtain rfl := Option.some.inj h
    exact ⟨init, l, hsnoc, rfl⟩

theorem highWater_eq_none {journal : Journal} (h : highWater journal = none) : journal.entries = [] :=
  List.getLast?_eq_none_iff.1 (Option.map_eq_none_iff.1 h)

theorem idxOf_segment {journal : Journal} {init rest : Entries} {s : String} {l : List Line}
    (h : journal.entries = init ++ (s, l) :: rest) : (segments journal.entries).idxOf s = init.length := by
  have hnodup := nodup_segments journal
  have hseg : segments journal.entries = segments init ++ s :: segments rest := by rw [h]; exact List.map_append
  rw [hseg] at hnodup ⊢
  have hnot : s ∉ segments init := fun hs => (List.nodup_append.1 hnodup).2.2 s hs s List.mem_cons_self rfl
  rw [List.idxOf_append_of_notMem hnot, List.idxOf_cons_self, add_zero]
  exact List.length_map _

theorem mem_segments {journal : Journal} {init rest : Entries} {s : String} {l : List Line}
    (h : journal.entries = init ++ (s, l) :: rest) : s ∈ segments journal.entries := by
  rw [h]
  exact List.mem_map.2 ⟨(s, l), List.mem_append_right _ List.mem_cons_self, rfl⟩

theorem upto_eq {journal : Journal} {init rest : Entries} {s : String} {l : List Line}
    (h : journal.entries = init ++ (s, l) :: rest) :
    journal.entries.take ((segments journal.entries).idxOf s + 1) = init ++ [(s, l)] := by
  rw [idxOf_segment h, h, List.take_length_add_append]
  rfl

theorem iterRange_start {old new : Journal} (h : Grows old new) {hw : Coordinate} (hhw : highWater old = some hw) :
    iterRange none hw new.entries = placed old.entries := by
  obtain ⟨init, lines, hold, hsize⟩ := highWater_eq hhw
  obtain ⟨more, rest, hnew⟩ := h _ _ _ hold
  rw [iterRange, if_pos (mem_segments hnew)]
  simp only
  rw [upto_eq hnew, traverse_start, hsize, iterSegmentLines_upto, hold, placed_append, placed_cons, placed_nil,
    List.append_nil]

theorem iterRange_resume {a b c : Journal} (hab : Grows a b) (hbc : Grows b c) {cursor hw : Coordinate}
    (ha : highWater a = some cursor) (hb : highWater b = some hw) :
    placed a.entries ++ iterRange (some cursor) hw c.entries = placed b.entries := by
  obtain ⟨init, lines, haent, hoff⟩ := highWater_eq ha
  obtain ⟨init', lines', hbent, hsize⟩ := highWater_eq hb
  obtain ⟨more, rest, hgrown⟩ := hab _ _ _ haent
  obtain ⟨more', rest', hcent⟩ := hbc _ _ _ hbent
  obtain ⟨moreC, restC, hcurs⟩ := (hab.trans hbc) _ _ _ haent
  rw [iterRange, if_pos (mem_segments hcent)]
  simp only
  rw [if_pos (mem_segments hcurs), upto_eq hcent, idxOf_segment hcurs, haent, hbent, hoff, hsize]
  rw [hbent] at hgrown
  rcases rest.eq_nil_or_concat with rfl | ⟨mid, e, rfl⟩
  · -- the cursor's segment is still the last
    obtain ⟨rfl, hlast⟩ := List.append_inj' hgrown rfl
    obtain ⟨hseg, rfl⟩ := Prod.mk.inj (List.cons.inj hlast).1
    rw [List.drop_left, traverse, iterSegmentLines_mid, hseg, placed_append, placed_append, placed_cons, placed_cons,
      placed_nil, place_append, zero_add, List.append_nil, List.append_nil, List.append_assoc]
  · rw [List.concat_eq_append, ← List.cons_append, ← List.append_assoc] at hgrown
    obtain ⟨rfl, hlast⟩ := List.append_inj' hgrown rfl
    rw [List.append_assoc, List.drop_left, List.cons_append, traverse_cons_snoc, iterSegmentLines_from,
      iterSegmentLines_upto]
    simp only [placed_append, placed_cons, placed_nil, place_append, zero_add, List.append_nil, List.append_assoc]

theorem find?_snoc {journal : Journal} {init : Entries} {seg : String} {lines : List Line}
    (h : journal.entries = init ++ [(seg, lines)]) : endOffset journal seg = size lines := by
  have hnodup := nodup_segments journal
  rw [h, segments_snoc] at hnodup
  have hnone : init.find? (fun e => decide (e.1 = seg)) = none := by
    rw [List.find?_eq_none]
    intro e he heq
    rw [decide_eq_true_eq] at heq
    exact (List.nodup_append.1 hnodup).2.2 e.1 (List.mem_map_of_mem he) seg (List.mem_singleton.2 rfl) heq
  rw [endOffset, h, List.find?_append, hnone, Option.none_or, List.find?_cons_of_pos (by simp only [decide_true])]

theorem append_target {journal appended : Journal} {seg : String} {new : List Line}
    (h : journal.append seg new = some appended) :
    AppendTarget journal.entries seg ∧ appended.entries = extend seg new journal.entries := by
  unfold Journal.append at h
  split at h
  next hc => exact ⟨hc.1, by rw [← Option.some.inj h]⟩
  next => cases h

theorem append_placed {journal appended : Journal} {seg : String} {new : List Line}
    (h : journal.append seg new = some appended) :
    placed appended.entries = placed journal.entries ++ place seg (endOffset appended seg - size new) new := by
  obtain ⟨htarget, hext⟩ := append_target h
  obtain ⟨init, lines, hent, hgrown⟩ | ⟨_, hgrown⟩ := extend_cases new htarget
  · rw [hgrown] at hext
    have hstart : endOffset appended seg - size new = size lines := by
      rw [find?_snoc hext, size_append]
      omega
    rw [hstart, hext, hent, placed_append, placed_append, placed_cons, placed_cons, placed_nil, place_append, zero_add,
      List.append_nil, List.append_nil, List.append_assoc]
  · rw [hgrown] at hext
    have hstart : endOffset appended seg - size new = 0 := by
      rw [find?_snoc hext]
      omega
    rw [hstart, hext, placed_append, placed_cons, placed_nil, List.append_nil]

theorem isHistorical_extents {journal : Journal} {q : Coordinate × Line} (h : q ∈ placed journal.entries) :
    isHistorical q.1 (extents journal) = true := by
  obtain ⟨e, he, hq⟩ := List.mem_flatMap.1 h
  obtain ⟨hseg, _, hhi⟩ := of_mem_place hq
  have hget : (extents journal).get? q.1.segment = some (size e.2) := by
    rw [Dict.get?_eq_some, hseg]
    exact List.mem_map.2 ⟨e, he, rfl⟩
  have hpos := q.2.length_pos
  rw [isHistorical, hget]
  simp only [decide_eq_true_eq]
  omega

end Cctally.Attribution
