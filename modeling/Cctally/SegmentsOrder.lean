import Cctally.SegmentsRepair

/-!
# Appends at the canonical end

A validated target sorts after every other entry, and what recovery removed before it was
empty. The lines read in canonical order only grow at their end.
-/

namespace Cctally.Segments

open Attribution (segmentSortKey SEGMENT_PREFIX BOOTSTRAP_PREFIX)
open Directory TornLines

theorem segmentSortKey_injective {a b : String} (h : segmentSortKey a = segmentSortKey b) : a = b := by
  have hname : ∀ s, (ofLex (segmentSortKey s)).2 = s := by
    intro s
    rw [segmentSortKey]
    split
    · rfl
    · split <;> rfl
  rw [← hname a, h, hname]

theorem toList_segmentName (m : Month) : (segmentName m).toList = SEGMENT_PREFIX.toList ++
    [digit (m.year / 1000), digit (m.year / 100), digit (m.year / 10), digit m.year, '-',
      digit (m.month / 10), digit m.month] ++ ".jsonl".toList := String.toList_ofList

theorem isSegmentName_segmentName (m : Month) : isSegmentName (segmentName m) = true := by
  have hsuffix : ".jsonl".toList.isSuffixOf (segmentName m).toList = true := by
    rw [toList_segmentName, List.isSuffixOf_iff_suffix]
    exact List.suffix_append _ _
  have hprefix : SEGMENT_PREFIX.toList.isPrefixOf (segmentName m).toList = true := by
    rw [toList_segmentName, List.append_assoc, List.isPrefixOf_iff_prefix]
    exact List.prefix_append _ _
  rw [isSegmentName, hsuffix, hprefix, Bool.or_true, Bool.and_true]

theorem digit_cases (n : Nat) : (digit n).isDigit = true ∧ (digit n).toNat - 48 = n % 10 := by
  have hlt : n % 10 < 10 := Nat.mod_lt _ (by decide)
  rw [digit]
  generalize n % 10 = k at hlt
  revert k
  decide

theorem ofDigits_digits (ns : List Nat) :
    ofDigits (ns.map digit) = some (ns.foldl (fun n k => 10 * n + k % 10) 0) := by
  have hall : (ns.map digit).all Char.isDigit = true := by
    rw [List.all_eq_true]
    intro ch hch
    obtain ⟨n, _, rfl⟩ := List.mem_map.1 hch
    exact (digit_cases n).1
  rw [ofDigits, if_pos hall, List.foldl_map]
  simp only [(digit_cases _).2]

theorem observationSegmentMonth_segmentName (m : Month) :
    observationSegmentMonth (segmentName m) = some (toLex (m.year, m.month)) := by
  have hsuffix : ".jsonl".toList.isSuffixOf (segmentName m).toList = true := by
    rw [toList_segmentName, List.isSuffixOf_iff_suffix]
    exact List.suffix_append _ _
  have hprefix : SEGMENT_PREFIX.toList.isPrefixOf (segmentName m).toList = true := by
    rw [toList_segmentName, List.append_assoc, List.isPrefixOf_iff_prefix]
    exact List.prefix_append _ _
  have hstamp : ((segmentName m).toList.take ((segmentName m).toList.length - ".jsonl".toList.length)).drop
      SEGMENT_PREFIX.toList.length = [digit (m.year / 1000), digit (m.year / 100), digit (m.year / 10), digit m.year,
        '-', digit (m.month / 10), digit m.month] := by
    rw [toList_segmentName, List.length_append, Nat.add_sub_cancel, List.take_left, List.drop_left]
  have hyear := ofDigits_digits [m.year / 1000, m.year / 100, m.year / 10, m.year]
  have hmonth := ofDigits_digits [m.month / 10, m.month]
  simp only [List.map_cons, List.map_nil, List.foldl_cons, List.foldl_nil] at hyear hmonth
  obtain ⟨hyear1, hyear2⟩ := m.year_mem
  obtain ⟨hmonth1, hmonth2⟩ := m.month_mem
  have hy : 10 * (10 * (10 * (10 * 0 + m.year / 1000 % 10) + m.year / 100 % 10) + m.year / 10 % 10) + m.year % 10 =
      m.year := by omega
  have hm : 10 * (10 * 0 + m.month / 10 % 10) + m.month % 10 = m.month := by omega
  rw [hy] at hyear
  rw [hm] at hmonth
  unfold observationSegmentMonth
  simp only [hsuffix, hprefix, Bool.and_true, if_true, hstamp, hyear, hmonth]
  rw [if_neg (by omega), if_pos ⟨hmonth1, hmonth2⟩]

theorem sortSegments_sorted {names : List String} (h : names.Nodup) :
    (sortSegments names).Pairwise fun a b => segmentSortKey a < segmentSortKey b := by
  have hle : (sortSegments names).Pairwise fun a b => segmentSortKey a ≤ segmentSortKey b :=
    List.pairwise_insertionSort _ _
  have hnodup : (sortSegments names).Nodup := (List.perm_insertionSort _ _).nodup_iff.2 h
  exact (hle.and hnodup).imp fun h => lt_of_le_of_ne h.1 fun heq => h.2 (segmentSortKey_injective heq)

theorem mem_sortSegments {names : List String} {s : String} : s ∈ sortSegments names ↔ s ∈ names :=
  (List.perm_insertionSort _ _).mem_iff

theorem lt_of_getLast? {l : List String} (hl : l.Pairwise fun a b => segmentSortKey a < segmentSortKey b) {name : String}
    (h : l.getLast? = some name) : ∀ s ∈ l, s ≠ name → segmentSortKey s < segmentSortKey name := by
  rcases l.eq_nil_or_concat with rfl | ⟨init, x, rfl⟩
  · cases h
  rw [List.concat_eq_append] at hl h ⊢
  rw [List.getLast?_append] at h
  obtain rfl : x = name := Option.some.inj h
  intro s hs hne
  rcases List.mem_append.1 hs with hs | hs
  · exact (List.pairwise_append.1 hl).2.2 s hs x List.mem_cons_self
  · exact absurd (List.mem_singleton.1 hs) hne

theorem getLast?_of_lt {l : List String} (hl : l.Pairwise fun a b => segmentSortKey a < segmentSortKey b) {name : String}
    (hmem : name ∈ l) (h : ∀ s ∈ l, s ≠ name → segmentSortKey s < segmentSortKey name) : l.getLast? = some name := by
  rcases l.eq_nil_or_concat with rfl | ⟨init, x, rfl⟩
  · cases hmem
  rw [List.concat_eq_append] at hl hmem h ⊢
  rw [List.getLast?_append]
  by_cases hx : x = name
  · rw [hx]
    rfl
  · have hinit : name ∈ init := by
      rcases List.mem_append.1 hmem with hmem | hmem
      · exact hmem
      · exact absurd (List.mem_singleton.1 hmem).symm hx
    have hlt := h x (List.mem_append_right _ List.mem_cons_self) hx
    exact absurd ((List.pairwise_append.1 hl).2.2 name hinit x List.mem_cons_self) (lt_asymm hlt)

theorem mem_candidates {d : Directory} {s : String} :
    s ∈ candidates d ↔ isSegmentName s = true ∧ ∃ node, d.get? s = some node := by
  rw [candidates, mem_sortSegments, List.mem_filter, Dict.mem_keys, and_comm]

theorem mem_listSegments {d : Directory} {s : String} :
    s ∈ listSegments d ↔ isSegmentName s = true ∧ ∃ node, d.get? s = some node ∧ node.isFile = true := by
  rw [listSegments, mem_sortSegments, List.mem_filter, Dict.mem_keys, Bool.and_eq_true]
  constructor
  · intro ⟨⟨node, hnode⟩, hname, hfile⟩
    rw [hnode] at hfile
    exact ⟨hname, node, hnode, hfile⟩
  · intro ⟨hname, node, hnode, hfile⟩
    refine ⟨⟨node, hnode⟩, hname, ?_⟩
    rw [hnode]
    exact hfile

theorem listSegments_sorted (d : Directory) :
    (listSegments d).Pairwise fun a b => segmentSortKey a < segmentSortKey b := sortSegments_sorted (d.nodup.filter _)

theorem candidates_sorted (d : Directory) :
    (candidates d).Pairwise fun a b => segmentSortKey a < segmentSortKey b := sortSegments_sorted (d.nodup.filter _)

theorem lt_of_accepts {d : Directory} {name : String} (h : accepts (candidates d) name = true) :
    ∀ s ∈ candidates d, s ≠ name → segmentSortKey s < segmentSortKey name := by
  rw [accepts, Bool.or_eq_true, Bool.or_eq_true, Bool.and_eq_true, decide_eq_true_eq, decide_eq_true_eq,
    decide_eq_true_eq] at h
  rcases h with (hempty | hlast) | ⟨hnot, hlast⟩
  · intro s hs
    rw [List.isEmpty_iff.1 hempty] at hs
    cases hs
  · exact lt_of_getLast? (candidates_sorted d) hlast
  · have hnodup : (candidates d ++ [name]).Nodup := by
      rw [List.nodup_append]
      refine ⟨nodup_candidates d, List.nodup_singleton _, fun s hs s' hs' heq => ?_⟩
      rw [List.mem_singleton.1 hs'] at heq
      exact hnot (heq ▸ hs)
    intro s hs
    exact lt_of_getLast? (sortSegments_sorted hnodup) hlast s (mem_sortSegments.2 (List.mem_append_left _ hs))

/-! ## The lines read -/

def held (d : Directory) : List String :=
  (listSegments d).filter fun s => decide (lines newline (bytesOf d s) ≠ [])

def linesAt (d : Directory) (s : String) : List (String × Bytes) := (lines newline (bytesOf d s)).map fun l => (s, l)

theorem mem_held {d : Directory} {s : String} :
    s ∈ held d ↔ isSegmentName s = true ∧ lines newline (bytesOf d s) ≠ [] := by
  rw [held, List.mem_filter, mem_listSegments, decide_eq_true_eq]
  constructor
  · exact fun h => ⟨h.1.1, h.2⟩
  · intro ⟨hname, hlines⟩
    refine ⟨⟨hname, ?_⟩, hlines⟩
    rw [bytesOf] at hlines
    cases hget : d.get? s with
    | none =>
      rw [hget] at hlines
      exact absurd rfl hlines
    | some node =>
      rw [hget] at hlines
      refine ⟨node, rfl, ?_⟩
      cases node with
      | file b => rfl
      | link target =>
        cases target with
        | none => exact absurd rfl hlines
        | some b => rfl
      | other => exact absurd rfl hlines

theorem held_sorted (d : Directory) : (held d).Pairwise fun a b => segmentSortKey a < segmentSortKey b :=
  (listSegments_sorted d).filter _

theorem flatMap_filter {d : Directory} {names : List String} :
    (names.filter fun s => decide (lines newline (bytesOf d s) ≠ [])).flatMap (linesAt d) = names.flatMap (linesAt d) := by
  induction names with
  | nil => rfl
  | cons s names ih =>
    rw [List.filter_cons, List.flatMap_cons, ← ih]
    by_cases hs : lines newline (bytesOf d s) = []
    · rw [if_neg (by rw [decide_eq_true_eq]; exact not_not.2 hs), linesAt, hs]
      rfl
    · rw [if_pos (decide_eq_true hs), List.flatMap_cons]

theorem readLines_eq (d : Directory) : readLines d = (held d).flatMap (linesAt d) := flatMap_filter.symm

section
variable {d d' : Directory} {name : String}

theorem readLines_split (hname : isSegmentName name = true)
    (hlast : ∀ s ∈ held d, s ≠ name → segmentSortKey s < segmentSortKey name) :
    readLines d = ((held d).filter fun s => decide (s ≠ name)).flatMap (linesAt d) ++ linesAt d name := by
  have hsorted : ((held d).filter (fun s => decide (s ≠ name)) ++ [name]).Pairwise fun a b =>
      segmentSortKey a < segmentSortKey b := by
    rw [List.pairwise_append]
    refine ⟨(held_sorted d).filter _, List.pairwise_singleton _ _, fun s hs s' hs' => ?_⟩
    rw [List.mem_filter, decide_eq_true_eq] at hs
    rw [List.mem_singleton.1 hs']
    exact hlast s hs.1 hs.2
  have hheld : held d = ((held d).filter (fun s => decide (s ≠ name)) ++ [name]).filter fun s =>
      decide (lines newline (bytesOf d s) ≠ []) := by
    refine eq_of_sorted (held_sorted d) (hsorted.filter _) fun s => ?_
    rw [List.mem_filter, List.mem_append, List.mem_filter, List.mem_singleton, decide_eq_true_eq, decide_eq_true_eq]
    constructor
    · intro hs
      refine ⟨?_, (mem_held.1 hs).2⟩
      by_cases hne : s = name
      · exact .inr hne
      · exact .inl ⟨hs, hne⟩
    · intro ⟨hs, hlines⟩
      rcases hs with ⟨hs, _⟩ | rfl
      · exact hs
      · exact mem_held.2 ⟨hname, hlines⟩
  rw [readLines_eq, hheld, flatMap_filter, List.flatMap_append, List.flatMap_singleton, ← hheld]

theorem readLines_congr (h : ∀ s, lines newline (bytesOf d' s) = lines newline (bytesOf d s)) :
    readLines d' = readLines d := by
  have hheld : held d' = held d := eq_of_sorted (held_sorted d') (held_sorted d) fun s => by
    rw [mem_held, mem_held, h s]
  rw [readLines_eq, readLines_eq, hheld]
  exact congrArg (List.flatMap · (held d)) (funext fun s => by rw [linesAt, linesAt, h s])

theorem readLines_extend (hname : isSegmentName name = true)
    (hlast : ∀ s ∈ held d, s ≠ name → segmentSortKey s < segmentSortKey name)
    (hframe : ∀ s, s ≠ name → lines newline (bytesOf d' s) = lines newline (bytesOf d s)) {new : List Bytes}
    (hnew : lines newline (bytesOf d' name) = lines newline (bytesOf d name) ++ new) :
    readLines d' = readLines d ++ new.map fun l => (name, l) := by
  have hlast' : ∀ s ∈ held d', s ≠ name → segmentSortKey s < segmentSortKey name := fun s hs hne => by
    rw [mem_held, hframe s hne] at hs
    exact hlast s (mem_held.2 hs) hne
  have hothers : (held d').filter (fun s => decide (s ≠ name)) = (held d).filter fun s => decide (s ≠ name) := by
    refine eq_of_sorted ((held_sorted d').filter _) ((held_sorted d).filter _) fun s => ?_
    rw [List.mem_filter, List.mem_filter, mem_held, mem_held, decide_eq_true_eq]
    constructor <;> intro ⟨hs, hne⟩ <;> rw [hframe s hne] at * <;> exact ⟨hs, hne⟩
  rw [readLines_split hname hlast', readLines_split hname hlast, hothers, linesAt, hnew, List.map_append, ← linesAt,
    List.append_assoc]
  refine congrArg (· ++ _) (List.flatMap_congr fun s hs => ?_)
  rw [List.mem_filter, decide_eq_true_eq] at hs
  rw [linesAt, linesAt, hframe s hs.2]

end

/-! ## What recovery removes -/

theorem get?_erases {names : List String} {d : Directory} (s : String) :
    (names.foldl Dict.erase d).get? s = if s ∈ names then none else d.get? s := by
  induction names generalizing d with
  | nil => exact (if_neg List.not_mem_nil).symm
  | cons name names ih =>
    rw [List.foldl_cons, ih, Dict.get?_erase]
    by_cases hmem : s ∈ names
    · rw [if_pos hmem, if_pos (List.mem_cons_of_mem _ hmem)]
    · rw [if_neg hmem]
      by_cases heq : name = s
      · rw [if_pos heq, if_pos (heq ▸ List.mem_cons_self)]
      · rw [if_neg heq, if_neg (List.not_mem_cons_of_ne_of_not_mem (Ne.symm heq) hmem)]

theorem get?_write (d : Directory) (name s : String) (bytes : Bytes) :
    ∃ node : Node, node.isFile = true ∧ (write d name bytes).get? s = if name = s then some node else d.get? s := by
  rw [write]
  split
  · exact ⟨_, rfl, Dict.get?_set _ _ _ _⟩
  · exact ⟨_, rfl, Dict.get?_set _ _ _ _⟩

structure Removal (d : Directory) (c : Call) (s : String) : Prop where
  mem : s ∈ later d c.name
  empty : ∀ s' ∈ later d c.name, d.get? s' = some (.file []) ∧
    ∃ month, observationSegmentMonth s' = some month ∧ toLex (c.clock.year, c.clock.month) < month

theorem removal_of_validate {d d' : Directory} {c : Call}
    (h : validateAppendTarget d c.name c.unlinks = .ok d' ∨ validateAppendTarget d c.name c.unlinks = .error d')
    {s : String} (hthere : d.get? s ≠ none) (hgone : d'.get? s = none) : Removal d c s := by
  have hempty : ∀ {target}, observationSegmentMonth c.name = some target →
      (later d c.name).all (removable d target) = true → ∀ s' ∈ later d c.name, d.get? s' = some (.file []) ∧
        ∃ month, observationSegmentMonth s' = some month ∧ toLex (c.clock.year, c.clock.month) < month := by
    intro target htarget hall s' hmem
    rw [Call.name, observationSegmentMonth_segmentName] at htarget
    rw [Option.some.inj htarget]
    exact file_of_removable (List.all_eq_true.1 hall s' hmem)
  have herased : ∀ {names : List String}, (names.foldl Dict.erase d).get? s = none → s ∈ names := fun hnone => by
    rw [get?_erases] at hnone
    by_contra hnot
    rw [if_neg hnot] at hnone
    exact hthere hnone
  rcases validate_cases d c.name c.unlinks with ⟨k, hk, _, hcases⟩ | ⟨k, hk, hcases⟩
  · rcases h with h | h
    · obtain rfl : k = d' := Except.ok.inj (hk.symm.trans h)
      rcases hcases with rfl | ⟨rfl, target, htarget, hall⟩
      · exact absurd hgone hthere
      · exact ⟨herased hgone, hempty htarget hall⟩
    · rw [hk] at h
      cases h
  · rcases h with h | h
    · rw [hk] at h
      cases h
    · obtain rfl : k = d' := Except.error.inj (hk.symm.trans h)
      rcases hcases with rfl | ⟨⟨n, rfl⟩, target, htarget, hall⟩
      · exact absurd hgone hthere
      · exact ⟨List.mem_of_mem_take (herased hgone), hempty htarget hall⟩

theorem writeGroup_get? (d : Directory) (c : Call) (s : String) :
    (writeGroup d c).1.get? s = d.get? s ∨
      s = c.name ∧ ∃ node : Node, node.isFile = true ∧ (writeGroup d c).1.get? s = some node := by
  have hwrite : ∀ bytes, (write d c.name bytes).get? s = d.get? s ∨
      s = c.name ∧ ∃ node : Node, node.isFile = true ∧ (write d c.name bytes).get? s = some node := by
    intro bytes
    obtain ⟨node, hfile, hget⟩ := get?_write d c.name s bytes
    by_cases hs : c.name = s
    · rw [if_pos hs] at hget
      exact .inr ⟨hs.symm, node, hfile, hget⟩
    · rw [if_neg hs] at hget
      exact .inl hget
  rw [writeGroup]
  cases opened d c.name with
  | none => exact .inl rfl
  | some bytes =>
    simp only
    split
    · exact hwrite _
    · cases repairTornTail bytes with
      | none => exact .inl rfl
      | some valid =>
        simp only
        split
        · exact hwrite _
        · exact hwrite _

theorem isFile_of_returned {d : Directory} {c : Call} {endOffset : Nat} (h : (writeGroup d c).2 = .returned endOffset) :
    ∃ node : Node, (writeGroup d c).1.get? c.name = some node ∧ node.isFile = true := by
  have hwrite : ∀ bytes, ∃ node : Node, (write d c.name bytes).get? c.name = some node ∧ node.isFile = true := by
    intro bytes
    obtain ⟨node, hfile, hget⟩ := get?_write d c.name c.name bytes
    rw [if_pos rfl] at hget
    exact ⟨node, hget, hfile⟩
  rw [writeGroup] at h ⊢
  cases hopen : opened d c.name with
  | none =>
    rw [hopen] at h
    cases h
  | some bytes =>
    rw [hopen] at h
    simp only at h ⊢
    split
    · exact hwrite _
    · cases hrepair : repairTornTail bytes with
      | none =>
        rw [hrepair] at h
        split at h <;> cases h
      | some valid =>
        simp only
        split
        · exact hwrite _
        · exact hwrite _

/-! ## Appends with a defaulted clock -/

section
variable {d : Directory} {c : Call} (hclock : c.explicitNow = false)
include hclock

theorem append_readLines :
    readLines (append d c).1 = readLines d ++ (kept c (append d c).2).map fun l => (c.name, l) := by
  rcases append_cases d c with ⟨hout, hdir⟩ | ⟨d', htarget, _, _⟩
  · rw [hout, kept, List.map_nil, List.append_nil]
    refine readLines_congr fun s => ?_
    rcases hdir with hdir | hdir | hdir
    · rw [hdir]
    · rw [validate_bytesOf (.inr hdir)]
    · rw [validate_bytesOf (.inl hdir)]
  · rcases htarget with ⟨hexplicit, _⟩ | hvalid
    · rw [hclock] at hexplicit
      cases hexplicit
    · have hlast : ∀ s ∈ held d, s ≠ c.name → segmentSortKey s < segmentSortKey c.name := by
        intro s hs hne
        rw [mem_held, ← validate_bytesOf (.inl hvalid)] at hs
        have hlisted : s ∈ held d' := mem_held.2 hs
        rw [held, List.mem_filter, mem_listSegments] at hlisted
        obtain ⟨⟨hname, node, hnode, _⟩, _⟩ := hlisted
        rcases validate_cases d c.name c.unlinks with ⟨k, hk, haccepts, _⟩ | ⟨k, hk, _⟩
        · obtain rfl : k = d' := Except.ok.inj (hk.symm.trans hvalid)
          exact lt_of_accepts haccepts s (mem_candidates.2 ⟨hname, node, hnode⟩) hne
        · rw [hk] at hvalid
          cases hvalid
      refine readLines_extend (isSegmentName_segmentName c.clock) hlast (fun s hs => ?_) ?_
      · rw [(append_wrote d c).2 s hs]
      · have hlines := (append_lines d c c.name).1
        rwa [if_pos rfl] at hlines

theorem returned_last {endOffset : Nat} (h : (append d c).2 = .returned endOffset) :
    (candidates (append d c).1).getLast? = some c.name ∧ (listSegments (append d c).1).getLast? = some c.name := by
  rcases append_cases d c with ⟨hout, _⟩ | ⟨d', htarget, happ, _⟩
  · rw [hout] at h
    cases h
  rcases htarget with ⟨hexplicit, _⟩ | hvalid
  · rw [hclock] at hexplicit
    cases hexplicit
  rw [happ] at h ⊢
  have hname := isSegmentName_segmentName c.clock
  obtain ⟨node, hnode, hfile⟩ := isFile_of_returned h
  have hlt : ∀ s ∈ candidates (writeGroup d' c).1, s ≠ c.name → segmentSortKey s < segmentSortKey c.name := by
    intro s hs hne
    obtain ⟨hseg, node', hnode'⟩ := mem_candidates.1 hs
    rcases writeGroup_get? d' c s with hsame | ⟨heq, _⟩
    · rw [hsame] at hnode'
      rcases validate_cases d c.name c.unlinks with ⟨k, hk, haccepts, _⟩ | ⟨k, hk, _⟩
      · obtain rfl : k = d' := Except.ok.inj (hk.symm.trans hvalid)
        exact lt_of_accepts haccepts s (mem_candidates.2 ⟨hseg, node', hnode'⟩) hne
      · rw [hk] at hvalid
        cases hvalid
    · exact absurd heq hne
  refine ⟨getLast?_of_lt (candidates_sorted _) (mem_candidates.2 ⟨hname, node, hnode⟩) hlt, ?_⟩
  refine getLast?_of_lt (listSegments_sorted _) (mem_listSegments.2 ⟨hname, node, hnode, hfile⟩) fun s hs hne => ?_
  obtain ⟨hseg, node', hnode', _⟩ := mem_listSegments.1 hs
  exact hlt s (mem_candidates.2 ⟨hseg, node', hnode'⟩) hne

omit hclock in
theorem refused_bytesOf (h : (append d c).2 = .refused) (s : String) : bytesOf (append d c).1 s = bytesOf d s := by
  obtain ⟨hwrote, hframe⟩ := append_wrote d c
  by_cases hs : s = c.name
  · subst hs
    rw [h] at hwrote
    generalize bytesOf (append d c).1 c.name = after at hwrote
    cases hwrote
    rfl
  · exact hframe s hs

omit hclock in
theorem append_removal {s : String} (hthere : d.get? s ≠ none) (hgone : (append d c).1.get? s = none) : Removal d c s := by
  rcases append_cases d c with ⟨_, hdir⟩ | ⟨d', htarget, happ, _⟩
  · rcases hdir with hdir | hdir | hdir
    · rw [hdir] at hgone
      exact absurd hgone hthere
    · exact removal_of_validate (.inr hdir) hthere hgone
    · exact removal_of_validate (.inl hdir) hthere hgone
  · rw [happ] at hgone
    have hgone' : d'.get? s = none := by
      rcases writeGroup_get? d' c s with hsame | ⟨_, node, _, hnode⟩
      · rwa [hsame] at hgone
      · rw [hnode] at hgone
        cases hgone
    rcases htarget with ⟨_, rfl⟩ | hvalid
    · exact absurd hgone' hthere
    · exact removal_of_validate (.inl hvalid) hthere hgone'

end

theorem run_readLines {d : Directory} {calls : List Call} (hclock : ∀ c ∈ calls, c.explicitNow = false) :
    readLines d <+: readLines (run d calls) := by
  induction calls generalizing d with
  | nil => exact List.prefix_rfl
  | cons c calls ih =>
    have hone : readLines d <+: readLines (append d c).1 := by
      rw [append_readLines (hclock c List.mem_cons_self)]
      exact List.prefix_append _ _
    exact hone.trans (ih fun c' hc' => hclock c' (List.mem_cons_of_mem _ hc'))

/-- **Appends go to the canonical end**: after any run of them, over whatever the directory held,
the next one adds its lines after every line there is, a returned one on the last segment; a
refused one changes no byte; and a removal takes empty files of later months only. -/
theorem append_at_end (d : Directory) (before : List Call) (c : Call) (hclock : ∀ c' ∈ before ++ [c], c'.explicitNow = false) :
    readLines (append (run d before) c).1 =
        readLines (run d before) ++ (kept c (append (run d before) c).2).map (fun l => (c.name, l)) ∧
      readLines d <+: readLines (append (run d before) c).1 ∧
      (∀ endOffset, (append (run d before) c).2 = .returned endOffset →
        (candidates (append (run d before) c).1).getLast? = some c.name ∧
          (listSegments (append (run d before) c).1).getLast? = some c.name) ∧
      ((append (run d before) c).2 = .refused →
        ∀ s, bytesOf (append (run d before) c).1 s = bytesOf (run d before) s) ∧
      ∀ s, (run d before).get? s ≠ none → (append (run d before) c).1.get? s = none →
        (run d before).get? s = some (.file []) ∧ Removal (run d before) c s := by
  have hc := hclock c (List.mem_append_right _ List.mem_cons_self)
  have hgrown := append_readLines (d := run d before) hc
  refine ⟨hgrown, ?_, fun _ h => returned_last hc h, refused_bytesOf, fun s hthere hgone => ?_⟩
  · rw [hgrown]
    exact (run_readLines fun c' hc' => hclock c' (List.mem_append_left _ hc')).trans (List.prefix_append _ _)
  · have hremoval := append_removal hthere hgone
    exact ⟨(hremoval.empty s hremoval.mem).1, hremoval⟩

def restored : Directory := (Dict.empty.set "observations-2026-12.jsonl" (.file [])).set "bootstrap-1.jsonl" (.file [5, 10])

theorem clean_nine : newline ∉ [9] := by decide

theorem nonempty_nine : [(⟨[9], clean_nine⟩ : Encoded)] ≠ [] := List.cons_ne_nil _ _

def whole : Call := ⟨false, september, [⟨[9], clean_nine⟩], nonempty_nine, none⟩

theorem append_at_end_restored :
    readLines (append (run restored [whole]) whole).1 =
        [("bootstrap-1.jsonl", [5, 10]), ("observations-2026-09.jsonl", [9, 10]), ("observations-2026-09.jsonl", [9, 10])] ∧
      readLines restored <+: readLines (append (run restored [whole]) whole).1 := by
  refine ⟨by decide +kernel, (append_at_end restored [whole] whole ?_).2.1⟩
  intro c hc
  rcases List.mem_cons.1 hc with rfl | hc
  · rfl
  · rw [List.mem_singleton.1 hc]
    rfl

end Cctally.Segments
