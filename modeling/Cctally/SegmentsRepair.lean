import Cctally.Segments

/-!
# Torn tails are always repaired

A crashed append leaves whole lines and less than one more, so the window of the next
repair holds the last newline. A segment's complete lines are what its appends kept.
-/

namespace Cctally.Segments

open Directory TornLines

theorem Encoded.isLine (e : Encoded) : IsLine newline e.bytes := ⟨e.body, e.clean, rfl⟩

theorem Call.isLine (c : Call) : ∀ l ∈ c.lines, IsLine newline l := fun l hl => by
  obtain ⟨e, _, rfl⟩ := List.mem_map.1 hl
  exact e.isLine

def Sound (bytes : Bytes) : Prop :=
  ∃ t, newline ∉ t ∧ t.length < TAIL_WINDOW ∧ bytes = (lines newline bytes).flatten ++ t

theorem sound_nil : Sound [] := ⟨[], List.not_mem_nil, by decide, rfl⟩

theorem repair_eq {bytes valid : Bytes} (h : repairTornTail bytes = some valid) :
    valid = (lines newline bytes).flatten := by
  obtain ⟨t, _, _, heq⟩ := eq_flatten_append newline bytes
  have hdrop := @rfind_drop_eq _ _ newline bytes
  generalize hw : (lines newline bytes).flatten = w at heq hdrop
  rw [repairTornTail] at h
  by_cases hzero : bytes.length = 0
  · rw [if_pos hzero] at h
    obtain rfl := Option.some.inj h
    rw [List.length_eq_zero_iff.1 hzero] at heq ⊢
    exact (List.append_eq_nil_iff.1 heq.symm).1.symm
  rw [if_neg hzero] at h
  by_cases hlast : bytes.getLast? = some newline
  · rw [if_pos hlast] at h
    obtain rfl := Option.some.inj h
    rw [← hw, eq_flatten_of_getLast? hlast]
  rw [if_neg hlast] at h
  simp only at h
  generalize hk : bytes.length - min bytes.length TAIL_WINDOW = k at h
  split at h
  next => cases h
  next hno =>
    obtain rfl := Option.some.inj h
    rcases Nat.lt_or_ge k w.length with hlt | hge
    · rw [validTailOffset, hdrop, if_pos hlt]
      simp only
      have hend : k + (w.length - k - 1) + 1 = w.length := by omega
      rw [hend, heq, List.take_left]
    · rw [validTailOffset, hdrop, if_neg (Nat.not_lt.2 hge)] at hno
      simp only [le_refl, true_and, not_lt] at hno
      have hzero : k = 0 := by omega
      rw [validTailOffset, hdrop, if_neg (Nat.not_lt.2 hge), hzero]
      rw [hzero] at hge
      exact (List.length_eq_zero_iff.1 (Nat.le_zero.1 hge)).symm

theorem Sound.repair {bytes : Bytes} (h : Sound bytes) : repairTornTail bytes = some (lines newline bytes).flatten := by
  cases hrepair : repairTornTail bytes with
  | some valid => rw [repair_eq hrepair]
  | none =>
    exfalso
    obtain ⟨t, hclean, hlen, heq⟩ := h
    obtain ⟨_, _, hlines, _⟩ := eq_flatten_append newline bytes
    have hsize := congrArg List.length heq
    rw [List.length_append] at hsize
    rw [repairTornTail] at hrepair
    split at hrepair
    next => cases hrepair
    next =>
      split at hrepair
      next => cases hrepair
      next =>
        simp only at hrepair
        generalize hk : bytes.length - min bytes.length TAIL_WINDOW = k at hrepair
        split at hrepair
        next hrefused =>
          have hlt : k < (lines newline bytes).flatten.length := by omega
          have hfound := rfind_drop hlines hclean hlt
          rw [← heq] at hfound
          rw [validTailOffset, hfound] at hrefused
          simp only at hrefused
          omega
        next => cases hrepair

/-! ## What one append writes -/

theorem bytesOf_write (d : Directory) (name s : String) (bytes : Bytes) :
    bytesOf (write d name bytes) s = if name = s then bytes else bytesOf d s := by
  have hset : ∀ node : Node, node.bytes = bytes →
      bytesOf (d.set name node) s = if name = s then bytes else bytesOf d s := by
    intro node hnode
    rw [bytesOf, Dict.get?_set]
    by_cases hs : name = s
    · rw [if_pos hs, if_pos hs]
      exact hnode
    · rw [if_neg hs, if_neg hs]
      rfl
  rw [write]
  split
  · exact hset _ rfl
  · exact hset _ rfl

theorem bytesOf_erase {d : Directory} {name : String} (h : d.get? name = some (.file [])) (s : String) :
    bytesOf (d.erase name) s = bytesOf d s := by
  rw [bytesOf, Dict.get?_erase]
  by_cases hs : name = s
  · rw [if_pos hs, bytesOf, ← hs, h]
    rfl
  · rw [if_neg hs]
    rfl

theorem bytesOf_erases {names : List String} (hnodup : names.Nodup) {d : Directory}
    (h : ∀ name ∈ names, d.get? name = some (.file [])) (s : String) :
    bytesOf (names.foldl Dict.erase d) s = bytesOf d s := by
  induction names generalizing d with
  | nil => rfl
  | cons name names ih =>
    obtain ⟨hfresh, hnodup⟩ := List.nodup_cons.1 hnodup
    have hlater : ∀ name' ∈ names, (d.erase name).get? name' = some (.file []) := by
      intro name' hmem
      have hne : name ≠ name' := fun heq => hfresh (heq ▸ hmem)
      rw [Dict.get?_erase, if_neg hne]
      exact h name' (List.mem_cons_of_mem _ hmem)
    rw [List.foldl_cons, ih hnodup hlater, bytesOf_erase (h name List.mem_cons_self)]

theorem nodup_candidates (d : Directory) : (candidates d).Nodup :=
  (List.perm_insertionSort _ _).nodup_iff.2 (d.nodup.filter _)

theorem validate_cases (d : Directory) (name : String) (unlinks : Option Nat) :
    (∃ d', validateAppendTarget d name unlinks = .ok d' ∧ accepts (candidates d') name = true ∧
      (d' = d ∨ d' = (later d name).foldl Dict.erase d ∧
        ∃ target, observationSegmentMonth name = some target ∧ (later d name).all (removable d target) = true)) ∨
    ∃ d', validateAppendTarget d name unlinks = .error d' ∧
      (d' = d ∨ (∃ n, d' = ((later d name).take n).foldl Dict.erase d) ∧
        ∃ target, observationSegmentMonth name = some target ∧ (later d name).all (removable d target) = true) := by
  rw [validateAppendTarget]
  by_cases hfirst : accepts (candidates d) name = true
  · rw [if_pos hfirst]
    exact .inl ⟨d, rfl, hfirst, .inl rfl⟩
  rw [if_neg hfirst]
  unfold removeEmptyFutureSegments
  cases hmonth : observationSegmentMonth name with
  | none =>
    simp only
    rw [if_neg hfirst]
    exact .inr ⟨d, rfl, .inl rfl⟩
  | some target =>
    simp only
    by_cases hall : (later d name).all (removable d target) = true
    · rw [if_pos hall]
      cases unlinks with
      | some n => exact .inr ⟨_, rfl, .inr ⟨⟨n, rfl⟩, target, rfl, hall⟩⟩
      | none =>
        simp only
        by_cases hsecond : accepts (candidates ((later d name).foldl Dict.erase d)) name = true
        · rw [if_pos hsecond]
          exact .inl ⟨_, rfl, hsecond, .inr ⟨rfl, target, rfl, hall⟩⟩
        · rw [if_neg hsecond]
          refine .inr ⟨_, rfl, .inr ⟨⟨(later d name).length, ?_⟩, target, rfl, hall⟩⟩
          rw [List.take_length]
    · rw [if_neg hall]
      exact .inr ⟨d, rfl, .inl rfl⟩

theorem file_of_removable {d : Directory} {target : Nat ×ₗ Nat} {name : String} (h : removable d target name = true) :
    d.get? name = some (.file []) ∧ ∃ month, observationSegmentMonth name = some month ∧ target < month := by
  rw [removable] at h
  cases hmonth : observationSegmentMonth name with
  | none =>
    rw [hmonth] at h
    cases h
  | some month =>
    rw [hmonth] at h
    simp only [Bool.and_eq_true, decide_eq_true_eq] at h
    exact ⟨h.2, month, rfl, h.1⟩

theorem validate_bytesOf {d d' : Directory} {name : String} {unlinks : Option Nat}
    (h : validateAppendTarget d name unlinks = .ok d' ∨ validateAppendTarget d name unlinks = .error d') (s : String) :
    bytesOf d' s = bytesOf d s := by
  have hnodup : (later d name).Nodup := (nodup_candidates d).filter _
  have hfiles : ∀ {target}, (later d name).all (removable d target) = true →
      ∀ name' ∈ later d name, d.get? name' = some (.file []) := fun hall name' hmem =>
    (file_of_removable (List.all_eq_true.1 hall name' hmem)).1
  rcases validate_cases d name unlinks with ⟨k, hk, _, hcases⟩ | ⟨k, hk, hcases⟩
  · rcases h with h | h
    · obtain rfl : k = d' := Except.ok.inj (hk.symm.trans h)
      rcases hcases with rfl | ⟨rfl, target, _, hall⟩
      · rfl
      · exact bytesOf_erases hnodup (hfiles hall) s
    · rw [hk] at h
      cases h
  · rcases h with h | h
    · rw [hk] at h
      cases h
    · obtain rfl : k = d' := Except.error.inj (hk.symm.trans h)
      rcases hcases with rfl | ⟨⟨n, rfl⟩, target, _, hall⟩
      · rfl
      · exact bytesOf_erases (hnodup.sublist (List.take_sublist _ _))
          (fun name' hmem => hfiles hall name' (List.mem_of_mem_take hmem)) s

inductive Wrote (c : Call) (before : Bytes) : Outcome → Bytes → Prop
  | refused : Wrote c before .refused before
  | opened : Wrote c before (.crashed 0) before
  | written (n : Nat) (valid : Bytes) (hrepair : repairTornTail before = some valid) :
    Wrote c before (.crashed n) (valid ++ c.lines.flatten.take n)
  | returned (valid : Bytes) (hrepair : repairTornTail before = some valid) :
    Wrote c before (.returned (valid ++ c.lines.flatten).length) (valid ++ c.lines.flatten)

theorem opened_eq {d : Directory} {name : String} {bytes : Bytes} (h : opened d name = some bytes) :
    bytes = bytesOf d name := by
  rw [opened] at h
  split at h
  next => cases h
  next => exact (Option.some.inj h).symm

theorem writeGroup_wrote (d : Directory) (c : Call) :
    Wrote c (bytesOf d c.name) (writeGroup d c).2 (bytesOf (writeGroup d c).1 c.name) ∧
      ∀ s, s ≠ c.name → bytesOf (writeGroup d c).1 s = bytesOf d s := by
  have hframe : ∀ {bytes s}, s ≠ c.name → bytesOf (write d c.name bytes) s = bytesOf d s := fun hs => by
    rw [bytesOf_write, if_neg (Ne.symm hs)]
  have hself : ∀ bytes, bytesOf (write d c.name bytes) c.name = bytes := fun bytes => by
    rw [bytesOf_write, if_pos rfl]
  rw [writeGroup]
  cases hopen : opened d c.name with
  | none => exact ⟨.refused, fun _ _ => rfl⟩
  | some bytes =>
    obtain rfl := opened_eq hopen
    simp only
    split
    next =>
      simp only
      rw [hself]
      exact ⟨.opened, fun _ hs => hframe hs⟩
    next =>
      cases hrepair : repairTornTail (bytesOf d c.name) with
      | none => exact ⟨.refused, fun _ _ => rfl⟩
      | some valid =>
        simp only
        split
        next n _ =>
          simp only
          rw [hself]
          exact ⟨.written n valid hrepair, fun _ hs => hframe hs⟩
        next =>
          simp only
          rw [hself]
          exact ⟨.returned valid hrepair, fun _ hs => hframe hs⟩

theorem append_cases (d : Directory) (c : Call) :
    ((append d c).2 = .refused ∧
      ((append d c).1 = d ∨ validateAppendTarget d c.name c.unlinks = .error (append d c).1 ∨
        validateAppendTarget d c.name c.unlinks = .ok (append d c).1)) ∨
    ∃ d', (c.explicitNow = true ∧ d' = d ∨ validateAppendTarget d c.name c.unlinks = .ok d') ∧
      append d c = writeGroup d' c ∧ ∀ l ∈ c.lines, l.length ≤ MAX_LINE_BYTES := by
  rw [append]
  split
  next => exact .inl ⟨rfl, .inl rfl⟩
  next hshort =>
    rw [Bool.not_eq_true, List.any_eq_false] at hshort
    have hbound : ∀ l ∈ c.lines, l.length ≤ MAX_LINE_BYTES := fun l hl => by
      have hno := hshort l hl
      rw [decide_eq_true_eq] at hno
      exact not_lt.1 hno
    split
    next => exact .inl ⟨rfl, .inl rfl⟩
    next =>
      by_cases hexplicit : c.explicitNow = true
      · rw [if_pos hexplicit]
        simp only
        split
        next => exact .inl ⟨rfl, .inl rfl⟩
        next => exact .inl ⟨rfl, .inl rfl⟩
        next => exact .inr ⟨d, .inl ⟨hexplicit, rfl⟩, rfl, hbound⟩
      · rw [if_neg hexplicit]
        cases hvalid : validateAppendTarget d c.name c.unlinks with
        | error d' => exact .inl ⟨rfl, .inr (.inl rfl)⟩
        | ok d' =>
          simp only
          split
          next => exact .inl ⟨rfl, .inr (.inr rfl)⟩
          next => exact .inl ⟨rfl, .inr (.inr rfl)⟩
          next => exact .inr ⟨d', .inr rfl, rfl, hbound⟩

theorem append_wrote (d : Directory) (c : Call) :
    Wrote c (bytesOf d c.name) (append d c).2 (bytesOf (append d c).1 c.name) ∧
      ∀ s, s ≠ c.name → bytesOf (append d c).1 s = bytesOf d s := by
  rcases append_cases d c with ⟨hout, hdir⟩ | ⟨d', htarget, happ, _⟩
  · have hsame : ∀ s, bytesOf (append d c).1 s = bytesOf d s := by
      intro s
      rcases hdir with hdir | hdir | hdir
      · rw [hdir]
      · exact validate_bytesOf (.inr hdir) s
      · exact validate_bytesOf (.inl hdir) s
    rw [hout, hsame]
    exact ⟨.refused, fun s _ => hsame s⟩
  · have hsame : ∀ s, bytesOf d' s = bytesOf d s := by
      intro s
      rcases htarget with ⟨_, rfl⟩ | hvalid
      · rfl
      · exact validate_bytesOf (.inl hvalid) s
    obtain ⟨hwrote, hframe⟩ := writeGroup_wrote d' c
    rw [happ, ← hsame]
    exact ⟨hwrote, fun s hs => (hframe s hs).trans (hsame s)⟩

/-! ## Runs -/

def kept (c : Call) : Outcome → List Bytes
  | .returned _ => c.lines
  | .crashed n => within n c.lines
  | .refused => []

theorem within_zero (c : Call) : within 0 c.lines = [] := by
  rw [Call.lines]
  cases c.group with
  | nil => rfl
  | cons e group =>
    rw [List.map_cons, within, if_neg]
    rw [Encoded.bytes, List.length_append, List.length_singleton]
    omega

theorem flatten_isLine (bytes : Bytes) : ∀ l ∈ lines newline bytes, IsLine newline l := by
  obtain ⟨_, _, hlines, _⟩ := eq_flatten_append newline bytes
  exact hlines

theorem Wrote.lines_eq {c : Call} {before after : Bytes} {out : Outcome} (h : Wrote c before out after)
    (hbound : ∀ l ∈ c.lines, l.length ≤ MAX_LINE_BYTES) : lines newline after = lines newline before ++ kept c out := by
  have hrepaired : ∀ {valid rest}, repairTornTail before = some valid →
      lines newline (valid ++ rest) = lines newline before ++ lines newline rest := fun hrepair => by
    rw [repair_eq hrepair, lines_flatten (flatten_isLine before)]
  cases h with
  | refused => exact (List.append_nil _).symm
  | opened => rw [kept, within_zero, List.append_nil]
  | written n valid hrepair =>
    obtain ⟨t, hclean, _, heq⟩ := take_flatten c.isLine (by decide : 0 < MAX_LINE_BYTES) hbound n
    have hwithin : ∀ l ∈ within n c.lines, IsLine newline l := fun l hl => c.isLine l (mem_of_mem_within hl)
    rw [hrepaired hrepair, heq, lines_of_eq hwithin hclean]
    rfl
  | returned valid hrepair =>
    have hnone := lines_of_eq c.isLine (List.not_mem_nil (a := newline))
    rw [List.append_nil] at hnone
    rw [hrepaired hrepair, hnone]
    rfl

theorem Wrote.sound {c : Call} {before after : Bytes} {out : Outcome} (h : Wrote c before out after)
    (hbound : ∀ l ∈ c.lines, l.length ≤ MAX_LINE_BYTES) (hsound : Sound before) : Sound after := by
  have hlines := h.lines_eq hbound
  cases h with
  | refused => exact hsound
  | opened => exact hsound
  | written n valid hrepair =>
    obtain ⟨t, hclean, hlen, heq⟩ := take_flatten c.isLine (by decide : 0 < MAX_LINE_BYTES) hbound n
    refine ⟨t, hclean, hlen, ?_⟩
    rw [hlines, kept, List.flatten_append, List.append_assoc, ← heq, repair_eq hrepair]
  | returned valid hrepair =>
    refine ⟨[], List.not_mem_nil, by decide, ?_⟩
    rw [hlines, kept, List.flatten_append, List.append_nil, repair_eq hrepair]

theorem append_lines (d : Directory) (c : Call) (s : String) :
    (lines newline (bytesOf (append d c).1 s) =
      lines newline (bytesOf d s) ++ if c.name = s then kept c (append d c).2 else []) ∧
    (Sound (bytesOf d s) → Sound (bytesOf (append d c).1 s)) := by
  obtain ⟨hwrote, hframe⟩ := append_wrote d c
  by_cases hs : c.name = s
  · subst hs
    rw [if_pos rfl]
    rcases append_cases d c with ⟨hout, _⟩ | ⟨_, _, _, hbound⟩
    · rw [hout] at hwrote ⊢
      generalize bytesOf (append d c).1 c.name = after at hwrote
      cases hwrote
      exact ⟨(List.append_nil _).symm, id⟩
    · exact ⟨hwrote.lines_eq hbound, hwrote.sound hbound⟩
  · rw [if_neg hs, hframe s (Ne.symm hs), List.append_nil]
    exact ⟨rfl, id⟩

def run (d : Directory) (calls : List Call) : Directory := calls.foldl (fun d c => (append d c).1) d

def outcomes : Directory → List Call → List (Call × Outcome)
  | _, [] => []
  | d, c :: calls => (c, (append d c).2) :: outcomes (append d c).1 calls

def keptIn (name : String) (log : List (Call × Outcome)) : List Bytes :=
  log.flatMap fun p => if p.1.name = name then kept p.1 p.2 else []

theorem run_append (d : Directory) (calls calls' : List Call) : run d (calls ++ calls') = run (run d calls) calls' :=
  List.foldl_append

theorem run_lines (d : Directory) (calls : List Call) (s : String) :
    lines newline (bytesOf (run d calls) s) = lines newline (bytesOf d s) ++ keptIn s (outcomes d calls) ∧
      (Sound (bytesOf d s) → Sound (bytesOf (run d calls) s)) := by
  induction calls generalizing d with
  | nil => exact ⟨(List.append_nil _).symm, id⟩
  | cons c calls ih =>
    obtain ⟨hone, hsound⟩ := append_lines d c s
    obtain ⟨hrest, hsounds⟩ := ih (append d c).1
    refine ⟨?_, fun h => hsounds (hsound h)⟩
    rw [outcomes, keptIn, List.flatMap_cons, ← keptIn, ← List.append_assoc, ← hone, ← hrest]
    rfl

theorem returned_delimits {d : Directory} {c : Call} {endOffset : Nat} (h : (append d c).2 = .returned endOffset) :
    ∃ earlier line, c.lines.getLast? = some line ∧
      lines newline (bytesOf (append d c).1 c.name) = earlier ++ [line] ∧
      (earlier ++ [line]).flatten.length = endOffset := by
  obtain ⟨hwrote, _⟩ := append_wrote d c
  obtain ⟨hlines, _⟩ := append_lines d c c.name
  rw [h] at hwrote hlines
  rw [if_pos rfl, kept] at hlines
  rcases c.lines.eq_nil_or_concat with hnil | ⟨init, line, hsnoc⟩
  · exact absurd (List.map_eq_nil_iff.1 hnil) c.nonempty
  rw [List.concat_eq_append] at hsnoc
  refine ⟨lines newline (bytesOf d c.name) ++ init, line, ?_, ?_, ?_⟩
  · rw [hsnoc, List.getLast?_append]
    rfl
  · rw [hlines, hsnoc, List.append_assoc]
  · generalize bytesOf (append d c).1 c.name = after at hwrote
    cases hwrote with
    | returned valid hrepair => rw [List.append_assoc, ← hsnoc, List.flatten_append, repair_eq hrepair]

/-- **A segment's complete lines are what its appends kept**, in their order: the lines of those
that returned and the whole lines of those that crashed. The next repair keeps exactly these, and
the end an append returned delimits its last line ever after. -/
theorem lines_eq_keptIn (d : Directory) (name : String) (hnew : bytesOf d name = []) (calls : List Call) :
    lines newline (bytesOf (run d calls) name) = keptIn name (outcomes d calls) ∧
    repairTornTail (bytesOf (run d calls) name) = some (keptIn name (outcomes d calls)).flatten ∧
    ∀ before c after endOffset, calls = before ++ c :: after → c.name = name →
      (append (run d before) c).2 = .returned endOffset →
        ∃ earlier line, c.lines.getLast? = some line ∧
          (earlier ++ [line]) <+: lines newline (bytesOf (run d calls) name) ∧
          (earlier ++ [line]).flatten.length = endOffset ∧
          (bytesOf (run d calls) name).take endOffset = (earlier ++ [line]).flatten := by
  obtain ⟨hlines, hsound⟩ := run_lines d calls name
  rw [hnew] at hlines hsound
  have hkept : lines newline (bytesOf (run d calls) name) = keptIn name (outcomes d calls) := hlines
  refine ⟨hkept, ?_, fun before c after endOffset hcalls hname hreturned => ?_⟩
  · rw [← hkept]
    exact (hsound sound_nil).repair
  · subst hcalls hname
    obtain ⟨earlier, line, hlast, hnow, hlen⟩ := returned_delimits hreturned
    have hgrown : (earlier ++ [line]) <+: lines newline (bytesOf (run d (before ++ c :: after)) c.name) := by
      rw [run_append, ← hnow]
      obtain ⟨hlater, _⟩ := run_lines (append (run d before) c).1 after c.name
      exact ⟨_, hlater.symm⟩
    refine ⟨earlier, line, hlast, hgrown, hlen, ?_⟩
    obtain ⟨more, hmore⟩ := hgrown
    obtain ⟨t, _, _, heq⟩ := eq_flatten_append newline (bytesOf (run d (before ++ c :: after)) c.name)
    rw [heq, ← hmore, List.flatten_append, List.append_assoc, ← hlen, List.take_left]

def september : Month := ⟨2026, 9, by decide, by decide⟩

def tornThenWhole : List Call :=
  [⟨false, september, [⟨[7, 7], by decide⟩, ⟨[8, 8], by decide⟩], List.cons_ne_nil _ _, some (.write 5)⟩,
    ⟨false, september, [⟨[9], by decide⟩], List.cons_ne_nil _ _, none⟩]

theorem lines_eq_keptIn_torn :
    lines newline (bytesOf (run Dict.empty tornThenWhole) (segmentName september)) = [[7, 7, 10], [9, 10]] ∧
      lines newline (bytesOf (run Dict.empty tornThenWhole) (segmentName september)) =
        keptIn (segmentName september) (outcomes Dict.empty tornThenWhole) :=
  ⟨by decide +kernel, (lines_eq_keptIn Dict.empty _ rfl tornThenWhole).1⟩

end Cctally.Segments
