import Cctally.AccountingCache

/-!
# The population is the full load

A path that the ledger does not mark past a state's sequence holds the rows that the state
was loaded from. So replacing the marked paths is loading everything, unless the ledger has
lost some markers of the very next sequence and kept others.
-/

namespace Cctally.Accounting

section
variable {X T V E K I : Type} {c : Callbacks X T V E K I}

theorem nodup_order {l : List E} (h : (l.map c.identityOf).Nodup) : (l.map c.orderKey).Nodup :=
  (List.Nodup.of_map _ h).map_on fun e he e' he' heq => List.inj_on_of_nodup_map h he he' (c.identity_order e e' heq)

theorem perm_outside [DecidableEq E] {paths : List Key} {l l' : List E}
    (h : ∀ key ∉ paths, (l.filter fun e => c.pathOf e = key).Perm (l'.filter fun e => c.pathOf e = key)) :
    (l.filter fun e => decide (c.pathOf e ∉ paths)).Perm (l'.filter fun e => decide (c.pathOf e ∉ paths)) := by
  refine List.perm_iff_count.2 fun e => ?_
  by_cases he : c.pathOf e ∈ paths
  · have hnot : ∀ k : List E, e ∉ k.filter fun e => decide (c.pathOf e ∉ paths) := fun k hmem =>
      of_decide_eq_true (List.mem_filter.1 hmem).2 he
    rw [List.count_eq_zero.2 (hnot l), List.count_eq_zero.2 (hnot l')]
  · have hat : ∀ k : List E, (k.filter fun e' => c.pathOf e' = c.pathOf e).count e = k.count e := fun _ =>
      List.count_filter (decide_eq_true rfl)
    have hout : ∀ k : List E, (k.filter fun e' => decide (c.pathOf e' ∉ paths)).count e = k.count e := fun _ =>
      List.count_filter (decide_eq_true he)
    rw [hout, hout, ← hat l, ← hat l']
    exact List.perm_iff_count.1 (h _ he) e

variable [LinearOrder K]

theorem perm_sortEntries (l : List E) : (sortEntries c l).Perm l := List.perm_insertionSort _ l

theorem pairwise_sortEntries (l : List E) : (sortEntries c l).Pairwise fun e e' => c.orderKey e ≤ c.orderKey e' :=
  have : Std.Total fun e e' : E => c.orderKey e ≤ c.orderKey e' := ⟨fun _ _ => le_total _ _⟩
  have : IsTrans E fun e e' => c.orderKey e ≤ c.orderKey e' := ⟨fun _ _ _ => le_trans⟩
  List.pairwise_insertionSort _ l

theorem sortEntries_congr {l l' : List E} (h : (l'.map c.identityOf).Nodup) (hperm : l.Perm l') :
    sortEntries c l = sortEntries c l' :=
  (insertionSort_congr c.orderKey (nodup_order h) hperm.symm).symm

theorem eq_sortEntries {l l' : List E} (hsorted : l.Pairwise fun e e' => c.orderKey e ≤ c.orderKey e')
    (h : (l'.map c.identityOf).Nodup) (hperm : l.Perm l') : l = sortEntries c l' := by
  rw [← sortEntries_congr h hperm]
  exact hsorted.insertionSort_eq.symm

end

section
variable {X T V E K I : Type} [LinearOrder T] {c : Callbacks X T V E K I}

theorem loadPaths_eq (c : Callbacks X T V E K I) (s : Store T V) (extra : X) (start end_ : T) (paths : List Key) :
    loadPaths c s extra start end_ paths =
      (loadAll c s extra start end_).filter fun e => decide (c.pathOf e ∈ paths) := by
  rw [loadPaths, loadAll, List.filter_map, List.filter_filter]
  refine congrArg _ (List.filter_congr fun r _ => ?_)
  rw [Function.comp_apply, c.path_render, Bool.and_comm]

theorem loadAll_at (c : Callbacks X T V E K I) (s : Store T V) (extra : X) (start end_ : T) (key : Key) :
    (loadAll c s extra start end_).filter (fun e => c.pathOf e = key) =
      ((s.at_ key).filter (inRange start end_)).map (c.render extra) := by
  rw [loadAll, List.filter_map, List.filter_filter, Store.at_, List.filter_filter]
  refine congrArg _ (List.filter_congr fun r _ => ?_)
  rw [Function.comp_apply, c.path_render, Bool.and_comm]

theorem nodup_loadAll (c : Callbacks X T V E K I) (s : Store T V) (extra : X) (start end_ : T) :
    ((loadAll c s extra start end_).map c.identityOf).Nodup := by
  rw [loadAll, List.map_map]
  have hrows : ((s.rows.filter (inRange start end_)).map (·.id)).Nodup := s.nodup.sublist (List.filter_sublist.map _)
  refine (List.Nodup.of_map _ hrows).map_on fun r hr r' hr' heq => ?_
  exact List.inj_on_of_nodup_map hrows hr hr' (c.identity_render extra r r' heq)

variable [LinearOrder K]

def Unmarked (s : Store T V) (seq : Nat) (key : Key) : Prop :=
  ∀ m ∈ s.full, seq < m.mutationSeq → m.key ≠ none ∧ m.key ≠ some key

structure Holds (c : Callbacks X T V E K I) (s : Store T V) (st : State X T E) : Prop where
  seq_le : st.seq ≤ s.mutationSeq
  sorted : st.entries.Pairwise fun e e' => c.orderKey e ≤ c.orderKey e'
  nodup : (st.entries.map c.identityOf).Nodup
  entries : ∀ key, Unmarked s st.seq key → (st.entries.filter fun e => c.pathOf e = key).Perm
    ((loadAll c s st.extra st.start st.end_).filter fun e => c.pathOf e = key)

theorem Holds.recorded {s s' : Store T V} {st : State X T E} (h : Holds c s st) (hs : Recorded s s') : Holds c s' st := by
  obtain ⟨keys, hfull, hsame⟩ := hs.marks
  have hle := h.seq_le
  have hseq := hs.seq
  refine ⟨by omega, h.sorted, h.nodup, fun key hkey => ?_⟩
  have hmarks : ∀ k ∈ keys, k ≠ none ∧ k ≠ some key := fun k hk => by
    have hmem : (⟨s.mutationSeq + 1, k⟩ : Marker) ∈ s'.full := by
      rw [hfull]
      exact List.mem_append_right _ (List.mem_map.2 ⟨k, hk, rfl⟩)
    refine hkey _ hmem ?_
    simp only
    omega
  have hold : Unmarked s st.seq key := fun m hm => hkey m (hfull ▸ List.mem_append_left _ hm)
  have hat := hsame key (fun hnone => (hmarks none hnone).1 rfl) fun hsome => (hmarks _ hsome).2 rfl
  rw [loadAll_at, hat, ← loadAll_at]
  exact h.entries key hold

theorem Holds.run [DecidableEq V] {s : Store T V} {st : State X T E} (h : Holds c s st) (statement : Statement T V) :
    Holds c (s.run statement) st := by
  rcases run_recorded s statement with heq | hrecorded
  · rw [heq]
    exact h
  · exact h.recorded hrecorded

theorem Holds.prune {s : Store T V} {st : State X T E} (h : Holds c s st) (retainSequences : Nat) (maxRows : Option Nat) :
    Holds c (s.prune retainSequences maxRows) st := by
  obtain ⟨hrows, hseq, hfull⟩ := prune_eq s retainSequences maxRows
  refine ⟨hseq ▸ h.seq_le, h.sorted, h.nodup, fun key hkey => ?_⟩
  have hat : (s.prune retainSequences maxRows).at_ key = s.at_ key := by rw [Store.at_, hrows, Store.at_]
  rw [loadAll_at, hat, ← loadAll_at]
  refine h.entries key fun m hm => ?_
  rw [← hfull] at hm
  exact hkey m hm

theorem holds_of_load {s : Store T V} {st : State X T E} (hseq : st.seq ≤ s.mutationSeq)
    (h : st.entries = sortEntries c (loadAll c s st.extra st.start st.end_)) : Holds c s st := by
  refine ⟨hseq, ?_, ?_, fun key _ => ?_⟩
  · rw [h]
    exact pairwise_sortEntries _
  · rw [h]
    exact ((perm_sortEntries _).map _).nodup_iff.2 (nodup_loadAll c s _ _ _)
  · rw [h]
    exact (perm_sortEntries _).filter _

/-! ## A warm call -/

/-- A marker of the next sequence is pruned and another of it is not, and none that is left
makes up for it. -/
def Severed (s : Store T V) (st : State X T E) : Prop :=
  ∃ m ∈ s.pruned, m.mutationSeq = st.seq + 1 ∧ (∃ m' ∈ s.log, m'.mutationSeq = st.seq + 1) ∧
    ∀ m' ∈ s.log, st.seq < m'.mutationSeq → m'.key ≠ none ∧ m'.key ≠ m.key

section
variable {s : Store T V} {q : Request X T} {st : State X T E}

omit [LinearOrder T] in
theorem unmarked_of_marked {paths : List Key} (h : marked s q st s.mutationSeq = some paths) (hsevered : ¬ Severed s st)
    {key : Key} (hkey : key ∉ paths) : Unmarked s st.seq key := by
  intro m hm hlt
  have hle := s.seq_le m hm
  rw [marked, if_pos (by omega)] at h
  split at h
  next => cases h
  next =>
    simp only at h
    split at h
    next first last hfirst hlast =>
      split at h
      next => cases h
      next hwhole =>
        obtain rfl := Option.some.inj h
        rw [Bool.or_eq_true, Bool.or_eq_true, not_or, not_or, decide_eq_true_eq, not_lt] at hwhole
        -- what is left after the sequence: no full marker, and no marker of the path
        have hleft : ∀ m' ∈ s.log, st.seq < m'.mutationSeq → m'.key ≠ none ∧ m'.key ≠ some key := by
          intro m' hm' hlt'
          have hmem : m' ∈ s.log.filter fun m => st.seq < m.mutationSeq :=
            List.mem_filter.2 ⟨hm', decide_eq_true hlt'⟩
          refine ⟨fun hnone => hwhole.2 (List.any_eq_true.2 ⟨m', hmem, by rw [hnone]; rfl⟩), fun hsome => hkey ?_⟩
          exact List.mem_filterMap.2 ⟨m', hmem, hsome⟩
        rcases List.mem_append.1 hm with hpruned | hlog
        · -- a pruned marker stands before the first that is left, so it is of the next sequence
          obtain ⟨hfirstmem, hfirstlt⟩ := List.mem_filter.1 (List.mem_of_head? hfirst)
          rw [decide_eq_true_eq] at hfirstlt
          have hbefore := (List.pairwise_append.1 s.sorted).2.2 m hpruned first hfirstmem
          have hnext : m.mutationSeq = st.seq + 1 := by omega
          have hkept : ∃ m' ∈ s.log, m'.mutationSeq = st.seq + 1 := ⟨first, hfirstmem, by omega⟩
          by_contra hlost
          rw [not_and_or, not_not, not_not] at hlost
          refine hsevered ⟨m, hpruned, hnext, hkept, fun m' hm' hlt' => ⟨(hleft m' hm' hlt').1, ?_⟩⟩
          rcases hlost with hnone | hsome
          · rw [hnone]
            exact (hleft m' hm' hlt').1
          · rw [hsome]
            exact (hleft m' hm' hlt').2
        · exact hleft m hlog hlt
    next => cases h

theorem inRange_of_revealed {paths : List Key} (h : revealed s q st = some paths) (hend : st.end_ ≤ q.end_) {key : Key}
    (hkey : key ∉ paths) (start : T) :
    (s.at_ key).filter (inRange start st.end_) = (s.at_ key).filter (inRange start q.end_) := by
  refine List.filter_congr fun r hr => ?_
  obtain ⟨hmem, hrkey⟩ := List.mem_filter.1 hr
  rw [inRange, inRange]
  refine congrArg _ (decide_eq_decide.2 ⟨fun hlt => lt_of_lt_of_le hlt hend, fun hlt => ?_⟩)
  rw [revealed] at h
  split at h
  next =>
    split at h
    next => cases h
    next =>
      obtain rfl := Option.some.inj h
      by_contra hnot
      refine hkey (List.mem_map.2 ⟨r, List.mem_filter.2 ⟨hmem, ?_⟩, of_decide_eq_true hrkey⟩)
      rw [inRange, decide_eq_true (not_lt.1 hnot), decide_eq_true hlt]
      rfl
  next hsame => exact lt_of_lt_of_le hlt (not_lt.1 hsame)

structure Warm (s : Store T V) (p : Process X T E) (q : Request X T) (st : State X T E) (current : Nat)
    (paths : List Key) : Prop where
  state : p.state = some st
  current : current = s.mutationSeq
  extra : st.extra = q.extra
  start : st.start = q.start
  end_ : st.end_ ≤ q.end_
  dirty : ∃ fromLedger fromBound, marked s q st s.mutationSeq = some fromLedger ∧ revealed s q st = some fromBound ∧
    paths = sortedSet (fromLedger ++ fromBound ++ st.forced)

variable {p : Process X T E} {current : Nat} {paths : List Key}

theorem Warm.outside [DecidableEq E] (hwarm : Warm s p q st current paths) (h : Holds c s st) (hsevered : ¬ Severed s st) :
    (st.entries.filter fun e => decide (c.pathOf e ∉ paths)).Perm
      ((loadAll c s q.extra q.start q.end_).filter fun e => decide (c.pathOf e ∉ paths)) := by
  obtain ⟨fromLedger, fromBound, hmarked, hrevealed, rfl⟩ := hwarm.dirty
  refine perm_outside fun key hkey => ?_
  rw [mem_sortedSet, List.mem_append, List.mem_append, not_or, not_or] at hkey
  have hheld := h.entries key (unmarked_of_marked hmarked hsevered hkey.1.1)
  rw [loadAll_at] at hheld ⊢
  rw [← hwarm.extra, ← hwarm.start, ← inRange_of_revealed hrevealed hwarm.end_ hkey.1.2]
  exact hheld

theorem Warm.replaced [DecidableEq E] (hwarm : Warm s p q st current paths) (h : Holds c s st)
    (hsevered : ¬ Severed s st) :
    ((st.entries.filter fun e => decide (c.pathOf e ∉ paths)) ++ loadPaths c s q.extra q.start q.end_ paths).Perm
      (loadAll c s q.extra q.start q.end_) := by
  rw [loadPaths_eq]
  refine ((hwarm.outside h hsevered).append_right _).trans (List.perm_append_comm.trans ?_)
  have hsplit := List.filter_append_perm (fun e => decide (c.pathOf e ∈ paths)) (loadAll c s q.extra q.start q.end_)
  simp only [← decide_not] at hsplit
  exact hsplit

theorem Warm.still [DecidableEq E] (hwarm : Warm s p q st current []) (h : Holds c s st) (hsevered : ¬ Severed s st) :
    st.entries = sortEntries c (loadAll c s q.extra q.start q.end_) := by
  refine eq_sortEntries h.sorted (nodup_loadAll c s _ _ _) ?_
  have houtside := hwarm.outside h hsevered
  rwa [List.filter_eq_self.2 fun _ _ => decide_eq_true List.not_mem_nil,
    List.filter_eq_self.2 fun _ _ => decide_eq_true List.not_mem_nil] at houtside

variable [DecidableEq X]

theorem warm_of_retained (h : retained s p q = some (st, current)) :
    p.state = some st ∧ current = s.mutationSeq ∧ st.extra = q.extra ∧ st.start = q.start ∧ st.end_ ≤ q.end_ := by
  rw [retained] at h
  split at h
  next current' st' hcurrent hstate =>
    split at h
    next => cases h
    next hwarm =>
      obtain ⟨rfl, rfl⟩ := Prod.mk.inj (Option.some.inj h)
      rw [currentSeq] at hcurrent
      simp only [ne_eq, decide_not, Bool.or_eq_true, Bool.not_eq_true', decide_eq_false_iff_not, decide_eq_true_eq,
        not_or, not_not, not_lt] at hwarm
      refine ⟨hstate, ?_, hwarm.1.1.1.2, hwarm.1.1.2, hwarm.1.2⟩
      split at hcurrent
      next => cases hcurrent
      next => exact (Option.some.inj hcurrent).symm
  next => cases h

theorem warm_of_dirty (h : dirty s p q = some (st, current, paths)) :
    retained s p q = some (st, current) ∧ Warm s p q st current paths := by
  rw [dirty] at h
  split at h
  next => cases h
  next st' current' hretained =>
    obtain ⟨hstate, hcurrent, hextra, hstart, hend⟩ := warm_of_retained hretained
    split at h
    next fromLedger fromBound hmarked hrevealed =>
      simp only at h
      split at h
      next => cases h
      next =>
        obtain ⟨rfl, hrest⟩ := Prod.mk.inj (Option.some.inj h)
        obtain ⟨rfl, rfl⟩ := Prod.mk.inj hrest
        exact ⟨hretained, hstate, hcurrent, hextra, hstart, hend, fromLedger, fromBound, hcurrent ▸ hmarked, hrevealed,
          rfl⟩
    next => cases h

end

end

end Cctally.Accounting
