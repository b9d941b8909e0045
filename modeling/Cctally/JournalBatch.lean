import Cctally.JournalFold

/-!
# Batch verdicts

Phase 2 re-derives five of the seven violation kinds from the records a batch
has accumulated. A later record can withdraw one of them, but only by causing
another, so a taint is permanent.
-/

namespace Cctally

section
variable {rt : Runtime} {b : String}

/-! ## Inversion -/

theorem batchViolations_both {bg cm : Marker} {actions : Dict Nat BatchAction} {log : TaintLog} :
    batchViolations rt b (some bg) (some cm) actions = .ok log ↔
      ∃ count, bg.core.actionCount = some count ∧
        if sortedSet actions.keys = List.range count then
          ∃ rest, completeViolations rt b bg cm (orderedActions actions count) = .ok rest ∧
            log = markerViolations rt b bg cm ++ rest
        else log = markerViolations rt b bg cm ++ [actionSetViolation rt b bg cm actions count] := by
  simp only [batchViolations]
  cases bg.core.actionCount with
  | none => simp only [Except.throw_eq_ok, reduceCtorEq, false_and, exists_false]
  | some count =>
    simp only [Option.some.injEq, exists_eq_left']
    split
    · simp only [Except.bind_eq_ok, Except.pure_eq_ok]
    · simp only [Except.pure_eq_ok]

theorem batchViolations_none_some {cm : Marker} {actions : Dict Nat BatchAction} {log : TaintLog} :
    batchViolations rt b none (some cm) actions = .ok log ↔
      log = [(⟨b, .commitWithoutBegin cm.sequence cm.digest⟩, cm.sequence)] := by
  simp only [batchViolations, Except.pure_eq_ok]

theorem batchViolations_none {bg? : Option Marker} {actions : Dict Nat BatchAction} {log : TaintLog} :
    batchViolations rt b bg? none actions = .ok log ↔ log = [] := by
  cases bg? <;> simp only [batchViolations, Except.pure_eq_ok]

theorem completeViolations_eq_ok {bg cm : Marker} {ordered : List BatchAction} {rest : TaintLog} :
    completeViolations rt b bg cm ordered = .ok rest ↔
      ∃ corrections expected, ordered.mapM readCore = .ok corrections ∧ bg.core.actionsHash = some expected ∧
        rest = actionOrderViolations rt b bg cm (ordered.map (·.sequence)) ++
          if sha256Canonical rt (.arr (corrections.map fun c => correctionActionCore c.core)) = expected then []
          else [(⟨b, .manifestActionsHashMismatch expected
              (sha256Canonical rt (.arr (corrections.map fun c => correctionActionCore c.core)))⟩,
            (bg.sequence :: cm.sequence :: ordered.map (·.sequence)).foldl max 0)] := by
  simp only [completeViolations, Except.bind_eq_ok]
  cases bg.core.actionsHash with
  | none => simp only [Except.throw_eq_ok, reduceCtorEq, false_and, and_false, exists_false]
  | some expected => simp only [Except.pure_eq_ok, Option.some.injEq, exists_and_left, exists_eq_left']

theorem batchViolations_batchId {bg? cm? : Option Marker} {actions : Dict Nat BatchAction} {log : TaintLog}
    (h : batchViolations rt b bg? cm? actions = .ok log) {entry : ProtocolViolation × Nat} (he : entry ∈ log) :
    entry.1.batchId = b := by
  have hm : ∀ {bg cm : Marker}, entry ∈ markerViolations rt b bg cm → entry.1.batchId = b := by
    intro bg cm hm
    simp only [markerViolations, List.mem_append] at hm
    rcases hm with hm | hm
    · split at hm
      · cases hm
      · rw [List.mem_singleton.mp hm]
    · split at hm
      · cases hm
      · rw [List.mem_singleton.mp hm]
  cases cm? with
  | none => rw [batchViolations_none.mp h] at he; cases he
  | some cm =>
    cases bg? with
    | none => rw [batchViolations_none_some.mp h] at he; rw [List.mem_singleton.mp he]
    | some bg =>
      obtain ⟨count, -, h⟩ := batchViolations_both.mp h
      split at h
      · obtain ⟨rest, hr, rfl⟩ := h
        obtain ⟨cs, expected, -, -, rfl⟩ := completeViolations_eq_ok.mp hr
        simp only [List.mem_append, actionOrderViolations] at he
        rcases he with he | he | he
        · exact hm he
        · split at he
          · cases he
          · rw [List.mem_singleton.mp he]
        · split at he
          · cases he
          · rw [List.mem_singleton.mp he]
      · subst h
        rcases List.mem_append.mp he with he | he
        · exact hm he
        · rw [List.mem_singleton.mp he]; rfl

section
variable {d d' : Dict Nat BatchAction} (h : ∀ k, d.get? k = d'.get? k)
include h

theorem orderedActions_congr (count : Nat) : orderedActions d count = orderedActions d' count := by
  unfold orderedActions
  rw [show d.get? = d'.get? from funext h]

theorem sortedKeys_congr : sortedSet d.keys = sortedSet d'.keys := by
  refine sortedSet_congr fun k => ?_
  rw [Dict.mem_keys, Dict.mem_keys, h]

theorem actionSetViolation_congr (bg cm cm' : Marker) (count : Nat) (hs : cm.sequence = cm'.sequence) :
    actionSetViolation rt b bg cm d count = actionSetViolation rt b bg cm' d' count := by
  have hv : (d.values.map (·.sequence)).Perm (d'.values.map (·.sequence)) :=
    ((Dict.perm_of_get? h).map Prod.snd).map _
  simp only [actionSetViolation, sortedKeys_congr h, hs]
  rw [((hv.cons _).cons _).foldl_eq (f := max)]

end

theorem batchViolations_congr {bg? cm? cm?' : Option Marker} {d d' : Dict Nat BatchAction}
    (hc : cm?.map (fun m => (m.digest, m.identity, m.sequence)) =
      cm?'.map (fun m => (m.digest, m.identity, m.sequence)))
    (h : ∀ k, d.get? k = d'.get? k) :
    batchViolations rt b bg? cm? d = batchViolations rt b bg? cm?' d' := by
  cases cm? with
  | none =>
    cases cm?' with
    | none => cases bg? <;> rfl
    | some _ => simp at hc
  | some cm =>
    cases cm?' with
    | none => simp at hc
    | some cm' =>
      simp only [Option.map_some, Option.some.injEq, Prod.mk.injEq] at hc
      obtain ⟨hd, hi, hs⟩ := hc
      cases bg? with
      | none => simp only [batchViolations, hd, hs]
      | some bg =>
        simp only [batchViolations, markerViolations, completeViolations, actionOrderViolations,
          sortedKeys_congr h, orderedActions_congr h, actionSetViolation_congr h bg cm cm' _ hs, hi, hs]

/-- `y` continues `x` past position `n`: what is there stays, and what is new
lies at `n` or later. -/
def Continues {α : Type} (pos : α → Nat) (n : Nat) (x y : Option α) : Prop :=
  (∀ a, x = some a → y = some a ∧ pos a < n) ∧ (x = none → ∀ a, y = some a → n ≤ pos a)

theorem markerViolations_of_late {bg cm : Marker} (h : cm.sequence ≤ bg.sequence) :
    markerViolations rt b bg cm ≠ [] := by
  simp [markerViolations, Nat.not_lt.mpr h]

theorem completeViolations_of_late {bg cm : Marker} {ordered : List BatchAction} {rest : TaintLog}
    (h : completeViolations rt b bg cm ordered = .ok rest) {a : BatchAction} (ha : a ∈ ordered)
    (hl : cm.sequence ≤ a.sequence) : rest ≠ [] := by
  obtain ⟨cs, expected, -, -, rfl⟩ := completeViolations_eq_ok.mp h
  have : ¬ ((ordered.map (·.sequence)).Pairwise (· ≤ ·) ∧
      ∀ s ∈ ordered.map (·.sequence), bg.sequence < s ∧ s < cm.sequence) :=
    fun ⟨_, hs⟩ => absurd (hs _ (List.mem_map_of_mem ha)).2 (Nat.not_lt.mpr hl)
  rw [actionOrderViolations, if_neg this]
  exact List.append_ne_nil_of_left_ne_nil (List.cons_ne_nil _ _) _

theorem mem_orderedActions {d : Dict Nat BatchAction} {count : Nat} {a : BatchAction} :
    a ∈ orderedActions d count ↔ ∃ k < count, d.get? k = some a := by
  simp [orderedActions, List.mem_filterMap]

theorem grow_complete {d d' : Dict Nat BatchAction} {n count : Nat}
    (hg : ∀ k, Continues BatchAction.sequence n (d.get? k) (d'.get? k))
    (hp : sortedSet d'.keys = List.range count) :
    (∀ k, d.get? k = d'.get? k) ∨ ∃ a ∈ orderedActions d' count, n ≤ a.sequence := by
  by_cases h : ∃ k a, d.get? k = none ∧ d'.get? k = some a
  · obtain ⟨k, a, hk, hk'⟩ := h
    refine Or.inr ⟨a, mem_orderedActions.mpr ⟨k, ?_, hk'⟩, (hg k).2 hk a hk'⟩
    have : k ∈ sortedSet d'.keys := mem_sortedSet.mpr (Dict.mem_keys.mpr ⟨a, hk'⟩)
    rw [hp] at this
    exact List.mem_range.mp this
  · push Not at h
    refine Or.inl fun k => ?_
    cases hk : d.get? k with
    | some a => exact ((hg k).1 a hk).1.symm
    | none =>
      cases hk' : d'.get? k with
      | none => rfl
      | some a => exact absurd hk' (h k a hk)

/-- **A verdict of taint is permanent.** Whatever records a batch gains later,
phase 2 still finds a violation, though perhaps another one. -/
theorem batchViolations_permanent {n : Nat} {bg? cm? bg?' cm?' : Option Marker} {d d' : Dict Nat BatchAction}
    (hb : Continues Marker.sequence n bg? bg?') (hc : Continues Marker.sequence n cm? cm?')
    (hg : ∀ k, Continues BatchAction.sequence n (d.get? k) (d'.get? k)) {log log' : TaintLog}
    (h : batchViolations rt b bg? cm? d = .ok log) (h' : batchViolations rt b bg?' cm?' d' = .ok log')
    (hne : log ≠ []) : log' ≠ [] := by
  cases cm? with
  | none => exact absurd (batchViolations_none.mp h) hne
  | some cm =>
    obtain ⟨rfl, hcn⟩ := hc.1 cm rfl
    cases bg? with
    | none =>
      cases bg?' with
      | none => rw [batchViolations_none_some.mp h']; simp
      | some bg =>
        -- the begin arrived after the commit
        have hlate := @markerViolations_of_late rt b bg cm
          (Nat.le_of_lt (Nat.lt_of_lt_of_le hcn (hb.2 rfl bg rfl)))
        obtain ⟨count, -, h'⟩ := batchViolations_both.mp h'
        split at h'
        · obtain ⟨rest, -, rfl⟩ := h'; simp [hlate]
        · rw [h']; simp
    | some bg =>
      obtain ⟨rfl, -⟩ := hb.1 bg rfl
      obtain ⟨count, hcount, h⟩ := batchViolations_both.mp h
      obtain ⟨count', hcount', h'⟩ := batchViolations_both.mp h'
      obtain rfl : count = count' := Option.some.inj (hcount.symm.trans hcount')
      split at h'
      · rename_i hp'
        obtain ⟨rest', hr', rfl⟩ := h'
        rcases grow_complete hg hp' with hsame | ⟨a, ha, hal⟩
        · rw [if_pos ((sortedKeys_congr hsame).trans hp')] at h
          obtain ⟨rest, hr, rfl⟩ := h
          rw [orderedActions_congr hsame, hr'] at hr
          cases hr; exact hne
        · have := completeViolations_of_late hr' ha (by omega)
          simp [this]
      · rw [h']; simp

end

end Cctally
