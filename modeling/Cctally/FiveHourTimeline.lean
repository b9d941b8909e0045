import Cctally.FiveHourTables

/-!
# The timeline of a block's closes

The state before a coordinate is the state of everything effective before it,
so a coordinate where no winner moves leaves the block's state alone.
-/

namespace Cctally.FiveHour

theorem le_foldr_max {a b : Nat} {l : List Nat} (h : b ∈ l) : b ≤ l.foldr max a := by
  induction l with
  | nil => cases h
  | cons c l ih =>
    rw [List.foldr_cons]
    rcases List.mem_cons.1 h with rfl | h
    · exact le_max_left _ _
    · exact (ih h).trans (le_max_right _ _)

theorem foldr_max_mem (a : Nat) (l : List Nat) : l.foldr max a = a ∨ l.foldr max a ∈ l := by
  induction l with
  | nil => exact .inl rfl
  | cons c l ih =>
    rw [List.foldr_cons]
    rcases le_total c (l.foldr max a) with h | h
    · rw [max_eq_right h]
      exact ih.imp_right (List.mem_cons_of_mem _)
    · rw [max_eq_left h]
      exact .inr List.mem_cons_self

theorem le_foldr_max_start (a : Nat) (l : List Nat) : a ≤ l.foldr max a := by
  induction l with
  | nil => exact le_refl a
  | cons c l ih => exact ih.trans (le_max_right _ _)

theorem firstPerRevision_snoc (items : List Occurrence) (o : Occurrence) :
    firstPerRevision (items ++ [o]) = (firstPerRevision items).setdefault o.rev o := by
  unfold firstPerRevision
  rw [List.foldl_append]
  rfl

theorem get?_firstPerRevision (items : List Occurrence) (rev : Nat) :
    (firstPerRevision items).get? rev = items.find? (·.rev = rev) := by
  induction items using List.reverseRecOn with
  | nil => rfl
  | append_singleton items o ih =>
    rw [firstPerRevision_snoc, Dict.get?_setdefault, ih, List.find?_append]
    by_cases h : o.rev = rev
    · simp [h]
    · simp [h]

theorem mem_firstPerRevision {items : List Occurrence} {o : Occurrence} (h : o ∈ (firstPerRevision items).values) :
    (firstPerRevision items).get? o.rev = some o ∧ o ∈ items := by
  obtain ⟨rev, hrev⟩ := Dict.mem_values.1 h
  rw [get?_firstPerRevision] at hrev ⊢
  have heq : o.rev = rev := by simpa using List.find?_some hrev
  exact ⟨heq ▸ hrev, List.mem_of_find?_eq_some hrev⟩

theorem firstPerRevision_inj {items : List Occurrence} {o o' : Occurrence} (h : o ∈ (firstPerRevision items).values)
    (h' : o' ∈ (firstPerRevision items).values) (hrev : o.rev = o'.rev) : o = o' := by
  have hget := (mem_firstPerRevision h).1
  rw [hrev, (mem_firstPerRevision h').1] at hget
  exact (Option.some.inj hget).symm

/-! ## The revision in effect -/

theorem mem_winnerAt {c : Nat} {items : List Occurrence} {o : Occurrence}
    (h : winnerAt c (firstPerRevision items) = some o) : o ∈ (firstPerRevision items).values ∧ o.availableAt ≤ c := by
  have hmem := List.argmax_mem (show o ∈ List.argmax _ _ from h)
  simpa [List.mem_filter] using hmem

theorem winnerAt_stale {p c : Nat} (hpc : p ≤ c) {items : List Occurrence}
    (h : ∀ o, winnerAt c (firstPerRevision items) = some o → o.availableAt ≤ p) :
    winnerAt c (firstPerRevision items) = winnerAt p (firstPerRevision items) := by
  cases hc : winnerAt c (firstPerRevision items) with
  | none =>
    unfold winnerAt at hc ⊢
    rw [List.argmax_eq_none, List.filter_eq_nil_iff] at hc
    refine (List.argmax_eq_none.2 (List.filter_eq_nil_iff.2 fun o ho hle => hc o ho ?_)).symm
    exact decide_eq_true ((of_decide_eq_true hle).trans hpc)
  | some o =>
    have ho := mem_winnerAt hc
    have hin : o ∈ (firstPerRevision items).values.filter (·.availableAt ≤ p) :=
      List.mem_filter.2 ⟨ho.1, decide_eq_true (h o hc)⟩
    cases hp : winnerAt p (firstPerRevision items) with
    | none =>
      unfold winnerAt at hp
      rw [List.argmax_eq_none] at hp
      rw [hp] at hin
      cases hin
    | some o' =>
      have ho' := mem_winnerAt hp
      have hin' : o' ∈ (firstPerRevision items).values.filter (·.availableAt ≤ c) :=
        List.mem_filter.2 ⟨ho'.1, decide_eq_true (ho'.2.trans hpc)⟩
      have hle : o.rev ≤ o'.rev := List.le_of_mem_argmax hin hp
      have hge : o'.rev ≤ o.rev := List.le_of_mem_argmax hin' hc
      rw [firstPerRevision_inj ho.1 ho'.1 (le_antisymm hle hge)]

section
variable (env : Env) (histories : List (List Occurrence)) (block : Option Block)

def stateUpTo : Nat → CloseState
  | 0 => .absent
  | c + 1 => (momentAt env histories block c).state

def coordinates : List Nat := sortedSet (histories.flatten.map (·.availableAt))

def timeline : List Moment := (coordinates histories).map (momentAt env histories block)

variable {env histories block}

theorem state_of_unchanged {c : Nat} (h : (momentAt env histories block c).changed = false) :
    (momentAt env histories block c).state = stateUpTo env histories block c := by
  have hstale : ∀ items ∈ histories, ∀ o, winnerAt c (firstPerRevision items) = some o → o.availableAt ≠ c := by
    intro items hitems o ho hc
    have hany : (momentAt env histories block c).changed = true :=
      List.any_eq_true.2 ⟨o, List.mem_filterMap.2 ⟨items, hitems, ho⟩, decide_eq_true hc⟩
    rw [h] at hany
    cases hany
  cases c with
  | zero =>
    have hnone : histories.filterMap (fun items => winnerAt 0 (firstPerRevision items)) = [] := by
      refine List.filterMap_eq_nil_iff.2 fun items hitems => ?_
      cases hw : winnerAt 0 (firstPerRevision items) with
      | none => rfl
      | some o => exact absurd (Nat.le_zero.1 (mem_winnerAt hw).2) (hstale items hitems o hw)
    simp only [momentAt, hnone, stateUpTo]
    rfl
  | succ c =>
    have hsame : histories.filterMap (fun items => winnerAt (c + 1) (firstPerRevision items)) =
        histories.filterMap fun items => winnerAt c (firstPerRevision items) := by
      refine List.filterMap_congr fun items hitems => ?_
      refine winnerAt_stale (Nat.le_succ c) fun o ho => ?_
      exact Nat.le_of_lt_succ (lt_of_le_of_ne (mem_winnerAt ho).2 (hstale items hitems o ho))
    simp only [momentAt, hsame, stateUpTo]

theorem mem_coordinates {c : Nat} : c ∈ coordinates histories ↔ ∃ items ∈ histories, ∃ o ∈ items, o.availableAt = c := by
  simp only [coordinates, mem_sortedSet, List.mem_map, List.mem_flatten]
  exact ⟨fun ⟨o, ⟨items, hi, ho⟩, hc⟩ => ⟨items, hi, o, ho, hc⟩, fun ⟨items, hi, o, ho, hc⟩ => ⟨o, ⟨items, hi, ho⟩, hc⟩⟩

theorem coordinates_sorted : (coordinates histories).Pairwise (· < ·) :=
  ((pairwise_sortedSet _).and (nodup_sortedSet _)).imp fun h => lt_of_le_of_ne h.1 h.2

theorem unchanged_of_not_mem {c : Nat} (h : c ∉ coordinates histories) :
    (momentAt env histories block c).changed = false := by
  refine Bool.eq_false_iff.2 fun hch => ?_
  obtain ⟨o, ho, hc⟩ := List.any_eq_true.1 hch
  obtain ⟨items, hitems, hw⟩ := List.mem_filterMap.1 ho
  exact h (mem_coordinates.2 ⟨items, hitems, o, (mem_firstPerRevision (mem_winnerAt hw).1).2, of_decide_eq_true hc⟩)

theorem takeWhile_succ (b : Nat) : ∀ {l : List Nat}, l.Pairwise (· < ·) →
    l.takeWhile (· < b + 1) = if b ∈ l then l.takeWhile (· < b) ++ [b] else l.takeWhile (· < b)
  | [], _ => rfl
  | x :: l, h => by
    rw [List.pairwise_cons] at h
    have ih := takeWhile_succ b h.2
    rcases lt_trichotomy x b with hlt | rfl | hgt
    · have hmem : b ∈ x :: l ↔ b ∈ l := by simp [hlt.ne']
      simp only [List.takeWhile_cons, decide_eq_true hlt, decide_eq_true (Nat.lt_succ_of_lt hlt), if_true, ih, hmem]
      split <;> rfl
    · have hnil : l.takeWhile (· < x + 1) = [] := by
        cases l with
        | nil => rfl
        | cons y l =>
          have hy : ¬ y < x + 1 := by have := h.1 y List.mem_cons_self; omega
          rw [List.takeWhile_cons, decide_eq_false hy]
          rfl
      rw [if_pos List.mem_cons_self, List.takeWhile_cons, List.takeWhile_cons, decide_eq_true (Nat.lt_succ_self x),
        decide_eq_false (Nat.lt_irrefl x)]
      exact congrArg (x :: ·) hnil
    · have hmem : b ∉ x :: l := by
        refine fun hm => (List.mem_cons.1 hm).elim (fun e => hgt.ne e) fun hl => ?_
        exact absurd (h.1 b hl) (Nat.not_lt.2 hgt.le)
      have hx : ¬ x < b + 1 := by omega
      have hx' : ¬ x < b := by omega
      rw [if_neg hmem, List.takeWhile_cons, List.takeWhile_cons, decide_eq_false hx, decide_eq_false hx']
      rfl

theorem takeWhile_timeline (b : Nat) : (timeline env histories block).takeWhile (·.coordinate < b) =
    ((coordinates histories).takeWhile (· < b)).map (momentAt env histories block) := by
  unfold timeline
  rw [List.takeWhile_map]
  rfl

/-- **The state the walk reads before a coordinate.** -/
theorem stateBefore_timeline (b : Nat) : stateBefore (timeline env histories block) b = stateUpTo env histories block b := by
  unfold stateBefore
  rw [takeWhile_timeline]
  induction b with
  | zero =>
    have hnil : (coordinates histories).takeWhile (· < 0) = [] := by
      cases coordinates histories <;> simp
    rw [hnil]
    rfl
  | succ b ih =>
    rw [takeWhile_succ b coordinates_sorted]
    by_cases hb : b ∈ coordinates histories
    · rw [if_pos hb, List.map_append, List.map_singleton, List.getLast?_concat]
      rfl
    · rw [if_neg hb, ih]
      exact (state_of_unchanged (unchanged_of_not_mem hb)).symm

/-! ## The event at a coordinate -/

theorem find_closeEvents (start c : Nat) : ∀ {moments : List Moment} (before : CloseState) (closedBefore : Bool),
    moments.Pairwise (·.coordinate < ·.coordinate) →
    ((closeEvents env start before closedBefore moments).find? (·.coordinate = c)).map (·.event) =
      if start ≤ c then
        (moments.find? (·.coordinate = c)).map fun m =>
          classify env (((moments.takeWhile (·.coordinate < c)).getLast?.map (·.state)).getD before) m.state m.changed
      else none
  | [], _, _, _ => by simp [closeEvents]
  | m :: rest, before, closedBefore, h => by
    rw [List.pairwise_cons] at h
    have ih := find_closeEvents start c m.state (closedBefore || m.state.isClosed) h.2
    unfold closeEvents
    simp only []
    rcases lt_trichotomy m.coordinate c with hlt | heq | hgt
    · have hread : ((closeEvents env start m.state (closedBefore || m.state.isClosed) rest).find?
          (·.coordinate = c)).map (·.event) = if start ≤ c then (rest.find? (·.coordinate = c)).map fun n =>
            classify env ((((m :: rest).takeWhile (·.coordinate < c)).getLast?.map (·.state)).getD before) n.state n.changed
          else none := by
        rw [ih, List.takeWhile_cons, decide_eq_true hlt, if_pos rfl, List.getLast?_cons]
        cases (rest.takeWhile (·.coordinate < c)).getLast? <;> rfl
      rw [List.find?_cons_of_neg (by simpa using hlt.ne)]
      split
      · rw [List.find?_cons_of_neg (by simpa using hlt.ne)]
        exact hread
      · exact hread
    · subst heq
      by_cases hstart : start ≤ m.coordinate
      · simp only [if_pos hstart]
        rw [List.find?_cons_of_pos (by simp), List.find?_cons_of_pos (by simp), List.takeWhile_cons, if_neg (by simp)]
        rfl
      · simp only [if_neg hstart] at ih ⊢
        exact ih
    · have hnone : rest.find? (·.coordinate = c) = none := by
        refine List.find?_eq_none.2 fun n hn hc => ?_
        have hlt : m.coordinate < n.coordinate := h.1 n hn
        have heq : n.coordinate = c := of_decide_eq_true hc
        omega
      rw [List.find?_cons_of_neg (by simpa using hgt.ne'), hnone]
      rw [hnone] at ih
      split
      · rw [List.find?_cons_of_neg (by simpa using hgt.ne'), ih]
        rfl
      · rw [ih]
        rfl

theorem find_timeline (c : Nat) : (timeline env histories block).find? (·.coordinate = c) =
    if c ∈ coordinates histories then some (momentAt env histories block c) else none := by
  unfold timeline
  induction coordinates histories with
  | nil => rfl
  | cons x l ih =>
    rw [List.map_cons]
    by_cases hx : x = c
    · subst hx
      rw [List.find?_cons_of_pos (by simp [momentAt]), if_pos List.mem_cons_self]
    · rw [List.find?_cons_of_neg (by simpa [momentAt] using hx), ih]
      simp [Ne.symm hx]

/-- **The close event the walk reads at a coordinate.** -/
theorem eventAt (start c : Nat) :
    ((closeEvents env start .absent false (timeline env histories block)).find? (·.coordinate = c)).map (·.event) =
      if start ≤ c ∧ c ∈ coordinates histories then
        some (classify env (stateUpTo env histories block c) (momentAt env histories block c).state
          (momentAt env histories block c).changed)
      else none := by
  have hsorted : (timeline env histories block).Pairwise (·.coordinate < ·.coordinate) :=
    List.pairwise_map.2 coordinates_sorted
  have hstate : (((timeline env histories block).takeWhile (·.coordinate < c)).getLast?.map (·.state)).getD .absent =
      stateUpTo env histories block c := stateBefore_timeline c
  rw [find_closeEvents start c .absent false hsorted, find_timeline, hstate]
  by_cases hstart : start ≤ c
  · by_cases hc : c ∈ coordinates histories
    · simp [hstart, hc]
    · simp [hc]
  · simp [hstart]

theorem not_closed_of_noBoundary {before after : CloseState} {changed : Bool}
    (h : classify env before after changed = .noBoundary) : before.closedWithMoney env = false := by
  cases before with
  | closed a =>
    cases after with
    | closed b =>
      simp only [classify] at h
      split at h
      · cases h
      · split at h
        · cases h
        · split at h <;> cases h
    | ambiguous => cases h
    | absent =>
      simp only [classify] at h
      split at h
      · cases h
      · split at h <;> cases h
    | «open» =>
      simp only [classify] at h
      split at h
      · cases h
      · split at h <;> cases h
  | _ => rfl

theorem closedWithMoney_of_metadata {before after : CloseState} {changed : Bool}
    (hbefore : before.closedWithMoney env = true) (h : classify env before after changed = .metadata)
    (hsame : changed = false → after = before) : after.closedWithMoney env = true := by
  cases changed with
  | false => rw [hsame rfl]; exact hbefore
  | true =>
    cases before with
    | closed a =>
      have ha : usableAmount env a = true := hbefore
      cases after with
      | closed b =>
        cases hb : usableAmount env b with
        | true => exact hb
        | false => simp [classify, ha, hb] at h
      | _ => simp [classify, ha] at h
    | _ => cases hbefore

theorem closedWithMoney_succ {c : Nat} (hbefore : (stateUpTo env histories block c).closedWithMoney env = true)
    (h : c ∈ coordinates histories → classify env (stateUpTo env histories block c)
      (momentAt env histories block c).state (momentAt env histories block c).changed = .metadata) :
    (stateUpTo env histories block (c + 1)).closedWithMoney env = true := by
  by_cases hc : c ∈ coordinates histories
  · exact closedWithMoney_of_metadata hbefore (h hc) state_of_unchanged
  · have hsame := state_of_unchanged (@unchanged_of_not_mem env histories block c hc)
    exact (congrArg (CloseState.closedWithMoney env) hsame).trans hbefore

end

end Cctally.FiveHour
