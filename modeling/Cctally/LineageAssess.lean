import Cctally.Lineage

/-!
# The verdict on a lineage

A correction taints a lineage when a batch outside its basis commits after it and
touches its account. The assessment bisects into the commits and looks up a union
of footprints; it reaches the verdict that quantifies over the later batches.
-/

namespace Cctally

section
variable {C K : Type} [LinearOrder K] (rd : Reader C K)

def Touches (footprint : Finset Owner) (accountKey : String) : Prop :=
  ("claude", accountKey) ∈ footprint ∨ ("claude", "*") ∈ footprint ∨ ("*", "*") ∈ footprint

def TouchesClaude (footprint : Finset Owner) : Prop := ∃ o ∈ footprint, o.1 = "claude" ∨ o.1 = "*"

def InBasis (lineage : Json.Fields) (batchId : String) : Prop :=
  ∃ entries, iterate (Json.field lineage "basis") = .ok entries ∧ ∃ entry ∈ entries, rd.str entry = batchId

def FollowedBy (lineage : Json.Fields) (facts : CorrectionFacts C) (row : CorrectionRow C)
    (p : Finset Owner → Prop) : Prop :=
  ∃ b ∈ facts.batches, ¬ InBasis rd lineage b.batchId ∧ rd.coordKey row.opCoord < rd.coordKey b.commitCoord ∧
    p b.footprint

def InDependencyWindow (lineage : Json.Fields) (t : Instant) : Prop :=
  ∃ items w, iterate (Json.field lineage "dependencyWindows") = .ok items ∧ .obj w ∈ items ∧
    (∀ start, instant rd (Json.field w "from") = .ok (some start) → start ≤ t) ∧
    ∀ u, instant rd (Json.field w "until") = .ok (some u) →
      t < u ∨ (t = u ∧ (Json.field w "untilInclusive").truthy = true)

structure TaintedBy (lineage : Json.Fields) (facts : CorrectionFacts C) (row : CorrectionRow C) (accountKey : String)
    (t : Instant) : Prop where
  resolved : row.accountKey = some accountKey
  captured : capturedInstant rd row = .ok (some t)
  scope : scopeOf rd lineage = "*" ∨ accountKey = scopeOf rd lineage
  window : InDependencyWindow rd lineage t
  followed : FollowedBy rd lineage facts row (Touches · accountKey)

def Tainting (lineage : Json.Fields) (facts : CorrectionFacts C) (row : CorrectionRow C) : Prop :=
  ∃ accountKey t, TaintedBy rd lineage facts row accountKey t

def Unsettled (lineage : Json.Fields) (facts : CorrectionFacts C) (row : CorrectionRow C) : Prop :=
  (row.accountKey = none ∨ capturedInstant rd row = .ok none) ∧ FollowedBy rd lineage facts row TouchesClaude

def observationCounts (rows : List (CorrectionRow C)) : List (String × Nat) :=
  (rows.map CorrectionRow.opId).eraseDups.map fun op =>
    (op, ((rows.filter (·.opId = op)).map CorrectionRow.observationId).eraseDups.length)

theorem touches_iff {footprint : Finset Owner} {accountKey : String} :
    touches footprint accountKey = true ↔ Touches footprint accountKey := by
  simp [touches, Touches, or_assoc]

theorem touchesClaude_iff {footprint : Finset Owner} : touchesClaude footprint = true ↔ TouchesClaude footprint := by
  simp [touchesClaude, TouchesClaude]

theorem Touches.touchesClaude {footprint : Finset Owner} {accountKey : String} (h : Touches footprint accountKey) :
    TouchesClaude footprint := by
  obtain h | h | h := h
  · exact ⟨_, h, .inl rfl⟩
  · exact ⟨_, h, .inl rfl⟩
  · exact ⟨_, h, .inr rfl⟩

omit [LinearOrder K] in
theorem mem_suffixFootprints {o : Owner} : ∀ {outside : List (K × Finset Owner)} {i : Nat},
    o ∈ (suffixFootprints outside).getD i ∅ ↔ ∃ p ∈ outside.drop i, o ∈ p.2
  | [], 0 => by simp [suffixFootprints]
  | [], i + 1 => by simp [suffixFootprints]
  | p :: outside, 0 => by
    have ih : o ∈ (suffixFootprints outside).getD 0 ∅ ↔ ∃ q ∈ outside.drop 0, o ∈ q.2 := mem_suffixFootprints
    have hhead : (suffixFootprints outside).headD ∅ = (suffixFootprints outside).getD 0 ∅ := by
      cases suffixFootprints outside <;> rfl
    rw [List.drop_zero] at ih
    simp only [suffixFootprints, List.getD_cons_zero, Finset.mem_union, hhead, ih, List.drop_zero, List.mem_cons,
      exists_eq_or_imp]
    exact or_comm
  | p :: outside, i + 1 => by
    rw [suffixFootprints, List.getD_cons_succ, List.drop_succ_cons]
    exact mem_suffixFootprints

theorem mem_later {outside : List (K × Finset Owner)} (hs : (outside.map Prod.fst).Pairwise (· ≤ ·)) {k : K}
    {o : Owner} :
    o ∈ (suffixFootprints outside).getD (Bisect.bisectRight (outside.map Prod.fst) k) ∅ ↔
      ∃ p ∈ outside, k < p.1 ∧ o ∈ p.2 := by
  rw [mem_suffixFootprints]
  simp only [Bisect.mem_drop_bisectRight hs, and_assoc]

theorem touches_later {outside : List (K × Finset Owner)} (hs : (outside.map Prod.fst).Pairwise (· ≤ ·)) {k : K}
    {accountKey : String} :
    Touches ((suffixFootprints outside).getD (Bisect.bisectRight (outside.map Prod.fst) k) ∅) accountKey ↔
      ∃ p ∈ outside, k < p.1 ∧ Touches p.2 accountKey := by
  simp only [Touches, mem_later hs, ← exists_or, ← and_or_left]

theorem touchesClaude_later {outside : List (K × Finset Owner)} (hs : (outside.map Prod.fst).Pairwise (· ≤ ·))
    {k : K} :
    TouchesClaude ((suffixFootprints outside).getD (Bisect.bisectRight (outside.map Prod.fst) k) ∅) ↔
      ∃ p ∈ outside, k < p.1 ∧ TouchesClaude p.2 := by
  simp only [TouchesClaude, mem_later hs]
  constructor
  · intro ⟨o, ⟨p, hp, hk, ho⟩, hclaude⟩
    exact ⟨p, hp, hk, o, ho, hclaude⟩
  · intro ⟨p, hp, hk, o, ho, hclaude⟩
    exact ⟨o, ⟨p, hp, hk, ho⟩, hclaude⟩

theorem none_later {outside : List (K × Finset Owner)} (hs : (outside.map Prod.fst).Pairwise (· ≤ ·)) {k : K}
    (h : Bisect.bisectRight (outside.map Prod.fst) k = outside.length) : ∀ p ∈ outside, ¬ k < p.1 := by
  intro p hp hk
  have hmem := (Bisect.mem_drop_bisectRight hs).2 ⟨hp, hk⟩
  rw [h, List.drop_length] at hmem
  cases hmem

/-! ## One row and all rows -/

section
variable (outside : List (K × Finset Owner)) (scope : String) (windows : List LineageWindow)

def RowTaints (r : PreparedRow C K) : Prop :=
  ∃ accountKey t, r.row.accountKey = some accountKey ∧ r.captured = some t ∧
    (scope = "*" ∨ accountKey = scope) ∧ inWindows t windows = true ∧
    ∃ p ∈ outside, r.opOrder < p.1 ∧ Touches p.2 accountKey

def RowUnsettled (r : PreparedRow C K) : Prop :=
  (r.row.accountKey = none ∨ r.captured = none) ∧ ∃ p ∈ outside, r.opOrder < p.1 ∧ TouchesClaude p.2

variable {outside scope windows}

theorem RowTaints.not_unsettled {r : PreparedRow C K} (h : RowTaints outside scope windows r) :
    ¬ RowUnsettled outside r := by
  obtain ⟨accountKey, t, ha, ht, -⟩ := h
  intro ⟨hnone, _⟩
  rw [ha, ht] at hnone
  simp at hnone

open Classical in
theorem assessRow_eq (hs : (outside.map Prod.fst).Pairwise (· ≤ ·)) (found : Findings) (r : PreparedRow C K) :
    assessRow outside scope windows found r =
      if RowTaints outside scope windows r then found.taint r.row.opId r.row.observationId
      else if RowUnsettled outside r then { found with unresolved := true } else found := by
  unfold assessRow
  simp only
  by_cases hlast : Bisect.bisectRight (outside.map Prod.fst) r.opOrder = outside.length
  · have hnone := none_later hs hlast
    have ht : ¬ RowTaints outside scope windows r := by
      intro ⟨_, _, _, _, _, _, p, hp, hk, _⟩
      exact hnone p hp hk
    have hu : ¬ RowUnsettled outside r := by
      intro ⟨_, p, hp, hk, _⟩
      exact hnone p hp hk
    rw [if_pos hlast, if_neg ht, if_neg hu]
  · rw [if_neg hlast]
    have hunset : ∀ {x : Findings}, (r.row.accountKey = none ∨ r.captured = none) →
        (if touchesClaude ((suffixFootprints outside).getD (Bisect.bisectRight (outside.map Prod.fst) r.opOrder) ∅)
          = true then { found with unresolved := true } else x) =
        if RowUnsettled outside r then { found with unresolved := true } else x := by
      intro x hnone
      simp only [touchesClaude_iff, touchesClaude_later hs, RowUnsettled, hnone, true_and]
    cases ha : r.row.accountKey with
    | none =>
      have ht : ¬ RowTaints outside scope windows r := by
        intro ⟨_, _, h, _⟩
        rw [ha] at h
        cases h
      rw [if_neg ht]
      exact hunset (.inl ha)
    | some accountKey =>
      cases hc : r.captured with
      | none =>
        have ht : ¬ RowTaints outside scope windows r := by
          intro ⟨_, _, _, h, _⟩
          rw [hc] at h
          cases h
        rw [if_neg ht]
        exact hunset (.inr hc)
      | some t =>
        have hu : ¬ RowUnsettled outside r := by simp [RowUnsettled, ha, hc]
        have ht : RowTaints outside scope windows r ↔ ¬ (scope ≠ "*" ∧ accountKey ≠ scope) ∧
            ¬ inWindows t windows = false ∧ ∃ p ∈ outside, r.opOrder < p.1 ∧ Touches p.2 accountKey := by
          simp [RowTaints, ha, hc, or_iff_not_imp_left]
        rw [if_neg hu]
        by_cases hsc : scope ≠ "*" ∧ accountKey ≠ scope
        · simp only [if_pos hsc, ht]
          rw [if_neg fun h => h.1 hsc]
        · by_cases hw : inWindows t windows = false
          · simp only [if_neg hsc, if_pos hw, ht]
            rw [if_neg fun h => h.2.1 hw]
          · simp only [if_neg hsc, if_neg hw, touches_iff, touches_later hs, ht]
            simp only [and_iff_right hsc, and_iff_right hw]

theorem foldl_assessRow (hs : (outside.map Prod.fst).Pairwise (· ≤ ·)) {p : PreparedRow C K → Bool}
    (hp : ∀ r, p r = true ↔ RowTaints outside scope windows r) (rows : List (PreparedRow C K)) (found : Findings) :
    (rows.foldl (assessRow outside scope windows) found).tainted =
        (rows.filter p).foldl (fun d r => d.set r.row.opId (((d.get? r.row.opId).getD []).insert r.row.observationId))
          found.tainted ∧
      ((rows.foldl (assessRow outside scope windows) found).unresolved = true ↔
        found.unresolved = true ∨ ∃ r ∈ rows, RowUnsettled outside r) := by
  induction rows generalizing found with
  | nil => simp
  | cons r rows ih =>
    obtain ⟨htainted, hunresolved⟩ := ih (assessRow outside scope windows found r)
    rw [List.foldl_cons, htainted, hunresolved, assessRow_eq hs]
    by_cases ht : RowTaints outside scope windows r
    · have hpr : p r = true := (hp r).2 ht
      rw [if_pos ht, List.filter_cons_of_pos hpr]
      refine ⟨rfl, ?_⟩
      simp only [Findings.taint, List.mem_cons, exists_eq_or_imp, ht.not_unsettled, false_or]
    · have hpr : ¬ p r = true := fun h => ht ((hp r).1 h)
      rw [if_neg ht, List.filter_cons_of_neg hpr]
      by_cases hu : RowUnsettled outside r
      · rw [if_pos hu]
        exact ⟨rfl, by simp [hu]⟩
      · rw [if_neg hu]
        exact ⟨rfl, by simp [hu]⟩

end

/-! ## What the code reads -/

section
variable {rd}

omit [LinearOrder K] in
theorem parsedWindow_inv {w : Json.Fields} {v : LineageWindow} (h : parsedWindow rd w = .ok v) :
    instant rd (Json.field w "from") = .ok v.start ∧ instant rd (Json.field w "until") = .ok v.untilAt ∧
      v.inclusive = (Json.field w "untilInclusive").truthy := by
  obtain ⟨start, hstart, h⟩ := Except.bind_eq_ok.1 h
  obtain ⟨u, hu, h⟩ := Except.bind_eq_ok.1 h
  rw [Except.pure_eq_ok] at h
  subst h
  exact ⟨hstart, hu, rfl⟩

theorem inWindow_iff {t : Instant} {w : LineageWindow} : inWindow t w = true ↔
    (∀ start, w.start = some start → start ≤ t) ∧
      ∀ u, w.untilAt = some u → t < u ∨ (t = u ∧ w.inclusive = true) := by
  obtain ⟨start, u, inclusive⟩ := w
  have hstart : start.any (t < ·) = false ↔ ∀ s, start = some s → s ≤ t := by
    cases start <;> simp
  have huntil : (u.any fun u => u < t || (t == u && !inclusive)) = false ↔
      ∀ v, u = some v → t < v ∨ (t = v ∧ inclusive = true) := by
    cases u with
    | none => simp
    | some u =>
      simp only [Option.any_some, Bool.or_eq_false_iff, decide_eq_false_iff_not, not_lt, Option.some.injEq,
        forall_eq', Bool.and_eq_false_iff, beq_eq_false_iff_ne, ne_eq, Bool.not_eq_false']
      constructor
      · intro ⟨hle, hor⟩
        obtain hne | hinc := hor
        · exact .inl (lt_of_le_of_ne hle hne)
        · obtain hlt | heq := lt_or_eq_of_le hle
          · exact .inl hlt
          · exact .inr ⟨heq, hinc⟩
      · intro hor
        obtain hlt | ⟨rfl, hinc⟩ := hor
        · exact ⟨le_of_lt hlt, .inl (ne_of_lt hlt)⟩
        · exact ⟨le_refl _, .inr hinc⟩
  rw [← hstart, ← huntil]
  simp only [inWindow]
  by_cases h : start.any (t < ·) = true
  · simp [h]
  · rw [if_neg h]
    simp [h]

theorem mem_windowFields {items : List Json} {w : Json.Fields} : w ∈ items.filterMap windowFields ↔ .obj w ∈ items := by
  rw [List.mem_filterMap]
  constructor
  · intro ⟨v, hv, hw⟩
    cases v with
    | obj fields =>
      cases hw
      exact hv
    | _ => cases hw
  · intro hw
    exact ⟨_, hw, rfl⟩

omit [LinearOrder K] in
theorem inWindows_iff {lineage : Json.Fields} {windows : List LineageWindow}
    (h : parsedWindows rd (Json.field lineage "dependencyWindows") = .ok windows) (t : Instant) :
    inWindows t windows = true ↔ InDependencyWindow rd lineage t := by
  obtain ⟨items, hitems, h⟩ := Except.bind_eq_ok.1 h
  rw [inWindows, List.any_eq_true]
  constructor
  · intro ⟨v, hv, hin⟩
    obtain ⟨w, hw, hparse⟩ := (Except.mem_of_mapM h v).1 hv
    obtain ⟨hstart, huntil, hinc⟩ := parsedWindow_inv hparse
    obtain ⟨hfrom, hto⟩ := inWindow_iff.1 hin
    refine ⟨items, w, hitems, mem_windowFields.1 hw, ?_, ?_⟩
    · intro start hs
      rw [hstart] at hs
      exact hfrom start (Except.ok.inj hs)
    · intro u hu
      rw [huntil] at hu
      rw [← hinc]
      exact hto u (Except.ok.inj hu)
  · intro ⟨items', w, hitems', hw, hfrom, hto⟩
    obtain rfl : items = items' := Except.ok.inj (hitems.symm.trans hitems')
    obtain ⟨v, hv, hparse⟩ := Except.ok_of_mapM h w (mem_windowFields.2 hw)
    obtain ⟨hstart, huntil, hinc⟩ := parsedWindow_inv hparse
    refine ⟨v, hv, inWindow_iff.2 ⟨?_, ?_⟩⟩
    · intro start hs
      exact hfrom start (by rw [hstart, hs])
    · intro u hu
      rw [hinc]
      exact hto u (by rw [huntil, hu])

omit [LinearOrder K] in
theorem basisOf_inv {lineage : Json.Fields} {basis : List String} (h : basisOf rd lineage = .ok basis)
    (batchId : String) : batchId ∈ basis ↔ InBasis rd lineage batchId := by
  obtain ⟨entries, hentries, h⟩ := Except.bind_eq_ok.1 h
  rw [Except.pure_eq_ok] at h
  subst h
  rw [List.mem_map]
  constructor
  · intro hmem
    exact ⟨entries, hentries, hmem⟩
  · intro ⟨entries', hentries', hmem⟩
    obtain rfl : entries = entries' := Except.ok.inj (hentries.symm.trans hentries')
    exact hmem

omit [LinearOrder K] in
theorem preparedRow_inv {row : CorrectionRow C} {r : PreparedRow C K} (h : preparedRow rd row = .ok r) :
    r.row = row ∧ r.opOrder = rd.coordKey row.opCoord ∧ capturedInstant rd row = .ok r.captured := by
  obtain ⟨captured, hcaptured, h⟩ := Except.bind_eq_ok.1 h
  rw [Except.pure_eq_ok] at h
  subst h
  exact ⟨rfl, rfl, hcaptured⟩

end

variable {rd} {lineage : Json.Fields} {facts : CorrectionFacts C} {a : Assessment}

theorem sorted_outsideOf (batches : List (BatchFact C)) (basis : List String) :
    ((outsideOf rd batches basis).map Prod.fst).Pairwise (· ≤ ·) := by
  have : Std.Total fun p q : K × BatchFact C => p.1 ≤ q.1 := ⟨fun p q => le_total p.1 q.1⟩
  have : IsTrans (K × BatchFact C) fun p q => p.1 ≤ q.1 := ⟨fun p q r => le_trans⟩
  rw [outsideOf, List.map_map, List.pairwise_map]
  exact (List.pairwise_insertionSort _ _).filter _

theorem mem_outsideOf {batches : List (BatchFact C)} {basis : List String} {p : K × Finset Owner} :
    p ∈ outsideOf rd batches basis ↔
      ∃ b ∈ batches, b.batchId ∉ basis ∧ p = (rd.coordKey b.commitCoord, b.footprint) := by
  simp only [outsideOf, preparedBatches, List.mem_map, List.mem_filter, List.mem_insertionSort, decide_eq_true_eq]
  constructor
  · intro ⟨_, ⟨⟨b, hb, rfl⟩, hout⟩, hp⟩
    exact ⟨b, hb, hout, hp.symm⟩
  · intro ⟨b, hb, hout, hp⟩
    exact ⟨_, ⟨⟨b, hb, rfl⟩, hout⟩, hp.symm⟩

theorem followedBy_iff {basis : List String} (hb : basisOf rd lineage = .ok basis) (row : CorrectionRow C)
    (p : Finset Owner → Prop) :
    (∃ q ∈ outsideOf rd facts.batches basis, rd.coordKey row.opCoord < q.1 ∧ p q.2) ↔
      FollowedBy rd lineage facts row p := by
  constructor
  · intro ⟨q, hq, hk, hp⟩
    obtain ⟨b, hmem, hout, rfl⟩ := mem_outsideOf.1 hq
    exact ⟨b, hmem, fun h => hout ((basisOf_inv hb _).2 h), hk, hp⟩
  · intro ⟨b, hmem, hout, hk, hp⟩
    exact ⟨_, mem_outsideOf.2 ⟨b, hmem, fun h => hout ((basisOf_inv hb _).1 h), rfl⟩, hk, hp⟩

section
variable {basis : List String} {row : CorrectionRow C} {r : PreparedRow C K}

theorem rowTaints_iff {windows : List LineageWindow} (hb : basisOf rd lineage = .ok basis)
    (hw : parsedWindows rd (Json.field lineage "dependencyWindows") = .ok windows) (hr : preparedRow rd row = .ok r) :
    RowTaints (outsideOf rd facts.batches basis) (scopeOf rd lineage) windows r ↔ Tainting rd lineage facts row := by
  obtain ⟨rfl, hop, hcaptured⟩ := preparedRow_inv hr
  constructor
  · intro ⟨accountKey, t, ha, ht, hscope, hin, hlater⟩
    rw [hop] at hlater
    rw [ht] at hcaptured
    exact ⟨accountKey, t, ha, hcaptured, hscope, (inWindows_iff hw t).1 hin, (followedBy_iff hb _ _).1 hlater⟩
  · intro ⟨accountKey, t, h⟩
    have hlater := (followedBy_iff hb _ _).2 h.followed
    rw [← hop] at hlater
    exact ⟨accountKey, t, h.resolved, Except.ok.inj (hcaptured.symm.trans h.captured), h.scope,
      (inWindows_iff hw t).2 h.window, hlater⟩

theorem rowUnsettled_iff (hb : basisOf rd lineage = .ok basis) (hr : preparedRow rd row = .ok r) :
    RowUnsettled (outsideOf rd facts.batches basis) r ↔ Unsettled rd lineage facts row := by
  obtain ⟨rfl, hop, hcaptured⟩ := preparedRow_inv hr
  rw [RowUnsettled, Unsettled, ← followedBy_iff hb, hop, hcaptured, Except.ok.injEq]

theorem not_followedBy (hb : basisOf rd lineage = .ok basis) (hnil : outsideOf rd facts.batches basis = [])
    (p : Finset Owner → Prop) : ¬ FollowedBy rd lineage facts row p := by
  rw [← followedBy_iff hb, hnil]
  intro ⟨q, hq, _⟩
  cases hq

end

noncomputable def taintingRows (rd : Reader C K) (lineage : Json.Fields) (facts : CorrectionFacts C) :
    List (CorrectionRow C) :=
  open Classical in facts.corrections.filter fun row => Tainting rd lineage facts row

/-- What `assess` returns for a lineage that is a dictionary. -/
structure Verdict (rd : Reader C K) (lineage : Json.Fields) (facts : CorrectionFacts C) (a : Assessment) : Prop where
  tainted : a.state = .tainted ↔ ∃ row ∈ facts.corrections, Tainting rd lineage facts row
  unavailable : a.state = .unavailable ↔
    (¬ ∃ row ∈ facts.corrections, Tainting rd lineage facts row) ∧ ∃ row ∈ facts.corrections, Unsettled rd lineage facts row
  clean : a.state = .clean ↔
    (¬ ∃ row ∈ facts.corrections, Tainting rd lineage facts row) ∧
      ¬ ∃ row ∈ facts.corrections, Unsettled rd lineage facts row
  corrections : a.corrections = observationCounts (taintingRows rd lineage facts)

omit [LinearOrder K] in
theorem observationCounts_eq_nil {rows : List (CorrectionRow C)} : observationCounts rows = [] ↔ rows = [] := by
  constructor
  · intro h
    rw [observationCounts, List.map_eq_nil_iff, List.eq_nil_iff_forall_not_mem] at h
    simp only [List.mem_eraseDups] at h
    rw [← List.eq_nil_iff_forall_not_mem, List.map_eq_nil_iff] at h
    exact h
  · intro h
    rw [h]
    rfl

theorem taintingRows_eq_nil : taintingRows rd lineage facts = [] ↔
    ¬ ∃ row ∈ facts.corrections, Tainting rd lineage facts row := by
  classical
  simp [taintingRows, List.filter_eq_nil_iff]

theorem verdict_of_findings {f : Findings}
    (ht : f.tainted.entries.map (fun p => (p.1, p.2.length)) = observationCounts (taintingRows rd lineage facts))
    (hu : f.unresolved = true ↔ ∃ row ∈ facts.corrections, Unsettled rd lineage facts row) :
    Verdict rd lineage facts f.assessment := by
  have hempty : f.tainted.entries = [] ↔ ¬ ∃ row ∈ facts.corrections, Tainting rd lineage facts row := by
    rw [← taintingRows_eq_nil, ← List.map_eq_nil_iff (f := fun p : String × List String => (p.1, p.2.length)), ht,
      observationCounts_eq_nil]
  unfold Findings.assessment
  by_cases he : f.tainted.entries = []
  · have hnone := hempty.1 he
    have hcounts : observationCounts (taintingRows rd lineage facts) = [] := by rw [← ht, he]; rfl
    rw [if_neg (fun h => h he)]
    by_cases hun : f.unresolved = true
    · rw [if_pos hun]
      refine ⟨?_, ?_, ?_, hcounts.symm⟩ <;> simp [-not_exists, UNAVAILABLE, hnone, hu.1 hun]
    · rw [if_neg hun]
      have hnu : ¬ ∃ row ∈ facts.corrections, Unsettled rd lineage facts row := fun h => hun (hu.2 h)
      refine ⟨?_, ?_, ?_, hcounts.symm⟩ <;> simp [-not_exists, CLEAN, hnone, hnu]
  · have hsome : ∃ row ∈ facts.corrections, Tainting rd lineage facts row := not_not.1 fun h => he (hempty.2 h)
    rw [if_pos he]
    refine ⟨?_, ?_, ?_, ht⟩ <;> simp [hsome]

theorem assessLineage_verdict (h : assessLineage rd lineage facts = .ok a) : Verdict rd lineage facts a := by
  classical
  obtain ⟨basis, hb, h⟩ := Except.bind_eq_ok.1 h
  obtain ⟨rows, hrows, h⟩ := Except.bind_eq_ok.1 h
  simp only at h
  by_cases hnil : outsideOf rd facts.batches basis = []
  · rw [if_pos hnil, Except.pure_eq_ok] at h
    subst h
    have ht : ∀ row, ¬ Tainting rd lineage facts row := by
      intro row h
      obtain ⟨accountKey, t, htaints⟩ := h
      exact not_followedBy hb hnil _ htaints.followed
    have hu : ∀ row, ¬ Unsettled rd lineage facts row := fun row hrow => not_followedBy hb hnil _ hrow.2
    have hf : Verdict rd lineage facts (Findings.assessment ⟨Dict.empty, false⟩) := by
      refine verdict_of_findings ?_ ?_
      · rw [taintingRows_eq_nil.2 (by simp [ht])]
        rfl
      · simp [hu]
    exact hf
  · rw [if_neg hnil] at h
    obtain ⟨windows, hw, h⟩ := Except.bind_eq_ok.1 h
    rw [Except.pure_eq_ok] at h
    subst h
    obtain ⟨ht, hu⟩ := foldl_assessRow (sorted_outsideOf facts.batches basis)
      (p := fun r => decide (RowTaints (outsideOf rd facts.batches basis) (scopeOf rd lineage) windows r))
      (fun r => decide_eq_true_iff) rows ⟨Dict.empty, false⟩
    refine verdict_of_findings ?_ ?_
    · have hrowsT : (rows.filter fun r => decide (RowTaints (outsideOf rd facts.batches basis) (scopeOf rd lineage)
          windows r)).map PreparedRow.row = taintingRows rd lineage facts := by
        refine Except.filter_of_mapM ?_ hrows
        intro row r hr
        exact ⟨(preparedRow_inv hr).1, decide_eq_decide.2 (rowTaints_iff hb hw hr)⟩
      rw [ht, ← hrowsT]
      have hsizes := Dict.group_sizes (fun r : PreparedRow C K => r.row.opId) (fun r => r.row.observationId)
        (rows.filter fun r => decide (RowTaints (outsideOf rd facts.batches basis) (scopeOf rd lineage) windows r))
      rw [Dict.group] at hsizes
      rw [hsizes]
      simp only [observationCounts, List.map_map, List.filter_map]
      rfl
    · rw [hu]
      simp only [Bool.false_eq_true, false_or]
      constructor
      · intro h
        obtain ⟨r, hr, hun⟩ := h
        obtain ⟨row, hrow, hprep⟩ := (Except.mem_of_mapM hrows r).1 hr
        exact ⟨row, hrow, (rowUnsettled_iff hb hprep).1 hun⟩
      · intro h
        obtain ⟨row, hrow, hun⟩ := h
        obtain ⟨r, hr, hprep⟩ := Except.ok_of_mapM hrows row hrow
        exact ⟨r, hr, (rowUnsettled_iff hb hprep).2 hun⟩

def midnightReader : Reader Nat Nat :=
  { fromisoformat := fun s => if s = "2026-01-05T00:00:00+00:00" then some (.aware 1767571200000000) else none
    repr := fun _ => "None"
    coordKey := id }

def midnightLineage : Json :=
  .obj [("accountScope", .str "*"), ("basis", .arr [.str "old"]),
    ("dependencyWindows", .arr [.obj [("from", .str "2026-01-05T00:00:00Z"), ("until", .null),
      ("untilInclusive", .bool true)]])]

def midnightFacts : CorrectionFacts Nat :=
  { corrections := [⟨"op", "first", some "acct", some "2026-01-05T00:00:00Z", 1⟩,
      ⟨"op", "first", some "acct", some "2026-01-05T00:00:00Z", 1⟩, ⟨"op", "gone", none, none, 1⟩]
    batches := [⟨"new", 2, {("claude", "acct")}⟩, ⟨"old", 3, {("*", "*")}⟩] }

end

end Cctally
