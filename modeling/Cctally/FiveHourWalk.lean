import Cctally.FiveHourTimeline

/-!
# The walk over a block's close events

Where the walk has no reason to doubt, either the revision in effect carries the
anchor's amount, or the block stands closed with money and no mark is pending:
a later write of the anchor's amount is then a price-only rewrite it walks past.
-/

namespace Cctally.FiveHour

open Json (eq_symm eq_trans)

/-! ## The revision in effect -/

section
variable (chain : Dict Nat Occurrence) (tail selected : Nat)

/-- The revisions from `tail` on take effect in order. -/
def InOrder : Prop := ∀ rev, tail ≤ rev → rev < selected → (link chain rev).availableAt ≤ (link chain (rev + 1)).availableAt

def effectiveBefore : Nat → Nat
  | 0 => tail
  | c + 1 => (revisionsAt chain tail selected c).foldr max (effectiveBefore c)

variable {chain tail selected}

theorem InOrder.le (h : InOrder chain tail selected) {a b : Nat} (ha : tail ≤ a) (hab : a ≤ b) (hb : b ≤ selected) :
    (link chain a).availableAt ≤ (link chain b).availableAt := by
  induction b, hab using Nat.le_induction with
  | base => exact le_refl _
  | succ b hab ih => exact (ih (Nat.le_of_succ_le hb)).trans (h b (ha.trans hab) hb)

theorem mem_revisionsAt {rev c : Nat} : rev ∈ revisionsAt chain tail selected c ↔
    rev ≤ selected ∧ tail < rev ∧ (link chain rev).availableAt = c := by
  simp [revisionsAt, Nat.lt_succ_iff]

theorem effectiveBefore_mem (b : Nat) : effectiveBefore chain tail selected b = tail ∨
    tail < effectiveBefore chain tail selected b ∧ effectiveBefore chain tail selected b ≤ selected ∧
      (link chain (effectiveBefore chain tail selected b)).availableAt < b := by
  induction b with
  | zero => exact .inl rfl
  | succ b ih =>
    rcases foldr_max_mem (effectiveBefore chain tail selected b) (revisionsAt chain tail selected b) with h | h
    · unfold effectiveBefore
      rw [h]
      exact ih.imp_right fun ⟨hlt, hle, hav⟩ => ⟨hlt, hle, Nat.lt_succ_of_lt hav⟩
    · obtain ⟨hle, hlt, hav⟩ := mem_revisionsAt.1 h
      exact .inr ⟨hlt, hle, Nat.lt_succ_of_le hav.le⟩

theorem le_effectiveBefore {rev b : Nat} (htail : tail < rev) (hsel : rev ≤ selected)
    (hav : (link chain rev).availableAt < b) : rev ≤ effectiveBefore chain tail selected b := by
  induction b with
  | zero => cases hav
  | succ b ih =>
    unfold effectiveBefore
    rcases Nat.lt_succ_iff_lt_or_eq.1 hav with hlt | heq
    · exact (ih hlt).trans (le_foldr_max_start _ _)
    · exact le_foldr_max (mem_revisionsAt.2 ⟨hsel, htail, heq⟩)

theorem tail_le_effectiveBefore (b : Nat) : tail ≤ effectiveBefore chain tail selected b := by
  rcases @effectiveBefore_mem chain tail selected b with h | h
  · exact h.ge
  · exact h.1.le

theorem effectiveAt_eq (hts : tail ≤ selected) {c : Nat} (hstart : (link chain tail).availableAt ≤ c) :
    effectiveAt chain tail selected c = effectiveBefore chain tail selected (c + 1) := by
  have hmem : ∀ rev, rev ∈ ((List.range (selected + 1)).filter fun rev =>
      tail ≤ rev && (link chain rev).availableAt ≤ c) ↔
      rev ≤ selected ∧ tail ≤ rev ∧ (link chain rev).availableAt ≤ c := by
    simp [Nat.lt_succ_iff]
  have htail : tail ≤ effectiveAt chain tail selected c := le_foldr_max ((hmem tail).2 ⟨hts, le_refl _, hstart⟩)
  apply le_antisymm
  · rcases foldr_max_mem 0 ((List.range (selected + 1)).filter fun rev =>
      tail ≤ rev && (link chain rev).availableAt ≤ c) with h | h
    · exact h.le.trans (Nat.zero_le _)
    · obtain ⟨hle, hge, hav⟩ := (hmem _).1 h
      rcases hge.lt_or_eq with hlt | heq
      · exact le_effectiveBefore hlt hle (Nat.lt_succ_of_le hav)
      · exact heq.ge.trans (tail_le_effectiveBefore _)
  · rcases @effectiveBefore_mem chain tail selected (c + 1) with h | ⟨hlt, hle, hav⟩
    · exact h.le.trans htail
    · exact le_foldr_max ((hmem _).2 ⟨hle, hlt.le, Nat.le_of_lt_succ hav⟩)

theorem effectiveBefore_start (hord : InOrder chain tail selected) {b : Nat} (hb : b ≤ (link chain tail).availableAt) :
    effectiveBefore chain tail selected b = tail := by
  rcases @effectiveBefore_mem chain tail selected b with h | ⟨hlt, hle, hav⟩
  · exact h
  · have hge := hord.le (le_refl tail) hlt.le hle
    omega

theorem effectiveBefore_end (hts : tail ≤ selected) {b : Nat}
    (hb : tail < selected → (link chain selected).availableAt < b) : effectiveBefore chain tail selected b = selected := by
  rcases hts.lt_or_eq with hlt | rfl
  · apply le_antisymm
    · rcases @effectiveBefore_mem chain tail selected b with h | h
      · exact h.le.trans hts
      · exact h.2.1
    · exact le_effectiveBefore hlt (le_refl _) (hb hlt)
  · rcases @effectiveBefore_mem chain tail tail b with h | h
    · exact h
    · exact absurd h.2.1 (Nat.not_le.2 h.1)

theorem effectiveBefore_succ (hord : InOrder chain tail selected) {rev c : Nat}
    (h : rev ∈ revisionsAt chain tail selected c) :
    effectiveBefore chain tail selected (c + 1) = (revisionsAt chain tail selected c).foldr max 0 := by
  obtain ⟨hsel, htail, hav⟩ := mem_revisionsAt.1 h
  have hrev : rev ≤ (revisionsAt chain tail selected c).foldr max 0 := le_foldr_max h
  have hbefore : effectiveBefore chain tail selected c ≤ rev := by
    rcases @effectiveBefore_mem chain tail selected c with heq | ⟨hlt, hle, hearly⟩
    · exact heq.le.trans htail.le
    · refine Nat.le_of_not_lt fun hback => ?_
      have := hord.le htail.le hback.le hle
      omega
  unfold effectiveBefore
  apply le_antisymm
  · rcases foldr_max_mem (effectiveBefore chain tail selected c) (revisionsAt chain tail selected c) with heq | hmem
    · exact heq.le.trans (hbefore.trans hrev)
    · exact le_foldr_max hmem
  · rcases foldr_max_mem 0 (revisionsAt chain tail selected c) with heq | hmem
    · exact heq.le.trans (Nat.zero_le _)
    · exact le_foldr_max hmem

def SameAmount (env : Env) (chain : Dict Nat Occurrence) (a b : Nat) : Prop :=
  a = b ∨ Json.eq env.fl (link chain a).blockCost (link chain b).blockCost = true

section
variable {env : Env}

theorem SameAmount.trans {a b c : Nat} (h : SameAmount env chain a b) (h' : SameAmount env chain b c) :
    SameAmount env chain a c := by
  rcases h with rfl | h
  · exact h'
  · rcases h' with rfl | h'
    · exact .inr h
    · exact .inr (eq_trans env.fl h h')

theorem sameAmount_of_unchanged (hord : InOrder chain tail selected) {c : Nat}
    (h : (revisionsAt chain tail selected c).any (rewrites env chain) = false) :
    SameAmount env chain (effectiveBefore chain tail selected (c + 1)) (effectiveBefore chain tail selected c) := by
  have htail := @tail_le_effectiveBefore chain tail selected c
  have hreach : ∀ rev, effectiveBefore chain tail selected c ≤ rev → rev ≤ effectiveBefore chain tail selected (c + 1) →
      SameAmount env chain rev (effectiveBefore chain tail selected c) := by
    intro rev hge
    induction rev, hge using Nat.le_induction with
    | base => exact fun _ => .inl rfl
    | succ rev hge ih =>
      intro hle
      rcases @effectiveBefore_mem chain tail selected (c + 1) with heq | ⟨hlt, hsel, hav⟩
      · omega
      · have hlate : c ≤ (link chain (rev + 1)).availableAt := by
          refine Nat.le_of_not_lt fun hearly => ?_
          have hback : rev + 1 ≤ effectiveBefore chain tail selected c :=
            le_effectiveBefore (by omega) (hle.trans hsel) hearly
          omega
        have hearly := hord.le (by omega : tail ≤ rev + 1) hle hsel
        have hmem : rev + 1 ∈ revisionsAt chain tail selected c := mem_revisionsAt.2 ⟨by omega, by omega, by omega⟩
        have hkeep : rewrites env chain (rev + 1) = false := by
          rw [List.any_eq_false] at h
          simpa using h _ hmem
        have hstep : SameAmount env chain (rev + 1) rev := .inr (by simpa [rewrites] using hkeep)
        exact hstep.trans (ih (Nat.le_of_succ_le hle))
  rcases Nat.le_total (effectiveBefore chain tail selected c) (effectiveBefore chain tail selected (c + 1)) with hle | hle
  · exact hreach _ hle (le_refl _)
  · have hge : effectiveBefore chain tail selected c ≤ effectiveBefore chain tail selected (c + 1) := le_foldr_max_start _ _
    rw [le_antisymm hle hge]
    exact .inl rfl

end

end

/-! ## One coordinate -/

section
variable (env : Env) (chain : Dict Nat Occurrence) (tail selected : Nat) (histories : List (List Occurrence))
  (block : Option Block)

def eventsFrom (start : Nat) : List TimedEvent := closeEvents env start .absent false (timeline env histories block)

def stepAt (w : WalkState) (c : Nat) : WalkState :=
  walkStep env chain tail selected (timeline env histories block)
    (eventsFrom env histories block (link chain tail).availableAt) w c

def Settled (c : Nat) (w : WalkState) : Prop :=
  w.reasons = [] → SameAmount env chain (effectiveBefore chain tail selected c) w.anchor ∨
    w.marked = false ∧ (stateUpTo env histories block c).closedWithMoney env = true

variable {env chain tail selected histories block}

theorem eventsFrom_at (start c : Nat) :
    ((eventsFrom env histories block start).find? (·.coordinate = c)).map (·.event) =
      if start ≤ c ∧ c ∈ coordinates histories then
        some (classify env (stateUpTo env histories block c) (momentAt env histories block c).state
          (momentAt env histories block c).changed)
      else none := eventAt start c

theorem Settled.unchanged (hord : InOrder chain tail selected) {c : Nat} {w : WalkState}
    (h : Settled env chain tail selected histories block c w)
    (hchanged : (revisionsAt chain tail selected c).any (rewrites env chain) = false)
    (hmoney : (stateUpTo env histories block c).closedWithMoney env = true →
      (stateUpTo env histories block (c + 1)).closedWithMoney env = true) :
    Settled env chain tail selected histories block (c + 1) w := by
  intro hw
  rcases h hw with hsame | ⟨hmark, hclosed⟩
  · exact .inl ((sameAmount_of_unchanged hord hchanged).trans hsame)
  · exact .inr ⟨hmark, hmoney hclosed⟩

/-- **One coordinate of the walk.** -/
theorem Settled.step (hord : InOrder chain tail selected) (hts : tail ≤ selected) {c : Nat}
    (hstart : (link chain tail).availableAt ≤ c) {w : WalkState}
    (h : Settled env chain tail selected histories block c w) :
    Settled env chain tail selected histories block (c + 1) (stepAt env chain tail selected histories block w c) := by
  have hevent := @eventsFrom_at env histories block (link chain tail).availableAt c
  -- no event, or a metadata one, keeps a retained close
  have hmoney : (c ∈ coordinates histories → classify env (stateUpTo env histories block c)
      (momentAt env histories block c).state (momentAt env histories block c).changed = .metadata) →
      (stateUpTo env histories block c).closedWithMoney env = true →
      (stateUpTo env histories block (c + 1)).closedWithMoney env = true :=
    fun hmeta hclosed => closedWithMoney_succ hclosed hmeta
  unfold stepAt walkStep
  simp only []
  split
  · rename_i hmon
    cases hchanged : (revisionsAt chain tail selected c).any (rewrites env chain) with
    | true =>
      intro _
      obtain ⟨rev, hrev, -⟩ := List.any_eq_true.1 hchanged
      exact .inl (.inl (effectiveBefore_succ hord hrev))
    | false =>
      intro hw
      simp only [Bool.false_eq_true, if_false] at hw ⊢
      split at hw
      · rename_i heq
        rw [effectiveAt_eq hts hstart] at heq
        exact .inl (.inr heq)
      · simp at hw
  · exact fun hw => absurd hw (by simp)
  · rename_i hnob
    cases hchanged : (revisionsAt chain tail selected c).any (rewrites env chain) with
    | true => exact fun hw => absurd hw (by simp)
    | false =>
      simp only [Bool.false_eq_true, if_false]
      refine h.unchanged hord hchanged fun hclosed => ?_
      rw [hnob] at hevent
      split at hevent
      · rw [not_closed_of_noBoundary (Option.some.inj hevent).symm] at hclosed
        cases hclosed
      · cases hevent
  · rename_i hne1 hne2 hne3
    have hmeta : c ∈ coordinates histories → classify env (stateUpTo env histories block c)
        (momentAt env histories block c).state (momentAt env histories block c).changed = .metadata := by
      intro hc
      rw [if_pos ⟨hstart, hc⟩] at hevent
      cases hclass : classify env (stateUpTo env histories block c) (momentAt env histories block c).state
        (momentAt env histories block c).changed with
      | metadata => rfl
      | uncertain => exact absurd (hevent.trans (congrArg some hclass)) hne2
      | monetary => exact absurd (hevent.trans (congrArg some hclass)) hne1
      | noBoundary => exact absurd (hevent.trans (congrArg some hclass)) hne3
    cases hchanged : (revisionsAt chain tail selected c).any (rewrites env chain) with
    | true =>
      intro hw
      simp only [if_true, stateBefore_timeline] at hw ⊢
      cases hclosed : (stateUpTo env histories block c).closedWithMoney env with
      | false => simp [hclosed] at hw
      | true =>
        cases hmark : w.marked with
        | true => simp [hmark] at hw
        | false => exact .inr ⟨rfl, hmoney hmeta hclosed⟩
    | false =>
      simp only [Bool.false_eq_true, if_false]
      exact h.unchanged hord hchanged (hmoney hmeta)

section
variable (env chain tail selected histories block)

def walkBefore (b : Nat) : WalkState :=
  (List.range b).foldl (stepAt env chain tail selected histories block) ⟨tail, [], false⟩

end

theorem walkBefore_succ (b : Nat) : walkBefore env chain tail selected histories block (b + 1) =
    stepAt env chain tail selected histories block (walkBefore env chain tail selected histories block b) b := by
  unfold walkBefore
  rw [List.range_succ, List.foldl_append]
  rfl

theorem stepAt_idle {c : Nat} (hrevs : revisionsAt chain tail selected c = [])
    (hevents : (eventsFrom env histories block (link chain tail).availableAt).find? (·.coordinate = c) = none)
    (w : WalkState) : stepAt env chain tail selected histories block w c = w := by
  unfold stepAt walkStep
  simp [hrevs, hevents]

theorem revisionsAt_eq_nil {c : Nat} (h : ∀ rev, tail < rev → rev ≤ selected → (link chain rev).availableAt ≠ c) :
    revisionsAt chain tail selected c = [] := by
  refine List.eq_nil_iff_forall_not_mem.2 fun rev hrev => ?_
  obtain ⟨hle, hlt, hav⟩ := mem_revisionsAt.1 hrev
  exact h rev hlt hle hav

theorem eventsFrom_none {start c : Nat} (h : ¬ (start ≤ c ∧ c ∈ coordinates histories)) :
    (eventsFrom env histories block start).find? (·.coordinate = c) = none := by
  have hevent := @eventsFrom_at env histories block start c
  rw [if_neg h] at hevent
  exact Option.map_eq_none_iff.1 hevent

theorem walkBefore_start (hord : InOrder chain tail selected) {b : Nat} (hb : b ≤ (link chain tail).availableAt) :
    walkBefore env chain tail selected histories block b = ⟨tail, [], false⟩ := by
  induction b with
  | zero => rfl
  | succ b ih =>
    rw [walkBefore_succ, ih (Nat.le_of_succ_le hb)]
    apply stepAt_idle
    · refine revisionsAt_eq_nil fun rev hlt hle hav => ?_
      have := hord.le (le_refl tail) hlt.le hle
      omega
    · exact eventsFrom_none fun h => by have := h.1; omega

theorem settled_walkBefore (hord : InOrder chain tail selected) (hts : tail ≤ selected) {b : Nat}
    (hb : (link chain tail).availableAt ≤ b) :
    Settled env chain tail selected histories block b (walkBefore env chain tail selected histories block b) := by
  induction b, hb using Nat.le_induction with
  | base =>
    rw [walkBefore_start hord (le_refl _)]
    exact fun _ => .inl (.inl (effectiveBefore_start hord (le_refl _)))
  | succ b hb ih =>
    rw [walkBefore_succ]
    exact ih.step hord hts hb

theorem foldl_filter_idle {σ : Type} {f : σ → Nat → σ} {p : Nat → Bool} (h : ∀ w c, p c = false → f w c = w) :
    ∀ (l : List Nat) (w : σ), l.foldl f w = (l.filter p).foldl f w
  | [], _ => rfl
  | c :: l, w => by
    cases hc : p c with
    | true => rw [List.filter_cons_of_pos hc, List.foldl_cons, List.foldl_cons, foldl_filter_idle h l]
    | false =>
      rw [List.filter_cons_of_neg (by rw [hc]; nofun), List.foldl_cons, h w c hc, foldl_filter_idle h l]

theorem sortedSet_eq_filter {l : List Nat} {b : Nat} (h : ∀ c ∈ l, c < b) :
    sortedSet l = (List.range b).filter (· ∈ l) := by
  have hmem : ∀ c, c ∈ l ↔ c ∈ (List.range b).filter (· ∈ l) := by
    intro c
    simp only [List.mem_filter, List.mem_range, decide_eq_true_eq]
    exact ⟨fun hc => ⟨h c hc, hc⟩, And.right⟩
  have hsorted : ((List.range b).filter (· ∈ l)).Pairwise (· < ·) := List.pairwise_lt_range.filter _
  have hnodup : ((List.range b).filter (· ∈ l)).Nodup := List.nodup_range.filter _
  rw [sortedSet_congr hmem, sortedSet, hnodup.dedup, (hsorted.imp le_of_lt).insertionSort_eq]

theorem walk_eq_walkBefore {b : Nat} (hrevs : ∀ rev, tail < rev → rev ≤ selected → (link chain rev).availableAt < b)
    (hcoords : ∀ c ∈ coordinates histories, c < b) :
    (walkCoordinates chain tail selected (eventsFrom env histories block (link chain tail).availableAt)).foldl
      (stepAt env chain tail selected histories block) ⟨tail, [], false⟩ =
      walkBefore env chain tail selected histories block b := by
  have hevents : ∀ e ∈ eventsFrom env histories block (link chain tail).availableAt,
      e.coordinate ∈ coordinates histories := by
    intro e he
    by_contra hno
    have hnone := List.find?_eq_none.1 (eventsFrom_none fun h => hno h.2) e he
    exact hnone (decide_eq_true rfl)
  unfold walkCoordinates walkBefore
  rw [sortedSet_eq_filter (b := b), ← foldl_filter_idle]
  · intro w c hc
    simp only [decide_eq_false_iff_not, List.mem_append, List.mem_map, List.mem_filter, List.mem_range, not_or,
      not_exists, not_and, decide_eq_true_eq, and_imp] at hc
    apply stepAt_idle
    · exact revisionsAt_eq_nil fun rev hlt hle hav => hc.1 rev (Nat.lt_succ_of_le hle) hlt hav
    · exact List.find?_eq_none.2 fun e he heq => hc.2 e he (of_decide_eq_true heq)
  · intro c hc
    simp only [List.mem_append, List.mem_map, List.mem_filter, List.mem_range, decide_eq_true_eq] at hc
    rcases hc with ⟨rev, ⟨hle, hlt⟩, rfl⟩ | ⟨e, he, rfl⟩
    · exact hrevs rev hlt (Nat.le_of_lt_succ hle)
    · exact hcoords _ (hevents e he)

/-! ## One more revision -/

theorem stepAt_anchor_le {w : WalkState} (hw : w.anchor ≤ selected) (c : Nat) :
    (stepAt env chain tail selected histories block w c).anchor ≤ selected := by
  unfold stepAt walkStep
  simp only []
  split
  · split
    · rcases foldr_max_mem 0 (revisionsAt chain tail selected c) with h | h
      · exact h.le.trans (Nat.zero_le _)
      · exact (mem_revisionsAt.1 h).1
    · exact hw
  · exact hw
  · split <;> exact hw
  · split <;> exact hw

theorem walkBefore_anchor_le (hts : tail ≤ selected) (b : Nat) :
    (walkBefore env chain tail selected histories block b).anchor ≤ selected := by
  induction b with
  | zero => exact hts
  | succ b ih =>
    rw [walkBefore_succ]
    exact stepAt_anchor_le ih b

section
variable {chain' : Dict Nat Occurrence} (hlink : ∀ rev ≤ selected, link chain' rev = link chain rev)
include hlink

theorem revisionsAt_append {c : Nat} (hc : (link chain' (selected + 1)).availableAt ≠ c) :
    revisionsAt chain' tail (selected + 1) c = revisionsAt chain tail selected c := by
  unfold revisionsAt
  rw [List.range_succ, List.filter_append, List.filter_singleton, decide_eq_false hc, Bool.and_false, cond_false,
    List.append_nil]
  refine List.filter_congr fun rev hrev => ?_
  rw [hlink rev (Nat.lt_succ_iff.1 (List.mem_range.1 hrev))]

theorem effectiveAt_append {c : Nat} (hc : c < (link chain' (selected + 1)).availableAt) :
    effectiveAt chain' tail (selected + 1) c = effectiveAt chain tail selected c := by
  unfold effectiveAt
  rw [List.range_succ, List.filter_append, List.filter_singleton, decide_eq_false (Nat.not_le.2 hc), Bool.and_false,
    cond_false, List.append_nil]
  refine congrArg (List.foldr max 0) (List.filter_congr fun rev hrev => ?_)
  rw [hlink rev (Nat.lt_succ_iff.1 (List.mem_range.1 hrev))]

theorem stepAt_append (hts : tail ≤ selected) {c : Nat} (hc : c < (link chain' (selected + 1)).availableAt)
    {w : WalkState} (hw : w.anchor ≤ selected) :
    stepAt env chain' tail (selected + 1) histories block w c = stepAt env chain tail selected histories block w c := by
  have heff : effectiveAt chain tail selected c ≤ selected := by
    rcases foldr_max_mem 0 ((List.range (selected + 1)).filter fun rev =>
      tail ≤ rev && (link chain rev).availableAt ≤ c) with h | h
    · exact h.le.trans (Nat.zero_le _)
    · exact Nat.lt_succ_iff.1 (List.mem_range.1 (List.mem_of_mem_filter h))
  have hany : (revisionsAt chain tail selected c).any (rewrites env chain') =
      (revisionsAt chain tail selected c).any (rewrites env chain) := by
    rw [Bool.eq_iff_iff, List.any_eq_true, List.any_eq_true]
    refine exists_congr fun rev => and_congr_right fun hrev => ?_
    have hle := (mem_revisionsAt.1 hrev).1
    unfold rewrites
    rw [hlink rev hle, hlink (rev - 1) ((Nat.sub_le rev 1).trans hle)]
  unfold stepAt walkStep
  simp only [revisionsAt_append hlink hc.ne', effectiveAt_append hlink hc, hany, hlink tail hts, hlink _ hw, hlink _ heff]

theorem walkBefore_append (hts : tail ≤ selected) {b : Nat} (hb : b ≤ (link chain' (selected + 1)).availableAt) :
    walkBefore env chain' tail (selected + 1) histories block b = walkBefore env chain tail selected histories block b := by
  induction b with
  | zero => rfl
  | succ b ih =>
    rw [walkBefore_succ, walkBefore_succ, ih (Nat.le_of_succ_le hb)]
    exact stepAt_append hlink hts hb (walkBefore_anchor_le hts b)

/-- **A write of the anchor's amount after everything is walked past.** -/
theorem walkBefore_restored (hord : InOrder chain tail selected) (hts : tail ≤ selected)
    (hlast : (link chain selected).availableAt < (link chain' (selected + 1)).availableAt)
    (hcoords : ∀ c ∈ coordinates histories, c < (link chain' (selected + 1)).availableAt)
    (hreasons : (walkBefore env chain tail selected histories block (link chain' (selected + 1)).availableAt).reasons = [])
    (hdiffers : ¬ SameAmount env chain selected
      (walkBefore env chain tail selected histories block (link chain' (selected + 1)).availableAt).anchor) :
    (walkBefore env chain' tail (selected + 1) histories block ((link chain' (selected + 1)).availableAt + 1)).reasons = [] ∧
      (walkBefore env chain' tail (selected + 1) histories block ((link chain' (selected + 1)).availableAt + 1)).anchor =
        (walkBefore env chain tail selected histories block (link chain' (selected + 1)).availableAt).anchor := by
  have hstart : (link chain tail).availableAt ≤ (link chain' (selected + 1)).availableAt :=
    (hord.le (le_refl tail) hts (le_refl _)).trans hlast.le
  have hsettled := @settled_walkBefore env chain tail selected histories block hord hts _ hstart hreasons
  rw [effectiveBefore_end hts fun _ => hlast] at hsettled
  obtain ⟨hmark, hclosed⟩ := hsettled.resolve_left hdiffers
  have hnone : (eventsFrom env histories block (link chain' tail).availableAt).find?
      (·.coordinate = (link chain' (selected + 1)).availableAt) = none :=
    eventsFrom_none fun h => (hcoords _ h.2).ne rfl
  rw [walkBefore_succ, walkBefore_append hlink hts (le_refl _)]
  unfold stepAt walkStep
  simp only [hnone, Option.map_none, stateBefore_timeline, hclosed, hmark]
  split
  · exact ⟨by simp [hreasons], rfl⟩
  · exact ⟨hreasons, rfl⟩

end

end

end Cctally.FiveHour
