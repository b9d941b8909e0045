import Cctally.JournalBatch

/-!
# The batch pass and the whole accumulation

Resolving a list of batches adds, for each of them, its own violations and, when
there are none, its candidates. Nothing else of the fold changes.
-/

namespace Cctally

section
variable (rt : Runtime)

def SelectorFold.log (fold : SelectorFold) (b : String) : TaintLog :=
  (batchViolations rt b (fold.marker b .begin) (fold.marker b .commit) (fold.actions.sub b)).toOption.getD []

def SelectorFold.actionCount (fold : SelectorFold) (b : String) : Nat :=
  ((fold.marker b .begin).bind fun m => m.core.actionCount).getD 0

def SelectorFold.gives (fold : SelectorFold) (b : String) : List EffectiveEvent :=
  (fold.batchCandidates rt b (fold.actionCount b)).toOption.getD []

def SelectorFold.completes (fold : SelectorFold) (b : String) : Bool :=
  (fold.marker b .begin).isSome && (fold.marker b .commit).isSome && decide (b ∉ fold.taintedBatches) &&
    (fold.log rt b).isEmpty

structure Resolved (fold : SelectorFold) (ids : List String) (fold' : SelectorFold) : Prop where
  markers : fold'.markers = fold.markers
  actions : fold'.actions = fold.actions
  resolutions : fold'.resolutions = fold.resolutions
  checked : ∀ b ∈ ids, batchViolations rt b (fold.marker b .begin) (fold.marker b .commit)
    (fold.actions.sub b) = .ok (fold.log rt b)
  taints : fold'.taints = fold.taints.addAll rt (ids.flatMap (fold.log rt))
  completed : ∀ b, b ∈ fold'.completed ↔ b ∈ fold.completed ∨ (b ∈ ids ∧ fold.completes rt b)
  candidates : fold'.candidates =
    fold.candidates ++ (ids.filter (fold.completes rt)).flatMap (fold.gives rt)
  given : ∀ b ∈ ids, fold.completes rt b →
    fold.batchCandidates rt b (fold.actionCount b) = .ok (fold.gives rt b)

variable {rt}

theorem log_of_ok {fold : SelectorFold} {b : String} {log : TaintLog}
    (h : batchViolations rt b (fold.marker b .begin) (fold.marker b .commit) (fold.actions.sub b) = .ok log) :
    fold.log rt b = log := by
  rw [SelectorFold.log, h]; rfl

theorem mem_log_batchId {fold : SelectorFold} {b : String} {entry : ProtocolViolation × Nat}
    (h : entry ∈ fold.log rt b) : entry.1.batchId = b := by
  unfold SelectorFold.log at h
  cases hv : batchViolations rt b (fold.marker b .begin) (fold.marker b .commit) (fold.actions.sub b) with
  | error e => rw [hv] at h; cases h
  | ok log => rw [hv] at h; exact batchViolations_batchId hv h

theorem log_frame (rt : Runtime) {fold fold' : SelectorFold} (hm : fold'.markers = fold.markers)
    (ha : fold'.actions = fold.actions) (b : String) :
    fold'.log rt b = fold.log rt b ∧ fold'.gives rt b = fold.gives rt b ∧
    (∀ ph, fold'.marker b ph = fold.marker b ph) ∧ fold'.actionCount b = fold.actionCount b ∧
    ∀ n, fold'.batchCandidates rt b n = fold.batchCandidates rt b n := by
  have hmark : ∀ ph, fold'.marker b ph = fold.marker b ph := fun ph => by
    rw [SelectorFold.marker, SelectorFold.marker, hm]
  have hc : fold'.actionCount b = fold.actionCount b := by
    rw [SelectorFold.actionCount, SelectorFold.actionCount, hmark]
  have hb : ∀ n, fold'.batchCandidates rt b n = fold.batchCandidates rt b n := fun n => by
    rw [SelectorFold.batchCandidates, SelectorFold.batchCandidates, ha]
  refine ⟨?_, ?_, hmark, hc, hb⟩
  · rw [SelectorFold.log, SelectorFold.log, hmark, hmark, ha]
  · rw [SelectorFold.gives, SelectorFold.gives, hc, hb]

theorem mem_taints_log {fold : SelectorFold} {ids : List String} {t : Taints} {b : String} :
    b ∈ (t.addAll rt (ids.flatMap (fold.log rt))).batches ↔
      b ∈ t.batches ∨ (b ∈ ids ∧ fold.log rt b ≠ []) := by
  rw [mem_addAll_batches]
  constructor
  · rintro (h | ⟨entry, he, hb⟩)
    · exact Or.inl h
    · obtain ⟨c, hc, he⟩ := List.mem_flatMap.mp he
      obtain rfl := (mem_log_batchId he).symm.trans hb
      exact Or.inr ⟨hc, List.ne_nil_of_mem he⟩
  · rintro (h | ⟨hb, hne⟩)
    · exact Or.inl h
    · obtain ⟨entry, he⟩ := List.exists_mem_of_ne_nil _ hne
      exact Or.inr ⟨entry, List.mem_flatMap.mpr ⟨b, hb, he⟩, mem_log_batchId he⟩

theorem completes_iff {fold : SelectorFold} {b : String} :
    fold.completes rt b = true ↔ (∃ bg, fold.marker b .begin = some bg) ∧
      (∃ cm, fold.marker b .commit = some cm) ∧ b ∉ fold.taintedBatches ∧ fold.log rt b = [] := by
  simp only [SelectorFold.completes, Bool.and_eq_true, Option.isSome_iff_exists, decide_eq_true_eq,
    List.isEmpty_iff, and_assoc]

theorem resolveBatch_resolved {fold fold' : SelectorFold} {b : String}
    (h : resolveBatch rt fold b = .ok fold') : Resolved rt fold [b] fold' := by
  unfold resolveBatch at h
  obtain ⟨log, hlog, h⟩ := Except.bind_eq_ok.mp h
  have hl := log_of_ok hlog
  have hframe := @taintAll_frame rt log fold
  have htaints : (fold.taintAll rt log).taints = fold.taints.addAll rt ([b].flatMap (fold.log rt)) := by
    rw [taintAll_taints, List.flatMap_singleton, hl]
  have hmem : b ∈ (fold.taintAll rt log).taintedBatches ↔ b ∈ fold.taintedBatches ∨ fold.log rt b ≠ [] := by
    have := @mem_taints_log rt fold [b] fold.taints b
    rw [← htaints, List.mem_singleton, eq_self_iff_true, true_and] at this
    exact this
  -- a batch without both markers, or tainted, changes the taints only
  have hrest : ∀ f : SelectorFold, f = fold.taintAll rt log → ¬ fold.completes rt b → Resolved rt fold [b] f := by
    rintro _ rfl hc
    refine ⟨by rw [hframe], by rw [hframe], by rw [hframe], ?_, htaints, ?_, ?_, ?_⟩
    · intro b' hb'; rw [List.mem_singleton.mp hb', hl, hlog]
    · intro b'; rw [hframe]
      exact ⟨Or.inl, fun h => h.elim id fun ⟨hb', hc'⟩ => absurd (List.mem_singleton.mp hb' ▸ hc') hc⟩
    · rw [hframe]; simp [hc]
    · intro b' hb' hc'; exact absurd (List.mem_singleton.mp hb' ▸ hc') hc
  cases hbg : fold.marker b .begin with
  | none =>
    simp only [hbg] at h
    exact hrest _ (by cases fold.marker b .commit <;> exact Except.pure_eq_ok.mp h) (by simp [completes_iff, hbg])
  | some bg =>
    cases hcm : fold.marker b .commit with
    | none => simp only [hbg, hcm] at h; exact hrest _ (Except.pure_eq_ok.mp h) (by simp [completes_iff, hcm])
    | some cm =>
      simp only [hbg, hcm] at h
      split at h
      · rename_i ht
        refine hrest _ (Except.pure_eq_ok.mp h) fun hc => ?_
        obtain ⟨-, -, hnt, hnl⟩ := completes_iff.mp hc
        rcases hmem.mp ht with ht | ht
        · exact hnt ht
        · exact ht hnl
      · rename_i ht
        obtain ⟨cands, hcands, h⟩ := Except.bind_eq_ok.mp h
        rw [hmem, not_or, not_not] at ht
        have hc : fold.completes rt b := completes_iff.mpr ⟨⟨bg, hbg⟩, ⟨cm, hcm⟩, ht.1, ht.2⟩
        have hcount : bg.core.actionCount.getD 0 = fold.actionCount b := by
          simp [SelectorFold.actionCount, hbg]
        have hsame := (@log_frame rt fold (fold.taintAll rt log)
          (by rw [hframe]) (by rw [hframe]) b).2.2.2.2
        rw [hcount, hsame] at hcands
        have hg : fold.gives rt b = cands := by rw [SelectorFold.gives, hcands]; rfl
        rw [Except.pure_eq_ok] at h
        subst h
        refine ⟨by simp only [hframe], by simp only [hframe], by simp only [hframe], ?_, htaints, ?_, ?_, ?_⟩
        · intro b' hb'; rw [List.mem_singleton.mp hb', hl, hlog]
        · intro b'
          simp only [hframe, Finset.mem_insert, List.mem_singleton]
          constructor
          · rintro (rfl | h)
            · exact Or.inr ⟨rfl, hc⟩
            · exact Or.inl h
          · rintro (h | ⟨rfl, -⟩)
            · exact Or.inr h
            · exact Or.inl rfl
        · simp only [hframe]; simp [hc, hg]
        · intro b' hb' _; rw [List.mem_singleton.mp hb', hg, hcands]

theorem Resolved.completes_ne {fold fold' : SelectorFold} {b b' : String} (h : Resolved rt fold [b] fold')
    (hb : b' ≠ b) : fold'.completes rt b' = fold.completes rt b' := by
  obtain ⟨hl, -, hm, -⟩ := log_frame rt h.markers h.actions b'
  have ht : b' ∈ fold'.taintedBatches ↔ b' ∈ fold.taintedBatches := by
    have := @mem_taints_log rt fold [b] fold.taints b'
    rw [← h.taints, List.mem_singleton] at this
    exact this.trans ⟨fun h => h.elim id fun ⟨he, _⟩ => absurd he hb, Or.inl⟩
  simp only [SelectorFold.completes, hm, hl, ht]

theorem foldlM_resolved : ∀ {ids : List String} {fold fold' : SelectorFold}, ids.Nodup →
    ids.foldlM (resolveBatch rt) fold = .ok fold' → Resolved rt fold ids fold'
  | [], fold, fold', _, h => by
    cases h
    exact ⟨rfl, rfl, rfl, by simp, rfl, by simp, by simp, by simp⟩
  | b :: ids, fold, fold', hn, h => by
    obtain ⟨f₁, hf₁, h⟩ := Except.foldlM_cons.mp h
    rw [List.nodup_cons] at hn
    have h₁ := resolveBatch_resolved hf₁
    have h₂ := foldlM_resolved hn.2 h
    have hlog : ∀ c, f₁.log rt c = fold.log rt c := fun c => (log_frame rt h₁.markers h₁.actions c).1
    have hgives : ∀ c, f₁.gives rt c = fold.gives rt c := fun c => (log_frame rt h₁.markers h₁.actions c).2.1
    have hcomp : ∀ c ∈ ids, f₁.completes rt c = fold.completes rt c :=
      fun c hc => h₁.completes_ne fun e => hn.1 (e ▸ hc)
    refine ⟨h₂.markers.trans h₁.markers, h₂.actions.trans h₁.actions, h₂.resolutions.trans h₁.resolutions,
      ?_, ?_, ?_, ?_, ?_⟩
    · intro c hc
      rcases List.mem_cons.mp hc with rfl | hc
      · exact h₁.checked c (List.mem_singleton_self c)
      · have := h₂.checked c hc
        obtain ⟨-, -, hm, -⟩ := log_frame rt h₁.markers h₁.actions c
        rwa [hm, hm, h₁.actions, hlog] at this
    · rw [h₂.taints, h₁.taints, ← addAll_append, List.flatMap_singleton, List.flatMap_cons]
      congr 2
      exact List.flatMap_congr fun c _ => hlog c
    · intro c
      rw [h₂.completed, h₁.completed, List.mem_singleton, List.mem_cons]
      constructor
      · rintro ((hx | ⟨rfl, hx⟩) | ⟨hc, hx⟩)
        · exact Or.inl hx
        · exact Or.inr ⟨Or.inl rfl, hx⟩
        · exact Or.inr ⟨Or.inr hc, hcomp c hc ▸ hx⟩
      · rintro (hx | ⟨rfl | hc, hx⟩)
        · exact Or.inl (Or.inl hx)
        · exact Or.inl (Or.inr ⟨rfl, hx⟩)
        · exact Or.inr ⟨hc, (hcomp c hc).symm ▸ hx⟩
    · rw [h₂.candidates, h₁.candidates, List.append_assoc, List.filter_congr hcomp]
      congr 1
      rw [show b :: ids = [b] ++ ids from rfl, List.filter_append, List.flatMap_append]
      congr 1
      exact List.flatMap_congr fun c _ => hgives c
    · intro c hc hcc
      rcases List.mem_cons.mp hc with rfl | hc
      · exact h₁.given c (List.mem_singleton_self c) hcc
      · have := h₂.given c hc ((hcomp c hc).symm ▸ hcc)
        obtain ⟨-, -, -, hcount, hb⟩ := log_frame rt h₁.markers h₁.actions c
        rwa [hb, hcount, hgives] at this

theorem resolveBatches_resolved {fold fold' : SelectorFold} {ids : List String}
    (h : resolveBatches rt fold ids = .ok fold') : Resolved rt fold (sortedSet ids) fold' :=
  foldlM_resolved (nodup_sortedSet ids) h

end

end Cctally
