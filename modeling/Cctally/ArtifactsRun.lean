import Cctally.ArtifactsPhases

/-!
# A run of the selection

The roots of a run are those over the age bound, those over the count bound among the
rest, and then as many of what is left as the two byte bounds take.
-/

namespace Cctally.Artifacts

structure Phases where
  aged : List Root
  counted : List Root
  totaled : List Root
  freed : List Root
  left : List Root

namespace Phases
variable (ph : Phases)

def agedPicks : Picks := picked ph.aged "max_age_seconds"

def countedPicks : Picks := ph.agedPicks ++ picked ph.counted "max_count_per_family"

def totaledPicks : Picks := ph.countedPicks ++ picked ph.totaled "max_total_bytes"

def picks : Picks := ph.totaledPicks ++ picked ph.freed "min_free_bytes"

theorem map_fst_picks : ph.picks.map Prod.fst = ph.aged ++ ph.counted ++ ph.totaled ++ ph.freed := by
  simp only [picks, totaledPicks, countedPicks, agedPicks, List.map_append, map_fst_picked]

end Phases

def overRank (policy : RetentionPolicy) (g : Graph) (candidates : List Root) (root : Root) : Bool :=
  policy.maxCountPerFamily.any fun max => max < rank g candidates root

section
variable (state : RetentionState) (policy : RetentionPolicy) (floored : Finset String)

structure IsRun (ph : Phases) : Prop where
  run : runSelection state policy floored = selectionOf state.graph ph.picks
  aged : ph.aged = (selectable state floored).filter (overAge state policy)
  counted : ph.counted = ((selectable state floored).filter (!overAge state policy ·)).filter
    (overRank policy state.graph (selectable state floored))
  rest : ph.totaled ++ (ph.freed ++ ph.left) = ((selectable state floored).filter (!overAge state policy ·)).filter
    (!overRank policy state.graph (selectable state floored) ·)
  totalTurn : ∀ j < ph.totaled.length,
    overBytes state policy (selectionOf state.graph (ph.countedPicks ++ picked (ph.totaled.take j) "max_total_bytes")) = true
  totalEnd : ph.freed ++ ph.left = [] ∨ overBytes state policy (selectionOf state.graph ph.totaledPicks) = false
  freeTurn : ∀ j < ph.freed.length,
    underFree state policy (selectionOf state.graph (ph.totaledPicks ++ picked (ph.freed.take j) "min_free_bytes")) = true
  freeEnd : ph.left = [] ∨ underFree state policy (selectionOf state.graph ph.picks) = false

theorem filter_append_filter_not {α : Type*} (p : α → Bool) : ∀ (l : List α),
    l.Pairwise (fun a b => p b = true → p a = true) → l.filter p ++ l.filter (!p ·) = l
  | [], _ => rfl
  | a :: l, h => by
    rw [List.pairwise_cons] at h
    by_cases ha : p a = true
    · simp [ha, filter_append_filter_not p l h.2]
    · have hnone : l.filter p = [] := List.filter_eq_nil_iff.2 fun b hb hpb => ha (h.1 b hb hpb)
      have hall : l.filter (!p ·) = l := List.filter_eq_self.2 fun b hb => by
        simpa using fun hpb => ha (h.1 b hb hpb)
      simp [ha, hnone, hall]

variable {state}
variable (hg : Rooted state.graph)
include hg

theorem lined_selectable : Lined state.graph (selectable state floored) where
  sorted := by
    have hlt : state.graph.roots.Pairwise fun r r' => r.age < r'.age := by
      refine List.Pairwise.imp₂ (fun r r' hle hne => lt_of_le_of_ne hle fun he => hne ?_) hg.sorted
        (List.pairwise_map.1 hg.nodup)
      exact congrArg (fun a : Rat ×ₗ String => (ofLex a).2) he
    exact hlt.filter _
  roots r hr := List.mem_of_mem_filter hr

omit hg in
theorem overAge_older {r r' : Root} (h : r.age < r'.age) (ho : overAge state policy r' = true) :
    overAge state policy r = true := by
  have hle : r.createdAtEpoch ≤ r'.createdAtEpoch := (Prod.Lex.le_iff'.1 h.le).1
  unfold overAge at ho ⊢
  cases hmax : policy.maxAgeSeconds with
  | none => rw [hmax] at ho; cases ho
  | some max =>
    rw [hmax] at ho
    rw [Option.any_some, decide_eq_true_eq] at ho ⊢
    exact ho.trans_le (sub_le_sub_left hle _)

theorem aged_append : (selectable state floored).filter (overAge state policy) ++
    (selectable state floored).filter (!overAge state policy ·) = selectable state floored :=
  filter_append_filter_not _ _ ((lined_selectable floored hg).sorted.imp fun h => overAge_older policy h)

omit hg in
theorem sweep_age : sweep state.graph "max_age_seconds" (fun _ => overAge state policy) (selectable state floored)
    (.init state.graph) =
      (selectionOf state.graph (picked ((selectable state floored).filter (overAge state policy)) "max_age_seconds"),
        (selectable state floored).filter (!overAge state policy ·)) :=
  sweep_eq state.graph _ _ _ []

theorem pickable_picked {l : List Root} (hl : l.Nodup) (hroots : ∀ r ∈ l, r ∈ state.graph.roots) (bound : String) :
    Pickable state.graph (picked l bound) where
  nodup := by
    have : (picked l bound).map (·.1.id) = l.map Root.id := by simp [picked, Function.comp_def]
    rw [this]
    exact hl.map_on fun r hr r' hr' he => List.inj_on_of_nodup_map hg.nodup (hroots r hr) (hroots r' hr') he
  roots p hp := by
    obtain ⟨r, hr, rfl⟩ := List.mem_map.1 hp
    exact hroots r hr

theorem pickable_aged : Pickable state.graph
    (picked ((selectable state floored).filter (overAge state policy)) "max_age_seconds") :=
  pickable_picked hg ((lined_selectable floored hg).nodup.filter _)
    (fun r hr => (lined_selectable floored hg).roots r (List.mem_of_mem_filter hr)) _

theorem sweep_count_run {max : Int} (hmax : policy.maxCountPerFamily = some max) {l later : List Root}
    (hl : l ++ later = (selectable state floored).filter (!overAge state policy ·)) :
    let aged := (selectable state floored).filter (overAge state policy)
    let exceeds := overRank policy state.graph (selectable state floored)
    sweep state.graph "max_count_per_family" (overCount policy) l (selectionOf state.graph (picked aged "max_age_seconds")) =
        (selectionOf state.graph (picked aged "max_age_seconds" ++ picked (l.filter exceeds) "max_count_per_family"),
          l.filter (!exceeds ·)) ∧
      Settled state.graph max (aged ++ l)
        (picked aged "max_age_seconds" ++ picked (l.filter exceeds) "max_count_per_family") := by
  have hrank : overRank policy state.graph (selectable state floored) =
      fun r => decide (max < rank state.graph (selectable state floored) r) := by
    funext r
    rw [overRank, hmax, Option.any_some]
  dsimp only
  rw [hrank]
  refine sweep_count hg hmax (lined_selectable floored hg) _ l _ _ (by rw [hl]; exact aged_append policy floored hg)
    (pickable_aged policy floored hg) (fun r hr => ?_) fun f => .inl fun r hr _ => ?_
  · rwa [map_fst_picked] at hr
  · rwa [map_fst_picked]

theorem exists_run : ∃ ph, IsRun state policy floored ph := by
  have hcount : sweep state.graph "max_count_per_family" (overCount policy)
      ((selectable state floored).filter (!overAge state policy ·))
      (selectionOf state.graph (picked ((selectable state floored).filter (overAge state policy)) "max_age_seconds")) =
      (selectionOf state.graph (picked ((selectable state floored).filter (overAge state policy)) "max_age_seconds" ++
          picked (((selectable state floored).filter (!overAge state policy ·)).filter
            (overRank policy state.graph (selectable state floored))) "max_count_per_family"),
        ((selectable state floored).filter (!overAge state policy ·)).filter
          (!overRank policy state.graph (selectable state floored) ·)) := by
    cases hmax : policy.maxCountPerFamily with
    | some max => exact (sweep_count_run policy floored hg hmax (List.append_nil _)).1
    | none =>
      have hover : overCount policy = fun _ _ => false := by
        funext s r
        rw [overCount, hmax]
        rfl
      have hrank : overRank policy state.graph (selectable state floored) = fun _ => false := by
        funext r
        rw [overRank, hmax]
        rfl
      rw [hover, hrank]
      exact sweep_eq state.graph _ (fun _ => false) _ _
  obtain ⟨k, hk, hrunk, hturnk, hendk⟩ := drain_eq state.graph "max_total_bytes" (overBytes state policy)
    (((selectable state floored).filter (!overAge state policy ·)).filter
      (!overRank policy state.graph (selectable state floored) ·))
    (picked ((selectable state floored).filter (overAge state policy)) "max_age_seconds" ++
      picked (((selectable state floored).filter (!overAge state policy ·)).filter
        (overRank policy state.graph (selectable state floored))) "max_count_per_family")
  generalize hrest : ((selectable state floored).filter (!overAge state policy ·)).filter
      (!overRank policy state.graph (selectable state floored) ·) = rest at *
  generalize hpicks : picked ((selectable state floored).filter (overAge state policy)) "max_age_seconds" ++
      picked (((selectable state floored).filter (!overAge state policy ·)).filter
        (overRank policy state.graph (selectable state floored))) "max_count_per_family" = picks at *
  obtain ⟨j, hj, hrunj, hturnj, hendj⟩ := drain_eq state.graph "min_free_bytes" (underFree state policy) (rest.drop k)
    (picks ++ picked (rest.take k) "max_total_bytes")
  refine ⟨⟨_, _, rest.take k, (rest.drop k).take j, (rest.drop k).drop j⟩, ?_, rfl, rfl, ?_, ?_, ?_, ?_, ?_⟩
  · unfold runSelection
    rw [sweep_age policy floored]
    dsimp only
    rw [hcount]
    dsimp only
    rw [hrunk]
    dsimp only
    rw [hrunj]
    simp only [Phases.picks, Phases.totaledPicks, Phases.countedPicks, Phases.agedPicks, ← hpicks]
  · rw [List.take_append_drop, List.take_append_drop, hrest]
  · intro i hi
    rw [List.length_take] at hi
    have htake : (rest.take k).take i = rest.take i := by rw [List.take_take, min_eq_left (by omega)]
    have := hturnk i (by omega)
    rw [← htake, ← hpicks] at this
    exact this
  · dsimp only
    rw [List.take_append_drop]
    refine hendk.imp (fun h => by rw [h, List.drop_length]) fun h => ?_
    rw [← hpicks] at h
    exact h
  · intro i hi
    rw [List.length_take] at hi
    have htake : ((rest.drop k).take j).take i = (rest.drop k).take i := by rw [List.take_take, min_eq_left (by omega)]
    have := hturnj i (by omega)
    rw [← htake, ← hpicks] at this
    exact this
  · dsimp only
    refine hendj.imp (fun h => by rw [h, List.drop_length]) fun h => ?_
    rw [← hpicks] at h
    exact h

end

end Cctally.Artifacts
