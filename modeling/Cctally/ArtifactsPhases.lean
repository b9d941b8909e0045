import Cctally.ArtifactsTracks

/-!
# The phases of a selection

Each phase adds a part of the roots that are left, in their order: the age bound the
old ones, the count bound those whose family has too many that are not older, and the
two byte bounds as many as it takes.
-/

namespace Cctally.Artifacts

def picked (roots : List Root) (bound : String) : Picks := roots.map (·, bound)

theorem map_fst_picked (roots : List Root) (bound : String) : (picked roots bound).map Prod.fst = roots := by
  simp [picked, Function.comp_def]

section
variable (g : Graph)

abbrev selectionOf (picks : Picks) : Selection := Selection.addAll g (.init g) picks

theorem selectionOf_append (picks : Picks) (r : Root) (bound : String) :
    (selectionOf g picks).add g r.id bound = selectionOf g (picks ++ [(r, bound)]) := by
  simp only [selectionOf, Selection.addAll, List.foldl_append, List.foldl_cons, List.foldl_nil]

theorem sweep_eq (bound : String) (p : Root → Bool) : ∀ (l : List Root) (picks : Picks),
    sweep g bound (fun _ => p) l (selectionOf g picks) =
      (selectionOf g (picks ++ picked (l.filter p) bound), l.filter (!p ·))
  | [], picks => by simp [sweep, picked]
  | r :: l, picks => by
    unfold sweep
    by_cases hr : p r
    · rw [if_pos hr, selectionOf_append, sweep_eq bound p l, List.append_assoc]
      simp [picked, hr]
    · rw [if_neg hr, sweep_eq bound p l]
      simp [hr]

/-- **A byte phase** takes the first so many, each while its bound is not met; then it is met or none is left. -/
theorem drain_eq (bound : String) (exceeds : Selection → Bool) : ∀ (l : List Root) (picks : Picks),
    ∃ k ≤ l.length, drain g bound exceeds l (selectionOf g picks) =
        (selectionOf g (picks ++ picked (l.take k) bound), l.drop k) ∧
      (∀ j < k, exceeds (selectionOf g (picks ++ picked (l.take j) bound)) = true) ∧
      (k = l.length ∨ exceeds (selectionOf g (picks ++ picked (l.take k) bound)) = false)
  | [], picks => ⟨0, le_rfl, by simp [drain, picked], nofun, .inl rfl⟩
  | r :: l, picks => by
    unfold drain
    by_cases ho : exceeds (selectionOf g picks)
    · obtain ⟨k, hk, hrun, hover, hend⟩ := drain_eq bound exceeds l (picks ++ [(r, bound)])
      have hcons (j : Nat) : picks ++ picked ((r :: l).take (j + 1)) bound = picks ++ [(r, bound)] ++ picked (l.take j) bound := by
        simp [picked]
      refine ⟨k + 1, Nat.succ_le_succ hk, ?_, fun j hj => ?_, ?_⟩
      · rw [if_pos ho, selectionOf_append, hrun, hcons, List.drop_succ_cons]
      · cases j with
        | zero => simpa [picked] using ho
        | succ j =>
          rw [hcons]
          exact hover j (Nat.lt_of_succ_lt_succ hj)
      · rw [hcons]
        exact hend.imp_left fun h => congrArg Nat.succ h
    · refine ⟨0, Nat.zero_le _, by simp [ho, picked], nofun, .inr ?_⟩
      simpa [picked] using ho

end

/-! ## The count phase -/

theorem get?_survivingRootCounts {g : Graph} {s : Selection} (hs : Tracks g s) (f : String) :
    s.survivingRootCounts.get? f = if survivors g s.closed f = 0 then none else some (survivors g s.closed f) := by
  ext n
  rw [Selection.survivingRootCounts, Dict.get?_filter_eq_some, hs.counts]
  by_cases hf : inFamily g f = []
  · simp [hf, survivors]
  · by_cases hz : survivors g s.closed f = 0
    · simp only [if_neg hf, if_pos hz, Option.some.injEq, decide_eq_true_eq, reduceCtorEq, iff_false]
      rintro ⟨rfl, hn⟩
      exact hn hz
    · simp only [if_neg hf, if_neg hz, Option.some.injEq, decide_eq_true_eq, and_iff_left_iff_imp]
      rintro rfl
      exact hz

theorem getD_survivingRootCounts {g : Graph} {s : Selection} (hs : Tracks g s) (f : String) :
    (s.survivingRootCounts.get? f).getD 0 = survivors g s.closed f := by
  rw [get?_survivingRootCounts hs]
  by_cases hz : survivors g s.closed f = 0
  · rw [if_pos hz, hz]; rfl
  · rw [if_neg hz]; rfl

def rank (g : Graph) (candidates : List Root) (root : Root) : Int :=
  (inFamily g root.family).length - (candidates.filter fun r => r.family = root.family ∧ r.age < root.age).length

section
variable {g : Graph} (hg : Rooted g)
include hg

theorem Pickable.snoc {picks : Picks} (h : Pickable g picks) {r : Root} (hr : r ∈ g.roots)
    (hnew : r ∉ picks.map Prod.fst) (bound : String) : Pickable g (picks ++ [(r, bound)]) where
  nodup := by
    rw [List.map_append, List.nodup_append]
    refine ⟨h.nodup, List.nodup_singleton _, fun a ha b hb hab => hnew ?_⟩
    obtain ⟨q, hq, rfl⟩ := List.mem_map.1 ha
    rw [List.map_singleton, List.mem_singleton] at hb
    rw [← List.inj_on_of_nodup_map hg.nodup (h.roots q hq) hr (hab.trans hb)]
    exact List.mem_map_of_mem hq
  roots p hp := by
    obtain hp | hp := List.mem_append.1 hp
    · exact h.roots p hp
    · rwa [List.mem_singleton.1 hp]

omit hg in
theorem Pickable.left {picks picks' : Picks} (h : Pickable g (picks ++ picks')) : Pickable g picks where
  nodup := by
    have := h.nodup
    rw [List.map_append] at this
    exact (List.nodup_append.1 this).1
  roots p hp := h.roots p (List.mem_append_left _ hp)

omit hg in
theorem Pickable.nodup_fst {picks : Picks} (h : Pickable g picks) : (picks.map Prod.fst).Nodup :=
  List.Nodup.of_map Root.id (by rw [List.map_map]; exact h.nodup)

theorem Pickable.new {picks : Picks} (h : Pickable g picks) {r : Root} (hr : r ∈ g.roots)
    (hnew : r ∉ picks.map Prod.fst) : r.id ∉ (selectionOf g picks).rootIds := by
  rw [(tracks_addAll hg h).2]
  intro hm
  obtain ⟨q, hq, he⟩ := List.mem_map.1 hm
  rw [← List.inj_on_of_nodup_map hg.nodup (h.roots q hq) hr he] at hnew
  exact hnew (List.mem_map_of_mem hq)

theorem survivors_snoc {picks : Picks} (h : Pickable g picks) {r : Root} (hr : r ∈ g.roots)
    (hnew : r ∉ picks.map Prod.fst) (bound f : String) :
    survivors g (selectionOf g (picks ++ [(r, bound)])).closed f =
      survivors g (selectionOf g picks).closed f - if r.family = f then 1 else 0 := by
  have hs := (tracks_addAll hg h).1
  have hs' := tracks_addAll hg (h.snoc hg hr hnew bound)
  rw [← survivors_insert hg hs hr (h.new hg hr hnew), hs'.1.closed, hs'.2, (tracks_addAll hg h).2]
  congr 2
  ext x
  simp

theorem survivors_picks {picks : Picks} (h : Pickable g picks) (f : String) :
    survivors g (selectionOf g picks).closed f =
      (inFamily g f).length - ((picks.map Prod.fst).filter (·.family = f)).length := by
  induction picks using List.reverseRecOn with
  | nil =>
    have : (selectionOf g []).closed = ∅ := rfl
    simp [this, survivors]
  | append_singleton picks p ih =>
    have hnew : p.1 ∉ picks.map Prod.fst := by
      intro hm
      have hn := h.nodup_fst
      rw [List.map_append, List.nodup_append] at hn
      exact hn.2.2 _ hm _ List.mem_cons_self rfl
    rw [survivors_snoc hg h.left (h.roots p (by simp)) hnew, ih h.left]
    by_cases hf : p.1.family = f
    · simp [hf]
      omega
    · simp [hf]

def Settled (g : Graph) (max : Int) (seen : List Root) (picks : Picks) : Prop :=
  ∀ f, (∀ r ∈ seen, r.family = f → r ∈ picks.map Prod.fst) ∨ survivors g (selectionOf g picks).closed f ≤ max

structure Lined (g : Graph) (candidates : List Root) : Prop where
  sorted : candidates.Pairwise fun r r' => r.age < r'.age
  roots : ∀ r ∈ candidates, r ∈ g.roots

omit hg in
theorem Lined.nodup {candidates : List Root} (h : Lined g candidates) : candidates.Nodup :=
  h.sorted.imp fun hlt he => absurd (he ▸ hlt) (lt_irrefl _)

section
variable {candidates seen : List Root} {r : Root} {l : List Root} (hc : Lined g candidates)
  (hsplit : seen ++ r :: l = candidates)
include hc hsplit

omit hg in
theorem older_eq_seen : (candidates.filter fun r' => r'.family = r.family ∧ r'.age < r.age) =
    seen.filter (·.family = r.family) := by
  have hs := hc.sorted
  rw [← hsplit, List.pairwise_append, List.pairwise_cons] at hs
  have hseen : seen.filter (fun r' => r'.family = r.family ∧ r'.age < r.age) = seen.filter (·.family = r.family) := by
    refine List.filter_congr fun r' hr' => ?_
    simp [hs.2.2 r' hr' r List.mem_cons_self]
  have hrest : (r :: l).filter (fun r' => r'.family = r.family ∧ r'.age < r.age) = [] := by
    rw [List.filter_eq_nil_iff]
    intro r' hr'
    obtain rfl | hr' := List.mem_cons.1 hr'
    · simp
    · simp [(hs.2.1.1 r' hr').le]
  rw [← hsplit, List.filter_append, hseen, hrest, List.append_nil]

variable {picks : Picks} (hp : Pickable g picks) (hsub : ∀ r' ∈ picks.map Prod.fst, r' ∈ seen)
include hp hsub

theorem rank_le_survivors : rank g candidates r ≤ survivors g (selectionOf g picks).closed r.family := by
  rw [rank, older_eq_seen hc hsplit, survivors_picks hg hp]
  have hle : ((picks.map Prod.fst).filter (·.family = r.family)).length ≤ (seen.filter (·.family = r.family)).length :=
    ((hp.nodup_fst.filter _).subperm fun r' hr' => by
      rw [List.mem_filter] at hr' ⊢
      exact ⟨hsub r' hr'.1, hr'.2⟩).length_le
  omega

omit hsub in
theorem survivors_le_rank (hall : ∀ r' ∈ seen, r'.family = r.family → r' ∈ picks.map Prod.fst) :
    survivors g (selectionOf g picks).closed r.family ≤ rank g candidates r := by
  rw [rank, older_eq_seen hc hsplit, survivors_picks hg hp]
  have hn : seen.Nodup := by
    have := hc.nodup
    rw [← hsplit] at this
    exact (List.nodup_append.1 this).1
  have hle : (seen.filter (·.family = r.family)).length ≤ ((picks.map Prod.fst).filter (·.family = r.family)).length :=
    ((hn.filter _).subperm fun r' hr' => by
      rw [List.mem_filter] at hr' ⊢
      exact ⟨hall r' hr'.1 (of_decide_eq_true hr'.2), hr'.2⟩).length_le
  omega

theorem lt_survivors_iff {max : Int} (hset : Settled g max seen picks) :
    max < survivors g (selectionOf g picks).closed r.family ↔ max < rank g candidates r := by
  constructor
  · intro hlt
    obtain hall | hle := hset r.family
    · exact hlt.trans_le (survivors_le_rank hg hc hsplit hp hall)
    · exact absurd hlt (not_lt.2 hle)
  · exact fun hlt => hlt.trans_le (rank_le_survivors hg hc hsplit hp hsub)

end

theorem Settled.take {max : Int} {seen : List Root} {picks : Picks} (hset : Settled g max seen picks) (hp : Pickable g picks)
    {r : Root} (hr : r ∈ g.roots) (hnew : r ∉ picks.map Prod.fst) (bound : String) :
    Settled g max (seen ++ [r]) (picks ++ [(r, bound)]) := by
  intro f
  rw [survivors_snoc hg hp hr hnew]
  obtain hall | hle := hset f
  · refine .inl fun r' hr' hf => ?_
    rw [List.map_append, List.mem_append]
    obtain hr' | hr' := List.mem_append.1 hr'
    · exact .inl (hall r' hr' hf)
    · exact .inr hr'
  · refine .inr (le_trans ?_ hle)
    split <;> omega

omit hg in
theorem Settled.leave {max : Int} {seen : List Root} {picks : Picks} (hset : Settled g max seen picks) {r : Root}
    (hover : ¬ max < survivors g (selectionOf g picks).closed r.family) : Settled g max (seen ++ [r]) picks := by
  intro f
  by_cases hf : r.family = f
  · exact .inr (hf ▸ not_lt.1 hover)
  · refine (hset f).imp_left fun hall r' hr' hf' => ?_
    obtain hr' | hr' := List.mem_append.1 hr'
    · exact hall r' hr' hf'
    · rw [List.mem_singleton.1 hr'] at hf'
      exact absurd hf' hf

/-- **The count phase** picks the roots whose rank is over the bound; so does every part of it. -/
theorem sweep_count {policy : RetentionPolicy} {max : Int} (hmax : policy.maxCountPerFamily = some max)
    {candidates later : List Root} (hc : Lined g candidates) (bound : String) : ∀ (l seen : List Root) (picks : Picks),
    seen ++ (l ++ later) = candidates → Pickable g picks → (∀ r ∈ picks.map Prod.fst, r ∈ seen) → Settled g max seen picks →
    sweep g bound (overCount policy) l (selectionOf g picks) =
        (selectionOf g (picks ++ picked (l.filter fun r => max < rank g candidates r) bound),
          l.filter fun r => !decide (max < rank g candidates r)) ∧
      Settled g max (seen ++ l) (picks ++ picked (l.filter fun r => max < rank g candidates r) bound)
  | [], seen, picks, hsplit, hp, hsub, hset => by
    rw [List.append_nil]
    exact ⟨by simp [sweep, picked], by simpa [picked] using hset⟩
  | r :: l, seen, picks, hsplit, hp, hsub, hset => by
    have hsplit' : (seen ++ [r]) ++ (l ++ later) = candidates := by rw [← hsplit, List.append_assoc]; rfl
    have hr : r ∈ g.roots := hc.roots r (hsplit ▸ by simp)
    have hnew : r ∉ picks.map Prod.fst := by
      intro hm
      have hn := hc.nodup
      rw [← hsplit, List.nodup_append] at hn
      exact hn.2.2 r (hsub r hm) r List.mem_cons_self rfl
    have hiff := lt_survivors_iff hg hc hsplit hp hsub hset
    have hover : overCount policy (selectionOf g picks) r = decide (max < rank g candidates r) := by
      rw [overCount, hmax, Option.any_some, getD_survivingRootCounts (tracks_addAll hg hp).1]
      exact decide_eq_decide.2 hiff
    have hseen : seen ++ r :: l = (seen ++ [r]) ++ l := by rw [List.append_assoc]; rfl
    unfold sweep
    rw [hover, hseen]
    by_cases ht : max < rank g candidates r
    · have hsub' : ∀ r' ∈ (picks ++ [(r, bound)]).map Prod.fst, r' ∈ seen ++ [r] := by
        intro r' hr'
        rw [List.map_append] at hr'
        exact List.mem_append.2 ((List.mem_append.1 hr').imp_left (hsub r'))
      obtain ⟨hrun, hend⟩ := sweep_count hmax hc bound l (seen ++ [r]) (picks ++ [(r, bound)]) hsplit'
        (hp.snoc hg hr hnew bound) hsub' (hset.take hg hp hr hnew bound)
      have hcons : picks ++ picked ((r :: l).filter fun r => max < rank g candidates r) bound =
          picks ++ [(r, bound)] ++ picked (l.filter fun r => max < rank g candidates r) bound := by
        simp [picked, ht]
      rw [if_pos (decide_eq_true ht), selectionOf_append, hrun, hcons]
      exact ⟨by simp [ht], hend⟩
    · obtain ⟨hrun, hend⟩ := sweep_count hmax hc bound l (seen ++ [r]) picks hsplit' hp
        (fun r' hr' => List.mem_append_left _ (hsub r' hr')) (hset.leave (mt hiff.1 ht))
      have hcons : (r :: l).filter (fun r => max < rank g candidates r) = l.filter fun r => max < rank g candidates r := by
        simp [ht]
      rw [if_neg (by simpa using ht), hrun, hcons]
      exact ⟨by simp [ht], hend⟩

end

end Cctally.Artifacts
