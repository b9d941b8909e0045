import Cctally.ArtifactsRun
import Mathlib.Algebra.Order.BigOperators.Group.Finset
import Mathlib.Algebra.Order.Ring.Int

/-!
# What the planner deletes

A root is selected when it counts against a bound that what was selected before it
does not meet, and every older root that does is selected before it. A bound that is
not met at the end has every candidate that counts against it selected.
-/

namespace Cctally.Artifacts

section
variable (state : RetentionState) (policy : RetentionPolicy)

def OverAll (deleted : Finset String) : String → Prop
  | "max_total_bytes" =>
    ∃ max, policy.maxTotalBytes = some max ∧ max < state.graph.bytes - ∑ id ∈ deleted, bytesOf state.graph id
  | "min_free_bytes" =>
    ∃ free min, state.freeDiskBytes = some free ∧ policy.minFreeBytes = some min ∧
      free + ∑ id ∈ deleted, bytesOf state.graph id < min
  | _ => False

def OverFor (deleted : Finset String) (root : Root) : String → Prop
  | "max_age_seconds" => overAge state policy root = true
  | "max_count_per_family" =>
    ∃ max, policy.maxCountPerFamily = some max ∧ max < survivors state.graph deleted root.family
  | bound => OverAll state policy deleted bound

def Unmet (deleted : Finset String) (bound : String) : Prop :=
  OverAll state policy deleted bound ∨ ∃ root ∈ state.graph.roots, root.id ∉ deleted ∧ OverFor state policy deleted root bound

variable {state policy}

theorem overBytes_iff {s : Selection} (hs : Tracks state.graph s) :
    overBytes state policy s = true ↔ OverAll state policy s.closed "max_total_bytes" := by
  rw [overBytes, OverAll, ← hs.bytes, Option.any_eq_true]
  exact exists_congr fun max => and_congr_right fun _ => decide_eq_true_iff

theorem underFree_iff {s : Selection} (hs : Tracks state.graph s) :
    underFree state policy s = true ↔ OverAll state policy s.closed "min_free_bytes" := by
  rw [underFree, OverAll, ← hs.bytes]
  cases state.freeDiskBytes with
  | none => simp
  | some free =>
    cases policy.minFreeBytes with
    | none => simp
    | some min => simp

theorem any_count_iff {s : Selection} (hs : Tracks state.graph s) {max : Int} :
    (s.survivingRootCounts.values.any fun count => max < count) = true ↔
      ∃ r ∈ state.graph.roots, r.id ∉ s.closed ∧ max < survivors state.graph s.closed r.family := by
  rw [List.any_eq_true]
  constructor
  · rintro ⟨count, hcount, hlt⟩
    obtain ⟨f, hf⟩ := Dict.mem_values.1 hcount
    rw [get?_survivingRootCounts hs] at hf
    by_cases hz : survivors state.graph s.closed f = 0
    · rw [if_pos hz] at hf; cases hf
    · rw [if_neg hz] at hf
      cases hf
      rw [survivors, Int.natCast_eq_zero, List.length_eq_zero_iff] at hz
      obtain ⟨r, hr⟩ := List.exists_mem_of_ne_nil _ hz
      obtain ⟨hrf, hkept⟩ := List.mem_filter.1 hr
      obtain ⟨hroot, hfam⟩ := List.mem_filter.1 hrf
      obtain rfl := of_decide_eq_true hfam
      exact ⟨r, hroot, of_decide_eq_true hkept, of_decide_eq_true hlt⟩
  · rintro ⟨r, hr, hkept, hlt⟩
    refine ⟨_, Dict.mem_values.2 ⟨r.family, ?_⟩, decide_eq_true hlt⟩
    rw [get?_survivingRootCounts hs, if_neg]
    rw [survivors, Int.natCast_eq_zero, List.length_eq_zero_iff]
    exact List.ne_nil_of_mem (List.mem_filter.2 ⟨(mem_inFamily hr).2 rfl, decide_eq_true hkept⟩)

theorem mem_ite_singleton {α : Type*} {c : Prop} [Decidable c] {a b : α} : a ∈ (if c then [b] else []) ↔ c ∧ a = b := by
  split <;> simp [*]

theorem mem_unsatisfiedRules {s : Selection} (hs : Tracks state.graph s) {bound : String} :
    bound ∈ unsatisfiedRules state policy s ↔ Unmet state policy s.closed bound := by
  simp only [unsatisfiedRules, List.mem_append, mem_ite_singleton, overBytes_iff hs, underFree_iff hs]
  constructor
  · rintro (((⟨hage, rfl⟩ | ⟨hcount, rfl⟩) | ⟨htotal, rfl⟩) | ⟨hfree, rfl⟩)
    · obtain ⟨r, hr, hr'⟩ := List.any_eq_true.1 hage
      obtain ⟨hkept, hold⟩ := of_decide_eq_true hr'
      exact .inr ⟨r, hr, hkept, hold⟩
    · obtain ⟨max, hmax, hany⟩ := (Option.any_eq_true _ _).1 hcount
      obtain ⟨r, hr, hkept, hlt⟩ := (any_count_iff hs).1 hany
      exact .inr ⟨r, hr, hkept, max, hmax, hlt⟩
    · exact .inl htotal
    · exact .inl hfree
  · rintro (h | ⟨r, hr, hkept, h⟩)
    · unfold OverAll at h
      split at h
      · exact .inl (.inr ⟨h, rfl⟩)
      · exact .inr ⟨h, rfl⟩
      · exact h.elim
    · unfold OverFor at h
      split at h
      · exact .inl (.inl (.inl ⟨List.any_eq_true.2 ⟨r, hr, decide_eq_true ⟨hkept, h⟩⟩, rfl⟩))
      · obtain ⟨max, hmax, hlt⟩ := h
        exact .inl (.inl (.inr ⟨(Option.any_eq_true _ _).2 ⟨max, hmax, (any_count_iff hs).2 ⟨r, hr, hkept, hlt⟩⟩, rfl⟩))
      · unfold OverAll at h
        split at h
        · exact .inl (.inr ⟨h, rfl⟩)
        · exact .inr ⟨h, rfl⟩
        · exact h.elim

section
variable {deleted deleted' : Finset String} (hsub : deleted ⊆ deleted')
include hsub

theorem survivors_anti (g : Graph) (f : String) : survivors g deleted' f ≤ survivors g deleted f := by
  rw [survivors, survivors, Int.ofNat_le]
  refine (List.monotone_filter_right _ fun r hr => ?_).length_le
  rw [decide_eq_true_eq] at hr ⊢
  exact fun h => hr (hsub h)

theorem sum_bytesOf_mono (g : Graph) : ∑ id ∈ deleted, bytesOf g id ≤ ∑ id ∈ deleted', bytesOf g id := by
  refine Finset.sum_le_sum_of_subset_of_nonneg hsub fun id _ _ => ?_
  unfold bytesOf
  cases g.members.get? id with
  | none => exact le_rfl
  | some m => exact Int.natCast_nonneg _

theorem OverAll.anti {bound : String} (h : OverAll state policy deleted' bound) : OverAll state policy deleted bound := by
  have hle := sum_bytesOf_mono hsub state.graph
  unfold OverAll at h ⊢
  split at h
  · obtain ⟨max, hmax, hlt⟩ := h
    exact ⟨max, hmax, hlt.trans_le (Int.sub_le_sub_left hle _)⟩
  · obtain ⟨free, min, hfree, hmin, hlt⟩ := h
    exact ⟨free, min, hfree, hmin, (Int.add_le_add_left hle _).trans_lt hlt⟩
  · exact h.elim

end

/-! ## The turn of a root -/

theorem picked_split {picks pre post : Picks} {l : List Root} {bound : String} {p : Root × String}
    (h : picks ++ picked l bound = pre ++ p :: post) :
    (∃ post', picks = pre ++ p :: post') ∨
      ∃ l₁ r l₂, l = l₁ ++ r :: l₂ ∧ pre = picks ++ picked l₁ bound ∧ p = (r, bound) := by
  obtain ⟨mid, hpre, hl⟩ | ⟨mid, hpicks, hmid⟩ := List.append_eq_append_iff.1 h
  · obtain ⟨l₁, l', rfl, rfl, hl'⟩ := List.map_eq_append_iff.1 hl
    obtain ⟨r, l₂, rfl, rfl, -⟩ := List.map_eq_cons_iff.1 hl'
    exact .inr ⟨l₁, r, l₂, rfl, hpre, rfl⟩
  · cases mid with
    | nil =>
      obtain ⟨r, l₂, rfl, rfl, -⟩ := List.map_eq_cons_iff.1 hmid.symm
      exact .inr ⟨[], r, l₂, rfl, by simpa [picked] using hpicks.symm, rfl⟩
    | cons q mid =>
      obtain ⟨rfl, -⟩ := List.cons.inj hmid
      exact .inl ⟨mid, hpicks⟩

theorem mem_of_older {β : Type*} [Preorder β] {key : Root → β} {l pre post : List Root}
    (hs : l.Pairwise fun r r' => key r < key r') {r r' : Root} (hl : l = pre ++ r :: post) (hr' : r' ∈ l)
    (hlt : key r' < key r) : r' ∈ pre := by
  subst hl
  rw [List.pairwise_append, List.pairwise_cons] at hs
  obtain hm | hm := List.mem_append.1 hr'
  · exact hm
  · obtain rfl | hm := List.mem_cons.1 hm
    · exact absurd hlt (lt_irrefl _)
    · exact absurd hlt (lt_asymm (hs.2.1.1 r' hm))

section
variable {floored : Finset String} {ph : Phases} (hg : Rooted state.graph) (h : IsRun state policy floored ph)
include hg h

theorem IsRun.perm : (ph.picks.map Prod.fst ++ ph.left).Perm (selectable state floored) := by
  have hrest := List.filter_append_perm (overRank policy state.graph (selectable state floored))
    ((selectable state floored).filter (!overAge state policy ·))
  rw [← h.counted, ← h.rest] at hrest
  have hall := aged_append policy floored hg
  rw [← h.aged] at hall
  rw [← hall, Phases.map_fst_picks]
  simpa only [List.append_assoc] using hrest.append_left ph.aged

theorem IsRun.pickable : Pickable state.graph ph.picks := by
  have hlined := lined_selectable floored hg
  have hn := h.perm hg |>.nodup_iff.2 hlined.nodup
  have hroots : ∀ p ∈ ph.picks, p.1 ∈ state.graph.roots := fun p hp =>
    hlined.roots p.1 ((h.perm hg).mem_iff.1 (List.mem_append_left _ (List.mem_map_of_mem hp)))
  refine ⟨?_, hroots⟩
  have hids : ph.picks.map (·.1.id) = (ph.picks.map Prod.fst).map Root.id := by rw [List.map_map]; rfl
  rw [hids]
  refine (List.nodup_append.1 hn).1.map_on fun r hr r' hr' he => ?_
  obtain ⟨p, hp, rfl⟩ := List.mem_map.1 hr
  obtain ⟨q, hq, rfl⟩ := List.mem_map.1 hr'
  exact List.inj_on_of_nodup_map hg.nodup (hroots p hp) (hroots q hq) he

theorem IsRun.age_turn {l₁ l₂ : List Root} {r : Root} (hl : ph.aged = l₁ ++ r :: l₂) :
    overAge state policy r = true ∧
      ∀ r' ∈ selectable state floored, r'.age < r.age → overAge state policy r' = true → r' ∈ l₁ := by
  have hmem : r ∈ ph.aged := hl ▸ by simp
  have haged := h.aged
  rw [haged] at hmem
  refine ⟨(List.mem_filter.1 hmem).2, fun r' hr' hlt ho => ?_⟩
  exact mem_of_older ((lined_selectable floored hg).sorted.filter _) (haged.symm.trans hl) (List.mem_filter.2 ⟨hr', ho⟩) hlt

theorem IsRun.count_turn {l₁ l₂ : List Root} {r : Root} (hl : ph.counted = l₁ ++ r :: l₂)
    (hp : Pickable state.graph (ph.agedPicks ++ picked l₁ "max_count_per_family")) :
    let pre := ph.agedPicks ++ picked l₁ "max_count_per_family"
    OverFor state policy (selectionOf state.graph pre).closed r "max_count_per_family" ∧
      ∀ r' ∈ selectable state floored, r'.age < r.age →
        OverFor state policy (selectionOf state.graph pre).closed r' "max_count_per_family" → r' ∈ pre.map Prod.fst := by
  have hlined := lined_selectable floored hg
  have hover := (List.mem_filter.1 (h.counted ▸ (hl ▸ by simp : r ∈ ph.counted))).2
  obtain ⟨max, hmax, hrank⟩ := (Option.any_eq_true _ _).1 hover
  rw [decide_eq_true_eq] at hrank
  -- the roots between the picked ones were left because their families are not over the bound
  obtain ⟨m₁, m₂', hm, hm₁, hm₂'⟩ := List.filter_eq_append_iff.1 (h.counted.symm.trans hl)
  obtain ⟨m₃, m₂, rfl, hnone, -, -⟩ := List.filter_eq_cons_iff.1 hm₂'
  have hfilter : (m₁ ++ m₃).filter (overRank policy state.graph (selectable state floored)) = l₁ := by
    rw [List.filter_append, hm₁, List.filter_eq_nil_iff.2 hnone, List.append_nil]
  have hm' : (m₁ ++ m₃) ++ r :: m₂ = (selectable state floored).filter (!overAge state policy ·) := by
    rw [hm, List.append_assoc]
  obtain ⟨-, hset⟩ := sweep_count_run policy floored hg hmax hm'
  rw [hfilter, ← h.aged] at hset
  have hcand : (ph.aged ++ (m₁ ++ m₃)) ++ r :: m₂ = selectable state floored := by
    rw [← aged_append policy floored hg, ← h.aged, hm]
    simp only [List.append_assoc]
  have hsub : ∀ r' ∈ (ph.agedPicks ++ picked l₁ "max_count_per_family").map Prod.fst, r' ∈ ph.aged ++ (m₁ ++ m₃) := by
    intro r' hr'
    rw [List.map_append, Phases.agedPicks, map_fst_picked, map_fst_picked, ← hfilter] at hr'
    exact List.mem_append.2 ((List.mem_append.1 hr').imp_right List.mem_of_mem_filter)
  refine ⟨⟨max, hmax, (lt_survivors_iff hg hlined hcand hp hsub hset).2 hrank⟩, fun r' hr' hlt ho => ?_⟩
  obtain ⟨max', hmax', hlt'⟩ := ho
  obtain rfl := Option.some.inj (hmax.symm.trans hmax')
  obtain hall | hle := hset r'.family
  · exact hall r' (mem_of_older hlined.sorted hcand.symm hr' hlt) rfl
  · exact absurd hlt' (not_lt.2 hle)

theorem IsRun.rest_turn {l₁ l₂ : List Root} {r : Root} (hl : ph.totaled ++ (ph.freed ++ ph.left) = l₁ ++ r :: l₂)
    {r' : Root} (hr' : r' ∈ selectable state floored) (hlt : r'.age < r.age) :
    r' ∈ ph.countedPicks.map Prod.fst ∨ r' ∈ l₁ := by
  have hlined := lined_selectable floored hg
  have hmem := (h.perm hg).mem_iff.2 hr'
  rw [Phases.map_fst_picks] at hmem
  simp only [Phases.countedPicks, Phases.agedPicks, List.map_append, map_fst_picked]
  have hrest : r' ∈ ph.aged ++ ph.counted ∨ r' ∈ ph.totaled ++ (ph.freed ++ ph.left) := by
    simp only [List.mem_append] at hmem ⊢
    tauto
  refine hrest.imp_right fun hm => ?_
  refine mem_of_older ?_ hl hm hlt
  rw [h.rest]
  exact (hlined.sorted.filter _).filter _

/-- **The turn of a root**: the bound it is selected under is not met, and every older candidate that counts against
it is selected already. -/
theorem IsRun.turn {pre post : Picks} {p : Root × String} (hsplit : ph.picks = pre ++ p :: post) :
    OverFor state policy (selectionOf state.graph pre).closed p.1 p.2 ∧
      ∀ r' ∈ selectable state floored, r'.age < p.1.age →
        OverFor state policy (selectionOf state.graph pre).closed r' p.2 → r' ∈ pre.map Prod.fst := by
  have hp : Pickable state.graph pre := by
    have := h.pickable hg
    rw [hsplit] at this
    exact this.left
  obtain ⟨post₃, h₃⟩ | ⟨l₁, r, l₂, hl, rfl, rfl⟩ := picked_split hsplit
  · obtain ⟨post₂, h₂⟩ | ⟨l₁, r, l₂, hl, rfl, rfl⟩ := picked_split h₃
    · obtain ⟨post₁, h₁⟩ | ⟨l₁, r, l₂, hl, rfl, rfl⟩ := picked_split h₂
      · rw [Phases.agedPicks, ← List.nil_append (picked ph.aged _)] at h₁
        obtain ⟨post₀, h₀⟩ | ⟨l₁, r, l₂, hl, rfl, rfl⟩ := picked_split h₁
        · simp at h₀
        · obtain ⟨hover, hold⟩ := h.age_turn hg hl
          refine ⟨hover, fun r' hr' hlt ho => ?_⟩
          rw [List.nil_append, map_fst_picked]
          exact hold r' hr' hlt ho
      · exact h.count_turn hg hl hp
    · have hturn := h.totalTurn l₁.length (by rw [hl, List.length_append, List.length_cons]; omega)
      rw [hl, List.take_left] at hturn
      refine ⟨(overBytes_iff (tracks_addAll hg hp).1).1 hturn, fun r' hr' hlt _ => ?_⟩
      rw [List.map_append, map_fst_picked, List.mem_append]
      exact h.rest_turn hg (by rw [hl, List.append_assoc]; rfl) hr' hlt
  · have hturn := h.freeTurn l₁.length (by rw [hl, List.length_append, List.length_cons]; omega)
    rw [hl, List.take_left] at hturn
    refine ⟨(underFree_iff (tracks_addAll hg hp).1).1 hturn, fun r' hr' hlt _ => ?_⟩
    have hl' : ph.totaled ++ (ph.freed ++ ph.left) = (ph.totaled ++ l₁) ++ r :: (l₂ ++ ph.left) := by
      rw [hl]
      simp only [List.append_assoc, List.cons_append]
    have := h.rest_turn hg hl' hr' hlt
    simp only [Phases.totaledPicks, List.map_append, map_fst_picked, List.mem_append] at this ⊢
    tauto

omit h in
theorem closed_mono {picks picks' : Picks} (hp : Pickable state.graph (picks ++ picks')) :
    (selectionOf state.graph picks).closed ⊆ (selectionOf state.graph (picks ++ picks')).closed := by
  have hs := tracks_addAll hg hp.left
  have hs' := tracks_addAll hg hp
  rw [hs.1.closed, hs.2, hs'.1.closed, hs'.2]
  intro x hx
  rw [mem_deletionClosure hg] at hx ⊢
  refine ⟨hx.1, fun id hid => ?_⟩
  rw [List.map_append, List.toFinset_append]
  exact Finset.mem_union_left _ (hx.2 hid)

theorem IsRun.selected_count {max : Int} (hmax : policy.maxCountPerFamily = some max) {r : Root}
    (hr : r ∈ selectable state floored)
    (hlt : max < survivors state.graph (selectionOf state.graph ph.picks).closed r.family) : r ∈ ph.picks.map Prod.fst := by
  have hpicks : ph.picks = ph.countedPicks ++ (picked ph.totaled "max_total_bytes" ++ picked ph.freed "min_free_bytes") := by
    rw [Phases.picks, Phases.totaledPicks, List.append_assoc]
  obtain ⟨-, hset⟩ := sweep_count_run policy floored hg hmax (List.append_nil _)
  rw [← h.counted, ← h.aged] at hset
  have hall : ph.aged ++ (selectable state floored).filter (!overAge state policy ·) = selectable state floored := by
    rw [h.aged]
    exact aged_append policy floored hg
  rw [hall] at hset
  obtain hin | hle := hset r.family
  · have := hin r hr rfl
    rw [hpicks, List.map_append]
    exact List.mem_append_left _ this
  · have hsub := closed_mono hg (hpicks ▸ h.pickable hg)
    rw [← hpicks] at hsub
    exact absurd (hlt.trans_le (survivors_anti hsub _ _)) (not_lt.2 hle)

/-- **A bound that is not met** has every candidate that counts against it selected. -/
theorem IsRun.selected {bound : String} {r : Root} (hr : r ∈ selectable state floored)
    (ho : OverFor state policy (selectionOf state.graph ph.picks).closed r bound) : r ∈ ph.picks.map Prod.fst := by
  have hmem : ph.left = [] → r ∈ ph.picks.map Prod.fst := by
    intro hleft
    have := (h.perm hg).mem_iff.2 hr
    rwa [hleft, List.append_nil] at this
  have hp := h.pickable hg
  unfold OverFor at ho
  split at ho
  · rw [Phases.map_fst_picks, h.aged]
    simp only [List.mem_append, List.mem_filter]
    exact .inl (.inl (.inl ⟨hr, ho⟩))
  · obtain ⟨max, hmax, hlt⟩ := ho
    exact h.selected_count hg hmax hr hlt
  · unfold OverAll at ho
    split at ho
    · have hover : OverAll state policy (selectionOf state.graph ph.totaledPicks).closed "max_total_bytes" :=
        OverAll.anti (closed_mono hg hp) ho
      rw [← overBytes_iff (tracks_addAll hg hp.left).1] at hover
      obtain hnil | hmet := h.totalEnd
      · exact hmem (List.append_eq_nil_iff.1 hnil).2
      · rw [hmet] at hover; cases hover
    · have hover : OverAll state policy (selectionOf state.graph ph.picks).closed "min_free_bytes" := ho
      rw [← underFree_iff (tracks_addAll hg hp).1] at hover
      obtain hnil | hmet := h.freeEnd
      · exact hmem hnil
      · rw [hmet] at hover; cases hover
    · exact ho.elim

end

end

end Cctally.Artifacts
