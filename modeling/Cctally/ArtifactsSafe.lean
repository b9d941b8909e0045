import Cctally.ArtifactsDangling

/-!
# The deletion leaves no dangling reference

A prefix of the deletion is some whole groups and a part of the next one.
-/

namespace Cctally.Artifacts

section
variable {state : RetentionState} {policy : RetentionPolicy}

theorem turn_lt_of_age {r r' : Root} (hp : phaseOf state policy r = phaseOf state policy r') (h : r.age < r'.age) :
    turnOf state policy r < turnOf state policy r' :=
  Prod.Lex.toLex_lt_toLex.2 (.inr ⟨hp, h⟩)

theorem turn_lt_of_phase {r r' : Root} (h : phaseOf state policy r < phaseOf state policy r') :
    turnOf state policy r < turnOf state policy r' :=
  Prod.Lex.toLex_lt_toLex.2 (.inl h)

theorem pairwise_turnOf {l : List Root} (hs : l.Pairwise fun r r' => r.age < r'.age) {n : Nat}
    (hn : ∀ r ∈ l, phaseOf state policy r = n) : l.Pairwise fun r r' => turnOf state policy r < turnOf state policy r' :=
  hs.imp_of_mem fun hr hr' h => turn_lt_of_age ((hn _ hr).trans (hn _ hr').symm) h

section
variable {ph : Phases} (hg : Rooted state.graph) (h : IsRun state policy (flooredIds state policy) ph)
include hg h

theorem IsRun.pairwise_turn : (ph.picks.map Prod.fst ++ ph.left).Pairwise
    fun r r' => turnOf state policy r < turnOf state policy r' := by
  have hlined := lined_selectable (flooredIds state policy) hg
  have haged : ∀ r ∈ ph.aged, phaseOf state policy r = 0 := by
    intro r hr
    rw [h.aged] at hr
    rw [phaseOf, if_pos (List.mem_filter.1 hr).2]
  have hcounted : ∀ r ∈ ph.counted, phaseOf state policy r = 1 := by
    intro r hr
    rw [h.counted, List.mem_filter, List.mem_filter] at hr
    rw [phaseOf, if_neg (by simpa using hr.1.2), if_pos hr.2]
  have hrest : ∀ r ∈ ph.totaled ++ (ph.freed ++ ph.left), phaseOf state policy r = 2 := by
    intro r hr
    rw [h.rest, List.mem_filter, List.mem_filter] at hr
    rw [phaseOf, if_neg (by simpa using hr.1.2), if_neg (by simpa using hr.2)]
  have hsplit : ph.picks.map Prod.fst ++ ph.left = ph.aged ++ (ph.counted ++ (ph.totaled ++ (ph.freed ++ ph.left))) := by
    rw [Phases.map_fst_picks]
    simp only [List.append_assoc]
  rw [hsplit, List.pairwise_append, List.pairwise_append]
  refine ⟨pairwise_turnOf ?_ haged, ⟨pairwise_turnOf ?_ hcounted, pairwise_turnOf ?_ hrest, ?_⟩, ?_⟩
  · rw [h.aged]
    exact hlined.sorted.filter _
  · rw [h.counted]
    exact (hlined.sorted.filter _).filter _
  · rw [h.rest]
    exact (hlined.sorted.filter _).filter _
  · intro r hr r' hr'
    exact turn_lt_of_phase (by rw [hcounted r hr, hrest r' hr']; exact Nat.lt_succ_self 1)
  · intro r hr r' hr'
    refine turn_lt_of_phase ?_
    rw [haged r hr]
    obtain hr' | hr' := List.mem_append.1 hr'
    · rw [hcounted r' hr']; exact Nat.zero_lt_one
    · rw [hrest r' hr']; exact Nat.zero_lt_two

theorem IsRun.picked_before {pre post : Picks} {p : Root × String} (hsplit : ph.picks = pre ++ p :: post) {z : Root}
    (hz : Eligible state policy z) (hlt : turnOf state policy z < turnOf state policy p.1) : z ∈ pre.map Prod.fst := by
  have hmem := (h.perm hg).mem_iff.2 ((mem_selectable policy).2 hz)
  have hpair := h.pairwise_turn hg
  have hfull : ph.picks.map Prod.fst ++ ph.left = pre.map Prod.fst ++ p.1 :: (post.map Prod.fst ++ ph.left) := by
    rw [hsplit]
    simp only [List.map_append, List.map_cons, List.append_assoc, List.cons_append]
  exact mem_of_older hpair hfull hmem hlt

end

end

/-! ## A prefix of the deletion -/

section
variable {g : Graph} (hg : Rooted g)
include hg

theorem order_snoc {picks : Picks} {p : Root × String} (hp : Pickable g (picks ++ [p])) :
    (selectionOf g (picks ++ [p])).order = (selectionOf g picks).order ++ added g (selectionOf g picks) p.1.id ∧
      p.1.id ∉ (selectionOf g picks).rootIds := by
  have hroot := hp.roots p (by simp)
  have hnew : p.1 ∉ picks.map Prod.fst := by
    intro hm
    have hn := hp.nodup_fst
    rw [List.map_append, List.nodup_append] at hn
    exact hn.2.2 _ hm _ List.mem_cons_self rfl
  have hid := hp.left.new hg hroot hnew
  obtain ⟨_, hadd, -⟩ := add_eq hg (tracks_addAll hg hp.left).1 hroot hid p.2
  refine ⟨?_, hid⟩
  rw [← selectionOf_append, hadd]

theorem order_split {picks : Picks} (hp : Pickable g picks) {pre post : List String}
    (h : (selectionOf g picks).order = pre ++ post) :
    pre = [] ∨ ∃ picks₁ p picks₂ part rest, picks = picks₁ ++ p :: picks₂ ∧
      added g (selectionOf g picks₁) p.1.id = part ++ rest ∧ pre = (selectionOf g picks₁).order ++ part := by
  induction picks using List.reverseRecOn generalizing pre post with
  | nil =>
    have : (selectionOf g []).order = [] := rfl
    rw [this] at h
    exact .inl (List.append_eq_nil_iff.1 h.symm).1
  | append_singleton picks p ih =>
    rw [(order_snoc hg hp).1] at h
    obtain ⟨part, hpre, hadd⟩ | ⟨rest, hord, -⟩ := List.append_eq_append_iff.1 h
    · exact .inr ⟨picks, p, [], part, post, rfl, hadd, hpre⟩
    · refine (ih hp.left hord).imp_right ?_
      rintro ⟨picks₁, q, picks₂, part, rest', rfl, hadd, hpre⟩
      exact ⟨picks₁, q, picks₂ ++ [p], part, rest', by simp, hadd, hpre⟩

end

section
variable {state : RetentionState} {policy : RetentionPolicy} (hg : Rooted state.graph) (hc : Clear state policy)
  {ph : Phases} (h : IsRun state policy (flooredIds state policy) ph)
include hg hc h

omit hc in
theorem picked_eligible {p : Root × String} (hm : p ∈ ph.picks) : Eligible state policy p.1 :=
  (mem_selectable policy).1 ((h.perm hg).mem_iff.1 (List.mem_append_left _ (List.mem_map_of_mem hm)))

theorem inbound_picked {pre post : Picks} {p : Root × String} (hsplit : ph.picks = pre ++ p :: post) {y : String}
    (hy : y ∈ known state.graph.members) (href : p.1.id ∈ knownReferences state.graph.members y) :
    inboundOf state.graph y ⊆ insert p.1.id (idsOf pre) := by
  intro id hid
  obtain ⟨-, z, hz, rfl, hreach⟩ := (mem_inboundOf hg).1 hid
  have hp : Eligible state policy p.1 := picked_eligible hg h (by rw [hsplit]; simp)
  obtain rfl | ⟨hel, hlt⟩ := hc.roots p.1 hp y hy href z hz hreach
  · exact Finset.mem_insert_self _ _
  · obtain ⟨q, hq, rfl⟩ := List.mem_map.1 (h.picked_before hg hsplit hel hlt)
    exact Finset.mem_insert_of_mem (List.mem_toFinset.2 (List.mem_map_of_mem hq))

theorem closure_of_picked {pre post : Picks} (hsplit : ph.picks = pre ++ post) {x y : String}
    (hy : y ∈ known state.graph.members) (href : x ∈ knownReferences state.graph.members y)
    (hx : x ∈ deletionClosure state.graph (idsOf pre)) : y ∈ deletionClosure state.graph (idsOf pre) := by
  by_cases hroot : ∃ r ∈ state.graph.roots, r.id = x
  · obtain ⟨r, hr, rfl⟩ := hroot
    rw [root_mem_deletionClosure hg hr, idsOf, List.mem_toFinset] at hx
    obtain ⟨q, hq, he⟩ := List.mem_map.1 hx
    obtain ⟨pre₁, pre₂, rfl⟩ := List.append_of_mem hq
    have hsplit' : ph.picks = pre₁ ++ q :: (pre₂ ++ post) := by rw [hsplit]; simp
    refine (mem_deletionClosure hg).2 ⟨hy, (inbound_picked hg hc h hsplit' hy (he ▸ href)).trans ?_⟩
    refine Finset.insert_subset (List.mem_toFinset.2 (List.mem_map_of_mem hq)) fun id hid => ?_
    rw [idsOf, List.map_append, List.toFinset_append]
    exact Finset.mem_union_left _ hid
  · refine closure_of_refers hg hy ⟨href, ?_⟩ hx
    rw [decide_eq_false_iff_not, List.mem_toFinset, List.mem_map]
    exact hroot

theorem refers_to_itself {pre post : Picks} {p : Root × String} (hsplit : ph.picks = pre ++ p :: post) {a : String}
    (ha : a ∈ p.1.reachableIds) {x : Root} (hx : x ∈ state.graph.roots)
    (href : x.id ∈ knownReferences state.graph.members a) (hsel : x.id ∈ insert p.1.id (idsOf pre)) : x = p.1 := by
  have hpick := h.pickable hg
  have hp : p.1 ∈ state.graph.roots := hpick.roots p (by rw [hsplit]; simp)
  obtain he | hm := Finset.mem_insert.1 hsel
  · exact List.inj_on_of_nodup_map hg.nodup hx hp he
  · obtain ⟨q, hq, he⟩ := List.mem_map.1 (List.mem_toFinset.1 hm)
    obtain ⟨pre₁, pre₂, rfl⟩ := List.append_of_mem hq
    have hsplit' : ph.picks = pre₁ ++ q :: (pre₂ ++ p :: post) := by rw [hsplit]; simp
    have hin := inbound_picked hg hc h hsplit' (reachable_known hg hp ha) (he ▸ href)
      ((root_mem_inboundOf hg hp).2 ha)
    have hn := hpick.nodup
    rw [hsplit, List.map_append, List.nodup_append] at hn
    refine absurd rfl (hn.2.2 p.1.id ?_ p.1.id List.mem_cons_self)
    obtain hin | hin := Finset.mem_insert.1 hin
    · exact hin ▸ List.mem_map_of_mem hq
    · rw [List.map_append]
      exact List.mem_append_left _ (List.mem_toFinset.1 hin)

end

section
variable {state : RetentionState} {policy : RetentionPolicy} (hg : Rooted state.graph) (hc : Clear state policy)
  {ph : Phases} (h : IsRun state policy (flooredIds state policy) ph)
include hg hc h

omit hc h in
theorem mem_order {picks : Picks} (hp : Pickable state.graph picks) {x : String} :
    x ∈ (selectionOf state.graph picks).order ↔ x ∈ deletionClosure state.graph (idsOf picks) := by
  obtain ⟨hs, hids⟩ := tracks_addAll hg hp
  rw [← List.mem_toFinset, hs.order, hs.closed, hids]
  rfl

omit hg hc h in
theorem idsOf_snoc (picks : Picks) (p : Root × String) : idsOf (picks ++ [p]) = insert p.1.id (idsOf picks) := by
  ext x
  simp [idsOf]

theorem left_on_cycle {pre post : Picks} {p : Root × String} (hsplit : ph.picks = pre ++ p :: post)
    {part rest : List String} (hpart : added state.graph (selectionOf state.graph pre) p.1.id = part ++ rest) {x y : String}
    (hy : y ∈ rest) (hx : x ∈ part) (href : x ∈ knownReferences state.graph.members y) : Refers state.graph x y := by
  have hpick := h.pickable hg
  rw [hsplit] at hpick
  have hpre := hpick.left
  obtain ⟨hs, hids⟩ := tracks_addAll hg hpre
  have hr : p.1 ∈ state.graph.roots := hpick.roots p (by simp)
  have hsel : insert p.1.id (selectionOf state.graph pre).rootIds.toFinset = insert p.1.id (idsOf pre) := by rw [hids]; rfl
  rw [added, hsel] at hpart
  obtain ⟨l₁, l₂, horder, h₁, h₂⟩ := List.filter_eq_append_iff.1 hpart
  have hxl : x ∈ l₁ := List.mem_of_mem_filter (h₁ ▸ hx)
  have hyl : y ∈ l₂ := List.mem_of_mem_filter (h₂ ▸ hy)
  obtain ⟨m₁, m₂, rfl⟩ := List.append_of_mem hxl
  have hn := nodup_closureOrder state.graph p.1.id (deletionClosure state.graph (insert p.1.id (idsOf pre)))
  rw [horder, List.nodup_append] at hn
  have horder' : closureOrder state.graph p.1.id (deletionClosure state.graph (insert p.1.id (idsOf pre))) =
      m₁ ++ x :: (m₂ ++ l₂) := by rw [horder]; simp
  have hcand : y ∈ closureCandidates state.graph p.1.id (deletionClosure state.graph (insert p.1.id (idsOf pre))) := by
    rw [← (perm_closureOrder _ _ _).mem_iff, horder]
    exact List.mem_append_right _ hyl
  have hne : x ≠ y := by
    rintro rfl
    exact hn.2.2 x (by simp) x hyl rfl
  obtain hm | href := group_order hg hr (Finset.mem_insert_self _ _)
    (fun a ha x hx href hsel => refers_to_itself hg hc h hsplit ha hx href hsel)
    (hc.cycles p.1 (picked_eligible hg h (by rw [hsplit]; simp))) horder' hcand href hne
  · exact absurd rfl (hn.2.2 y (List.mem_append_left _ hm) y hyl)
  · exact href

theorem left_refers {pre post : List String} (hsplit : (selectionOf state.graph ph.picks).order = pre ++ post) {x y : String}
    (hy : y ∈ known state.graph.members) (hleft : y ∉ pre) (href : x ∈ knownReferences state.graph.members y) (hx : x ∈ pre) :
    Refers state.graph x y := by
  have hp := h.pickable hg
  obtain rfl | ⟨picks₁, p, picks₂, part, rest, hpicks, hadded, rfl⟩ := order_split hg hp hsplit
  · cases hx
  have hpicks' : ph.picks = (picks₁ ++ [p]) ++ picks₂ := by rw [hpicks]; simp
  have hsnoc : Pickable state.graph (picks₁ ++ [p]) := by
    rw [hpicks'] at hp
    exact hp.left
  obtain ⟨hs, hids⟩ := tracks_addAll hg hsnoc.left
  have hmem {w : String} : w ∈ added state.graph (selectionOf state.graph picks₁) p.1.id ↔
      w ∈ deletionClosure state.graph (idsOf (picks₁ ++ [p])) ∧ w ∉ (selectionOf state.graph picks₁).order := by
    rw [mem_added hg hs (hsnoc.roots p (by simp)) (order_snoc hg hsnoc).2, hids, idsOf_snoc, ← hs.order, List.mem_toFinset]
    rfl
  rw [List.mem_append, not_or] at hleft
  obtain hx | hx := List.mem_append.1 hx
  · rw [mem_order hg hsnoc.left] at hx hleft
    exact absurd (closure_of_picked hg hc h hpicks hy href hx) hleft.1
  · have hxc := (hmem.1 (hadded ▸ List.mem_append_left _ hx)).1
    have hya := hmem.2 ⟨closure_of_picked hg hc h hpicks' hy href hxc, hleft.1⟩
    rw [hadded] at hya
    exact left_on_cycle hg hc h hpicks hadded ((List.mem_append.1 hya).resolve_left hleft.2) hx href

theorem noDangling_picks : NoDangling state.graph (selectionOf state.graph ph.picks).order := by
  refine ⟨fun pre post hsplit y hy hleft x href hx => ?_, fun y hy hleft x href hx => ?_⟩
  · exact ⟨x, hx, .single href, left_refers hg hc h hsplit hy hleft href hx⟩
  · rw [mem_order hg (h.pickable hg)] at hleft hx
    exact hleft (closure_of_picked hg hc h (List.append_nil _).symm hy href hx)

end

def bundle (id : String) (references : List String) : Member :=
  { incident id 0 references none with kind := "bundle" }

theorem eq_of_unreferred {g : Graph} {y z : String} (hz : ∀ a ∈ known g.members, z ∉ knownReferences g.members a)
    (h : Refers g y z) : y = z := by
  cases h with
  | refl => rfl
  | @tail a _ _ hs =>
    refine absurd hs (hz a ?_)
    rw [mem_known]
    unfold knownReferences at hs
    split at hs
    · exact ⟨_, by assumption⟩
    · cases hs

theorem eq_of_unreferring {g : Graph} {y z : String} (hy : knownReferences g.members y = []) (h : Refers g y z) : z = y := by
  cases h using Relation.ReflTransGen.head_induction_on with
  | refl => rfl
  | head hs _ => rw [hy] at hs; cases hs

end Cctally.Artifacts
