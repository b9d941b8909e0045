import Cctally.ArtifactsRooted
import Cctally.ArtifactsPlan

/-!
# The incremental selection

The countdown of a member is the number of its roots that are not selected, so what an
addition closes is what the deletion closure gains.
-/

namespace Cctally.Artifacts

/-! ## The closure -/

section
variable {g : Graph} (hg : Rooted g)
include hg

theorem mem_inboundOf {x id : String} :
    id ∈ inboundOf g x ↔ x ∈ known g.members ∧ ∃ r ∈ g.roots, r.id = id ∧ x ∈ r.reachableIds := by
  rw [inboundOf, hg.inbound]
  by_cases hx : x ∈ known g.members
  · rw [if_pos hx]
    simp only [Option.getD_some, List.mem_toFinset, List.mem_map, List.mem_filter, decide_eq_true_eq, hx, true_and]
    constructor
    · rintro ⟨r, ⟨hr, hx⟩, rfl⟩; exact ⟨r, hr, rfl, hx⟩
    · rintro ⟨r, hr, rfl, hx⟩; exact ⟨r, ⟨hr, hx⟩, rfl⟩
  · simp [hx]

theorem reachable_known {r : Root} (hr : r ∈ g.roots) {x : String} (hx : x ∈ r.reachableIds) : x ∈ known g.members :=
  ((hg.reaches r hr x).1 hx).known _ (hg.member r hr)

theorem root_mem_inboundOf {r : Root} (hr : r ∈ g.roots) {x : String} : r.id ∈ inboundOf g x ↔ x ∈ r.reachableIds := by
  rw [mem_inboundOf hg]
  constructor
  · rintro ⟨-, r', hr', he, hx⟩
    rwa [← List.inj_on_of_nodup_map hg.nodup hr' hr he]
  · exact fun hx => ⟨reachable_known hg hr hx, r, hr, rfl, hx⟩

theorem eq_of_root_reachable {r r' : Root} (hr : r ∈ g.roots) (hr' : r' ∈ g.roots) (h : r.id ∈ r'.reachableIds) :
    r = r' :=
  List.inj_on_of_nodup_map hg.nodup hr hr'
    (((hg.reaches r' hr' r.id).1 h).eq_of_root _ (List.mem_toFinset.2 (List.mem_map_of_mem hr)))

theorem self_reachable {r : Root} (hr : r ∈ g.roots) : r.id ∈ r.reachableIds := (hg.reaches r hr r.id).2 .refl

theorem inboundOf_root {r : Root} (hr : r ∈ g.roots) : inboundOf g r.id = {r.id} := by
  ext id
  rw [mem_inboundOf hg, Finset.mem_singleton]
  constructor
  · rintro ⟨-, r', hr', rfl, hx⟩
    rw [eq_of_root_reachable hg hr hr' hx]
  · rintro rfl
    exact ⟨hg.member r hr, r, hr, rfl, self_reachable hg hr⟩

theorem mem_deletionClosure {selected : Finset String} {x : String} :
    x ∈ deletionClosure g selected ↔ x ∈ known g.members ∧ inboundOf g x ⊆ selected := by
  unfold deletionClosure
  rw [Finset.mem_filter, Finset.mem_biUnion]
  constructor
  · rintro ⟨⟨id, -, hx⟩, hsub⟩
    cases hid : g.rootsById.get? id with
    | none => rw [hid] at hx; simp at hx
    | some r =>
      rw [hid] at hx
      exact ⟨reachable_known hg ((hg.rootsById id r).1 hid).1 hx, hsub⟩
  · rintro ⟨hk, hsub⟩
    obtain ⟨r, hr, hx⟩ := hg.covered x hk
    refine ⟨⟨r.id, hsub ((root_mem_inboundOf hg hr).2 hx), ?_⟩, hsub⟩
    rw [(hg.rootsById r.id r).2 ⟨hr, rfl⟩]
    exact hx

theorem root_mem_deletionClosure {selected : Finset String} {r : Root} (hr : r ∈ g.roots) :
    r.id ∈ deletionClosure g selected ↔ r.id ∈ selected := by
  rw [mem_deletionClosure hg, inboundOf_root hg hr, Finset.singleton_subset_iff]
  exact and_iff_right (hg.member r hr)

theorem closure_of_refers {selected : Finset String} {a b : String} (hk : a ∈ known g.members)
    (hab : Reach.Step (knownReferences g.members) (· ∈ (g.roots.map Root.id).toFinset) a b)
    (hb : b ∈ deletionClosure g selected) : a ∈ deletionClosure g selected := by
  refine (mem_deletionClosure hg).2 ⟨hk, fun id hid => ?_⟩
  obtain ⟨-, r, hr, rfl, hx⟩ := (mem_inboundOf hg).1 hid
  refine ((mem_deletionClosure hg).1 hb).2 ((root_mem_inboundOf hg hr).2 ?_)
  exact (hg.reaches r hr b).2 (((hg.reaches r hr a).1 hx).tail hab)

end

section
variable (g : Graph)

def hits (pending : Dict String Int) (l : List String) : List String :=
  l.filter fun id => (pending.get? id).getD 0 = 1

theorem hits_set {pending : Dict String Int} {id : String} {l : List String} (h : id ∉ l) (n : Int) :
    hits (pending.set id n) l = hits pending l := by
  refine List.filter_congr fun id' hid' => ?_
  rw [Dict.get?_set_ne]
  rintro rfl
  exact h hid'

/-- **The countdown over distinct members**: each loses one, and those left with none are closed. -/
theorem foldl_touch : ∀ (l : List String) (s : Selection) (newly : Finset String), l.Nodup →
    ∃ pending : Dict String Int, l.foldl (Selection.touch g) (s, newly) =
      ({ s with
          pending := pending
          closed := s.closed ∪ (hits s.pending l).toFinset
          bytes := s.bytes + ((hits s.pending l).map (bytesOf g)).sum
          counts := (hits s.pending l).foldl (fun counts id => countDown g id counts) s.counts },
        newly ∪ (hits s.pending l).toFinset) ∧
      ∀ id, pending.get? id = if id ∈ l then some ((s.pending.get? id).getD 0 - 1) else s.pending.get? id
  | [], s, newly, _ => ⟨s.pending, by simp [hits], fun id => by simp⟩
  | id :: l, s, newly, hn => by
    rw [List.nodup_cons] at hn
    obtain ⟨pending, hrun, hget⟩ := foldl_touch l (Selection.touch g (s, newly) id).1 (Selection.touch g (s, newly) id).2 hn.2
    have hpend : (Selection.touch g (s, newly) id).1.pending =
        s.pending.set id ((s.pending.get? id).getD 0 - 1) := by
      unfold Selection.touch
      dsimp only
      split <;> rfl
    refine ⟨pending, ?_, fun id' => ?_⟩
    · rw [List.foldl_cons, hrun, hpend, hits_set hn.1]
      by_cases hone : (s.pending.get? id).getD 0 = 1
      · have hhit : hits s.pending (id :: l) = id :: hits s.pending l := by simp [hits, hone]
        have hzero : ¬ (s.pending.get? id).getD 0 - 1 ≠ 0 := by omega
        rw [hhit]
        simp only [Selection.touch, if_neg hzero, List.toFinset_cons, List.map_cons, List.sum_cons, List.foldl_cons,
          Finset.insert_union, Finset.union_insert, add_assoc]
      · have hhit : hits s.pending (id :: l) = hits s.pending l := by simp [hits, hone]
        have hzero : (s.pending.get? id).getD 0 - 1 ≠ 0 := by omega
        rw [hhit]
        simp only [Selection.touch, if_pos hzero]
    · rw [hget, hpend]
      by_cases he : id' = id
      · subst he
        rw [if_neg hn.1, Dict.get?_set, if_pos rfl, if_pos List.mem_cons_self]
      · rw [Dict.get?_set_ne _ _ (Ne.symm he)]
        simp [he]

theorem mem_closureCandidates {rootId x : String} {closure : Finset String} :
    x ∈ closureCandidates g rootId closure ↔
      rootId ∈ closure ∧ Reach.Path (knownReferences g.members) (· ∉ closure) rootId x := by
  have hstep : Reach.Step (fun id => (knownReferences g.members id).reverse) (· ∉ closure) =
      Reach.Step (knownReferences g.members) (· ∉ closure) := by
    funext a b
    simp only [Reach.Step, List.mem_reverse]
  rw [← List.mem_toFinset, closureCandidates, Reach.toFinset_walk, Reach.mem_search]
  · simp only [List.toFinset_nil, Finset.notMem_empty, false_or, List.mem_singleton, decide_eq_false_iff_not, not_not]
    constructor
    · rintro ⟨_, ⟨rfl, hc⟩, hp⟩
      exact ⟨hc, by rwa [Reach.Path, hstep] at hp⟩
    · rintro ⟨hc, hp⟩
      exact ⟨rootId, ⟨rfl, hc⟩, by rwa [Reach.Path, hstep]⟩
  · intro a ha
    simp at ha

theorem perm_closureOrder (rootId : String) (closure : Finset String) :
    (closureOrder g rootId closure).Perm (closureCandidates g rootId closure) :=
  Topological.perm_emit _ _ _

theorem nodup_closureOrder (rootId : String) (closure : Finset String) : (closureOrder g rootId closure).Nodup :=
  (perm_closureOrder g rootId closure).nodup_iff.2 (Reach.nodup_walk _ _ _ List.nodup_nil)

end

section
variable {g : Graph} (hg : Rooted g)
include hg

theorem mem_closureOrder {r : Root} (hr : r ∈ g.roots) {selected : Finset String} {x : String} (hx : x ∈ r.reachableIds)
    (hc : x ∈ deletionClosure g selected) : x ∈ closureOrder g r.id (deletionClosure g selected) := by
  rw [(perm_closureOrder g _ _).mem_iff, mem_closureCandidates]
  have hreach := (hg.reaches r hr x).1 hx
  induction hreach with
  | refl => exact ⟨hc, .refl⟩
  | tail hp hs ih =>
    have hy := (hg.reaches r hr _).2 hp
    obtain ⟨hroot, hpath⟩ := ih hy (closure_of_refers hg (reachable_known hg hr hy) hs hc)
    exact ⟨hroot, hpath.tail ⟨hs.1, by simpa using hc⟩⟩

end

end Cctally.Artifacts
