import Cctally.ArtifactsSelection
import Mathlib.Algebra.BigOperators.Group.Finset.Basic

/-!
# What the selection tracks

After any additions the selection holds the deletion closure of its roots, its bytes,
and for each family the roots outside it.
-/

namespace Cctally.Artifacts

def inFamily (g : Graph) (family : String) : List Root := g.roots.filter (·.family = family)

def survivors (g : Graph) (deleted : Finset String) (family : String) : Int :=
  ((inFamily g family).filter (·.id ∉ deleted)).length

structure Tracks (g : Graph) (s : Selection) : Prop where
  nodup : s.rootIds.Nodup
  roots : ∀ id ∈ s.rootIds, ∃ r ∈ g.roots, r.id = id
  pending : ∀ x ∈ known g.members, s.pending.get? x = some ((inboundOf g x \ s.rootIds.toFinset).card : Int)
  closed : s.closed = deletionClosure g s.rootIds.toFinset
  bytes : s.bytes = ∑ x ∈ s.closed, bytesOf g x
  counts : ∀ f, s.counts.get? f = if inFamily g f = [] then none else some (survivors g s.closed f)
  orderNodup : s.order.Nodup
  order : s.order.toFinset = s.closed

theorem get?_foldl_countRoot (f : String) : ∀ (roots : List Root) (counts : Dict String Int),
    (roots.foldl countRoot counts).get? f =
      if roots.filter (·.family = f) = [] then counts.get? f
      else some ((counts.get? f).getD 0 + (roots.filter (·.family = f)).length)
  | [], counts => by simp
  | r :: roots, counts => by
    rw [List.foldl_cons, get?_foldl_countRoot f roots, countRoot]
    by_cases hf : r.family = f
    · subst hf
      by_cases hr : roots.filter (·.family = r.family) = []
      · simp [hr]
      · simp [hr]
        omega
    · rw [Dict.get?_set_ne _ _ hf]
      simp [hf]

section
variable {g : Graph} (hg : Rooted g)
include hg

theorem inboundOf_nonempty {x : String} (hx : x ∈ known g.members) : inboundOf g x ≠ ∅ := by
  obtain ⟨r, hr, hreach⟩ := hg.covered x hx
  exact Finset.ne_empty_of_mem ((root_mem_inboundOf hg hr).2 hreach)

theorem tracks_init : Tracks g (.init g) where
  nodup := List.nodup_nil
  roots := nofun
  pending x hx := by
    have hget : g.inboundRoots.get? x = some (inboundOf g x) := by
      rw [inboundOf, hg.inbound, if_pos hx]
      rfl
    have hfilter : (g.inboundRoots.filter fun _ inbound => inbound ≠ ∅).get? x = some (inboundOf g x) :=
      Dict.get?_filter_eq_some.2 ⟨hget, by simpa using inboundOf_nonempty hg hx⟩
    simp only [Selection.init, Dict.get?_mapValues]
    rw [hfilter]
    simp
  closed := by
    ext x
    simp only [Selection.init, List.toFinset_nil, Finset.notMem_empty, false_iff, mem_deletionClosure hg,
      Finset.subset_empty]
    exact fun h => inboundOf_nonempty hg h.1 h.2
  bytes := rfl
  counts f := by
    have hempty : (Dict.empty : Dict String Int).get? f = none := Dict.get?_empty f
    simp [Selection.init, get?_foldl_countRoot, hempty, survivors, inFamily]
  orderNodup := List.nodup_nil
  order := rfl

/-! ## An addition -/

variable {s : Selection} (hs : Tracks g s) {r : Root} (hr : r ∈ g.roots) (hnew : r.id ∉ s.rootIds)

omit hg in
theorem nodup_reachedBy (rootId : String) : (reachedBy g rootId).Nodup := g.inboundRoots.nodup.filter _

include hr in
theorem mem_reachedBy {x : String} : x ∈ reachedBy g r.id ↔ x ∈ r.reachableIds := by
  rw [reachedBy, List.mem_filter, decide_eq_true_eq, root_mem_inboundOf hg hr]
  refine and_iff_right_of_imp fun hx => ?_
  rw [Dict.mem_keys]
  exact ⟨_, by rw [hg.inbound, if_pos (reachable_known hg hr hx)]⟩

include hs hr hnew

theorem mem_hits {x : String} : x ∈ hits s.pending (reachedBy g r.id) ↔
    x ∈ deletionClosure g (insert r.id s.rootIds.toFinset) ∧ x ∉ s.closed := by
  rw [hits, List.mem_filter, mem_reachedBy hg hr, decide_eq_true_eq, hs.closed, mem_deletionClosure hg,
    mem_deletionClosure hg]
  have hnew' : r.id ∉ s.rootIds.toFinset := by rwa [List.mem_toFinset]
  constructor
  · rintro ⟨hx, hone⟩
    have hk := reachable_known hg hr hx
    have hin : r.id ∈ inboundOf g x := (root_mem_inboundOf hg hr).2 hx
    rw [hs.pending x hk, Option.getD_some] at hone
    obtain ⟨id, hid⟩ := Finset.card_eq_one.1 (by exact_mod_cast hone)
    have hrid : r.id ∈ inboundOf g x \ s.rootIds.toFinset := Finset.mem_sdiff.2 ⟨hin, hnew'⟩
    rw [hid, Finset.mem_singleton] at hrid
    subst hrid
    refine ⟨⟨hk, fun id' hid' => ?_⟩, fun hc => hnew' (hc.2 hin)⟩
    by_cases hsel : id' ∈ s.rootIds.toFinset
    · exact Finset.mem_insert_of_mem hsel
    · have : id' ∈ inboundOf g x \ s.rootIds.toFinset := Finset.mem_sdiff.2 ⟨hid', hsel⟩
      rw [hid, Finset.mem_singleton] at this
      exact this ▸ Finset.mem_insert_self _ _
  · rintro ⟨⟨hk, hsub⟩, hno⟩
    have hin : r.id ∈ inboundOf g x := by
      by_contra hin
      refine hno ⟨hk, fun id hid => ?_⟩
      obtain rfl | hid' := Finset.mem_insert.1 (hsub hid)
      · exact absurd hid hin
      · exact hid'
    refine ⟨(root_mem_inboundOf hg hr).1 hin, ?_⟩
    have hone : inboundOf g x \ s.rootIds.toFinset = {r.id} := by
      ext id
      rw [Finset.mem_sdiff, Finset.mem_singleton]
      constructor
      · rintro ⟨hid, hsel⟩
        exact (Finset.mem_insert.1 (hsub hid)).resolve_right hsel
      · rintro rfl
        exact ⟨hin, hnew'⟩
    rw [hs.pending x hk, hone]
    rfl

theorem closed_union_hits : s.closed ∪ (hits s.pending (reachedBy g r.id)).toFinset =
    deletionClosure g (insert r.id s.rootIds.toFinset) := by
  ext x
  rw [Finset.mem_union, List.mem_toFinset, mem_hits hg hs hr hnew]
  have hmono : x ∈ s.closed → x ∈ deletionClosure g (insert r.id s.rootIds.toFinset) := by
    rw [hs.closed, mem_deletionClosure hg, mem_deletionClosure hg]
    exact fun h => ⟨h.1, h.2.trans (Finset.subset_insert _ _)⟩
  by_cases hx : x ∈ s.closed
  · simp [hx, hmono hx]
  · simp [hx]

omit hg hs hr hnew in
theorem nodup_hits (pending : Dict String Int) (rootId : String) : (hits pending (reachedBy g rootId)).Nodup :=
  (nodup_reachedBy rootId).filter _

theorem sum_hits : s.bytes + ((hits s.pending (reachedBy g r.id)).map (bytesOf g)).sum =
    ∑ x ∈ s.closed ∪ (hits s.pending (reachedBy g r.id)).toFinset, bytesOf g x := by
  have hdisj : Disjoint s.closed (hits s.pending (reachedBy g r.id)).toFinset :=
    Finset.disjoint_left.2 fun x hx hh => ((mem_hits hg hs hr hnew).1 (List.mem_toFinset.1 hh)).2 hx
  rw [Finset.sum_union hdisj, ← hs.bytes, List.sum_toFinset _ (nodup_hits _ _)]

omit hg hs hr hnew in
theorem foldl_countDown_eq : ∀ (l : List String) (counts : Dict String Int),
    (∀ id ∈ l, g.rootsById.get? id = none) → l.foldl (fun counts id => countDown g id counts) counts = counts
  | [], _, _ => rfl
  | id :: l, counts, h => by
    have hid : countDown g id counts = counts := by
      rw [countDown, h id List.mem_cons_self]
    rw [List.foldl_cons, hid]
    exact foldl_countDown_eq l counts fun id' hid' => h id' (List.mem_cons_of_mem id hid')

omit hg hs hr hnew in
theorem foldl_countDown {rootId : String} : ∀ (l : List String) (counts : Dict String Int), l.Nodup → rootId ∈ l →
    (∀ id ∈ l, id ≠ rootId → g.rootsById.get? id = none) →
    l.foldl (fun counts id => countDown g id counts) counts = countDown g rootId counts
  | [], _, _, hm, _ => nomatch hm
  | id :: l, counts, hn, hm, h => by
    rw [List.nodup_cons] at hn
    rw [List.foldl_cons]
    by_cases he : id = rootId
    · subst he
      refine foldl_countDown_eq l _ fun id' hid' => h id' (List.mem_cons_of_mem id hid') ?_
      rintro rfl
      exact hn.1 hid'
    · have hid : countDown g id counts = counts := by
        rw [countDown, h id List.mem_cons_self he]
      rw [hid]
      exact foldl_countDown l counts hn.2 ((List.mem_cons.1 hm).resolve_left (Ne.symm he))
        fun id' hid' => h id' (List.mem_cons_of_mem id hid')

omit hg hs hnew in
theorem mem_inFamily {f : String} : r ∈ inFamily g f ↔ r.family = f := by
  rw [inFamily, List.mem_filter, decide_eq_true_eq, and_iff_right hr]

omit hs hr hnew in
theorem survivors_closure (selected : Finset String) (f : String) : survivors g (deletionClosure g selected) f =
    ((inFamily g f).filter (·.id ∉ selected)).length := by
  have hfilter : (inFamily g f).filter (·.id ∉ deletionClosure g selected) = (inFamily g f).filter (·.id ∉ selected) := by
    refine List.filter_congr fun r hr => ?_
    simp only [root_mem_deletionClosure hg (List.mem_of_mem_filter hr)]
  rw [survivors, hfilter]

theorem survivors_insert (f : String) : survivors g (deletionClosure g (insert r.id s.rootIds.toFinset)) f =
    survivors g s.closed f - if r.family = f then 1 else 0 := by
  rw [hs.closed, survivors_closure hg, survivors_closure hg]
  have hn : ((inFamily g f).filter (·.id ∉ s.rootIds.toFinset)).Nodup := (hg.nodup.of_map.filter _).filter _
  have hsplit : (inFamily g f).filter (·.id ∉ insert r.id s.rootIds.toFinset) =
      ((inFamily g f).filter (·.id ∉ s.rootIds.toFinset)).erase r := by
    rw [hn.erase_eq_filter, List.filter_filter]
    refine List.filter_congr fun r' hr' => ?_
    have hinj : r'.id = r.id ↔ r' = r :=
      ⟨List.inj_on_of_nodup_map hg.nodup (List.mem_of_mem_filter hr') hr, fun h => h ▸ rfl⟩
    simp only [List.mem_toFinset, Finset.mem_insert, hinj, not_or, Bool.decide_and, decide_not]
    rfl
  have hmem : r ∈ (inFamily g f).filter (·.id ∉ s.rootIds.toFinset) ↔ r.family = f := by
    rw [List.mem_filter, mem_inFamily hr]
    exact and_iff_left (by simpa using hnew)
  rw [hsplit]
  by_cases hf : r.family = f
  · rw [List.length_erase_of_mem (hmem.2 hf), if_pos hf]
    have := List.length_pos_of_mem (hmem.2 hf)
    omega
  · rw [List.erase_of_not_mem (mt hmem.1 hf), if_neg hf, sub_zero]

theorem survivors_pos : 0 < survivors g s.closed r.family := by
  rw [survivors, Int.natCast_pos]
  refine List.length_pos_of_mem (a := r) ?_
  rw [List.mem_filter, mem_inFamily hr, hs.closed]
  simp only [root_mem_deletionClosure hg hr, true_and]
  simpa using hnew

theorem get?_countDown (f : String) : (countDown g r.id s.counts).get? f =
    if inFamily g f = [] then none
    else some (survivors g (deletionClosure g (insert r.id s.rootIds.toFinset)) f) := by
  have hne : inFamily g r.family ≠ [] := List.ne_nil_of_mem ((mem_inFamily hr).2 rfl)
  have hpos := survivors_pos hg hs hr hnew
  have hdown : countDown g r.id s.counts = s.counts.set r.family (survivors g s.closed r.family - 1) := by
    unfold countDown
    rw [(hg.rootsById r.id r).2 ⟨hr, rfl⟩]
    dsimp only
    rw [hs.counts, if_neg hne]
    exact if_neg (by omega)
  rw [hdown, survivors_insert hg hs hr hnew]
  by_cases hf : r.family = f
  · subst hf
    rw [Dict.get?_set, if_pos rfl, if_neg hne, if_pos rfl]
  · rw [Dict.get?_set_ne _ _ hf, hs.counts, if_neg hf, sub_zero]

omit hs in
theorem card_sdiff_insert {x : String} : ((inboundOf g x \ insert r.id s.rootIds.toFinset).card : Int) =
    (inboundOf g x \ s.rootIds.toFinset).card - if x ∈ r.reachableIds then 1 else 0 := by
  have hnew' : r.id ∉ s.rootIds.toFinset := by rwa [List.mem_toFinset]
  rw [Finset.sdiff_insert]
  by_cases hx : x ∈ r.reachableIds
  · have hmem : r.id ∈ inboundOf g x \ s.rootIds.toFinset :=
      Finset.mem_sdiff.2 ⟨(root_mem_inboundOf hg hr).2 hx, hnew'⟩
    have hpos := Finset.card_pos.2 ⟨_, hmem⟩
    rw [Finset.card_erase_of_mem hmem, if_pos hx]
    omega
  · have hmem : r.id ∉ inboundOf g x \ s.rootIds.toFinset :=
      fun h => hx ((root_mem_inboundOf hg hr).1 (Finset.mem_sdiff.1 h).1)
    rw [Finset.erase_eq_of_notMem hmem, if_neg hx, sub_zero]

def added (g : Graph) (s : Selection) (rootId : String) : List String :=
  (closureOrder g rootId (deletionClosure g (insert rootId s.rootIds.toFinset))).filter
    (· ∈ (hits s.pending (reachedBy g rootId)).toFinset)

theorem add_eq (reason : String) : ∃ pending : Dict String Int, s.add g r.id reason =
      { rootIds := s.rootIds ++ [r.id]
        order := s.order ++ added g s r.id
        groups := if added g s r.id = [] then s.groups else s.groups ++ [(r.id, added g s r.id)]
        reasons := (added g s r.id).foldl (fun reasons id => reasons.setdefault id "closure") (s.reasons.set r.id reason)
        pending := pending
        closed := deletionClosure g (insert r.id s.rootIds.toFinset)
        bytes := ∑ x ∈ deletionClosure g (insert r.id s.rootIds.toFinset), bytesOf g x
        counts := countDown g r.id s.counts } ∧
    ∀ id, pending.get? id = if id ∈ reachedBy g r.id then some ((s.pending.get? id).getD 0 - 1) else s.pending.get? id := by
  obtain ⟨pending, hrun, hget⟩ := foldl_touch g (reachedBy g r.id)
    { s with rootIds := s.rootIds ++ [r.id], reasons := s.reasons.set r.id reason } ∅ (nodup_reachedBy r.id)
  refine ⟨pending, ?_, hget⟩
  have hself : r.id ∈ hits s.pending (reachedBy g r.id) := by
    rw [mem_hits hg hs hr hnew, hs.closed, root_mem_deletionClosure hg hr, root_mem_deletionClosure hg hr]
    exact ⟨Finset.mem_insert_self _ _, by rwa [List.mem_toFinset]⟩
  have honly : ∀ id ∈ hits s.pending (reachedBy g r.id), id ≠ r.id → g.rootsById.get? id = none := by
    intro id hid hne
    rw [Option.eq_none_iff_forall_ne_some]
    intro r' hget
    obtain ⟨hr', rfl⟩ := (hg.rootsById _ _).1 hget
    have hreach := (mem_reachedBy hg hr).1 (List.mem_of_mem_filter hid)
    exact hne (congrArg Root.id (eq_of_root_reachable hg hr' hr hreach))
  have hcounts := foldl_countDown _ s.counts (nodup_hits _ _) hself honly
  have hbytes := sum_hits hg hs hr hnew
  rw [closed_union_hits hg hs hr hnew] at hbytes
  unfold Selection.add
  dsimp only
  rw [hrun]
  dsimp only
  rw [closed_union_hits hg hs hr hnew, hbytes, hcounts, Finset.empty_union]
  rfl

theorem mem_added {x : String} : x ∈ added g s r.id ↔
    x ∈ deletionClosure g (insert r.id s.rootIds.toFinset) ∧ x ∉ s.closed := by
  rw [added, List.mem_filter, decide_eq_true_eq, List.mem_toFinset, and_iff_right_iff_imp.2, mem_hits hg hs hr hnew]
  intro hx
  have hreach := (mem_reachedBy hg hr).1 (List.mem_of_mem_filter hx)
  exact mem_closureOrder hg hr hreach ((mem_hits hg hs hr hnew).1 hx).1

theorem tracks_add (reason : String) : Tracks g (s.add g r.id reason) := by
  obtain ⟨pending, hadd, hget⟩ := add_eq hg hs hr hnew reason
  have hset : (s.rootIds ++ [r.id]).toFinset = insert r.id s.rootIds.toFinset := by
    ext x
    simp
  rw [hadd]
  refine ⟨?_, ?_, fun x hx => ?_, by dsimp only; rw [hset], rfl, get?_countDown hg hs hr hnew, ?_, ?_⟩
  · refine List.nodup_append.2 ⟨hs.nodup, List.nodup_singleton _, fun a ha b hb => ?_⟩
    rintro rfl
    exact hnew (List.mem_singleton.1 hb ▸ ha)
  · intro id hid
    obtain hid | hid := List.mem_append.1 hid
    · exact hs.roots id hid
    · exact ⟨r, hr, (List.mem_singleton.1 hid).symm⟩
  · dsimp only
    rw [hget, hset, card_sdiff_insert hg hr hnew, hs.pending x hx]
    simp only [mem_reachedBy hg hr]
    by_cases hreach : x ∈ r.reachableIds
    · simp [hreach]
    · simp [hreach]
  · refine List.nodup_append.2 ⟨hs.orderNodup, (nodup_closureOrder _ _ _).filter _, fun a ha b hb => ?_⟩
    rintro rfl
    refine ((mem_added hg hs hr hnew).1 hb).2 ?_
    rw [← hs.order, List.mem_toFinset]
    exact ha
  · ext x
    rw [List.toFinset_append, Finset.mem_union, hs.order, List.mem_toFinset, mem_added hg hs hr hnew,
      ← closed_union_hits hg hs hr hnew, Finset.mem_union]
    by_cases hx : x ∈ s.closed
    · simp [hx]
    · simp [hx]

end

abbrev Picks := List (Root × String)

def Selection.addAll (g : Graph) (s : Selection) (picks : Picks) : Selection :=
  picks.foldl (fun s p => s.add g p.1.id p.2) s

structure Pickable (g : Graph) (picks : Picks) : Prop where
  nodup : (picks.map (·.1.id)).Nodup
  roots : ∀ p ∈ picks, p.1 ∈ g.roots

section
variable {g : Graph} (hg : Rooted g)
include hg

theorem rootIds_add {s : Selection} (hs : Tracks g s) {r : Root} (hr : r ∈ g.roots) (hnew : r.id ∉ s.rootIds)
    (reason : String) : (s.add g r.id reason).rootIds = s.rootIds ++ [r.id] := by
  obtain ⟨_, hadd, -⟩ := add_eq hg hs hr hnew reason
  rw [hadd]

theorem tracks_addAll {picks : Picks} (h : Pickable g picks) : Tracks g (Selection.addAll g (.init g) picks) ∧
    (Selection.addAll g (.init g) picks).rootIds = picks.map (·.1.id) := by
  induction picks using List.reverseRecOn with
  | nil => exact ⟨tracks_init hg, rfl⟩
  | append_singleton picks p ih =>
    obtain ⟨hn, hroots⟩ := h
    rw [List.map_append, List.nodup_append] at hn
    obtain ⟨hs, hids⟩ := ih ⟨hn.1, fun q hq => hroots q (List.mem_append_left _ hq)⟩
    have hr := hroots p (List.mem_append_right _ List.mem_cons_self)
    have hnew : p.1.id ∉ (Selection.addAll g (.init g) picks).rootIds := by
      rw [hids]
      exact fun hm => hn.2.2 _ hm _ List.mem_cons_self rfl
    rw [Selection.addAll, List.foldl_append, List.map_append, ← hids]
    exact ⟨tracks_add hg hs hr hnew p.2, rootIds_add hg hs hr hnew p.2⟩

end

end Cctally.Artifacts
