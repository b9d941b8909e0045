import Cctally.Artifacts

/-!
# Roots and what they reach

The roots are an antichain that covers the members, the inbound roots are the inverse
of what the roots reach, and the graph is a function of the set of members.
-/

namespace Cctally.Artifacts

section
variable (byId : Dict String Member)

abbrev Reaches (rootIds : Finset String) : String → String → Prop :=
  Reach.Path (knownReferences byId) (· ∈ rootIds)

theorem mem_reachableFrom {rootIds : Finset String} {a x : String} :
    x ∈ reachableFrom byId rootIds a ↔ Reaches byId rootIds a x := by
  rw [reachableFrom, Reach.mem_search]
  · constructor
    · rintro ⟨b, hb | ⟨hb, hs⟩, hp⟩
      · rwa [Finset.mem_singleton.1 hb] at hp
      · exact .head ⟨List.mem_reverse.1 hb, hs⟩ hp
    · exact fun hp => ⟨a, .inl (Finset.mem_singleton_self a), hp⟩
  · intro b hb c hc
    rw [Finset.mem_singleton] at hb
    subst hb
    exact .inr (.inr (List.mem_reverse.2 hc))

theorem Reaches.known {rootIds : Finset String} {a x : String} (h : Reaches byId rootIds a x) (ha : a ∈ known byId) :
    x ∈ known byId := by
  induction h with
  | refl => exact ha
  | tail _ hs _ => exact mem_known_of_knownReferences byId _ _ hs.1

/-- **The roots are an antichain**: a path ends before another root. -/
theorem Reaches.eq_of_root {rootIds : Finset String} {a x : String} (h : Reaches byId rootIds a x) (hx : x ∈ rootIds) :
    x = a := by
  cases h with
  | refl => rfl
  | tail _ hs => rw [Reach.Step] at hs; simp [hx] at hs

theorem mem_known {k : String} : k ∈ known byId ↔ ∃ m, byId.get? k = some m := by
  rw [known, List.mem_toFinset, Dict.mem_keys]

theorem subset_completeRoots (rootIds : Finset String) : rootIds ⊆ completeRoots byId rootIds := by
  fun_induction completeRoots byId rootIds with
  | case1 rootIds h ih => exact Finset.subset_union_left.trans ih
  | case2 rootIds h => exact Finset.Subset.refl _

theorem completeRoots_subset {rootIds : Finset String} (hr : rootIds ⊆ known byId) :
    completeRoots byId rootIds ⊆ known byId := by
  fun_induction completeRoots byId rootIds with
  | case1 rootIds h ih =>
    refine ih (Finset.union_subset hr fun id hid => ?_)
    exact (notMem_of_stranded byId (promoted_subset byId rootIds h hid)).1
  | case2 rootIds h => exact hr

theorem not_stranded (rootIds : Finset String) : ¬ (stranded byId (completeRoots byId rootIds)).Nonempty := by
  fun_induction completeRoots byId rootIds with
  | case1 rootIds h ih => exact ih
  | case2 rootIds h => exact h

theorem resolveRootIds_subset : resolveRootIds byId ⊆ known byId :=
  completeRoots_subset byId (Finset.filter_subset _ _)

/-- **Every member is reached.** -/
theorem exists_root_reaches {id : String} (h : id ∈ known byId) :
    ∃ root ∈ resolveRootIds byId, Reaches byId (resolveRootIds byId) root id := by
  by_contra hno
  refine not_stranded byId (baseRoots byId) ⟨id, Finset.mem_sdiff.2 ⟨h, fun hm => hno ?_⟩⟩
  obtain ⟨root, hroot, hid⟩ := Finset.mem_biUnion.1 hm
  exact ⟨root, hroot, (mem_reachableFrom byId).1 hid⟩

end

section
variable {byId byId' : Dict String Member} (h : ∀ k, byId.get? k = byId'.get? k)
include h

theorem known_congr : known byId = known byId' := by
  ext k
  rw [mem_known, mem_known, h]

theorem knownReferences_congr : knownReferences byId = knownReferences byId' := by
  funext k
  rw [knownReferences, knownReferences, h, known_congr h]

theorem reachableFrom_congr : reachableFrom byId = reachableFrom byId' := by
  funext rootIds a
  ext x
  rw [mem_reachableFrom, mem_reachableFrom, Reaches, Reaches, knownReferences_congr h]

theorem baseRoots_congr : baseRoots byId = baseRoots byId' := by
  have hroot : isBaseRoot byId = isBaseRoot byId' := by
    funext m
    rw [isBaseRoot, isBaseRoot, referenced, referenced, known_congr h, knownReferences_congr h]
  rw [baseRoots, baseRoots, known_congr h, hroot]
  simp only [h]

theorem stranded_congr : stranded byId = stranded byId' := by
  funext rootIds
  rw [stranded, stranded, known_congr h, reachableFrom_congr h]

theorem completeRoots_congr (rootIds : Finset String) : completeRoots byId rootIds = completeRoots byId' rootIds := by
  have hs := stranded_congr h
  fun_induction completeRoots byId rootIds with
  | case1 rootIds hne ih =>
    have hne' : (stranded byId' rootIds).Nonempty := by rw [← hs]; exact hne
    have hp : promoted byId rootIds hne = promoted byId' rootIds hne' := by
      simp only [promoted, hs, knownReferences_congr h]
    rw [ih, hp, completeRoots.eq_1 byId' rootIds, dif_pos hne']
  | case2 rootIds hne =>
    have hne' : ¬ (stranded byId' rootIds).Nonempty := by rw [← hs]; exact hne
    rw [completeRoots, dif_neg hne']

theorem resolveRootIds_congr : resolveRootIds byId = resolveRootIds byId' := by
  rw [resolveRootIds, resolveRootIds, baseRoots_congr h, completeRoots_congr h]

theorem rootOf_congr : rootOf byId = rootOf byId' := by
  have hown : ownReasons byId = ownReasons byId' := by
    funext rootIds id
    rw [ownReasons, ownReasons, h, known_congr h]
  funext rootIds m
  simp only [rootOf, reachableFrom_congr h, hown]

/-- **The roots, what they reach and their reasons are the same.** -/
theorem roots_congr : (graphOf byId).roots = (graphOf byId').roots := by
  simp only [graphOf, resolveRootIds_congr h, rootOf_congr h, h]

end

/-! ## The graph -/

structure Rooted (g : Graph) : Prop where
  keyed : ∀ k m, g.members.get? k = some m → m.id = k
  nodup : (g.roots.map Root.id).Nodup
  sorted : g.roots.Pairwise fun r r' => r.age ≤ r'.age
  member : ∀ r ∈ g.roots, r.id ∈ known g.members
  reaches : ∀ r ∈ g.roots, ∀ x, x ∈ r.reachableIds ↔
    Reaches g.members (g.roots.map Root.id).toFinset r.id x
  covered : ∀ x ∈ known g.members, ∃ r ∈ g.roots, x ∈ r.reachableIds
  inbound : ∀ x, g.inboundRoots.get? x =
    if x ∈ known g.members then some ((g.roots.filter fun r => x ∈ r.reachableIds).map Root.id).toFinset else none
  rootsById : ∀ k r, g.rootsById.get? k = some r ↔ r ∈ g.roots ∧ r.id = k

theorem get?_foldl_addInbound (x : String) : ∀ (roots : List Root) (inbound : Dict String (Finset String)),
    (roots.foldl addInbound inbound).get? x =
      (inbound.get? x).map fun found => ((roots.filter fun r => x ∈ r.reachableIds).map Root.id).toFinset ∪ found
  | [], inbound => by simp
  | r :: roots, inbound => by
    rw [List.foldl_cons, get?_foldl_addInbound x roots, addInbound, Dict.get?_mapEntries, Option.map_map]
    congr 1
    funext found
    ext a
    by_cases hx : x ∈ r.reachableIds
    · simp [hx]
    · simp [hx]

theorem get?_inboundRoots (byId : Dict String Member) (x : String) : (graphOf byId).inboundRoots.get? x =
    if x ∈ known byId then some (((graphOf byId).roots.filter fun r => x ∈ r.reachableIds).map Root.id).toFinset
    else none := by
  -- the roots are taken in the order of their ids; the set is the same in the order of their age
  have hset (l : List Root) : ((l.filter fun r => x ∈ r.reachableIds).map Root.id).toFinset =
      (((l.insertionSort fun r r' => r.age ≤ r'.age).filter fun r => x ∈ r.reachableIds).map Root.id).toFinset :=
    List.toFinset_eq_of_perm _ _ (((List.perm_insertionSort _ l).symm.filter _).map _)
  unfold graphOf
  dsimp only
  rw [get?_foldl_addInbound, Dict.get?_mapValues, hset]
  cases hx : byId.get? x with
  | none =>
    rw [if_neg (by rw [mem_known]; simp [hx])]
    rfl
  | some m =>
    rw [if_pos ((mem_known byId).2 ⟨m, hx⟩)]
    simp

section
variable {byId : Dict String Member} (hkey : ∀ k m, byId.get? k = some m → m.id = k)
include hkey

theorem mem_roots {r : Root} : r ∈ (graphOf byId).roots ↔
    ∃ m, byId.get? m.id = some m ∧ m.id ∈ resolveRootIds byId ∧ r = rootOf byId (resolveRootIds byId) m := by
  simp only [graphOf, List.mem_insertionSort, List.mem_filterMap, mem_inOrder]
  constructor
  · rintro ⟨id, hid, hr⟩
    obtain ⟨m, hm, rfl⟩ := Option.map_eq_some_iff.1 hr
    obtain rfl := hkey id m hm
    exact ⟨m, hm, hid, rfl⟩
  · rintro ⟨m, hm, hid, rfl⟩
    exact ⟨m.id, hid, by rw [hm]; rfl⟩

theorem roots_ids : ((graphOf byId).roots.map Root.id).toFinset = resolveRootIds byId := by
  ext id
  simp only [List.mem_toFinset, List.mem_map, mem_roots hkey]
  constructor
  · rintro ⟨_, ⟨m, -, hid, rfl⟩, rfl⟩
    exact hid
  · intro hid
    obtain ⟨m, hm⟩ := (mem_known byId).1 (resolveRootIds_subset byId hid)
    obtain rfl := hkey id m hm
    exact ⟨_, ⟨m, hm, hid, rfl⟩, rfl⟩

theorem nodup_roots : ((graphOf byId).roots.map Root.id).Nodup := by
  have hperm := (List.perm_insertionSort (fun r r' : Root => r.age ≤ r'.age)
    ((inOrder (resolveRootIds byId)).filterMap fun id => (byId.get? id).map (rootOf byId (resolveRootIds byId)))).map Root.id
  refine hperm.nodup_iff.2 ?_
  have hids : ∀ l : List String, ((l.filterMap fun id => (byId.get? id).map (rootOf byId (resolveRootIds byId))).map
      Root.id).Sublist l := by
    intro l
    induction l with
    | nil => exact List.Sublist.slnil
    | cons id l ih =>
      rw [List.filterMap_cons]
      cases hm : byId.get? id with
      | none => exact ih.cons id
      | some m =>
        rw [Option.map_some, List.map_cons]
        have : (rootOf byId (resolveRootIds byId) m).id = id := hkey id m hm
        rw [this]
        exact ih.cons_cons id
  exact (nodup_inOrder _).sublist (hids _)

theorem rooted_graphOf : Rooted (graphOf byId) where
  keyed := hkey
  nodup := nodup_roots hkey
  sorted := by
    have : Std.Total fun r r' : Root => r.age ≤ r'.age := ⟨fun r r' => le_total r.age r'.age⟩
    have : IsTrans Root fun r r' => r.age ≤ r'.age := ⟨fun _ _ _ => le_trans⟩
    exact List.pairwise_insertionSort _ _
  member r hr := by
    obtain ⟨m, hm, -, rfl⟩ := (mem_roots hkey).1 hr
    exact (mem_known byId).2 ⟨m, hm⟩
  reaches r hr x := by
    obtain ⟨m, -, -, rfl⟩ := (mem_roots hkey).1 hr
    rw [roots_ids hkey]
    exact mem_reachableFrom byId
  covered x hx := by
    obtain ⟨id, hid, hp⟩ := exists_root_reaches byId hx
    obtain ⟨m, hm⟩ := (mem_known byId).1 (resolveRootIds_subset byId hid)
    obtain rfl := hkey id m hm
    exact ⟨_, (mem_roots hkey).2 ⟨m, hm, hid, rfl⟩, (mem_reachableFrom byId).2 hp⟩
  inbound := get?_inboundRoots byId
  rootsById k r := by
    have hkeys : (((graphOf byId).roots.map fun root => (root.id, root)).map Prod.fst).Nodup := by
      rw [List.map_map]
      exact nodup_roots hkey
    have hget := Dict.get?_ofList_eq_some hkeys (k := k) (v := r)
    refine hget.trans ?_
    constructor
    · intro hm
      obtain ⟨root, hroot, he⟩ := List.mem_map.1 hm
      cases he
      exact ⟨hroot, rfl⟩
    · rintro ⟨hr, rfl⟩
      exact List.mem_map_of_mem hr

end

/-! ## Building it -/

theorem keyed_indexMembers : ∀ {members : List Member} {byId byId' : Dict String Member},
    indexMembers members byId = .ok byId' → (∀ k m, byId.get? k = some m → m.id = k) →
      ∀ k m, byId'.get? k = some m → m.id = k
  | [], _, _, h, hk => by
    cases h
    exact hk
  | member :: members, byId, byId', h, hk => by
    unfold indexMembers at h
    split at h
    · cases h
    · refine keyed_indexMembers h fun k m hm => ?_
      rw [Dict.get?_set] at hm
      split at hm
      · rename_i hid
        cases hm
        exact hid
      · exact hk k m hm

theorem buildGraph_eq {members : List Member} {g : Graph} (h : buildGraph members = .ok g) :
    ∃ byId, indexMembers members .empty = .ok byId ∧ g = graphOf byId := by
  unfold buildGraph at h
  cases hi : indexMembers members .empty with
  | error e => rw [hi] at h; cases h
  | ok byId =>
    rw [hi] at h
    cases h
    exact ⟨byId, rfl, rfl⟩

theorem rooted_of_buildGraph {members : List Member} {g : Graph} (h : buildGraph members = .ok g) : Rooted g := by
  obtain ⟨byId, hi, rfl⟩ := buildGraph_eq h
  refine rooted_graphOf (keyed_indexMembers hi fun k m hm => ?_)
  rw [Dict.get?_empty] at hm
  cases hm

theorem indexMembers_ok : ∀ {members : List Member} {byId : Dict String Member}, (members.map Member.id).Nodup →
    (∀ m ∈ members, byId.get? m.id = none) → ∃ byId', indexMembers members byId = .ok byId' ∧
      ∀ k m, byId'.get? k = some m ↔ (m ∈ members ∧ m.id = k) ∨ byId.get? k = some m
  | [], byId, _, _ => ⟨byId, rfl, by simp⟩
  | member :: members, byId, hn, hno => by
    rw [List.map_cons, List.nodup_cons] at hn
    have hhead : byId.get? member.id = none := hno member List.mem_cons_self
    have htail : ∀ m ∈ members, (byId.set member.id member).get? m.id = none := by
      intro m hm
      have hne : member.id ≠ m.id := fun he => hn.1 (he ▸ List.mem_map_of_mem hm)
      rw [Dict.get?_set_ne _ _ hne]
      exact hno m (List.mem_cons_of_mem _ hm)
    obtain ⟨byId', hi, hget⟩ := indexMembers_ok hn.2 htail
    refine ⟨byId', by rw [indexMembers, hhead]; exact hi, fun k m => ?_⟩
    rw [hget, Dict.get?_set]
    by_cases hk : member.id = k
    · subst hk
      simp only [if_true, Option.some.injEq, List.mem_cons, hhead, reduceCtorEq, or_false]
      constructor
      · rintro (⟨hm, he⟩ | rfl)
        · exact ⟨.inr hm, he⟩
        · exact ⟨.inl rfl, rfl⟩
      · rintro ⟨rfl | hm, he⟩
        · exact .inr rfl
        · exact .inl ⟨hm, he⟩
    · simp only [if_neg hk, List.mem_cons]
      constructor
      · rintro (⟨hm, he⟩ | hm)
        · exact .inl ⟨.inr hm, he⟩
        · exact .inr hm
      · rintro (⟨rfl | hm, he⟩ | hm)
        · exact absurd he hk
        · exact .inl ⟨hm, he⟩
        · exact .inr hm

theorem buildGraph_ok {members : List Member} (hn : (members.map Member.id).Nodup) :
    ∃ g, buildGraph members = .ok g ∧ g = graphOf g.members ∧
      ∀ k m, g.members.get? k = some m ↔ m ∈ members ∧ m.id = k := by
  obtain ⟨byId, hi, hget⟩ := indexMembers_ok hn (fun m _ => Dict.get?_empty m.id)
  refine ⟨graphOf byId, by rw [buildGraph, hi]; rfl, rfl, fun k m => ?_⟩
  rw [show (graphOf byId).members = byId from rfl, hget]
  simp

theorem root_of_base {byId : Dict String Member} (hkey : ∀ k m, byId.get? k = some m → m.id = k) {m : Member}
    (hm : byId.get? m.id = some m) (hb : isBaseRoot byId m = true) : ∃ r ∈ (graphOf byId).roots, r.id = m.id := by
  have hbase : m.id ∈ baseRoots byId :=
    Finset.mem_filter.2 ⟨(mem_known byId).2 ⟨m, hm⟩, by rw [hm]; exact hb⟩
  exact ⟨_, (mem_roots hkey).2 ⟨m, hm, subset_completeRoots byId _ hbase, rfl⟩, rfl⟩

theorem mem_referenced {byId : Dict String Member} {id : String} :
    id ∈ referenced byId ↔ id ∈ known byId ∧ ∃ m, (∃ k, byId.get? k = some m) ∧ id ∈ m.references := by
  unfold referenced
  rw [Finset.mem_biUnion]
  constructor
  · rintro ⟨k, hk, hid⟩
    obtain ⟨m, hm⟩ := (mem_known byId).1 hk
    rw [List.mem_toFinset, knownReferences, hm] at hid
    obtain ⟨href, hknown⟩ := List.mem_filter.1 hid
    exact ⟨of_decide_eq_true hknown, m, ⟨k, hm⟩, href⟩
  · rintro ⟨hknown, m, ⟨k, hm⟩, href⟩
    refine ⟨k, (mem_known byId).2 ⟨m, hm⟩, ?_⟩
    rw [List.mem_toFinset, knownReferences, hm]
    exact List.mem_filter.2 ⟨href, decide_eq_true hknown⟩

theorem reason_mem {byId : Dict String Member} (hkey : ∀ k m, byId.get? k = some m → m.id = k) {r : Root}
    (hr : r ∈ (graphOf byId).roots) {m : Member} (hm : byId.get? m.id = some m) (hx : m.id ∈ r.reachableIds)
    {reason : String} (h : reason ∈ memberProtectionReasons m (known byId)) : reason ∈ r.protectedReasons := by
  obtain ⟨root, -, -, rfl⟩ := (mem_roots hkey).1 hr
  refine mem_inOrder.2 (Finset.mem_union_left _ (Finset.mem_biUnion.2 ⟨m.id, hx, ?_⟩))
  rw [List.mem_toFinset, ownReasons, hm]
  exact List.mem_append_left _ h

/-- **The graph is rooted, an antichain, and the same for every order of its members.** -/
theorem graph_rooted (members : List Member) (hn : (members.map Member.id).Nodup) :
    ∃ g, buildGraph members = .ok g ∧
      (∀ r ∈ g.roots, ∀ r' ∈ g.roots, r.id ∈ r'.reachableIds ↔ r = r') ∧
      (∀ r ∈ g.roots, g.inboundRoots.get? r.id = some {r.id}) ∧
      (∀ m ∈ members, ∃ r ∈ g.roots, m.id ∈ r.reachableIds) ∧
      (∀ m ∈ members, ∃ found, g.inboundRoots.get? m.id = some found ∧
        ∀ id, id ∈ found ↔ ∃ r ∈ g.roots, r.id = id ∧ m.id ∈ r.reachableIds) ∧
      (∀ m ∈ members, m.kind = "incident" ∨ m.kind = "backup" ∨ m.kind ∉ RETENTION_KINDS ∨
        (∀ m' ∈ members, m.id ∉ m'.references) → ∃ r ∈ g.roots, r.id = m.id) ∧
      (∀ r ∈ g.roots, ∀ m ∈ members, m.id ∈ r.reachableIds →
        ∀ reason ∈ memberProtectionReasons m (members.map Member.id).toFinset, reason ∈ r.protectedReasons) ∧
      ∀ members', members'.Perm members → ∃ g', buildGraph members' = .ok g' ∧ g'.roots = g.roots ∧
        ∀ id, g'.inboundRoots.get? id = g.inboundRoots.get? id := by
  obtain ⟨g, hg, hgraph, hget⟩ := buildGraph_ok hn
  have hkey : ∀ k m, g.members.get? k = some m → m.id = k := fun k m hm => ((hget k m).1 hm).2
  have hself : ∀ m ∈ members, g.members.get? m.id = some m := fun m hm => (hget m.id m).2 ⟨hm, rfl⟩
  have hmem : ∀ m ∈ members, m.id ∈ known g.members := fun m hm => (mem_known _).2 ⟨m, hself m hm⟩
  have hknown : known g.members = (members.map Member.id).toFinset := by
    ext id
    rw [mem_known, List.mem_toFinset, List.mem_map]
    exact exists_congr fun m => hget id m
  have hr : Rooted g := rooted_of_buildGraph hg
  have hanti : ∀ r ∈ g.roots, ∀ r' ∈ g.roots, r.id ∈ r'.reachableIds ↔ r = r' := by
    intro r h r' h'
    rw [hr.reaches r' h']
    constructor
    · intro hp
      exact List.inj_on_of_nodup_map hr.nodup h h'
        (hp.eq_of_root _ (List.mem_toFinset.2 (List.mem_map_of_mem h)))
    · rintro rfl
      exact .refl
  have hinbound : ∀ m ∈ members, ∃ found, g.inboundRoots.get? m.id = some found ∧
      ∀ id, id ∈ found ↔ ∃ r ∈ g.roots, r.id = id ∧ m.id ∈ r.reachableIds := by
    intro m hm
    refine ⟨_, by rw [hr.inbound, if_pos (hmem m hm)], fun id => ?_⟩
    simp only [List.mem_toFinset, List.mem_map, List.mem_filter, decide_eq_true_eq]
    constructor
    · rintro ⟨r, ⟨h, hx⟩, rfl⟩; exact ⟨r, h, rfl, hx⟩
    · rintro ⟨r, h, rfl, hx⟩; exact ⟨r, ⟨h, hx⟩, rfl⟩
  refine ⟨g, hg, hanti, ?_, fun m hm => hr.covered m.id (hmem m hm), hinbound, ?_, ?_, ?_⟩
  · intro r h
    rw [hr.inbound, if_pos (hr.member r h)]
    congr 1
    ext id
    simp only [List.mem_toFinset, List.mem_map, List.mem_filter, decide_eq_true_eq, Finset.mem_singleton]
    constructor
    · rintro ⟨r', ⟨h', hx⟩, rfl⟩
      rw [(hanti r h r' h').1 hx]
    · rintro rfl
      exact ⟨r, ⟨h, (hanti r h r h).2 rfl⟩, rfl⟩
  · intro m hm hk
    rw [hgraph]
    refine root_of_base hkey (hself m hm) (decide_eq_true ?_)
    rcases hk with hk | hk | hk | hk
    · exact .inl (by rw [hk]; decide)
    · exact .inl (by rw [hk]; decide)
    · exact .inr (.inl hk)
    · refine .inr (.inr fun href => ?_)
      obtain ⟨-, m', ⟨k, hm'⟩, hin⟩ := mem_referenced.1 href
      exact hk m' ((hget k m').1 hm').1 hin
  · intro r h m hm hx reason hreason
    rw [hgraph] at h
    exact reason_mem hkey h (hself m hm) hx (hknown ▸ hreason)
  · intro members' hp
    obtain ⟨g', hg', hgraph', hget'⟩ := buildGraph_ok ((hp.map Member.id).nodup_iff.2 hn)
    have hsame : ∀ k, g'.members.get? k = g.members.get? k := by
      intro k
      ext m
      rw [hget', hget, hp.mem_iff]
    have hroots : g'.roots = g.roots := by rw [hgraph, hgraph', roots_congr hsame]
    refine ⟨g', hg', hroots, fun id => ?_⟩
    rw [(rooted_of_buildGraph hg').inbound, hr.inbound, hroots, known_congr hsame]

theorem graph_rooted_cycle :
    ∃ g, buildGraph [⟨"a", "bundle", "", 0, 0, ["b"], false, true, true, true, none, none, true, false⟩,
        ⟨"b", "bundle", "", 0, 0, ["a"], false, true, true, true, none, none, true, false⟩] = .ok g ∧
      ∀ r ∈ g.roots, g.inboundRoots.get? r.id = some {r.id} := by
  obtain ⟨g, hg, -, hin, -⟩ := graph_rooted
    [⟨"a", "bundle", "", 0, 0, ["b"], false, true, true, true, none, none, true, false⟩,
      ⟨"b", "bundle", "", 0, 0, ["a"], false, true, true, true, none, none, true, false⟩] (by decide)
  exact ⟨g, hg, hin⟩

end Cctally.Artifacts
