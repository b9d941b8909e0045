import Cctally.ResetAnchorSound

/-!
# One call of `add`

A raw added again may move the anchor of its component to itself; a new raw makes
one component of those of its neighbours. Either way the components afterwards
are those of the calls with the new one.
-/

namespace Cctally

section
variable {α K : Type} [LinearOrder α] [LinearOrder K] {n : Nearness α K} {calls : List (α × K)}
  {s : ResetAnchorComponents α K} {root : α → α} {raw : α} {key : K}

omit [LinearOrder α] [LinearOrder K] in
theorem mem_raws_snoc {x : α} :
    x ∈ (calls ++ [(raw, key)]).map Prod.fst ↔ x ∈ calls.map Prod.fst ∨ x = raw := by simp

omit [LinearOrder α] in
theorem minKey_snoc_ne {x : α} (hx : x ≠ raw) {k : K} : MinKey (calls ++ [(raw, key)]) x k ↔ MinKey calls x k := by
  simp [MinKey, hx]

omit [LinearOrder α] in
theorem minKey_snoc_new (hraw : raw ∉ calls.map Prod.fst) {k : K} : MinKey (calls ++ [(raw, key)]) raw k ↔ k = key := by
  have hnone : ∀ m, (raw, m) ∉ calls := fun m hm => hraw (List.mem_map.2 ⟨_, hm, rfl⟩)
  simp only [MinKey, List.mem_append, List.mem_singleton, Prod.mk.injEq, true_and, hnone, false_or]
  constructor
  · intro h
    exact h.1
  · intro h
    subst h
    exact ⟨rfl, fun m hm => le_of_eq hm.symm⟩

omit [LinearOrder α] in
theorem MinKey.eq {x : α} {k m : K} (hk : MinKey calls x k) (hm : MinKey calls x m) : k = m :=
  le_antisymm (hk.2 m hm.1) (hm.2 k hk.1)

omit [LinearOrder α] in
theorem MinKey.snoc {m : K} (hm : MinKey calls raw m) :
    MinKey (calls ++ [(raw, key)]) raw (if key < m then key else m) := by
  have hmem : ∀ k, (raw, k) ∈ calls ++ [(raw, key)] ↔ (raw, k) ∈ calls ∨ k = key := by
    intro k
    simp
  by_cases hlt : key < m
  · rw [if_pos hlt]
    refine ⟨(hmem _).2 (.inr rfl), ?_⟩
    intro k hk
    obtain hk | rfl := (hmem k).1 hk
    · exact le_trans (le_of_lt hlt) (hm.2 k hk)
    · exact le_refl _
  · rw [if_neg hlt]
    refine ⟨(hmem _).2 (.inl hm.1), ?_⟩
    intro k hk
    obtain hk | rfl := (hmem k).1 hk
    · exact hm.2 k hk
    · exact not_lt.1 hlt

omit [LinearOrder α] [LinearOrder K] in
theorem chain_congr {step : α → α → Prop} {calls' : List (α × K)}
    (h : ∀ x, x ∈ calls.map Prod.fst ↔ x ∈ calls'.map Prod.fst) (x y : α) :
    Chain step calls x y ↔ Chain step calls' x y := by
  have hlinked : Linked step calls = Linked step calls' := by
    funext a b
    simp only [Linked, h]
  rw [Chain, Chain, hlinked]

omit [LinearOrder α] [LinearOrder K] in
theorem Chain.mem_iff {step : α → α → Prop} {x y : α} (h : Chain step calls x y) :
    x ∈ calls.map Prod.fst ↔ y ∈ calls.map Prod.fst := by
  induction h with
  | refl => exact Iff.rfl
  | tail _ hbc ih =>
    rw [ih]
    exact ⟨fun _ => hbc.2.1, fun _ => hbc.1⟩

omit [LinearOrder α] [LinearOrder K] in
theorem chain_again {step : α → α → Prop} (hraw : raw ∈ calls.map Prod.fst) (x y : α) :
    Chain step (calls ++ [(raw, key)]) x y ↔ Chain step calls x y := by
  refine chain_congr ?_ x y
  intro z
  rw [mem_raws_snoc]
  exact ⟨fun hz => hz.elim id fun hz => hz ▸ hraw, .inl⟩

/-! ## A raw that is a member -/

theorem Components.orders_again (h : Components n calls s root) {m : K} (hm : s.memberOrder.get? raw = some m) (hlt : key < m) (x : α) (k : K) :
    (s.memberOrder.set raw key).get? x = some k ↔ MinKey (calls ++ [(raw, key)]) x k := by
  rw [Dict.get?_set]
  by_cases hx : raw = x
  · subst hx
    have hmin : MinKey (calls ++ [(raw, key)]) raw (if key < m then key else m) := ((h.orders raw m).1 hm).snoc
    rw [if_pos hlt] at hmin
    rw [if_pos rfl, Option.some.injEq]
    constructor
    · intro hk
      exact hk ▸ hmin
    · intro hk
      exact hmin.eq hk
  · rw [if_neg hx, minKey_snoc_ne (Ne.symm hx)]
    exact h.orders x k

theorem Components.anchorOf (h : Components n calls s root) {x a : α} (hx : x ∈ calls.map Prod.fst)
    (ha : s.anchor.get? (root x) = some a) : AnchorOf (Adjacent n) calls x a := by
  obtain ⟨-, b, -, -, hb, hanchor⟩ := h.canonical hx
  rw [ha] at hb
  obtain rfl := Option.some.inj hb
  exact hanchor

theorem Components.anchor_iff (h : Components n calls s root) (hk : KeysDistinct calls) {x a : α}
    (hx : x ∈ calls.map Prod.fst) : s.anchor.get? (root x) = some a ↔ AnchorOf (Adjacent n) calls x a := by
  constructor
  · intro ha
    exact h.anchorOf hx ha
  · intro ha
    obtain ⟨-, b, -, -, hb, hanchor⟩ := h.canonical hx
    rw [hb, ha.unique hk hanchor]

theorem Components.again {s' : ResetAnchorComponents α K} (h : Components n calls s root)
    (hraw : raw ∈ calls.map Prod.fst) (hparent : s'.parent = s.parent) (hrank : s'.rank = s.rank)
    (hbuckets : s'.buckets = s.buckets)
    (horders : ∀ x k, s'.memberOrder.get? x = some k ↔ MinKey (calls ++ [(raw, key)]) x k)
    (hanchored : ∀ x ∈ s'.parent.keys, ∃ a k, s'.anchor.get? (root x) = some a ∧
      s'.firstOrder.get? (root x) = some k ∧ s'.FirstOf root x a k) :
    Components n (calls ++ [(raw, key)]) s' root := by
  have hadded : ∀ x, x ∈ (calls ++ [(raw, key)]).map Prod.fst ↔ x ∈ calls.map Prod.fst := by
    intro x
    rw [mem_raws_snoc]
    exact ⟨fun hx => hx.elim id fun hx => hx ▸ hraw, .inl⟩
  have hmem : ∀ x, x ∈ s'.parent.keys ↔ x ∈ (calls ++ [(raw, key)]).map Prod.fst := by
    intro x
    rw [hparent, hadded]
    exact h.members x
  refine ⟨⟨?_, ?_, ?_, hanchored⟩, hmem, horders, ?_, ?_⟩
  · rw [hparent, hrank]
    exact h.rooted
  · rw [hparent, hrank]
    exact h.ranked
  · intro x
    rw [hparent, h.members, ← hadded]
    constructor
    · intro ⟨k, hk⟩
      exact List.mem_map.2 ⟨_, ((horders x k).1 hk).1, rfl⟩
    · intro hx
      by_cases hxr : x = raw
      · subst hxr
        obtain ⟨m, hm⟩ := (h.ordered x).2 ((h.members x).2 hraw)
        exact ⟨_, (horders x _).2 ((h.orders x m).1 hm).snoc⟩
      · obtain ⟨m, hm⟩ := (h.ordered x).2 ((h.members x).2 ((hadded x).1 hx))
        exact ⟨m, (horders x m).2 ((minKey_snoc_ne hxr).2 ((h.orders x m).1 hm))⟩
  · rw [hbuckets, hparent]
    exact h.bucketed
  · intro x y
    rw [h.joins, chain_again hraw]

theorem Components.addAgain (h : Components n calls s root) (hraw : raw ∈ calls.map Prod.fst) (key : K) :
    ∃ s' previous winner retired, s.addAgain raw key = some (s', winner, retired) ∧
      Components n (calls ++ [(raw, key)]) s' root ∧ s'.anchor.get? (root raw) = some winner ∧
      s.anchor.get? (root raw) = some previous ∧ (winner = previous ∨ winner = raw) ∧
      retired = if previous ≠ winner then [previous] else [] := by
  have hmem := (h.members raw).2 hraw
  obtain ⟨t, hfind, ht, hsame, hanchor, -⟩ := h.toSound.find hmem
  have hct := h.same ht hsame
  have hmemt : raw ∈ t.parent.keys := by
    rw [hsame.keys]
    exact hmem
  obtain ⟨m, hm⟩ := (ht.ordered raw).2 hmemt
  obtain ⟨a, k, ha, hk, hf⟩ := ht.anchored raw hmemt
  have hkm : k ≤ m := hf.le raw m rfl hm
  have hprev : s.anchor.get? (root raw) = some a := by
    rw [← hanchor]
    exact ha
  -- the key of any other member is untouched
  have hother : ∀ y p, raw ≠ y → (t.memberOrder.set raw key).get? y = some p → t.memberOrder.get? y = some p := by
    intro y p hy hp
    rw [Dict.get?_set_ne _ _ hy] at hp
    exact hp
  by_cases hlt : key < m
  · have horders := hct.orders_again hm hlt
    -- the components other than that of `raw` are untouched
    have hkeep : ∀ x c p, t.FirstOf root x c p → (root x = root raw → c ≠ raw ∧ p ≤ key) →
        ResetAnchorComponents.FirstOf { t with memberOrder := t.memberOrder.set raw key } root x c p := by
      intro x c p hc hroot
      have hne : raw ≠ c := by
        intro heq
        subst heq
        exact (hroot hc.root_eq.symm).1 rfl
      refine ⟨hc.mem, hc.root_eq, ?_, ?_⟩
      · show (t.memberOrder.set raw key).get? c = some p
        rw [Dict.get?_set_ne _ _ hne]
        exact hc.order
      · intro y q hy hq
        by_cases hry : raw = y
        · subst hry
          have hq' : (t.memberOrder.set raw key).get? raw = some q := hq
          rw [Dict.get?_set_self] at hq'
          obtain rfl := Option.some.inj hq'
          exact (hroot hy.symm).2
        · exact hc.le y q hy (hother y q hry hq)
    by_cases hfirst : key < k
    · refine ⟨{ t with memberOrder := t.memberOrder.set raw key, firstOrder := t.firstOrder.set (root raw) key,
                       anchor := t.anchor.set (root raw) raw }, a, raw, _, ?_, hct.again hraw rfl rfl rfl horders ?_,
        Dict.get?_set_self _ _ _, hprev, .inr rfl, rfl⟩
      · simp only [ResetAnchorComponents.addAgain, hfind, ha, hm, hk, Option.bind_eq_bind, Option.bind_some,
          if_pos hlt, if_pos hfirst]
      · intro x hx
        by_cases hroot : root raw = root x
        · refine ⟨raw, key, ?_, ?_, hmemt, hroot, Dict.get?_set_self _ _ _, ?_⟩
          · simp only [← hroot, Dict.get?_set_self]
          · simp only [← hroot, Dict.get?_set_self]
          · intro y q hy hq
            by_cases hry : raw = y
            · subst hry
              have hq' : (t.memberOrder.set raw key).get? raw = some q := hq
              rw [Dict.get?_set_self] at hq'
              exact le_of_eq (Option.some.inj hq')
            · exact le_trans (le_of_lt hfirst) (hf.le y q (hy.trans hroot.symm) (hother y q hry hq))
        · obtain ⟨c, p, hc, hp, hfc⟩ := ht.anchored x hx
          refine ⟨c, p, ?_, ?_, ?_⟩
          · simp only [Dict.get?_set_ne _ _ hroot, hc]
          · simp only [Dict.get?_set_ne _ _ hroot, hp]
          · have hkept := hkeep x c p hfc fun heq => absurd heq.symm hroot
            exact ⟨hkept.mem, hkept.root_eq, hkept.order, hkept.le⟩
    · refine ⟨{ t with memberOrder := t.memberOrder.set raw key }, a, a, _, ?_, hct.again hraw rfl rfl rfl horders ?_,
        ha, hprev, .inl rfl, rfl⟩
      · simp only [ResetAnchorComponents.addAgain, hfind, ha, hm, hk, Option.bind_eq_bind, Option.bind_some,
          if_pos hlt, if_neg hfirst, ne_eq, not_true_eq_false, if_false]
      · intro x hx
        obtain ⟨c, p, hc, hp, hfc⟩ := ht.anchored x hx
        refine ⟨c, p, hc, hp, hkeep x c p hfc ?_⟩
        intro hroot
        rw [hroot] at hc hp
        obtain rfl := Option.some.inj (ha.symm.trans hc)
        obtain rfl := Option.some.inj (hk.symm.trans hp)
        refine ⟨?_, not_lt.1 hfirst⟩
        intro heq
        rw [heq] at hf
        rw [Option.some.inj (hf.order.symm.trans hm)] at hfirst
        exact hfirst hlt
  · refine ⟨t, a, a, _, ?_, hct.again hraw rfl rfl rfl ?_ ht.anchored, ha, hprev, .inl rfl, rfl⟩
    · simp only [ResetAnchorComponents.addAgain, hfind, ha, hm, hk, Option.bind_eq_bind, Option.bind_some, if_neg hlt,
        ne_eq, not_true_eq_false, if_false]
    · intro x p
      rw [hct.orders]
      by_cases hx : x = raw
      · subst hx
        have hmin : MinKey (calls ++ [(x, key)]) x (if key < m then key else m) := ((hct.orders x m).1 hm).snoc
        rw [if_neg hlt] at hmin
        constructor
        · intro hp
          rw [hp.eq ((hct.orders x m).1 hm)]
          exact hmin
        · intro hp
          rw [hp.eq hmin]
          exact (hct.orders x m).1 hm
      · exact (minKey_snoc_ne hx).symm

/-! ## A raw that is new -/

theorem Components.mem_neighbours (h : Components n calls s root) {c : α} :
    c ∈ s.neighbours n raw ↔ c ∈ calls.map Prod.fst ∧ Adjacent n raw c := by
  have hbucket : ∀ b, c ∈ ((s.buckets.get? b).getD []).filter (n.near raw) ↔
      (c ∈ calls.map Prod.fst ∧ n.bucket c = b) ∧ n.near raw c = true := by
    intro b
    rw [List.mem_filter, h.bucketed, h.members]
  simp only [ResetAnchorComponents.neighbours, List.flatMap_cons, List.flatMap_nil, List.append_nil, List.mem_append,
    hbucket, Adjacent]
  constructor
  · intro hc
    obtain ⟨⟨hmem, hb⟩, hnear⟩ | ⟨⟨hmem, hb⟩, hnear⟩ | ⟨⟨hmem, hb⟩, hnear⟩ := hc
    · exact ⟨hmem, by omega, hnear⟩
    · exact ⟨hmem, by omega, hnear⟩
    · exact ⟨hmem, by omega, hnear⟩
  · intro hadj
    obtain ⟨hmem, hb, hnear⟩ := hadj
    have hcases : n.bucket c = n.bucket raw - 1 ∨ n.bucket c = n.bucket raw ∨ n.bucket c = n.bucket raw + 1 := by omega
    obtain hb | hb | hb := hcases
    · exact .inl ⟨⟨hmem, hb⟩, hnear⟩
    · exact .inr (.inl ⟨⟨hmem, hb⟩, hnear⟩)
    · exact .inr (.inr ⟨⟨hmem, hb⟩, hnear⟩)

theorem Components.insert (h : Components n calls s root) (hraw : raw ∉ calls.map Prod.fst) :
    (s.insert n raw key).Sound root := by
  have hnew : raw ∉ s.parent.keys := fun hmem => hraw ((h.members raw).1 hmem)
  have hself : root raw = raw := h.rooted.outside raw hnew
  have hmem : ∀ x, x ∈ (s.insert n raw key).parent.keys ↔ x = raw ∨ x ∈ s.parent.keys := fun x => Dict.mem_keys_set
  have horder : ∀ x, raw ≠ x → (s.insert n raw key).memberOrder.get? x = s.memberOrder.get? x := fun x hx =>
    Dict.get?_set_ne _ _ hx
  have hkey : (s.insert n raw key).memberOrder.get? raw = some key := Dict.get?_set_self _ _ _
  refine ⟨h.rooted.insert hnew, ?_, ?_, ?_⟩
  · intro x hx
    show ∃ r, (s.rank.set raw 0).get? x = some r
    rw [Dict.get?_set]
    by_cases hxr : raw = x
    · exact ⟨0, if_pos hxr⟩
    · rw [if_neg hxr]
      exact h.ranked x (((hmem x).1 hx).resolve_left (Ne.symm hxr))
  · intro x
    rw [hmem]
    by_cases hxr : raw = x
    · subst hxr
      exact ⟨fun _ => .inl rfl, fun _ => ⟨key, hkey⟩⟩
    · rw [horder x hxr, h.ordered]
      exact ⟨.inr, fun hx => hx.resolve_left (Ne.symm hxr)⟩
  · intro x hx
    by_cases hxr : raw = x
    · subst hxr
      refine ⟨raw, key, ?_, ?_, hx, rfl, hkey, ?_⟩
      · rw [hself]
        exact Dict.get?_set_self _ _ _
      · rw [hself]
        exact Dict.get?_set_self _ _ _
      · intro y m hy hm
        by_cases hyr : raw = y
        · subst hyr
          rw [hkey] at hm
          exact le_of_eq (Option.some.inj hm)
        · rw [horder y hyr] at hm
          have hymem := (h.ordered y).1 ⟨m, hm⟩
          rw [hself] at hy
          exact absurd (hy ▸ (h.root_mem hymem).1) hnew
    · have hxold := ((hmem x).1 hx).resolve_left (Ne.symm hxr)
      obtain ⟨a, k, ha, hk, hf⟩ := h.anchored x hxold
      have hroot : raw ≠ root x := fun heq => hnew (heq ▸ (h.root_mem hxold).1)
      have hraw' : ∀ y, root y = root x → raw ≠ y := by
        intro y hy heq
        subst heq
        exact hroot (hself.symm.trans hy)
      refine ⟨a, k, ?_, ?_, (hmem a).2 (.inr hf.mem), hf.root_eq, ?_, ?_⟩
      · show (s.anchor.set raw raw).get? (root x) = some a
        rw [Dict.get?_set_ne _ _ hroot, ha]
      · show (s.firstOrder.set raw key).get? (root x) = some k
        rw [Dict.get?_set_ne _ _ hroot, hk]
      · rw [horder a (hraw' a hf.root_eq)]
        exact hf.order
      · intro y m hy hm
        rw [horder y (hraw' y hy)] at hm
        exact hf.le y m hy hm

theorem Components.chain_snoc (h : Components n calls s root) (x y : α) :
    Chain (Adjacent n) (calls ++ [(raw, key)]) x y ↔ root x = root y ∨
      (ResetAnchorComponents.Drawn root raw (s.neighbours n raw) x ∧
        ResetAnchorComponents.Drawn root raw (s.neighbours n raw) y) := by
  have hdrawn : ∀ z, UnionFind.Drawn (Linked (Adjacent n) calls) raw (· ∈ s.neighbours n raw) z ↔
      ResetAnchorComponents.Drawn root raw (s.neighbours n raw) z := by
    intro z
    simp only [UnionFind.Drawn, ResetAnchorComponents.Drawn, h.joins, chain_iff_eqvGen]
  have hadd := @UnionFind.eqvGen_addVertex α (Linked (Adjacent n) calls)
    (Linked (Adjacent n) (calls ++ [(raw, key)])) raw (· ∈ s.neighbours n raw) ?_ ?_ ?_ x y
  · rw [chain_iff_eqvGen, hadd, hdrawn, hdrawn, h.joins, chain_iff_eqvGen]
  · intro a b hlinked
    obtain ⟨ha, hb, hab⟩ := hlinked
    exact ⟨mem_raws_snoc.2 (.inl ha), mem_raws_snoc.2 (.inl hb), hab⟩
  · intro c hc
    obtain ⟨hmem, hadj⟩ := h.mem_neighbours.1 hc
    exact ⟨mem_raws_snoc.2 (.inl hmem), mem_raws_snoc.2 (.inr rfl), hadj.symm⟩
  · intro a b hlinked
    obtain ⟨ha, hb, hab⟩ := hlinked
    obtain haold | har := mem_raws_snoc.1 ha
    · obtain hbold | hbr := mem_raws_snoc.1 hb
      · exact .inl ⟨haold, hbold, hab⟩
      · exact .inr (.inr (.inl ⟨h.mem_neighbours.2 ⟨haold, hbr ▸ hab.symm⟩, hbr⟩))
    · obtain hbold | hbr := mem_raws_snoc.1 hb
      · exact .inr (.inl ⟨har, h.mem_neighbours.2 ⟨hbold, har ▸ hab⟩⟩)
      · exact .inr (.inr (.inr ⟨har, hbr⟩))

theorem Components.addNew (h : Components n calls s root) (hraw : raw ∉ calls.map Prod.fst) (key : K) :
    ∃ s' root' winner anchors, s.addNew n raw key =
        some (s', winner, sortedSet ((raw :: anchors).filter (· ≠ winner))) ∧
      Components n (calls ++ [(raw, key)]) s' root' ∧ s'.anchor.get? (root' raw) = some winner ∧
      ∀ a, a ∈ anchors ↔ ∃ c ∈ s.neighbours n raw, s.anchor.get? (root c) = some a := by
  obtain ⟨i, hi⟩ : ∃ i, i = s.insert n raw key := ⟨_, rfl⟩
  have hins : i.Sound root := hi ▸ h.insert hraw
  have hnew : raw ∉ s.parent.keys := fun hmem => hraw ((h.members raw).1 hmem)
  have hmem : ∀ x, x ∈ i.parent.keys ↔ x ∈ (calls ++ [(raw, key)]).map Prod.fst := by
    intro x
    rw [hi, mem_raws_snoc, ← h.members, or_comm]
    exact Dict.mem_keys_set
  have hnbr : ∀ c ∈ s.neighbours n raw, c ∈ i.parent.keys := by
    intro c hc
    rw [hmem, mem_raws_snoc]
    exact .inl (h.mem_neighbours.1 hc).1
  obtain ⟨t, anchors, hanchors, ht, hsamet, hmemA⟩ := hins.anchorsOf hnbr
  have hrawt : raw ∈ t.parent.keys := by
    rw [hsamet.keys, hmem, mem_raws_snoc]
    exact .inr rfl
  obtain ⟨u, w, root', hunion, hu, hsameu, hw, hwroot, hroots⟩ := ht.unionAll hrawt
    (fun c hc => hsamet.keys.symm ▸ hnbr c hc)
  have hwu : w ∈ u.parent.keys := by
    rw [hsameu.keys]
    exact hw
  obtain ⟨s', winner, k, hcanonical, hs', hsame', hanchor', hwinner, -⟩ := hu.canonical hwu
  have hsame := (hsamet.trans hsameu).trans hsame'
  refine ⟨s', root', winner, anchors, ?_, ⟨hs', ?_, ?_, ?_, ?_⟩, ?_, ?_⟩
  · simp only [ResetAnchorComponents.addNew, ← hi, hanchors, hunion, hcanonical, Option.bind_eq_bind, Option.bind_some]
  · intro x
    rw [hsame.keys]
    exact hmem x
  · intro x m
    rw [hsame.memberOrder, hi]
    show (s.memberOrder.set raw key).get? x = some m ↔ _
    rw [Dict.get?_set]
    by_cases hx : raw = x
    · subst hx
      rw [if_pos rfl, minKey_snoc_new hraw, Option.some.injEq, eq_comm]
    · rw [if_neg hx, minKey_snoc_ne (Ne.symm hx)]
      exact h.orders x m
  · intro b x
    rw [hsame.buckets, hsame.keys, hmem, mem_raws_snoc, ← h.members, hi]
    show x ∈ ((s.buckets.set (n.bucket raw) ((s.buckets.get? (n.bucket raw)).getD [] ++ [raw])).get? b).getD [] ↔ _
    rw [Dict.get?_set]
    by_cases hb : n.bucket raw = b
    · subst hb
      rw [if_pos rfl, Option.getD_some, List.mem_append, List.mem_singleton, h.bucketed]
      constructor
      · intro hx
        obtain ⟨hx, hb⟩ | rfl := hx
        · exact ⟨.inl hx, hb⟩
        · exact ⟨.inr rfl, rfl⟩
      · intro ⟨hx, hb⟩
        exact hx.imp_left fun hx => ⟨hx, hb⟩
    · rw [if_neg hb, h.bucketed]
      constructor
      · intro ⟨hx, hbx⟩
        exact ⟨.inl hx, hbx⟩
      · intro ⟨hx, hbx⟩
        obtain hx | rfl := hx
        · exact ⟨hx, hbx⟩
        · exact absurd hbx hb
  · intro x y
    rw [hroots, h.chain_snoc]
  · rw [hanchor', ← hwroot]
    exact hwinner
  · intro a
    rw [hmemA]
    have hold : ∀ c ∈ s.neighbours n raw, i.anchor.get? (root c) = s.anchor.get? (root c) := by
      intro c hc
      have hcmem := (h.members c).2 (h.mem_neighbours.1 hc).1
      rw [hi]
      exact Dict.get?_set_ne _ _ fun heq => hnew (heq ▸ (h.root_mem hcmem).1)
    constructor
    · intro ⟨c, hc, ha⟩
      exact ⟨c, hc, (hold c hc).symm.trans ha⟩
    · intro ⟨c, hc, ha⟩
      exact ⟨c, hc, (hold c hc).trans ha⟩

def Replaceable (n : Nearness α K) (calls : List (α × K)) (raw a : α) : Prop :=
  (raw ∈ calls.map Prod.fst ∧ AnchorOf (Adjacent n) calls raw a) ∨
    (raw ∉ calls.map Prod.fst ∧ (a = raw ∨
      ∃ c ∈ calls.map Prod.fst, Adjacent n raw c ∧ AnchorOf (Adjacent n) calls c a))

/-- **One call of `add`** leaves the components of the calls with the new one, answers the
anchor of the raw and retires the anchors it replaced. -/
theorem Components.add (h : Components n calls s root) (hk : KeysDistinct calls) (raw : α) (key : K) :
    ∃ s' root' winner retired, s.add n raw (some key) = some (s', winner, retired) ∧
      Components n (calls ++ [(raw, key)]) s' root' ∧
      AnchorOf (Adjacent n) (calls ++ [(raw, key)]) raw winner ∧
      (∀ a, a ∈ retired ↔ a ≠ winner ∧ Replaceable n calls raw a) ∧
      (raw ∈ calls.map Prod.fst → ∀ a, AnchorOf (Adjacent n) calls raw a → winner = a ∨ winner = raw) := by
  have hnext : Components n calls { s with nextOrder := s.nextOrder + 1 } root :=
    h.same ⟨h.rooted, h.ranked, h.ordered, fun x hx =>
      let ⟨a, k, ha, hk, hf⟩ := h.anchored x hx
      ⟨a, k, ha, hk, hf.mem, hf.root_eq, hf.order, hf.le⟩⟩ ⟨rfl, rfl, rfl⟩
  have hin : raw ∈ (calls ++ [(raw, key)]).map Prod.fst := mem_raws_snoc.2 (.inr rfl)
  by_cases hraw : raw ∈ calls.map Prod.fst
  · obtain ⟨s', previous, winner, retired, hadd, h', hwinner, hprev, hor, rfl⟩ := hnext.addAgain hraw key
    have hprevious := hnext.anchorOf hraw hprev
    refine ⟨s', root, winner, if previous ≠ winner then [previous] else [], ?_, h', h'.anchorOf hin hwinner, ?_, ?_⟩
    · simp only [ResetAnchorComponents.add, if_pos ((h.members raw).2 hraw), Option.getD_some, hadd]
    · intro a
      have hrep : Replaceable n calls raw a ↔ a = previous := by
        constructor
        · intro ha
          obtain ⟨-, ha⟩ | ⟨hnot, -⟩ := ha
          · exact ha.unique hk hprevious
          · exact absurd hraw hnot
        · intro ha
          exact .inl ⟨hraw, ha ▸ hprevious⟩
      rw [hrep]
      by_cases hpw : previous ≠ winner
      · rw [if_pos hpw, List.mem_singleton]
        exact ⟨fun ha => ⟨ha ▸ hpw, ha⟩, And.right⟩
      · rw [if_neg hpw]
        refine ⟨nofun, ?_⟩
        intro ⟨hne, ha⟩
        exact absurd (ha.trans (not_not.1 hpw)) hne
    · intro _ a ha
      rw [ha.unique hk hprevious]
      exact hor
  · obtain ⟨s', root', winner, anchors, hadd, h', hwinner, hanchors⟩ := hnext.addNew hraw key
    refine ⟨s', root', winner, sortedSet ((raw :: anchors).filter (· ≠ winner)), ?_, h', h'.anchorOf hin hwinner, ?_,
      fun hmem => absurd hmem hraw⟩
    · have hnot : raw ∉ s.parent.keys := fun hmem => hraw ((h.members raw).1 hmem)
      simp only [ResetAnchorComponents.add, if_neg hnot, Option.getD_some, hadd]
    · intro a
      rw [mem_sortedSet, List.mem_filter, decide_eq_true_eq, and_comm, List.mem_cons, hanchors]
      have hrep : Replaceable n calls raw a ↔ a = raw ∨
          ∃ c ∈ calls.map Prod.fst, Adjacent n raw c ∧ AnchorOf (Adjacent n) calls c a := by
        rw [Replaceable]
        simp only [hraw, false_and, not_false_eq_true, true_and, false_or]
      rw [hrep]
      refine and_congr_right fun _ => or_congr_right ?_
      constructor
      · intro ⟨c, hc, ha⟩
        obtain ⟨hmem, hadj⟩ := hnext.mem_neighbours.1 hc
        exact ⟨c, hmem, hadj, hnext.anchorOf hmem ha⟩
      · intro ⟨c, hmem, hadj, ha⟩
        exact ⟨c, hnext.mem_neighbours.2 ⟨hmem, hadj⟩, (hnext.anchor_iff hk hmem).2 ha⟩

end

end Cctally
