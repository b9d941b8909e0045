import Cctally.ResetAnchor

/-!
# Components and their anchors

Whatever the order of the calls, two raws are in one component when a chain of
added raws joins them, and the component's anchor is its member with the smallest
order key.
-/

namespace Cctally

namespace ResetAnchorComponents

section
variable {α K : Type} [LinearOrder α] [LinearOrder K]

/-! ## The forest and its anchors -/

/-- `a` is a member of the component of `x`, and `k` is the smallest order key there. -/
structure FirstOf (s : ResetAnchorComponents α K) (root : α → α) (x a : α) (k : K) : Prop where
  mem : a ∈ s.parent.keys
  root_eq : root a = root x
  order : s.memberOrder.get? a = some k
  le : ∀ y m, root y = root x → s.memberOrder.get? y = some m → k ≤ m

structure Sound (s : ResetAnchorComponents α K) (root : α → α) : Prop where
  rooted : UnionFind.Rooted s.parent s.rank root
  ranked : ∀ x ∈ s.parent.keys, ∃ r, s.rank.get? x = some r
  ordered : ∀ x, (∃ k, s.memberOrder.get? x = some k) ↔ x ∈ s.parent.keys
  anchored : ∀ x ∈ s.parent.keys, ∃ a k, s.anchor.get? (root x) = some a ∧ s.firstOrder.get? (root x) = some k ∧
    s.FirstOf root x a k

structure SameMembers (s s' : ResetAnchorComponents α K) : Prop where
  keys : s'.parent.keys = s.parent.keys
  memberOrder : s'.memberOrder = s.memberOrder
  buckets : s'.buckets = s.buckets

omit [LinearOrder α] [LinearOrder K] in
theorem SameMembers.refl (s : ResetAnchorComponents α K) : SameMembers s s := ⟨rfl, rfl, rfl⟩

omit [LinearOrder α] [LinearOrder K] in
theorem SameMembers.trans {s t u : ResetAnchorComponents α K} (h : SameMembers s t) (h' : SameMembers t u) :
    SameMembers s u :=
  ⟨h'.keys.trans h.keys, h'.memberOrder.trans h.memberOrder, h'.buckets.trans h.buckets⟩

variable {s : ResetAnchorComponents α K} {root : α → α}

theorem SameMembers.firstOf {s' : ResetAnchorComponents α K} (h : SameMembers s s') {x a : α} {k : K}
    (hf : s.FirstOf root x a k) : s'.FirstOf root x a k := by
  refine ⟨?_, hf.root_eq, ?_, ?_⟩
  · rw [h.keys]
    exact hf.mem
  · rw [h.memberOrder]
    exact hf.order
  · rw [h.memberOrder]
    exact hf.le

theorem Sound.root_mem (h : Sound s root) {x : α} (hx : x ∈ s.parent.keys) :
    root x ∈ s.parent.keys ∧ root (root x) = root x := by
  have hself := h.rooted.get?_root hx
  exact ⟨Dict.mem_keys.2 ⟨_, hself⟩, h.rooted.self _ hself⟩

theorem Sound.find (h : Sound s root) {x : α} (hx : x ∈ s.parent.keys) :
    ∃ s', s.find x = some (s', root x) ∧ Sound s' root ∧ SameMembers s s' ∧ s'.anchor = s.anchor ∧
      s'.parent.get? (root x) = some (root x) := by
  obtain ⟨parent', hfind, h', hkeys, hself⟩ := h.rooted.find_height hx
  have hsame : SameMembers s { s with parent := parent' } := ⟨hkeys, rfl, rfl⟩
  refine ⟨{ s with parent := parent' }, ?_, ⟨h', ?_, ?_, ?_⟩, hsame, rfl, hself⟩
  · rw [ResetAnchorComponents.find, hfind]
    rfl
  · intro y hy
    rw [hkeys] at hy
    exact h.ranked y hy
  · intro y
    rw [hkeys]
    exact h.ordered y
  · intro y hy
    rw [hkeys] at hy
    obtain ⟨a, k, ha, hk, hf⟩ := h.anchored y hy
    exact ⟨a, k, ha, hk, hsame.firstOf hf⟩

theorem Sound.canonical (h : Sound s root) {x : α} (hx : x ∈ s.parent.keys) :
    ∃ s' a k, s.canonical x = some (s', a) ∧ Sound s' root ∧ SameMembers s s' ∧ s'.anchor = s.anchor ∧
      s.anchor.get? (root x) = some a ∧ s.FirstOf root x a k := by
  obtain ⟨s', hfind, h', hsame, hanchor, -⟩ := h.find hx
  obtain ⟨a, k, ha, -, hf⟩ := h.anchored x hx
  refine ⟨s', a, k, ?_, h', hsame, hanchor, ha, hf⟩
  simp only [ResetAnchorComponents.canonical, hfind, Option.bind_eq_bind, Option.bind_some, hanchor, ha]

theorem Sound.rankOf (h : Sound s root) {x : α} (hx : x ∈ s.parent.keys) :
    s.rank.get? x = some (UnionFind.rankOf s.rank x) := by
  obtain ⟨r, hr⟩ := h.ranked x hx
  rw [UnionFind.rankOf, hr, Option.getD_some]

theorem redirect_of_mem {l r x : α} (hx : root x = l ∨ root x = r) : UnionFind.redirect root l r x = l := by
  unfold UnionFind.redirect
  by_cases h : root x = r
  · rw [if_pos h]
  · rw [if_neg h, hx.resolve_right h]

theorem FirstOf.redirect {l r x a : α} {k : K} (ha : a ∈ s.parent.keys) (hroot : root a = l ∨ root a = r)
    (horder : s.memberOrder.get? a = some k)
    (hle : ∀ y m, root y = l ∨ root y = r → s.memberOrder.get? y = some m → k ≤ m)
    (hx : root x = l ∨ root x = r) : s.FirstOf (UnionFind.redirect root l r) x a k := by
  refine ⟨ha, ?_, horder, ?_⟩
  · rw [redirect_of_mem hx, redirect_of_mem hroot]
  · intro y m hy hm
    rw [redirect_of_mem hx, UnionFind.redirect] at hy
    by_cases h : root y = r
    · exact hle y m (.inr h) hm
    · rw [if_neg h] at hy
      exact hle y m (.inl hy) hm

theorem Sound.attach (h : Sound s root) {l r : α} (hl : s.parent.get? l = some l) (hr : s.parent.get? r = some r)
    (hne : l ≠ r) (hrank : UnionFind.rankOf s.rank r ≤ UnionFind.rankOf s.rank l) :
    ∃ s', s.attach l r = some s' ∧ Sound s' (UnionFind.redirect root l r) ∧ SameMembers s s' := by
  have hlk : l ∈ s.parent.keys := Dict.mem_keys.2 ⟨_, hl⟩
  have hrk : r ∈ s.parent.keys := Dict.mem_keys.2 ⟨_, hr⟩
  have hrl := h.rooted.self l hl
  have hrr := h.rooted.self r hr
  obtain ⟨a, k, ha, hk, hfa⟩ := h.anchored l hlk
  obtain ⟨b, m, hb, hm, hfb⟩ := h.anchored r hrk
  rw [hrl] at ha hk
  rw [hrr] at hb hm
  obtain ⟨s', hs'⟩ : ∃ s', s.attach l r = some s' ∧ s' =
    { s with
      parent := s.parent.set r l
      rank := if UnionFind.rankOf s.rank l = UnionFind.rankOf s.rank r then
        s.rank.set l (UnionFind.rankOf s.rank l + 1) else s.rank
      anchor := (if m < k then s.anchor.set l b else s.anchor).erase r
      firstOrder := (if m < k then s.firstOrder.set l m else s.firstOrder).erase r } := by
    refine ⟨_, ?_, rfl⟩
    simp only [ResetAnchorComponents.attach, h.rankOf hlk, h.rankOf hrk, hk, hm, hb, Option.bind_eq_bind,
      Option.bind_some]
  obtain ⟨hattach, hs'⟩ := hs'
  have hkeys : s'.parent.keys = s.parent.keys := by
    rw [hs', Dict.keys_set, if_pos hrk]
  have hsame : SameMembers s s' := ⟨hkeys, by rw [hs'], by rw [hs']⟩
  have hanchor : ∀ x, x ≠ r → s'.anchor.get? x = if x = l then some (if m < k then b else a) else s.anchor.get? x := by
    intro x hx
    rw [hs']
    simp only
    rw [Dict.get?_erase, if_neg (Ne.symm hx)]
    by_cases hlt : m < k
    · simp only [if_pos hlt, Dict.get?_set, eq_comm]
    · simp only [if_neg hlt]
      by_cases hxl : x = l
      · rw [if_pos hxl, hxl, ha]
      · rw [if_neg hxl]
  have hfirst : ∀ x, x ≠ r →
      s'.firstOrder.get? x = if x = l then some (if m < k then m else k) else s.firstOrder.get? x := by
    intro x hx
    rw [hs']
    simp only
    rw [Dict.get?_erase, if_neg (Ne.symm hx)]
    by_cases hlt : m < k
    · simp only [if_pos hlt, Dict.get?_set, eq_comm]
    · simp only [if_neg hlt]
      by_cases hxl : x = l
      · rw [if_pos hxl, hxl, hk]
      · rw [if_neg hxl]
  refine ⟨s', hattach, ⟨?_, ?_, ?_, ?_⟩, hsame⟩
  · rw [hs']
    exact h.rooted.link hl hr hne hrank
  · intro x hx
    rw [hkeys] at hx
    obtain ⟨n, hn⟩ := h.ranked x hx
    rw [hs']
    simp only
    split
    · rw [Dict.get?_set]
      split
      · exact ⟨_, rfl⟩
      · exact ⟨n, hn⟩
    · exact ⟨n, hn⟩
  · intro x
    rw [hkeys, hsame.memberOrder]
    exact h.ordered x
  · intro x hx
    rw [hkeys] at hx
    by_cases hxlr : root x = l ∨ root x = r
    · have hlea : ∀ y n, root y = l → s.memberOrder.get? y = some n → k ≤ n := fun y n hy => hfa.le y n (hy.trans hrl.symm)
      have hleb : ∀ y n, root y = r → s.memberOrder.get? y = some n → m ≤ n := fun y n hy => hfb.le y n (hy.trans hrr.symm)
      rw [redirect_of_mem hxlr, hanchor l hne, hfirst l hne, if_pos rfl, if_pos rfl]
      refine ⟨_, _, rfl, rfl, hsame.firstOf ?_⟩
      by_cases hlt : m < k
      · rw [if_pos hlt, if_pos hlt]
        refine FirstOf.redirect hfb.mem (.inr (hfb.root_eq.trans hrr)) hfb.order ?_ hxlr
        intro y n hy hn
        exact hy.elim (fun hy => le_trans (le_of_lt hlt) (hlea y n hy hn)) fun hy => hleb y n hy hn
      · rw [if_neg hlt, if_neg hlt]
        refine FirstOf.redirect hfa.mem (.inl (hfa.root_eq.trans hrl)) hfa.order ?_ hxlr
        intro y n hy hn
        exact hy.elim (fun hy => hlea y n hy hn) fun hy => le_trans (not_lt.1 hlt) (hleb y n hy hn)
    · have hroot : UnionFind.redirect root l r x = root x := if_neg fun hx => hxlr (.inr hx)
      obtain ⟨c, n, hc, hn, hfc⟩ := h.anchored x hx
      have hxr : root x ≠ r := fun hx => hxlr (.inr hx)
      have hxl : root x ≠ l := fun hx => hxlr (.inl hx)
      rw [hroot, hanchor _ hxr, hfirst _ hxr, if_neg hxl, if_neg hxl]
      refine ⟨c, n, hc, hn, hsame.firstOf ⟨hfc.mem, ?_, hfc.order, ?_⟩⟩
      · rw [hroot, UnionFind.redirect, hfc.root_eq, if_neg hxr]
      · intro y p hy hp
        refine hfc.le y p ?_ hp
        rw [hroot, UnionFind.redirect] at hy
        by_cases hyr : root y = r
        · rw [if_pos hyr] at hy
          exact absurd hy.symm hxl
        · rw [if_neg hyr] at hy
          exact hy

/-! ## Uniting -/

def United (root root' : α → α) (a b : α) : Prop :=
  ∀ x y, root' x = root' y ↔
    root x = root y ∨ (root x = root a ∧ root y = root b) ∨ (root x = root b ∧ root y = root a)

theorem Sound.link (h : Sound s root) {l r : α} (hl : s.parent.get? l = some l) (hr : s.parent.get? r = some r)
    (hne : l ≠ r) :
    ∃ s' w root', s.link l r = some (s', w) ∧ Sound s' root' ∧ SameMembers s s' ∧ United root root' l r ∧
      (w = l ∨ w = r) := by
  have hlk : l ∈ s.parent.keys := Dict.mem_keys.2 ⟨_, hl⟩
  have hrk : r ∈ s.parent.keys := Dict.mem_keys.2 ⟨_, hr⟩
  have hrl := h.rooted.self l hl
  have hrr := h.rooted.self r hr
  by_cases hlt : UnionFind.rankOf s.rank l < UnionFind.rankOf s.rank r
  · obtain ⟨s', hattach, h', hsame⟩ := h.attach hr hl (Ne.symm hne) (le_of_lt hlt)
    refine ⟨s', r, _, ?_, h', hsame, ?_, .inr rfl⟩
    · simp only [ResetAnchorComponents.link, h.rankOf hlk, h.rankOf hrk, Option.bind_eq_bind, Option.bind_some,
        if_pos hlt, hattach]
    · intro x y
      rw [UnionFind.redirect_eq_iff hrr hrl]
      rw [or_comm (a := _ ∧ _)]
  · obtain ⟨s', hattach, h', hsame⟩ := h.attach hl hr hne (Nat.le_of_not_lt hlt)
    refine ⟨s', l, _, ?_, h', hsame, ?_, .inl rfl⟩
    · simp only [ResetAnchorComponents.link, h.rankOf hlk, h.rankOf hrk, Option.bind_eq_bind, Option.bind_some,
        if_neg hlt, hattach]
    · intro x y
      exact UnionFind.redirect_eq_iff hrl hrr

theorem Sound.union (h : Sound s root) {a b : α} (ha : a ∈ s.parent.keys) (hb : b ∈ s.parent.keys) :
    ∃ s' w root', s.union a b = some (s', w) ∧ Sound s' root' ∧ SameMembers s s' ∧ United root root' a b ∧
      w ∈ s.parent.keys ∧ root' w = root' a := by
  obtain ⟨t, hfinda, ht, hsamet, -, hselfa⟩ := h.find ha
  have hbt : b ∈ t.parent.keys := by
    rw [hsamet.keys]
    exact hb
  obtain ⟨u, hfindb, hu, hsameu, -, hselfb⟩ := ht.find hbt
  have hsame := hsamet.trans hsameu
  obtain ⟨hra, hrra⟩ := h.root_mem ha
  obtain ⟨hrb, hrrb⟩ := h.root_mem hb
  by_cases heq : root a = root b
  · refine ⟨u, root a, root, ?_, hu, hsame, ?_, hra, hrra⟩
    · simp only [ResetAnchorComponents.union, hfinda, hfindb, Option.bind_eq_bind, Option.bind_some, if_pos heq]
    · intro x y
      rw [heq]
      constructor
      · intro hxy
        exact .inl hxy
      · intro hxy
        obtain hxy | ⟨hx, hy⟩ | ⟨hx, hy⟩ := hxy
        · exact hxy
        · exact hx.trans hy.symm
        · exact hx.trans hy.symm
  · have hau : a ∈ u.parent.keys := by
      rw [hsame.keys]
      exact ha
    have hsa : u.parent.get? (root a) = some (root a) := hu.rooted.get?_root hau
    obtain ⟨s', w, root', hlink, h', hsame', hunited, hw⟩ := hu.link hsa hselfb heq
    refine ⟨s', w, root', ?_, h', hsame.trans hsame', ?_, ?_, ?_⟩
    · simp only [ResetAnchorComponents.union, hfinda, hfindb, Option.bind_eq_bind, Option.bind_some, if_neg heq, hlink]
    · intro x y
      rw [hunited, hrra, hrrb]
    · obtain rfl | rfl := hw
      · exact hra
      · exact hrb
    · rw [hunited, hrra, hrrb]
      obtain rfl | rfl := hw
      · exact .inl hrra
      · exact .inr (.inr ⟨hrrb, rfl⟩)

def Drawn (root : α → α) (r : α) (candidates : List α) (x : α) : Prop :=
  root x = root r ∨ ∃ c ∈ candidates, root x = root c

theorem Sound.unionAll : ∀ {candidates : List α} {s : ResetAnchorComponents α K} {root : α → α} {r : α},
    Sound s root → r ∈ s.parent.keys → (∀ c ∈ candidates, c ∈ s.parent.keys) →
      ∃ s' w root', s.unionAll r candidates = some (s', w) ∧ Sound s' root' ∧ SameMembers s s' ∧
        w ∈ s.parent.keys ∧ root' w = root' r ∧
        ∀ x y, root' x = root' y ↔ root x = root y ∨ (Drawn root r candidates x ∧ Drawn root r candidates y)
  | [], s, root, r, h, hr, _ => by
    refine ⟨s, r, root, rfl, h, SameMembers.refl s, hr, rfl, ?_⟩
    intro x y
    simp only [Drawn, List.not_mem_nil, false_and, exists_false, or_false]
    constructor
    · intro hxy
      exact .inl hxy
    · intro hxy
      exact hxy.elim id fun h => h.1.trans h.2.symm
  | c :: candidates, s, root, r, h, hr, hc => by
    obtain ⟨t, w, root', hunion, ht, hsamet, hunited, hw, hwr⟩ := h.union hr (hc c (List.mem_cons_self ..))
    have hw' : w ∈ t.parent.keys := by
      rw [hsamet.keys]
      exact hw
    have hc' : ∀ d ∈ candidates, d ∈ t.parent.keys := by
      intro d hd
      rw [hsamet.keys]
      exact hc d (List.mem_cons_of_mem _ hd)
    obtain ⟨s', v, root'', hall, h', hsame', hv, hvw, hdrawn⟩ := Sound.unionAll ht hw' hc'
    refine ⟨s', v, root'', ?_, h', hsamet.trans hsame', ?_, ?_, ?_⟩
    · simp only [ResetAnchorComponents.unionAll, hunion, Option.bind_eq_bind, Option.bind_some, hall]
    · rw [← hsamet.keys]
      exact hv
    · rw [hvw, hdrawn]
      exact .inl hwr
    · have hdr : ∀ {z}, root z = root r → Drawn root r (c :: candidates) z := fun hz => .inl hz
      have hdc : ∀ {z}, root z = root c → Drawn root r (c :: candidates) z := fun hz =>
        .inr ⟨c, List.mem_cons_self .., hz⟩
      have hstep : ∀ x, Drawn root' w candidates x ↔ Drawn root r (c :: candidates) x := by
        intro x
        unfold Drawn
        rw [hwr]
        unfold United at hunited
        simp only [hunited]
        constructor
        · intro hx
          obtain (hx | ⟨hx, -⟩ | ⟨hx, -⟩) | ⟨d, hd, hx | ⟨hx, -⟩ | ⟨hx, -⟩⟩ := hx
          · exact hdr hx
          · exact hdr hx
          · exact hdc hx
          · exact .inr ⟨d, List.mem_cons_of_mem c hd, hx⟩
          · exact hdr hx
          · exact hdc hx
        · intro hx
          obtain hx | ⟨d, hd, hx⟩ := hx
          · exact .inl (.inl hx)
          · obtain rfl | hd := List.mem_cons.1 hd
            · exact .inl (.inr (.inr ⟨hx, trivial⟩))
            · exact .inr ⟨d, hd, .inl hx⟩
      intro x y
      rw [hdrawn, hunited, hstep, hstep]
      constructor
      · intro hxy
        obtain (hxy | ⟨hx, hy⟩ | ⟨hx, hy⟩) | hxy := hxy
        · exact .inl hxy
        · exact .inr ⟨hdr hx, hdc hy⟩
        · exact .inr ⟨hdc hx, hdr hy⟩
        · exact .inr hxy
      · intro hxy
        exact hxy.elim (fun hxy => .inl (.inl hxy)) .inr

theorem Sound.anchorsOf : ∀ {candidates : List α} {s : ResetAnchorComponents α K} {root : α → α},
    Sound s root → (∀ c ∈ candidates, c ∈ s.parent.keys) →
      ∃ s' anchors, s.anchorsOf candidates = some (s', anchors) ∧ Sound s' root ∧ SameMembers s s' ∧
        ∀ a, a ∈ anchors ↔ ∃ c ∈ candidates, s.anchor.get? (root c) = some a
  | [], s, root, h, _ => ⟨s, [], rfl, h, SameMembers.refl s, by simp⟩
  | c :: candidates, s, root, h, hc => by
    obtain ⟨t, a, k, hcanonical, ht, hsame, hanchor, ha, -⟩ := h.canonical (hc c (List.mem_cons_self ..))
    have hc' : ∀ d ∈ candidates, d ∈ t.parent.keys := by
      intro d hd
      rw [hsame.keys]
      exact hc d (List.mem_cons_of_mem _ hd)
    obtain ⟨s', anchors, hall, h', hsame', hmem⟩ := Sound.anchorsOf ht hc'
    refine ⟨s', a :: anchors, ?_, h', hsame.trans hsame', ?_⟩
    · simp only [ResetAnchorComponents.anchorsOf, hcanonical, hall, Option.bind_eq_bind, Option.bind_some]
    · intro b
      rw [List.mem_cons, hmem, hanchor]
      simp only [List.mem_cons, exists_eq_or_imp, ha, Option.some.injEq]
      rw [eq_comm]

end

end ResetAnchorComponents

section
variable {α K : Type} [LinearOrder α] [LinearOrder K]

def Adjacent (n : Nearness α K) (x y : α) : Prop :=
  (n.bucket x - 1 ≤ n.bucket y ∧ n.bucket y ≤ n.bucket x + 1) ∧ n.near x y = true

def Linked (step : α → α → Prop) (calls : List (α × K)) (x y : α) : Prop :=
  x ∈ calls.map Prod.fst ∧ y ∈ calls.map Prod.fst ∧ step x y

def Chain (step : α → α → Prop) (calls : List (α × K)) (x y : α) : Prop :=
  Relation.ReflTransGen (Linked step calls) x y

def MinKey (calls : List (α × K)) (x : α) (k : K) : Prop := (x, k) ∈ calls ∧ ∀ m, (x, m) ∈ calls → k ≤ m

/-- The member of the chain-component of `x` whose smallest order key is smallest. -/
structure AnchorOf (step : α → α → Prop) (calls : List (α × K)) (x a : α) : Prop where
  chain : Chain step calls x a
  least : ∃ k, MinKey calls a k ∧ ∀ y m, Chain step calls x y → MinKey calls y m → k ≤ m

def KeysDistinct (calls : List (α × K)) : Prop := ∀ x y k, (x, k) ∈ calls → (y, k) ∈ calls → x = y

structure Components (n : Nearness α K) (calls : List (α × K)) (s : ResetAnchorComponents α K) (root : α → α) : Prop
    extends s.Sound root where
  members : ∀ x, x ∈ s.parent.keys ↔ x ∈ calls.map Prod.fst
  orders : ∀ x k, s.memberOrder.get? x = some k ↔ MinKey calls x k
  bucketed : ∀ b x, x ∈ (s.buckets.get? b).getD [] ↔ x ∈ s.parent.keys ∧ n.bucket x = b
  joins : ∀ x y, root x = root y ↔ Chain (Adjacent n) calls x y

variable {n : Nearness α K} {calls : List (α × K)} {s : ResetAnchorComponents α K} {root : α → α}

omit [LinearOrder α] [LinearOrder K] in
theorem Adjacent.symm {x y : α} (h : Adjacent n x y) : Adjacent n y x := by
  obtain ⟨⟨h₁, h₂⟩, hnear⟩ := h
  refine ⟨⟨by omega, by omega⟩, ?_⟩
  rw [n.near_comm]
  exact hnear

omit [LinearOrder α] [LinearOrder K] in
theorem chain_iff_eqvGen {x y : α} :
    Chain (Adjacent n) calls x y ↔ Relation.EqvGen (Linked (Adjacent n) calls) x y :=
  (UnionFind.eqvGen_iff_reflTransGen fun _ _ h => ⟨h.2.1, h.1, h.2.2.symm⟩).symm

omit [LinearOrder α] in
theorem AnchorOf.unique {step : α → α → Prop} (hk : KeysDistinct calls) {x a b : α} (ha : AnchorOf step calls x a)
    (hb : AnchorOf step calls x b) : a = b := by
  obtain ⟨k, hka, hla⟩ := ha.least
  obtain ⟨m, hmb, hlb⟩ := hb.least
  have hkm : k = m := le_antisymm (hla b m hb.chain hmb) (hlb a k ha.chain hka)
  subst hkm
  exact hk a b k hka.1 hmb.1

theorem Components.same {s' : ResetAnchorComponents α K} (h : Components n calls s root) (h' : s'.Sound root)
    (hsame : s.SameMembers s') : Components n calls s' root := by
  refine ⟨h', ?_, ?_, ?_, h.joins⟩
  · rw [hsame.keys]
    exact h.members
  · rw [hsame.memberOrder]
    exact h.orders
  · rw [hsame.buckets, hsame.keys]
    exact h.bucketed

theorem Components.canonical (h : Components n calls s root) {x : α} (hx : x ∈ calls.map Prod.fst) :
    ∃ s' a, s.canonical x = some (s', a) ∧ Components n calls s' root ∧ s.anchor.get? (root x) = some a ∧
      AnchorOf (Adjacent n) calls x a := by
  obtain ⟨s', a, k, hcanonical, h', hsame, -, ha, hf⟩ := h.toSound.canonical ((h.members x).2 hx)
  refine ⟨s', a, hcanonical, h.same h' hsame, ha, ?_, k, (h.orders a k).1 hf.order, ?_⟩
  · rw [← h.joins]
    exact hf.root_eq.symm
  · intro y m hxy hm
    rw [← h.joins] at hxy
    exact hf.le y m hxy.symm ((h.orders y m).2 hm)

end

end Cctally
