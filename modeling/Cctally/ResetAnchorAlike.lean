import Cctally.ResetAnchor

/-!
# Components that differ in their pointers only

Searches compress paths, so two histories of calls may leave different parent
pointers behind. As long as both compute the same roots and nothing else differs,
every call answers alike and keeps it so.
-/

namespace Cctally

namespace ResetAnchorComponents

section
variable {α K : Type} [LinearOrder α]

structure Alike (root : α → α) (s t : ResetAnchorComponents α K) : Prop where
  left : UnionFind.Rooted s.parent s.rank root
  right : UnionFind.Rooted t.parent s.rank root
  keys : t.parent.keys = s.parent.keys
  rank : t.rank = s.rank
  anchor : t.anchor = s.anchor
  firstOrder : t.firstOrder = s.firstOrder
  memberOrder : t.memberOrder = s.memberOrder
  buckets : t.buckets = s.buckets

/-- Alike, with counters that stand at `a` and at `b`. -/
def Like (a b : Nat) (s t : ResetAnchorComponents α K) : Prop :=
  (∃ root, Alike root s t) ∧ s.nextOrder = a ∧ t.nextOrder = b

def Agree {β : Type} (a b : Nat) (x y : Option (ResetAnchorComponents α K × β)) : Prop :=
  Option.Rel (fun p q => Like a b p.1 q.1 ∧ p.2 = q.2) x y

variable {a b : Nat} {s t : ResetAnchorComponents α K} {root : α → α}

theorem Agree.pure {β : Type} (h : Like a b s t) (v : β) : Agree a b (some (s, v)) (some (t, v)) :=
  .some ⟨h, rfl⟩

theorem Agree.bind {β γ : Type} {c d : Nat} {x y : Option (ResetAnchorComponents α K × β)}
    {f g : ResetAnchorComponents α K × β → Option (ResetAnchorComponents α K × γ)} (h : Agree a b x y)
    (hf : ∀ s t v, Like a b s t → Agree c d (f (s, v)) (g (t, v))) : Agree c d (x.bind f) (y.bind g) := by
  cases h with
  | none => exact .none
  | @some p q hpq =>
    obtain ⟨s, v⟩ := p
    obtain ⟨t, w⟩ := q
    obtain ⟨hlike, rfl⟩ := hpq
    exact hf s t v hlike

theorem Agree.of_rel {β : Type} {x y : Option (ResetAnchorComponents α K)} (h : Option.Rel (Like a b) x y) (v : β) :
    Agree a b (x.bind fun s => some (s, v)) (y.bind fun t => some (t, v)) := by
  cases h with
  | none => exact .none
  | some h => exact .pure h v

theorem Alike.eq (h : Alike root s t) :
    ∃ q m, t = { s with parent := q, nextOrder := m } := by
  refine ⟨t.parent, t.nextOrder, ?_⟩
  rw [← h.rank, ← h.anchor, ← h.firstOrder, ← h.memberOrder, ← h.buckets]

omit [LinearOrder α] in
theorem find_of_not_mem [DecidableEq α] {x : α} {parent : Dict α α} (hx : x ∉ parent.keys) (fuel : Nat) :
    UnionFind.find fuel parent x = none := by
  cases fuel with
  | zero => rfl
  | succ fuel =>
    rw [UnionFind.find, Dict.get?_eq_none.2 hx]
    rfl

theorem Alike.withParents (h : Alike root s t) {p q : Dict α α} (hp : UnionFind.Rooted p s.rank root)
    (hq : UnionFind.Rooted q s.rank root) (hpk : p.keys = s.parent.keys) (hqk : q.keys = s.parent.keys) :
    Alike root { s with parent := p } { t with parent := q } :=
  ⟨hp, hq, hqk.trans hpk.symm, h.rank, h.anchor, h.firstOrder, h.memberOrder, h.buckets⟩

theorem Alike.find (h : Alike root s t) (x : α) :
    (s.find x = .none ∧ t.find x = .none) ∨
    ∃ p q, s.find x = some ({ s with parent := p }, root x) ∧ t.find x = some ({ t with parent := q }, root x) ∧
      Alike root { s with parent := p } { t with parent := q } ∧ x ∈ p.keys ∧ p.keys = s.parent.keys := by
  by_cases hx : x ∈ s.parent.keys
  · right
    have hxt : x ∈ t.parent.keys := by
      rw [h.keys]
      exact hx
    obtain ⟨p, hfind, hp, hpk, -⟩ := h.left.find_height hx
    obtain ⟨q, hfind', hq, hqk, -⟩ := h.right.find_height hxt
    refine ⟨p, q, ?_, ?_, h.withParents hp hq hpk (hqk.trans h.keys), hpk ▸ hx, hpk⟩
    · rw [ResetAnchorComponents.find, hfind]
      rfl
    · rw [ResetAnchorComponents.find, h.rank, hfind']
      rfl
  · left
    have hxt : x ∉ t.parent.keys := by
      rw [h.keys]
      exact hx
    rw [ResetAnchorComponents.find, ResetAnchorComponents.find, find_of_not_mem hx, find_of_not_mem hxt]
    exact ⟨rfl, rfl⟩

theorem Like.canonical (h : Like a b s t) (x : α) : Agree a b (s.canonical x) (t.canonical x) := by
  obtain ⟨⟨root, h⟩, hs, ht⟩ := h
  rcases h.find x with ⟨hfind, hfind'⟩ | ⟨p, q, hfind, hfind', h', -, -⟩
  · simp only [ResetAnchorComponents.canonical, hfind, hfind', Option.bind_eq_bind, Option.bind_none]
    exact .none
  · simp only [ResetAnchorComponents.canonical, hfind, hfind', Option.bind_eq_bind, Option.bind_some]
    obtain ⟨q', m, rfl⟩ := h.eq
    cases s.anchor.get? (root x) with
    | none => exact .none
    | some anchor => exact .pure ⟨⟨root, h'⟩, hs, ht⟩ anchor

theorem Like.anchorsOf : ∀ (candidates : List α) {s t : ResetAnchorComponents α K}, Like a b s t →
    Agree a b (s.anchorsOf candidates) (t.anchorsOf candidates)
  | [], _, _, h => .pure h []
  | c :: candidates, s, t, h => by
    refine (h.canonical c).bind fun s t anchor h => ?_
    exact (Like.anchorsOf candidates h).bind fun s t anchors h => .pure h (anchor :: anchors)

variable [LinearOrder K]

theorem Like.attach (h : Alike root s t) (hs : s.nextOrder = a) (ht : t.nextOrder = b) {l r : α}
    (hl : s.parent.get? l = some l) (hr : s.parent.get? r = some r) (hl' : t.parent.get? l = some l)
    (hr' : t.parent.get? r = some r) (hne : l ≠ r)
    (hrank : UnionFind.rankOf s.rank r ≤ UnionFind.rankOf s.rank l) :
    Option.Rel (Like a b) (s.attach l r) (t.attach l r) := by
  simp only [ResetAnchorComponents.attach, h.rank, h.firstOrder, h.anchor]
  cases hkl : s.rank.get? l with
  | none => exact .none
  | some i =>
  cases hkr : s.rank.get? r with
  | none => exact .none
  | some j =>
  cases hfl : s.firstOrder.get? l with
  | none => exact .none
  | some m =>
  cases hfr : s.firstOrder.get? r with
  | none => exact .none
  | some k =>
  cases har : s.anchor.get? r with
  | none => exact .none
  | some anchor =>
    have hi : UnionFind.rankOf s.rank l = i := by rw [UnionFind.rankOf, hkl, Option.getD_some]
    have hj : UnionFind.rankOf s.rank r = j := by rw [UnionFind.rankOf, hkr, Option.getD_some]
    have hleft := h.left.link hl hr hne hrank
    have hright := h.right.link hl' hr' hne hrank
    rw [hi, hj] at hleft hright
    have hkeys : (t.parent.set r l).keys = (s.parent.set r l).keys := by
      rw [Dict.keys_set, Dict.keys_set, h.keys]
    exact .some ⟨⟨_, hleft, hright, hkeys, rfl, rfl, rfl, h.memberOrder, h.buckets⟩, hs, ht⟩

theorem Like.link (h : Alike root s t) (hs : s.nextOrder = a) (ht : t.nextOrder = b) {l r : α}
    (hl : s.parent.get? l = some l) (hr : s.parent.get? r = some r) (hl' : t.parent.get? l = some l)
    (hr' : t.parent.get? r = some r) (hne : l ≠ r) : Agree a b (s.link l r) (t.link l r) := by
  simp only [ResetAnchorComponents.link, h.rank]
  cases hkl : s.rank.get? l with
  | none => exact .none
  | some i =>
  cases hkr : s.rank.get? r with
  | none => exact .none
  | some j =>
    have hi : UnionFind.rankOf s.rank l = i := by rw [UnionFind.rankOf, hkl, Option.getD_some]
    have hj : UnionFind.rankOf s.rank r = j := by rw [UnionFind.rankOf, hkr, Option.getD_some]
    simp only [Option.bind_eq_bind, Option.bind_some]
    by_cases hlt : i < j
    · rw [if_pos hlt, if_pos hlt]
      exact .of_rel (Like.attach h hs ht hr hl hr' hl' (Ne.symm hne) (by omega)) r
    · rw [if_neg hlt, if_neg hlt]
      exact .of_rel (Like.attach h hs ht hl hr hl' hr' hne (by omega)) l

theorem Like.union (h : Like a b s t) (x y : α) : Agree a b (s.union x y) (t.union x y) := by
  obtain ⟨⟨root, h⟩, hs, ht⟩ := h
  rcases h.find x with ⟨hfind, hfind'⟩ | ⟨p, q, hfind, hfind', h, hxp, -⟩
  · simp only [ResetAnchorComponents.union, hfind, hfind', Option.bind_eq_bind, Option.bind_none]
    exact .none
  rcases h.find y with ⟨hfindy, hfindy'⟩ | ⟨p', q', hfindy, hfindy', h, hyp, hkeys⟩
  · simp only [ResetAnchorComponents.union, hfind, hfind', hfindy, hfindy', Option.bind_eq_bind, Option.bind_some,
      Option.bind_none]
    exact .none
  simp only [ResetAnchorComponents.union, hfind, hfind', hfindy, hfindy', Option.bind_eq_bind, Option.bind_some]
  by_cases heq : root x = root y
  · rw [if_pos heq, if_pos heq]
    exact .pure ⟨⟨root, h⟩, hs, ht⟩ _
  · rw [if_neg heq, if_neg heq]
    have hxp' : x ∈ p'.keys := by
      rw [hkeys]
      exact hxp
    have hq : ∀ z, z ∈ p'.keys → z ∈ q'.keys := fun z hz => h.keys ▸ hz
    exact Like.link h hs ht (h.left.get?_root hxp') (h.left.get?_root hyp) (h.right.get?_root (hq x hxp'))
      (h.right.get?_root (hq y hyp)) heq

theorem Like.unionAll : ∀ (candidates : List α) (r : α) {s t : ResetAnchorComponents α K}, Like a b s t →
    Agree a b (s.unionAll r candidates) (t.unionAll r candidates)
  | [], r, _, _, h => .pure h r
  | c :: candidates, r, _, _, h => (h.union r c).bind fun _ _ r h => Like.unionAll candidates r h

/-! ## Calls -/

theorem Like.addAgain (h : Like a b s t) (raw : α) (key : K) : Agree a b (s.addAgain raw key) (t.addAgain raw key) := by
  obtain ⟨⟨root, h⟩, hs, ht⟩ := h
  rcases h.find raw with ⟨hfind, hfind'⟩ | ⟨p, q, hfind, hfind', h', -, -⟩
  · simp only [ResetAnchorComponents.addAgain, hfind, hfind', Option.bind_eq_bind, Option.bind_none]
    exact .none
  simp only [ResetAnchorComponents.addAgain, hfind, hfind', Option.bind_eq_bind, Option.bind_some]
  obtain ⟨q', m, rfl⟩ := h.eq
  cases s.anchor.get? (root raw) with
  | none => exact .none
  | some previous =>
  cases s.memberOrder.get? raw with
  | none => exact .none
  | some memberKey =>
  cases s.firstOrder.get? (root raw) with
  | none => exact .none
  | some firstKey =>
    simp only [Option.bind_some]
    by_cases hm : key < memberKey
    · rw [if_pos hm, if_pos hm]
      by_cases hf : key < firstKey
      · rw [if_pos hf, if_pos hf]
        refine .pure ?_ _
        exact ⟨⟨root, h'.left, h'.right, h'.keys, rfl, rfl, rfl, rfl, rfl⟩, hs, ht⟩
      · rw [if_neg hf, if_neg hf]
        refine .pure ?_ _
        exact ⟨⟨root, h'.left, h'.right, h'.keys, rfl, rfl, rfl, rfl, rfl⟩, hs, ht⟩
    · rw [if_neg hm, if_neg hm]
      exact .pure ⟨⟨root, h'⟩, hs, ht⟩ _

variable (n : Nearness α K)

omit [LinearOrder K] in
theorem Like.insert (h : Like a b s t) {raw : α} (hraw : raw ∉ s.parent.keys) (key : K) :
    Like a b (s.insert n raw key) (t.insert n raw key) := by
  obtain ⟨⟨root, h⟩, hs, ht⟩ := h
  have hraw' : raw ∉ t.parent.keys := by
    rw [h.keys]
    exact hraw
  refine ⟨⟨root, h.left.insert hraw, h.right.insert hraw', ?_, ?_, ?_, ?_, ?_, ?_⟩, hs, ht⟩
  · simp only [ResetAnchorComponents.insert, Dict.keys_set, h.keys]
  · simp only [ResetAnchorComponents.insert, h.rank]
  · simp only [ResetAnchorComponents.insert, h.anchor]
  · simp only [ResetAnchorComponents.insert, h.firstOrder]
  · simp only [ResetAnchorComponents.insert, h.memberOrder]
  · simp only [ResetAnchorComponents.insert, h.buckets]

theorem Like.addNew (h : Like a b s t) {raw : α} (hraw : raw ∉ s.parent.keys) (key : K) :
    Agree a b (s.addNew n raw key) (t.addNew n raw key) := by
  have hsame : t.neighbours n raw = s.neighbours n raw := by
    obtain ⟨⟨root, h⟩, -, -⟩ := h
    simp only [ResetAnchorComponents.neighbours, h.buckets]
  simp only [ResetAnchorComponents.addNew, hsame]
  refine ((h.insert n hraw key).anchorsOf _).bind fun s t anchors h => ?_
  refine (h.unionAll _ raw).bind fun s t r h => ?_
  exact (h.canonical r).bind fun s t winner h => .pure h _

theorem Like.addKeyed (h : Like a b s t) (raw : α) (key : K) :
    Agree (a + 1) (b + 1) (s.add n raw (some key)) (t.add n raw (some key)) := by
  obtain ⟨⟨root, h⟩, hs, ht⟩ := h
  have h' : Like (a + 1) (b + 1) { s with nextOrder := s.nextOrder + 1 } { t with nextOrder := t.nextOrder + 1 } :=
    ⟨⟨root, h.left, h.right, h.keys, h.rank, h.anchor, h.firstOrder, h.memberOrder, h.buckets⟩,
      congrArg (· + 1) hs, congrArg (· + 1) ht⟩
  simp only [ResetAnchorComponents.add, Option.getD_some, h.keys]
  by_cases hraw : raw ∈ s.parent.keys
  · rw [if_pos hraw, if_pos hraw]
    exact h'.addAgain raw key
  · rw [if_neg hraw, if_neg hraw]
    exact h'.addNew n hraw key

/-- **Alike components answer alike**, and stay so, when their counters agree. -/
theorem Like.add (h : Like a a s t) (raw : α) (key : Option K) :
    Agree (a + 1) (a + 1) (s.add n raw key) (t.add n raw key) := by
  cases key with
  | some key => exact h.addKeyed n raw key
  | none =>
    have hcounter : t.nextOrder = s.nextOrder := h.2.2.trans h.2.1.symm
    have hkeyed := h.addKeyed n raw (n.unkeyed s.nextOrder)
    simp only [ResetAnchorComponents.add, Option.getD_some, Option.getD_none, hcounter] at hkeyed ⊢
    exact hkeyed

def addEach (s : ResetAnchorComponents α K) :
    List (α × Option K) → Option (ResetAnchorComponents α K × List (α × List α))
  | [] => some (s, [])
  | (raw, key) :: calls => do
    let (s, result) ← s.add n raw key
    let (s, results) ← addEach s calls
    some (s, result :: results)

theorem Like.addEach : ∀ (calls : List (α × Option K)) {a : Nat} {s t : ResetAnchorComponents α K}, Like a a s t →
    Agree (a + calls.length) (a + calls.length) (s.addEach n calls) (t.addEach n calls)
  | [], a, s, t, h => .pure h []
  | (raw, key) :: calls, a, s, t, h => by
    refine (h.add n raw key).bind fun s t result h => ?_
    have hlen : a + ((raw, key) :: calls).length = a + 1 + calls.length := by
      rw [List.length_cons]
      omega
    rw [hlen]
    exact (Like.addEach calls h).bind fun s t results h => .pure h (result :: results)

omit [LinearOrder K] in
theorem Agree.answers {β : Type} {x y : Option (ResetAnchorComponents α K × β)} (h : Agree a b x y) :
    x.map Prod.snd = y.map Prod.snd := by
  cases h with
  | none => rfl
  | some h => exact congrArg some h.2

omit [LinearOrder K] in
theorem rooted_unique {parent : Dict α α} {rank : Dict α Nat} {root root' : α → α}
    (h : UnionFind.Rooted parent rank root) (h' : UnionFind.Rooted parent rank root') : root = root' := by
  funext x
  by_cases hx : x ∈ parent.keys
  · obtain ⟨p, hfind, -⟩ := h.find_height hx
    obtain ⟨p', hfind', -⟩ := h'.find_height hx
    rw [hfind] at hfind'
    exact congrArg Prod.snd (Option.some.inj hfind')
  · rw [h.outside x hx, h'.outside x hx]

omit [LinearOrder K] in
theorem Alike.symm (h : Alike root s t) : Alike root t s := by
  refine ⟨?_, ?_, h.keys.symm, h.rank.symm, h.anchor.symm, h.firstOrder.symm, h.memberOrder.symm, h.buckets.symm⟩
  · rw [h.rank]
    exact h.right
  · rw [h.rank]
    exact h.left

omit [LinearOrder K] in
theorem Alike.through {s' : ResetAnchorComponents α K} {root' : α → α} (h : Alike root s t) (h' : Alike root' s s') :
    Alike root s' t := by
  obtain rfl := rooted_unique h.left h'.left
  refine ⟨?_, ?_, h.keys.trans h'.keys.symm, h.rank.trans h'.rank.symm, h.anchor.trans h'.anchor.symm,
    h.firstOrder.trans h'.firstOrder.symm, h.memberOrder.trans h'.memberOrder.symm, h.buckets.trans h'.buckets.symm⟩
  · rw [h'.rank]
    exact h'.right
  · rw [h'.rank]
    exact h.right

end

end ResetAnchorComponents

end Cctally
