import Cctally.ReclaimFreelist
import Mathlib

/-!
# What the freelist scan accepts

A scan returns exactly on the exact chains: the trunks are distinct pages of the
file, each lists no more leaves than a page holds, and trunks and leaves are as
many as page 1 counts. What it keeps is what the chain says of the tail pages.
-/

namespace Cctally.Reclaim

section
variable (readPage : Nat → Attempt Bytes)

def Says (trunk following : Nat) (listed : List Nat) : Prop :=
  ∃ image count, readPage trunk = .ok image ∧ unpack 4 image 0 = .ok following ∧ unpack 4 image 4 = .ok count ∧
    (List.range count).mapM (fun i => unpack 4 image (8 + 4 * i)) = .ok listed

inductive Chain : Nat → List (Nat × List Nat) → Prop
  | last : Chain 0 []
  | trunk {t following : Nat} {listed : List Nat} {rest : List (Nat × List Nat)} :
      t ≠ 0 → Says readPage t following listed → Chain following rest → Chain t ((t, listed) :: rest)

end

structure Bounded (pageCount usable : Nat) (chain : List (Nat × List Nat)) : Prop where
  distinct : (chain.map Prod.fst).Nodup
  trunks : ∀ p ∈ chain, 2 ≤ p.1 ∧ p.1 ≤ pageCount
  room : ∀ p ∈ chain, (p.2.length : Int) ≤ maxLeaves usable
  leaves : ∀ p ∈ chain, ∀ leaf ∈ p.2, 2 ≤ leaf ∧ leaf ≤ pageCount

def pagesOn (chain : List (Nat × List Nat)) : Nat := (chain.map fun p => 1 + p.2.length).sum

def linked (before : Nat) (chain : List (Nat × List Nat)) : List (Nat × Nat × List Nat) :=
  (before :: chain.map Prod.fst).zip chain

theorem linked_cons (before t : Nat) (listed : List Nat) (rest : List (Nat × List Nat)) :
    linked before ((t, listed) :: rest) = (before, t, listed) :: linked t rest := rfl

theorem bounded_cons {pageCount usable : Nat} {p : Nat × List Nat} {rest : List (Nat × List Nat)} :
    Bounded pageCount usable (p :: rest) ↔ p.1 ∉ rest.map Prod.fst ∧ (2 ≤ p.1 ∧ p.1 ≤ pageCount) ∧
      (p.2.length : Int) ≤ maxLeaves usable ∧ (∀ leaf ∈ p.2, 2 ≤ leaf ∧ leaf ≤ pageCount) ∧
      Bounded pageCount usable rest := by
  constructor
  · intro h
    obtain ⟨hnew, hd⟩ := List.nodup_cons.mp h.distinct
    obtain ⟨ht, hts⟩ := List.forall_mem_cons.mp h.trunks
    obtain ⟨hr, hrs⟩ := List.forall_mem_cons.mp h.room
    obtain ⟨hl, hls⟩ := List.forall_mem_cons.mp h.leaves
    exact ⟨hnew, ht, hr, hl, hd, hts, hrs, hls⟩
  · rintro ⟨hnew, ht, hr, hl, hd, hts, hrs, hls⟩
    exact ⟨List.nodup_cons.mpr ⟨hnew, hd⟩, List.forall_mem_cons.mpr ⟨ht, hts⟩, List.forall_mem_cons.mpr ⟨hr, hrs⟩,
      List.forall_mem_cons.mpr ⟨hl, hls⟩⟩

theorem bounded_nil (pageCount usable : Nat) : Bounded pageCount usable [] where
  distinct := List.nodup_nil
  trunks _ h := absurd h List.not_mem_nil
  room _ h := absurd h List.not_mem_nil
  leaves _ h := absurd h List.not_mem_nil

section
variable (readPage : Nat → Attempt Bytes) (freelistCount pageCount usable : Nat) (tail : Finset Nat)

def keepLeaves (trunk : Nat) (listed : List Nat) (leafOf : Dict Nat Nat) : Dict Nat Nat :=
  listed.foldl (fun leafOf leaf => if leaf ∈ tail then leafOf.set leaf trunk else leafOf) leafOf

theorem foldlM_leaves {g : Nat → Attempt Nat} {trunk : Nat} : ∀ {is : List Nat} {d d' : Dict Nat Nat},
    is.foldlM (fun leafOf i => do
      let leaf ← g i
      if ¬ (2 ≤ leaf ∧ leaf ≤ pageCount) then refuse .cyclicFreelist s!"leaf {leaf}"
      else pure (if leaf ∈ tail then leafOf.set leaf trunk else leafOf)) d = .ok d' ↔
    ∃ listed, is.mapM g = .ok listed ∧ (∀ leaf ∈ listed, 2 ≤ leaf ∧ leaf ≤ pageCount) ∧
      d' = keepLeaves tail trunk listed d
  | [], d, d' => by
    rw [List.foldlM_nil, Except.pure_eq_ok]
    constructor
    · rintro rfl
      exact ⟨[], rfl, fun _ h => absurd h List.not_mem_nil, rfl⟩
    · rintro ⟨listed, hl, -, hd⟩
      rw [List.mapM_nil, Except.pure_eq_ok] at hl
      subst hl
      exact hd
  | i :: is, d, d' => by
    rw [Except.foldlM_cons]
    constructor
    · rintro ⟨d₁, hstep, hrest⟩
      obtain ⟨leaf, hleaf, hstep⟩ := Except.bind_eq_ok.mp hstep
      obtain ⟨listed, hl, hin, rfl⟩ := foldlM_leaves.mp hrest
      split at hstep
      · exact absurd hstep (by simp [refuse])
      · rename_i hleaf'
        rw [Except.pure_eq_ok] at hstep
        subst hstep
        refine ⟨leaf :: listed, Except.mapM_cons.mpr ⟨leaf, listed, hleaf, hl, rfl⟩, ?_, rfl⟩
        intro x hx
        rcases List.mem_cons.mp hx with rfl | hx
        · exact not_not.mp hleaf'
        · exact hin x hx
    · rintro ⟨listed, hl, hin, rfl⟩
      obtain ⟨leaf, rest, hleaf, hrest, rfl⟩ := Except.mapM_cons.mp hl
      refine ⟨_, Except.bind_eq_ok.mpr ⟨leaf, hleaf, ?_⟩, foldlM_leaves.mpr
        ⟨rest, hrest, fun x hx => hin x (List.mem_cons_of_mem _ hx), rfl⟩⟩
      rw [if_neg (not_not.mpr (hin leaf List.mem_cons_self))]
      rfl

def Walk.next (w : Walk) (following : Nat) (listed : List Nat) : Walk :=
  ⟨keepLeaves tail w.trunk listed w.leafOf,
    if w.trunk ∈ tail then w.trunks.set w.trunk (w.previous, listed.length) else w.trunks,
    w.seen ++ [w.trunk], w.counted + (1 + listed.length), following, w.trunk⟩

theorem Walk.turn_eq_ok {w w' : Walk} :
    readPage w.trunk >>= w.follow freelistCount pageCount usable tail = .ok w' ↔
      ∃ following listed, Says readPage w.trunk following listed ∧ (listed.length : Int) ≤ maxLeaves usable ∧
        (∀ leaf ∈ listed, 2 ≤ leaf ∧ leaf ≤ pageCount) ∧ w.counted + (1 + listed.length) ≤ freelistCount ∧
        w' = w.next tail following listed := by
  constructor
  · intro h
    obtain ⟨image, himage, h⟩ := Except.bind_eq_ok.mp h
    obtain ⟨following, hf, h⟩ := Except.bind_eq_ok.mp h
    obtain ⟨count, hc, h⟩ := Except.bind_eq_ok.mp h
    split at h
    · exact absurd h (by simp [refuse])
    · rename_i hroom
      split at h
      · exact absurd h (by simp [refuse])
      · rename_i htotal
        obtain ⟨leafOf, hleaves, h⟩ := Except.bind_eq_ok.mp h
        obtain ⟨listed, hl, hin, rfl⟩ := (foldlM_leaves pageCount tail).mp hleaves
        have hlen : listed.length = count := by
          rw [← (Except.mapM_eq_ok.mp hl).length_eq, List.length_range]
        subst hlen
        rw [Except.pure_eq_ok] at h
        exact ⟨following, listed, ⟨image, _, himage, hf, hc, hl⟩, not_lt.mp hroom, hin, not_lt.mp htotal, h.symm ▸ rfl⟩
  · rintro ⟨following, listed, ⟨image, count, himage, hf, hc, hl⟩, hroom, hin, htotal, rfl⟩
    have hlen : listed.length = count := by
      rw [← (Except.mapM_eq_ok.mp hl).length_eq, List.length_range]
    subst hlen
    refine Except.bind_eq_ok.mpr ⟨image, himage, Except.bind_eq_ok.mpr ⟨following, hf,
      Except.bind_eq_ok.mpr ⟨_, hc, ?_⟩⟩⟩
    rw [if_neg (not_lt.mpr hroom), if_neg (not_lt.mpr htotal)]
    exact Except.bind_eq_ok.mpr ⟨_, (foldlM_leaves pageCount tail).mpr ⟨listed, hl, hin, rfl⟩, rfl⟩

/-! ## The whole walk -/

def headOf (chain : List (Nat × List Nat)) : Nat := (chain.head?.map Prod.fst).getD 0

def Walk.after : Walk → List (Nat × List Nat) → Walk
  | w, [] => w
  | w, p :: rest => (w.next tail (headOf rest) p.2).after rest

theorem Chain.eq_headOf {t : Nat} {chain : List (Nat × List Nat)} (h : Chain readPage t chain) : t = headOf chain := by
  cases h <;> rfl

theorem Walk.run_zero_trunk {turns : Nat} {w : Walk} (h : w.trunk = 0) :
    w.run readPage freelistCount pageCount usable tail turns = ([], .ok w) := by
  unfold Walk.run
  rw [if_pos h]
  rfl

theorem Walk.after_counted : ∀ (w : Walk) (chain : List (Nat × List Nat)),
    (w.after tail chain).counted = w.counted + pagesOn chain
  | w, [] => rfl
  | w, p :: rest => by
    rw [Walk.after, Walk.after_counted, pagesOn, pagesOn, List.map_cons, List.sum_cons, ← Nat.add_assoc]
    rfl

theorem Walk.chain_of_run : ∀ {turns : Nat} {w w' : Walk},
    (w.run readPage freelistCount pageCount usable tail turns).2 = .ok w' →
    ∃ chain, Chain readPage w.trunk chain ∧ Bounded pageCount usable chain ∧ (∀ p ∈ chain, p.1 ∉ w.seen) ∧
      w' = w.after tail chain := by
  intro turns
  induction turns with
  | zero =>
    intro w w' h
    unfold Walk.run at h
    split at h
    · rename_i h0
      cases h
      exact ⟨[], h0 ▸ .last, bounded_nil _ _, by simp, rfl⟩
    · split at h
      · exact absurd h (by simp [refuse])
      · exact absurd h (by simp)
  | succ turns ih =>
    intro w w' h
    unfold Walk.run at h
    split at h
    · rename_i h0
      cases h
      exact ⟨[], h0 ▸ .last, bounded_nil _ _, by simp, rfl⟩
    · rename_i h0
      split at h
      · exact absurd h (by simp [refuse])
      · rename_i hguard
        obtain ⟨hnew, hpage⟩ := not_or.mp hguard
        cases hturn : readPage w.trunk >>= w.follow freelistCount pageCount usable tail with
        | error e =>
          rw [hturn] at h
          exact absurd h (by simp)
        | ok w₁ =>
          rw [hturn] at h
          obtain ⟨following, listed, hsays, hroom, hin, -, rfl⟩ :=
            (Walk.turn_eq_ok readPage freelistCount pageCount usable tail).mp hturn
          obtain ⟨chain, hchain, hbound, hfresh, rfl⟩ := ih h
          have hhead : following = headOf chain := hchain.eq_headOf
          refine ⟨(w.trunk, listed) :: chain, .trunk h0 hsays hchain,
            bounded_cons.mpr ⟨fun hm => ?_, not_not.mp hpage, hroom, hin, hbound⟩, ?_, ?_⟩
          · obtain ⟨p, hp, hpt⟩ := List.mem_map.mp hm
            exact hfresh p hp (hpt ▸ by simp [Walk.next])
          · exact List.forall_mem_cons.mpr ⟨hnew, fun p hp hm => hfresh p hp (by simp [Walk.next, hm])⟩
          · rw [Walk.after, ← hhead]

theorem Walk.run_of_chain : ∀ {chain : List (Nat × List Nat)} {turns : Nat} {w : Walk}, Chain readPage w.trunk chain →
    Bounded pageCount usable chain → (∀ p ∈ chain, p.1 ∉ w.seen) → w.counted + pagesOn chain ≤ freelistCount →
    chain.length ≤ turns →
    w.run readPage freelistCount pageCount usable tail turns = (chain.map Prod.fst, .ok (w.after tail chain))
  | [], turns, w, hchain, _, _, _, _ => by
    have h0 : w.trunk = 0 := hchain.eq_headOf
    rw [Walk.run_zero_trunk _ _ _ _ _ h0]
    rfl
  | p :: rest, 0, _, _, _, _, _, hlen => absurd hlen (by simp)
  | p :: rest, turns + 1, w, hchain, hbound, hfresh, htotal, hlen => by
    generalize ht : w.trunk = t at hchain
    cases hchain with
    | @trunk _ following listed _ h0 hsays hrest =>
      have hcount : pagesOn ((t, listed) :: rest) = 1 + listed.length + pagesOn rest := by
        rw [pagesOn, List.map_cons, List.sum_cons]
        rfl
      obtain ⟨hdistinct, hpage, hroom, hin, hbound⟩ := bounded_cons.mp hbound
      have hturn : readPage w.trunk >>= w.follow freelistCount pageCount usable tail =
          .ok (w.next tail following listed) := by
        refine (Walk.turn_eq_ok readPage freelistCount pageCount usable tail).mpr
          ⟨following, listed, ht ▸ hsays, hroom, hin, ?_, rfl⟩
        omega
      have hguard : ¬ (w.trunk ∈ w.seen ∨ ¬ (2 ≤ w.trunk ∧ w.trunk ≤ pageCount)) := by
        rw [not_or, not_not, ht]
        exact ⟨hfresh _ List.mem_cons_self, hpage⟩
      have hfresh' : ∀ q ∈ rest, q.1 ∉ (w.next tail following listed).seen := by
        intro q hq hm
        rcases List.mem_append.mp hm with hm | hm
        · exact hfresh q (List.mem_cons_of_mem _ hq) hm
        · exact hdistinct (List.mem_map.mpr ⟨q, hq, (List.mem_singleton.mp hm).trans ht⟩)
      have htotal' : (w.next tail following listed).counted + pagesOn rest ≤ freelistCount := by
        show w.counted + (1 + listed.length) + pagesOn rest ≤ freelistCount
        omega
      have ih := Walk.run_of_chain (w := w.next tail following listed) hrest hbound hfresh' htotal'
        (Nat.le_of_succ_le_succ hlen)
      unfold Walk.run
      rw [if_neg (ht ▸ h0), if_neg hguard, hturn]
      simp only [ih, List.map_cons, ht, Walk.after, ← hrest.eq_headOf]

theorem get?_keepLeaves {trunk : Nat} : ∀ {listed : List Nat} {d : Dict Nat Nat} {leaf : Nat},
    (keepLeaves tail trunk listed d).get? leaf = if leaf ∈ listed ∧ leaf ∈ tail then some trunk else d.get? leaf
  | [], d, leaf => by simp [keepLeaves]
  | x :: listed, d, leaf => by
    rw [keepLeaves, List.foldl_cons, ← keepLeaves, get?_keepLeaves]
    by_cases hx : x ∈ tail
    · rw [if_pos hx, Dict.get?_set]
      by_cases hxl : x = leaf
      · subst hxl; simp [hx]
      · simp [hxl, Ne.symm hxl]
    · rw [if_neg hx]
      by_cases hxl : x = leaf
      · subst hxl; simp [hx]
      · simp [Ne.symm hxl]

theorem Walk.leafOf_after : ∀ {chain : List (Nat × List Nat)} {w : Walk} {leaf t : Nat}, w.trunk = headOf chain →
    (w.after tail chain).leafOf.get? leaf = some t →
    w.leafOf.get? leaf = some t ∨ leaf ∈ tail ∧ ∃ listed, (t, listed) ∈ chain ∧ leaf ∈ listed
  | [], w, leaf, t, _, h => .inl h
  | p :: rest, w, leaf, t, hw, h => by
    rw [Walk.after] at h
    rcases Walk.leafOf_after rfl h with h | ⟨ht, listed, hm, hl⟩
    · rw [Walk.next, get?_keepLeaves] at h
      split at h
      · rename_i hin
        cases h
        exact .inr ⟨hin.2, p.2, List.mem_cons.mpr (.inl (Prod.ext hw rfl)), hin.1⟩
      · exact .inl h
    · exact .inr ⟨ht, listed, List.mem_cons_of_mem _ hm, hl⟩

theorem Walk.leafOf_after_isSome : ∀ {chain : List (Nat × List Nat)} {w : Walk} {leaf : Nat},
    ((w.leafOf.get? leaf).isSome ∨ leaf ∈ tail ∧ ∃ p ∈ chain, leaf ∈ p.2) →
    ((w.after tail chain).leafOf.get? leaf).isSome
  | [], w, leaf, h => by
    rcases h with h | ⟨-, p, hp, -⟩
    · exact h
    · exact absurd hp List.not_mem_nil
  | p :: rest, w, leaf, h => by
    rw [Walk.after]
    apply Walk.leafOf_after_isSome
    rw [Walk.next, get?_keepLeaves]
    rcases h with h | ⟨ht, q, hq, hl⟩
    · left; split
      · rfl
      · exact h
    · rcases List.mem_cons.mp hq with rfl | hq
      · left; rw [if_pos ⟨hl, ht⟩]; rfl
      · exact .inr ⟨ht, q, hq, hl⟩

theorem Walk.trunks_after : ∀ {chain : List (Nat × List Nat)} {w : Walk} {t before k : Nat}, w.trunk = headOf chain →
    (chain.map Prod.fst).Nodup → (∀ p ∈ chain, w.trunks.get? p.1 = none) →
    ((w.after tail chain).trunks.get? t = some (before, k) ↔ w.trunks.get? t = some (before, k) ∨
      t ∈ tail ∧ ∃ listed, (before, t, listed) ∈ linked w.previous chain ∧ listed.length = k)
  | [], w, t, before, k, _, _, _ => by simp [Walk.after, linked]
  | (t₀, ls) :: rest, w, t, before, k, hw, hd, hnew => by
    obtain ⟨hfresh, hd⟩ := List.nodup_cons.mp hd
    have ht₀ : w.trunk = t₀ := hw
    have hnew' : ∀ p ∈ rest, (w.next tail (headOf rest) ls).trunks.get? p.1 = none := by
      intro p hp
      have hne : t₀ ≠ p.1 := fun e => hfresh (List.mem_map.mpr ⟨p, hp, e.symm⟩)
      rw [Walk.next]
      split
      · rw [ht₀, Dict.get?_set_ne _ _ hne]
        exact hnew p (List.mem_cons_of_mem _ hp)
      · exact hnew p (List.mem_cons_of_mem _ hp)
    have hnone : w.trunks.get? t₀ = none := hnew _ List.mem_cons_self
    have hnext : (w.next tail (headOf rest) ls).trunks.get? t = some (before, k) ↔
        w.trunks.get? t = some (before, k) ∨ t ∈ tail ∧ t = t₀ ∧ before = w.previous ∧ ls.length = k := by
      rw [Walk.next, ht₀]
      by_cases htail : t₀ ∈ tail
      · rw [if_pos htail, Dict.get?_set]
        by_cases ht : t₀ = t
        · subst ht
          simp [htail, hnone, eq_comm]
        · simp [ht, Ne.symm ht]
      · rw [if_neg htail]
        constructor
        · exact .inl
        · rintro (h | ⟨h, rfl, -⟩)
          · exact h
          · exact absurd h htail
    have hprev : (w.next tail (headOf rest) ls).previous = t₀ := ht₀
    rw [Walk.after, Walk.trunks_after rfl hd hnew', hnext, hprev, linked_cons, or_assoc, ← and_or_left]
    refine or_congr Iff.rfl (and_congr Iff.rfl ?_)
    constructor
    · rintro (⟨rfl, rfl, hk⟩ | ⟨listed, hm, hk⟩)
      · exact ⟨ls, List.mem_cons_self, hk⟩
      · exact ⟨listed, List.mem_cons_of_mem _ hm, hk⟩
    · rintro ⟨listed, hm, hk⟩
      rcases List.mem_cons.mp hm with he | hm
      · cases he
        exact .inl ⟨rfl, rfl, hk⟩
      · exact .inr ⟨listed, hm, hk⟩

/-! ## Reads and refusals -/

theorem unpack_error {width i : Nat} {image : Bytes} {e : Failure} (h : unpack width image i = .error e) :
    e = .structError ∧ image.length < i + width := by
  unfold unpack at h
  split at h
  · exact absurd h (by simp [pure, Except.pure])
  · rename_i hlen
    rw [Words.length_bytesAt] at hlen
    cases h
    exact ⟨rfl, by omega⟩

theorem Walk.follow_error {w : Walk} {image : Bytes} {e : Failure}
    (h : w.follow freelistCount pageCount usable tail image = .error e) :
    (∃ detail, e = .refused .cyclicFreelist detail) ∨ e = .structError ∧ image.length < max 8 usable := by
  rcases Except.bind_eq_error.mp h with h | ⟨following, -, h⟩
  · obtain ⟨rfl, hlen⟩ := unpack_error h
    exact .inr ⟨rfl, by omega⟩
  rcases Except.bind_eq_error.mp h with h | ⟨count, -, h⟩
  · obtain ⟨rfl, hlen⟩ := unpack_error h
    exact .inr ⟨rfl, by omega⟩
  split at h
  · cases h
    exact .inl ⟨_, rfl⟩
  rename_i hroom
  split at h
  · cases h
    exact .inl ⟨_, rfl⟩
  rcases Except.bind_eq_error.mp h with h | ⟨leafOf, -, h⟩
  · obtain ⟨i, hi, d, h⟩ := Except.error_of_foldlM h
    rcases Except.bind_eq_error.mp h with h | ⟨leaf, -, h⟩
    · obtain ⟨rfl, hlen⟩ := unpack_error h
      have hcount := List.mem_range.mp hi
      unfold maxLeaves at hroom
      exact .inr ⟨rfl, by omega⟩
    · split at h
      · cases h
        exact .inl ⟨_, rfl⟩
      · cases h
  · cases h

theorem Walk.reads : ∀ {turns : Nat} {w : Walk},
    (w.run readPage freelistCount pageCount usable tail turns).1.Nodup ∧
    ∀ t ∈ (w.run readPage freelistCount pageCount usable tail turns).1, t ∉ w.seen ∧ 2 ≤ t ∧ t ≤ pageCount := by
  intro turns
  induction turns with
  | zero =>
    intro w
    unfold Walk.run
    split
    · simp
    · split <;> simp
  | succ turns ih =>
    intro w
    unfold Walk.run
    split
    · simp
    · split
      · simp
      · rename_i hguard
        obtain ⟨hnew, hpage⟩ := not_or.mp hguard
        rw [not_not] at hpage
        cases hturn : readPage w.trunk >>= w.follow freelistCount pageCount usable tail with
        | error e => simpa using ⟨hnew, hpage⟩
        | ok w₁ =>
          obtain ⟨following, listed, -, -, -, -, rfl⟩ :=
            (Walk.turn_eq_ok readPage freelistCount pageCount usable tail).mp hturn
          obtain ⟨hd, hin⟩ := ih (w := w.next tail following listed)
          refine ⟨List.nodup_cons.mpr ⟨fun hm => ?_, hd⟩, List.forall_mem_cons.mpr ⟨⟨hnew, hpage⟩, fun t ht => ?_⟩⟩
          · exact (hin _ hm).1 (by simp [Walk.next])
          · exact ⟨fun hm => (hin t ht).1 (by simp [Walk.next, hm]), (hin t ht).2⟩

theorem length_le_of_pages {l : List Nat} (hd : l.Nodup) (hin : ∀ t ∈ l, 2 ≤ t ∧ t ≤ pageCount) :
    l.length ≤ pageCount - 1 := by
  have hsub : l.toFinset ⊆ Finset.Icc 2 pageCount := by
    intro t ht
    exact Finset.mem_Icc.mpr (hin t (List.mem_toFinset.mp ht))
  have hcard := Finset.card_le_card hsub
  rw [List.toFinset_card_of_nodup hd, Nat.card_Icc] at hcard
  omega

end

section
variable (pages : Nat → Bytes) (freelistCount pageCount usable : Nat) (tail : Finset Nat)

theorem Walk.run_error : ∀ {turns : Nat} {w : Walk} {e : Failure}, w.seen.Nodup →
    (∀ t ∈ w.seen, 2 ≤ t ∧ t ≤ pageCount) → pageCount ≤ turns + w.seen.length →
    (w.run (fun n => .ok (pages n)) freelistCount pageCount usable tail turns).2 = .error e →
    (∃ detail, e = .refused .cyclicFreelist detail) ∨ e = .structError ∧
      ∃ t ∈ (w.run (fun n => .ok (pages n)) freelistCount pageCount usable tail turns).1,
        (pages t).length < max 8 usable := by
  intro turns
  induction turns with
  | zero =>
    intro w e hd hin hturns h
    unfold Walk.run at h
    split at h
    · cases h
    · split at h
      · cases h
        exact .inl ⟨_, rfl⟩
      · rename_i hguard
        obtain ⟨hnew, hpage⟩ := not_or.mp hguard
        have hlen := length_le_of_pages pageCount (l := w.trunk :: w.seen) (List.nodup_cons.mpr ⟨hnew, hd⟩)
          (List.forall_mem_cons.mpr ⟨not_not.mp hpage, hin⟩)
        rw [List.length_cons] at hlen
        omega
  | succ turns ih =>
    intro w e hd hin hturns h
    unfold Walk.run at h ⊢
    split at h
    · cases h
    · split at h
      · cases h
        exact .inl ⟨_, rfl⟩
      · rename_i h0 hguard
        obtain ⟨hnew, hpage⟩ := not_or.mp hguard
        rw [if_neg h0, if_neg hguard]
        cases hturn : (Except.ok (pages w.trunk) : Attempt Bytes) >>= w.follow freelistCount pageCount usable tail with
        | error e' =>
          rw [hturn] at h
          cases h
          rw [Except.ok_bind] at hturn
          rcases Walk.follow_error freelistCount pageCount usable tail hturn with hd | ⟨he, hlen⟩
          · exact .inl hd
          · exact .inr ⟨he, w.trunk, by simp, hlen⟩
        | ok w₁ =>
          rw [hturn] at h
          obtain ⟨following, listed, -, -, -, -, rfl⟩ :=
            (Walk.turn_eq_ok (fun n => .ok (pages n)) freelistCount pageCount usable tail).mp hturn
          have hd' : (w.next tail following listed).seen.Nodup :=
            List.nodup_append.mpr ⟨hd, List.nodup_singleton _, fun a ha b hb hab =>
              hnew ((List.mem_singleton.mp hb) ▸ hab ▸ ha)⟩
          have hin' : ∀ t ∈ (w.next tail following listed).seen, 2 ≤ t ∧ t ≤ pageCount := by
            intro t ht
            rcases List.mem_append.mp ht with ht | ht
            · exact hin t ht
            · exact (List.mem_singleton.mp ht) ▸ not_not.mp hpage
          have hturns' : pageCount ≤ turns + (w.next tail following listed).seen.length := by
            rw [Walk.next, List.length_append, List.length_singleton]
            omega
          rcases ih hd' hin' hturns' h with hd | ⟨he, t, ht, hlen⟩
          · exact .inl hd
          · exact .inr ⟨he, t, List.mem_cons_of_mem _ ht, hlen⟩

def Exact (firstTrunk : Nat) (chain : List (Nat × List Nat)) : Prop :=
  Chain (fun n => .ok (pages n)) firstTrunk chain ∧ Bounded pageCount usable chain ∧ pagesOn chain = freelistCount

theorem scanFreelist_eq_ok {firstTrunk : Nat} {kept : Dict Nat Nat × Dict Nat (Nat × Nat)} :
    scanFreelist (fun n => .ok (pages n)) freelistCount pageCount usable tail firstTrunk = .ok kept ↔
      ∃ chain, Exact pages freelistCount pageCount usable firstTrunk chain ∧
        kept = (((Walk.start firstTrunk).after tail chain).leafOf, ((Walk.start firstTrunk).after tail chain).trunks) := by
  constructor
  · intro h
    obtain ⟨w, hw, h⟩ := Except.bind_eq_ok.mp h
    split at h
    · exact absurd h (by simp [refuse])
    · rename_i htotal
      obtain ⟨chain, hchain, hbound, -, rfl⟩ := Walk.chain_of_run _ _ _ _ _ hw
      rw [Except.pure_eq_ok] at h
      rw [not_not, Walk.after_counted] at htotal
      exact ⟨chain, ⟨hchain, hbound, (Nat.zero_add _).symm.trans htotal⟩, h⟩
  · rintro ⟨chain, ⟨hchain, hbound, htotal⟩, rfl⟩
    have hlen : chain.length ≤ pageCount := by
      have := length_le_of_pages pageCount (l := chain.map Prod.fst) hbound.distinct (by
        intro t ht
        obtain ⟨p, hp, rfl⟩ := List.mem_map.mp ht
        exact hbound.trunks p hp)
      rw [List.length_map] at this
      omega
    have hrun := Walk.run_of_chain (fun n => .ok (pages n)) freelistCount pageCount usable tail
      (w := Walk.start firstTrunk) hchain hbound (fun _ _ => List.not_mem_nil)
      (by rw [htotal]; exact (Nat.zero_add _).le) hlen
    refine Except.bind_eq_ok.mpr ⟨_, congrArg Prod.snd hrun, ?_⟩
    rw [if_neg (by rw [not_not, Walk.after_counted, htotal]; exact Nat.zero_add _)]
    rfl

/-- **The scan reads no page twice and at most the pages of the file; it returns exactly on the exact chains,
and then keeps what the chain says of the tail pages.** -/
theorem scanFreelist_exact (firstTrunk : Nat) :
    (scan (fun n => .ok (pages n)) freelistCount pageCount usable tail firstTrunk).1.length ≤ pageCount ∧
    (∀ e, scanFreelist (fun n => .ok (pages n)) freelistCount pageCount usable tail firstTrunk = .error e →
      (∃ detail, e = .refused .cyclicFreelist detail) ∨ e = .structError ∧
        ∃ t ∈ (scan (fun n => .ok (pages n)) freelistCount pageCount usable tail firstTrunk).1,
          (pages t).length < max 8 usable) ∧
    ((∃ kept, scanFreelist (fun n => .ok (pages n)) freelistCount pageCount usable tail firstTrunk = .ok kept) ↔
      ∃ chain, Exact pages freelistCount pageCount usable firstTrunk chain) ∧
    ∀ leafOf trunks, scanFreelist (fun n => .ok (pages n)) freelistCount pageCount usable tail firstTrunk =
        .ok (leafOf, trunks) → ∃ chain, Exact pages freelistCount pageCount usable firstTrunk chain ∧
      (∀ t before k, trunks.get? t = some (before, k) ↔
        t ∈ tail ∧ ∃ listed, (before, t, listed) ∈ linked 1 chain ∧ listed.length = k) ∧
      (∀ leaf, (leafOf.get? leaf).isSome ↔ leaf ∈ tail ∧ ∃ p ∈ chain, leaf ∈ p.2) ∧
      ∀ leaf t, leafOf.get? leaf = some t → ∃ listed, (t, listed) ∈ chain ∧ leaf ∈ listed := by
  refine ⟨?_, ?_, ?_, ?_⟩
  · obtain ⟨hd, hin⟩ := @Walk.reads (fun n => .ok (pages n)) freelistCount pageCount usable tail pageCount
      (Walk.start firstTrunk)
    have hlen := length_le_of_pages pageCount hd fun t ht => (hin t ht).2
    exact hlen.trans (Nat.sub_le _ _)
  · intro e h
    rcases Except.bind_eq_error.mp h with h | ⟨w, -, h⟩
    · exact Walk.run_error pages freelistCount pageCount usable tail List.nodup_nil
        (fun _ h => absurd h List.not_mem_nil) (Nat.le_add_right _ _) h
    · split at h
      · cases h
        exact .inl ⟨_, rfl⟩
      · cases h
  · constructor
    · rintro ⟨kept, h⟩
      obtain ⟨chain, hexact, -⟩ := (scanFreelist_eq_ok pages freelistCount pageCount usable tail).mp h
      exact ⟨chain, hexact⟩
    · rintro ⟨chain, hexact⟩
      exact ⟨_, (scanFreelist_eq_ok pages freelistCount pageCount usable tail).mpr ⟨chain, hexact, rfl⟩⟩
  · intro leafOf trunks h
    obtain ⟨chain, hexact, heq⟩ := (scanFreelist_eq_ok pages freelistCount pageCount usable tail).mp h
    obtain ⟨rfl, rfl⟩ := Prod.mk.injEq .. ▸ heq
    have hhead : (Walk.start firstTrunk).trunk = headOf chain := hexact.1.eq_headOf
    refine ⟨chain, hexact, ?_, ?_, ?_⟩
    · intro t before k
      rw [Walk.trunks_after tail hhead hexact.2.1.distinct fun p _ => rfl]
      simp [Walk.start]
    · intro leaf
      constructor
      · intro hs
        obtain ⟨t, ht⟩ := Option.isSome_iff_exists.mp hs
        rcases Walk.leafOf_after tail hhead ht with h0 | ⟨hin, listed, hm, hl⟩
        · exact absurd h0 (by simp [Walk.start])
        · exact ⟨hin, _, hm, hl⟩
      · exact fun hin => Walk.leafOf_after_isSome tail (.inr hin)
    · intro leaf t ht
      rcases Walk.leafOf_after tail hhead ht with h0 | ⟨-, hl⟩
      · exact absurd h0 (by simp [Walk.start])
      · exact hl

theorem scanFreelist_truncated :
    ¬ ((∃ kept, scanFreelist (fun _ => .ok []) 1 2 512 ∅ 2 = .ok kept) ∨
      ∃ reason detail, scanFreelist (fun _ => .ok []) 1 2 512 ∅ 2 = .error (.refused reason detail)) := by
  have h : scanFreelist (fun _ => .ok []) 1 2 512 ∅ 2 = .error .structError := rfl
  rw [h]
  simp

end

end Cctally.Reclaim
