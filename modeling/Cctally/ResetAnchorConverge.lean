import Cctally.ResetAnchorAdd

/-!
# Runs of calls, and a writer that follows them

Every sequence of calls ends in the components of its raws, so the order of the
calls does not matter. A writer that rewrites the retired anchors it stored to the
winner keeps the canonical anchor of every raw.
-/

namespace Cctally

section
variable {α K : Type} [LinearOrder α] [LinearOrder K] {n : Nearness α K} {calls : List (α × K)}
  {s : ResetAnchorComponents α K} {root : α → α} {raw : α} {key : K}

theorem components_empty (n : Nearness α K) : Components n [] ResetAnchorComponents.empty id := by
  have hkeys : ∀ x : α, x ∉ (ResetAnchorComponents.empty : ResetAnchorComponents α K).parent.keys := fun x hx => by
    cases hx
  refine ⟨⟨⟨fun _ _ => rfl, nofun, nofun⟩, fun x hx => absurd hx (hkeys x), ?_, fun x hx => absurd hx (hkeys x)⟩,
    fun x => Iff.rfl, ?_, ?_, ?_⟩
  · intro x
    exact ⟨nofun, fun hx => absurd hx (hkeys x)⟩
  · intro x k
    exact ⟨nofun, fun hk => nomatch hk.1⟩
  · intro b x
    exact ⟨nofun, fun hx => absurd hx.1 (hkeys x)⟩
  · intro x y
    constructor
    · intro hxy
      exact (show x = y from hxy) ▸ Relation.ReflTransGen.refl
    · intro hxy
      induction hxy with
      | refl => rfl
      | tail _ hbc _ => cases hbc.1

omit [LinearOrder α] [LinearOrder K] in
theorem KeysDistinct.of_sublist {calls' : List (α × K)} (h : KeysDistinct calls) (hs : calls'.Sublist calls) :
    KeysDistinct calls' :=
  fun x y k hx hy => h x y k (hs.subset hx) (hs.subset hy)

theorem Components.addAll : ∀ {rest done : List (α × K)} {s : ResetAnchorComponents α K} {root : α → α},
    Components n done s root → KeysDistinct (done ++ rest) →
      ∃ s' root', s.addAll n rest = some s' ∧ Components n (done ++ rest) s' root'
  | [], done, s, root, h, _ => ⟨s, root, rfl, by rw [List.append_nil]; exact h⟩
  | (raw, key) :: rest, done, s, root, h, hk => by
    have hdone : KeysDistinct done := hk.of_sublist (List.sublist_append_left _ _)
    obtain ⟨t, root', winner, retired, hadd, ht, -⟩ := h.add hdone raw key
    rw [List.append_cons] at hk
    obtain ⟨s', root'', hall, h'⟩ := ht.addAll hk
    refine ⟨s', root'', ?_, ?_⟩
    · simp only [ResetAnchorComponents.addAll, hadd, hall, Option.bind_eq_bind, Option.bind_some]
    · rw [List.append_cons]
      exact h'

theorem addAll_components (hk : KeysDistinct calls) :
    ∃ s root, (ResetAnchorComponents.empty : ResetAnchorComponents α K).addAll n calls = some s ∧
      Components n calls s root :=
  (components_empty n).addAll hk

/-- The value of `canonical`, without the paths it compresses. -/
def canonicalOf (s : ResetAnchorComponents α K) (raw : α) : Option α := (s.canonical raw).map Prod.snd

theorem Components.canonicalOf_eq (h : Components n calls s root) (hk : KeysDistinct calls) {x a : α}
    (hx : x ∈ calls.map Prod.fst) : canonicalOf s x = some a ↔ AnchorOf (Adjacent n) calls x a := by
  obtain ⟨s', b, hcanonical, -, -, hanchor⟩ := h.canonical hx
  rw [canonicalOf, hcanonical, Option.map_some, Option.some.injEq]
  constructor
  · intro hb
    exact hb ▸ hanchor
  · intro ha
    exact hanchor.unique hk ha

omit [LinearOrder α] [LinearOrder K] in
theorem Chain.symm {x y : α} (h : Chain (Adjacent n) calls x y) : Chain (Adjacent n) calls y x := by
  rw [chain_iff_eqvGen] at h ⊢
  exact .symm _ _ h

omit [LinearOrder α] [LinearOrder K] in
theorem Chain.trans {step : α → α → Prop} {x y z : α} (h : Chain step calls x y) (h' : Chain step calls y z) :
    Chain step calls x z := Relation.ReflTransGen.trans h h'

omit [LinearOrder α] [LinearOrder K] in
theorem Linked.snoc {x y : α} (h : Linked (Adjacent n) calls x y) : Linked (Adjacent n) (calls ++ [(raw, key)]) x y :=
  ⟨mem_raws_snoc.2 (.inl h.1), mem_raws_snoc.2 (.inl h.2.1), h.2.2⟩

omit [LinearOrder α] [LinearOrder K] in
theorem Chain.snoc {x y : α} (h : Chain (Adjacent n) calls x y) : Chain (Adjacent n) (calls ++ [(raw, key)]) x y :=
  Relation.ReflTransGen.mono (fun _ _ => Linked.snoc) _ _ h

omit [LinearOrder α] [LinearOrder K] in
theorem Chain.of_snoc {x y : α} (h : Chain (Adjacent n) (calls ++ [(raw, key)]) x y)
    (hraw : ¬ Chain (Adjacent n) (calls ++ [(raw, key)]) x raw) : Chain (Adjacent n) calls x y := by
  induction h with
  | refl => exact .refl
  | tail hxb hbc ih =>
    have hnot : ∀ {z}, Chain (Adjacent n) (calls ++ [(raw, key)]) x z → z ≠ raw := by
      intro z hz heq
      exact hraw (heq ▸ hz)
    refine ih.tail ⟨?_, ?_, hbc.2.2⟩
    · exact (mem_raws_snoc.1 hbc.1).resolve_right (hnot hxb)
    · exact (mem_raws_snoc.1 hbc.2.1).resolve_right (hnot (hxb.tail hbc))

omit [LinearOrder α] [LinearOrder K] in
theorem Chain.through {x y : α} (h : Chain (Adjacent n) (calls ++ [(raw, key)]) x y) (hx : x ∈ calls.map Prod.fst)
    (hraw : raw ∉ calls.map Prod.fst) :
    Chain (Adjacent n) calls x y ∨ ∃ c ∈ calls.map Prod.fst, Adjacent n raw c ∧ Chain (Adjacent n) calls x c := by
  induction h with
  | refl => exact .inl .refl
  | tail hxb hbc ih =>
    obtain ih | ih := ih
    · have hb := ih.mem_iff.1 hx
      obtain hc | rfl := mem_raws_snoc.1 hbc.2.1
      · exact .inl (ih.tail ⟨hb, hc, hbc.2.2⟩)
      · exact .inr ⟨_, hb, hbc.2.2.symm, ih⟩
    · exact .inr ih

omit [LinearOrder α] in
theorem AnchorOf.of_chain {x y a : α} (h : AnchorOf (Adjacent n) calls x a) (hxy : Chain (Adjacent n) calls x y) :
    AnchorOf (Adjacent n) calls y a := by
  obtain ⟨k, hk, hle⟩ := h.least
  exact ⟨hxy.symm.trans h.chain, k, hk, fun z m hz => hle z m (hxy.trans hz)⟩

omit [LinearOrder α] in
theorem AnchorOf.snoc {x a : α} (h : AnchorOf (Adjacent n) calls x a)
    (hraw : ¬ Chain (Adjacent n) (calls ++ [(raw, key)]) x raw) :
    AnchorOf (Adjacent n) (calls ++ [(raw, key)]) x a := by
  obtain ⟨k, hk, hle⟩ := h.least
  have hne : ∀ {z}, Chain (Adjacent n) (calls ++ [(raw, key)]) x z → z ≠ raw := by
    intro z hz heq
    exact hraw (heq ▸ hz)
  refine ⟨h.chain.snoc, k, (minKey_snoc_ne (hne h.chain.snoc)).2 hk, ?_⟩
  intro y m hxy hm
  exact hle y m (hxy.of_snoc hraw) ((minKey_snoc_ne (hne hxy)).1 hm)

/-! ## The writer -/

local instance lawfulAnchor : LawfulBEq α := inferInstance

def store (stored : Dict α α) (raw winner : α) (retired : List α) : Dict α α :=
  (stored.mapValues fun a => if a ∈ retired then winner else a).set raw winner

def writeAll (n : Nearness α K) (s : ResetAnchorComponents α K) (stored : Dict α α) :
    List (α × K) → Option (ResetAnchorComponents α K × Dict α α)
  | [] => some (s, stored)
  | (raw, key) :: calls => do
    let (s, winner, retired) ← s.add n raw (some key)
    writeAll n s (store stored raw winner retired) calls

def Stored (n : Nearness α K) (calls : List (α × K)) (stored : Dict α α) : Prop :=
  ∀ x a, stored.get? x = some a ↔ x ∈ calls.map Prod.fst ∧ AnchorOf (Adjacent n) calls x a

theorem anchorOf_add {winner : α} {retired : List α}
    (hw : AnchorOf (Adjacent n) (calls ++ [(raw, key)]) raw winner)
    (hr : ∀ a, a ∈ retired ↔ a ≠ winner ∧ Replaceable n calls raw a) {x a : α} (hx : x ∈ calls.map Prod.fst)
    (ha : AnchorOf (Adjacent n) calls x a) :
    AnchorOf (Adjacent n) (calls ++ [(raw, key)]) x (if a ∈ retired then winner else a) ∧
      (a ∈ retired → Chain (Adjacent n) (calls ++ [(raw, key)]) x raw) := by
  by_cases hchain : Chain (Adjacent n) (calls ++ [(raw, key)]) x raw
  · have hrep : Replaceable n calls raw a := by
      by_cases hraw : raw ∈ calls.map Prod.fst
      · exact .inl ⟨hraw, ha.of_chain ((chain_again hraw x raw).1 hchain)⟩
      · obtain hold | ⟨c, hc, hadj, hxc⟩ := hchain.through hx hraw
        · exact absurd (hold.mem_iff.1 hx) hraw
        · exact .inr ⟨hraw, .inr ⟨c, hc, hadj, ha.of_chain hxc⟩⟩
    refine ⟨?_, fun _ => hchain⟩
    by_cases haw : a = winner
    · have hnot : a ∉ retired := fun hmem => ((hr a).1 hmem).1 haw
      rw [if_neg hnot, haw]
      exact hw.of_chain hchain.symm
    · rw [if_pos ((hr a).2 ⟨haw, hrep⟩)]
      exact hw.of_chain hchain.symm
  · have hnot : a ∉ retired := by
      intro hmem
      obtain ⟨hraw, hra⟩ | ⟨hraw, rfl | ⟨c, hc, hadj, hca⟩⟩ := ((hr a).1 hmem).2
      · exact hchain (ha.chain.trans hra.chain.symm).snoc
      · exact hraw (ha.chain.mem_iff.1 hx)
      · refine hchain (Relation.ReflTransGen.tail (ha.chain.trans hca.chain.symm).snoc ?_)
        exact ⟨mem_raws_snoc.2 (.inl hc), mem_raws_snoc.2 (.inr rfl), hadj.symm⟩
    rw [if_neg hnot]
    exact ⟨ha.snoc hchain, fun hmem => absurd hmem hnot⟩

omit [LinearOrder α] in
theorem mem_raws_of_anchorOf {step : α → α → Prop} {x a : α} (h : AnchorOf step calls x a) :
    x ∈ calls.map Prod.fst := by
  obtain ⟨k, hk, -⟩ := h.least
  exact h.chain.mem_iff.2 (List.mem_map.2 ⟨_, hk.1, rfl⟩)

structure Converges (n : Nearness α K) (calls : List (α × K)) (raw : α) (key : K) (stored : Dict α α)
    (s' : ResetAnchorComponents α K) (winner : α) (retired : List α) : Prop where
  canonical : ∀ x ∈ (calls ++ [(raw, key)]).map Prod.fst, ∃ a, canonicalOf s' x = some a ∧
    (store stored raw winner retired).get? x = some a
  winner_kept : winner ∉ retired
  changed : ∀ x ∈ calls.map Prod.fst, (store stored raw winner retired).get? x ≠ stored.get? x →
    Chain (Adjacent n) (calls ++ [(raw, key)]) x raw ∧ (∃ old ∈ retired, stored.get? x = some old) ∧
      (store stored raw winner retired).get? x = some winner ∧ (raw ∈ calls.map Prod.fst → winner = raw)

theorem Stored.add {stored : Dict α α} (hs : Stored n calls stored) (hc : Components n calls s root)
    (hk : KeysDistinct (calls ++ [(raw, key)])) :
    ∃ s' root' winner retired, s.add n raw (some key) = some (s', winner, retired) ∧
      Components n (calls ++ [(raw, key)]) s' root' ∧
      Stored n (calls ++ [(raw, key)]) (store stored raw winner retired) ∧
      Converges n calls raw key stored s' winner retired := by
  have hkc : KeysDistinct calls := hk.of_sublist (List.sublist_append_left _ _)
  obtain ⟨s', root', winner, retired, hadd, h', hw, hr, hagain⟩ := hc.add hkc raw key
  have hget : ∀ x, (store stored raw winner retired).get? x =
      if raw = x then some winner else (stored.get? x).map fun a => if a ∈ retired then winner else a := by
    intro x
    rw [store, Dict.get?_set, Dict.get?_mapValues]
  -- what the writer has after the call for a raw it had before
  have hold : ∀ x a, stored.get? x = some a →
      AnchorOf (Adjacent n) (calls ++ [(raw, key)]) x (if a ∈ retired then winner else a) ∧
        (a ∈ retired → Chain (Adjacent n) (calls ++ [(raw, key)]) x raw) := by
    intro x a ha
    obtain ⟨hx, hanchor⟩ := (hs x a).1 ha
    exact anchorOf_add hw hr hx hanchor
  have hstored : Stored n (calls ++ [(raw, key)]) (store stored raw winner retired) := by
    intro x a
    rw [hget]
    by_cases hx : raw = x
    · subst hx
      rw [if_pos rfl, Option.some.injEq]
      constructor
      · intro ha
        exact ⟨mem_raws_snoc.2 (.inr rfl), ha ▸ hw⟩
      · intro ⟨_, ha⟩
        exact hw.unique hk ha
    · rw [if_neg hx, Option.map_eq_some_iff]
      constructor
      · intro ⟨b, hb, ha⟩
        have hnew := (hold x b hb).1
        rw [ha] at hnew
        exact ⟨mem_raws_of_anchorOf hnew, hnew⟩
      · intro ⟨hmem, ha⟩
        have hmem' := (mem_raws_snoc.1 hmem).resolve_right (Ne.symm hx)
        obtain ⟨t, b, -, -, -, hanchor⟩ := hc.canonical hmem'
        have hb := (hs x b).2 ⟨hmem', hanchor⟩
        exact ⟨b, hb, (hold x b hb).1.unique hk ha⟩
  refine ⟨s', root', winner, retired, hadd, h', hstored, ?_, fun hmem => ((hr winner).1 hmem).1 rfl, ?_⟩
  · intro x hx
    obtain ⟨t, a, -, -, -, hanchor⟩ := h'.canonical hx
    exact ⟨a, (h'.canonicalOf_eq hk hx).2 hanchor, (hstored x a).2 ⟨hx, hanchor⟩⟩
  · intro x hx hne
    obtain ⟨t, a, -, -, -, hanchor⟩ := hc.canonical hx
    have ha := (hs x a).2 ⟨hx, hanchor⟩
    obtain ⟨hnew, hchain⟩ := hold x a ha
    have hnext := (hstored x _).2 ⟨mem_raws_of_anchorOf hnew, hnew⟩
    rw [hnext, ha] at hne
    by_cases hmem : a ∈ retired
    · rw [if_pos hmem] at hnext
      refine ⟨hchain hmem, ⟨a, hmem, ha⟩, hnext, ?_⟩
      intro hraw
      have hxraw := (chain_again hraw x raw).1 (hchain hmem)
      obtain hwa | hwr := hagain hraw a (hanchor.of_chain hxraw)
      · exact absurd hwa.symm ((hr a).1 hmem).1
      · exact hwr
    · rw [if_neg hmem] at hne
      exact absurd rfl hne

theorem writeAll_stored : ∀ {rest done : List (α × K)} {s : ResetAnchorComponents α K} {root : α → α}
    {stored : Dict α α}, Components n done s root → Stored n done stored → KeysDistinct (done ++ rest) →
      ∃ s' root' stored', writeAll n s stored rest = some (s', stored') ∧ Components n (done ++ rest) s' root' ∧
        Stored n (done ++ rest) stored'
  | [], done, s, root, stored, h, hs, _ => ⟨s, root, stored, rfl, by rw [List.append_nil]; exact ⟨h, hs⟩⟩
  | (raw, key) :: rest, done, s, root, stored, h, hs, hk => by
    rw [List.append_cons] at hk
    obtain ⟨t, root', winner, retired, hadd, ht, hst, -⟩ :=
      hs.add h (hk.of_sublist (List.sublist_append_left _ _))
    obtain ⟨s', root'', stored', hall, h', hs'⟩ := writeAll_stored ht hst hk
    refine ⟨s', root'', stored', ?_, ?_⟩
    · simp only [writeAll, hadd, hall, Option.bind_eq_bind, Option.bind_some]
    · rw [List.append_cons]
      exact ⟨h', hs'⟩

end

/-- **The retired-anchor protocol converges**: after every call each stored anchor is the
canonical one, the winner is not retired, and what changes was retired by this very call
in a component that now holds its raw. -/
theorem stored_converges (tolerance : Nat) (calls : List (RawReset × OrderKey)) (raw : RawReset) (key : OrderKey)
    (hk : KeysDistinct (calls ++ [(raw, key)])) :
    ∃ s stored s' winner retired,
      writeAll (resetNearness tolerance) ResetAnchorComponents.empty Dict.empty calls = some (s, stored) ∧
      s.add (resetNearness tolerance) raw (some key) = some (s', winner, retired) ∧
      Converges (resetNearness tolerance) calls raw key stored s' winner retired := by
  have hempty : Stored (resetNearness tolerance) [] Dict.empty := fun x a => ⟨nofun, fun h => nomatch h.1⟩
  obtain ⟨s, root, stored, hall, hc, hs⟩ := writeAll_stored (components_empty (resetNearness tolerance)) hempty
    (hk.of_sublist (List.sublist_append_left calls _))
  obtain ⟨s', root', winner, retired, hadd, -, -, hconv⟩ := hs.add hc hk
  exact ⟨s, stored, s', winner, retired, hall, hadd, hconv⟩

def rowKey (path : String) (offset row : Int) : OrderKey := toLex (path, toLex (offset, row))

theorem keysDistinct_pair {x y : RawReset} {j k : OrderKey} (hjk : j ≠ k) : KeysDistinct [(x, j), (y, k)] := by
  intro a b m ha hb
  simp only [List.mem_cons, Prod.mk.injEq, List.not_mem_nil, or_false] at ha hb
  obtain ⟨rfl, rfl⟩ | ⟨rfl, rfl⟩ := ha
  · exact (hb.resolve_right fun h => hjk h.2).1.symm
  · exact (hb.resolve_left fun h => hjk h.2.symm).1.symm

theorem stored_converges_bridge : ∃ s stored s' winner retired,
    writeAll (resetNearness 600) ResetAnchorComponents.empty Dict.empty [(0, rowKey "b" 0 1)] = some (s, stored) ∧
      s.add (resetNearness 600) 600000000 (some (rowKey "a" 0 1)) = some (s', winner, retired) ∧
      Converges (resetNearness 600) [(0, rowKey "b" 0 1)] 600000000 (rowKey "a" 0 1) stored s' winner retired :=
  stored_converges 600 _ _ _ (keysDistinct_pair (by decide))

end Cctally
