import Cctally.Least
import Cctally.ResetAnchorAlike
import Cctally.ResetAnchorConverge
import Mathlib.Algebra.BigOperators.Group.List.Lemmas
import Mathlib.Algebra.BigOperators.Ring.Finset

/-!
# Components from evidence

The seed adds every row in the order of the keys. The evidence keeps one entry for
each spelling of a reset, with its smallest key and the number of its rows. Both
add each raw for the first time with the same key, in the same order, and what
they add again changes no more than pointers.
-/

namespace Cctally

section
variable {α K ρ : Type} [LinearOrder α] [LinearOrder K] [DecidableEq ρ]

namespace ResetAnchorComponents

variable (n : Nearness α K)

def sortEvidence (entries : List (α × K × Int)) : List (α × K × Int) := entries.insertionSort fun d e => d.2.1 ≤ e.2.1

def totalRows (entries : List (α × K × Int)) : Int := (entries.map fun e => e.2.2).sum

/-- `from_evidence`; `none` for a `ValueError`. -/
def fromEvidence (entries : List (α × K × Int)) : Option (ResetAnchorComponents α K) :=
  if entries.any fun e => e.2.2 < 1 then none
  else
    (empty.addAll n ((sortEvidence entries).map fun e => (e.1, e.2.1))).map fun s =>
      { s with nextOrder := (totalRows entries).toNat }

def seedRows (parse : ρ → α) (rows : List (ρ × K)) : Option (ResetAnchorComponents α K) :=
  empty.addAll n ((rows.insertionSort fun d e => d.2 ≤ e.2).map fun row => (parse row.1, row.2))

end ResetAnchorComponents

def keysOf (rows : List (ρ × K)) (spelling : ρ) : List K := (rows.filter fun row => row.1 = spelling).map Prod.snd

def evidenceOf (parse : ρ → α) (rows : List (ρ × K)) : List (α × K × Int) :=
  (rows.map Prod.fst).dedup.filterMap fun spelling =>
    (Least.least id (keysOf rows spelling)).map fun key => (parse spelling, key, ((rows.map Prod.fst).count spelling : Int))

/-! ## First calls -/

local instance lawfulRaw : LawfulBEq α := inferInstance

def firsts (calls : List (α × K)) : List (α × K) :=
  calls.foldl (fun out call => if call.1 ∈ out.map Prod.fst then out else out ++ [call]) []

variable {calls : List (α × K)} {raw : α} {key : K}

omit [LinearOrder K] in
theorem firsts_step (calls : List (α × K)) (call : α × K) : firsts (calls ++ [call]) =
    if call.1 ∈ (firsts calls).map Prod.fst then firsts calls else firsts calls ++ [call] := by
  rw [firsts, List.foldl_append]
  rfl

omit [LinearOrder K] in
theorem mem_raws_firsts (x : α) : x ∈ (firsts calls).map Prod.fst ↔ x ∈ calls.map Prod.fst := by
  induction calls using List.reverseRecOn with
  | nil => rfl
  | append_singleton calls call ih =>
    obtain ⟨raw, key⟩ := call
    rw [firsts_step, mem_raws_snoc]
    by_cases hraw : raw ∈ (firsts calls).map Prod.fst
    · rw [if_pos hraw, ih]
      constructor
      · exact .inl
      · intro hor
        rcases hor with hx | rfl
        · exact hx
        · exact ih.1 hraw
    · rw [if_neg hraw, mem_raws_snoc, ih]

omit [LinearOrder K] in
theorem firsts_snoc (calls : List (α × K)) (call : α × K) : firsts (calls ++ [call]) =
    if call.1 ∈ calls.map Prod.fst then firsts calls else firsts calls ++ [call] := by
  rw [firsts_step]
  simp only [mem_raws_firsts]

def Ascending (calls : List (α × K)) : Prop := calls.Pairwise fun c d => c.2 < d.2

omit [LinearOrder α] in
theorem Ascending.snoc (h : Ascending (calls ++ [(raw, key)])) :
    Ascending calls ∧ ∀ x k, (x, k) ∈ calls → k < key := by
  obtain ⟨hcalls, -, hlt⟩ := List.pairwise_append.1 h
  exact ⟨hcalls, fun x k hx => hlt _ hx _ (List.mem_singleton_self _)⟩

omit [LinearOrder α] in
theorem Ascending.keysDistinct (h : Ascending calls) : KeysDistinct calls := by
  intro x y k hx hy
  have hinj := List.inj_on_of_nodup_map (f := Prod.snd) (List.pairwise_map.2 (h.imp fun hlt => hlt.ne)) hx hy rfl
  exact congrArg Prod.fst hinj

theorem mem_firsts (h : Ascending calls) (x : α) (k : K) : (x, k) ∈ firsts calls ↔ MinKey calls x k := by
  induction calls using List.reverseRecOn generalizing k with
  | nil => exact ⟨nofun, fun hmin => hmin.1⟩
  | append_singleton calls call ih =>
    obtain ⟨raw, key⟩ := call
    obtain ⟨hcalls, hlt⟩ := h.snoc
    rw [firsts_snoc]
    by_cases hraw : raw ∈ calls.map Prod.fst
    · rw [if_pos hraw, ih hcalls]
      by_cases hx : x = raw
      · subst hx
        obtain ⟨m, hm⟩ : ∃ m, (x, m) ∈ calls := by simpa using hraw
        constructor
        · intro hk
          have hsnoc : MinKey (calls ++ [(x, key)]) x (if key < k then key else k) := hk.snoc
          rwa [if_neg (not_lt.2 (hlt x k hk.1).le)] at hsnoc
        · intro hk
          have hne : k ≠ key := fun heq => absurd (hk.2 m (List.mem_append_left _ hm)) (not_le.2 (heq ▸ hlt x m hm))
          refine ⟨?_, fun l hl => hk.2 l (List.mem_append_left _ hl)⟩
          simpa [hne] using hk.1
      · rw [minKey_snoc_ne hx]
    · rw [if_neg hraw, List.mem_append, ih hcalls, List.mem_singleton]
      by_cases hx : x = raw
      · subst hx
        rw [minKey_snoc_new hraw]
        constructor
        · intro hor
          rcases hor with hmin | heq
          · exact absurd (List.mem_map_of_mem hmin.1) hraw
          · exact congrArg Prod.snd heq
        · intro heq
          exact .inr (by rw [heq])
      · rw [minKey_snoc_ne hx]
        exact or_iff_left fun heq => hx (congrArg Prod.fst heq)

theorem ascending_firsts (h : Ascending calls) : Ascending (firsts calls) := by
  induction calls using List.reverseRecOn with
  | nil => exact .nil
  | append_singleton calls call ih =>
    obtain ⟨raw, key⟩ := call
    obtain ⟨hcalls, hlt⟩ := h.snoc
    rw [firsts_snoc]
    by_cases hraw : raw ∈ calls.map Prod.fst
    · rw [if_pos hraw]
      exact ih hcalls
    · rw [if_neg hraw]
      refine List.pairwise_append.2 ⟨ih hcalls, List.pairwise_singleton .., fun c hc d hd => ?_⟩
      rw [List.mem_singleton] at hd
      subst hd
      exact hlt c.1 c.2 ((mem_firsts hcalls c.1 c.2).1 hc).1

variable {n : Nearness α K} {s : ResetAnchorComponents α K} {root : α → α}

namespace ResetAnchorComponents

theorem addAll_append (calls more : List (α × K)) (s : ResetAnchorComponents α K) :
    s.addAll n (calls ++ more) = (s.addAll n calls).bind fun s => s.addAll n more := by
  induction calls generalizing s with
  | nil => rfl
  | cons call calls ih =>
    obtain ⟨raw, key⟩ := call
    simp only [List.cons_append, ResetAnchorComponents.addAll, Option.bind_eq_bind, Option.bind_assoc]
    congr
    funext r
    exact ih r.1

theorem Sound.alike (h : Sound s root) : Alike root s s :=
  ⟨h.rooted, h.rooted, rfl, rfl, rfl, rfl, rfl, rfl⟩

theorem Sound.addAgain (h : Sound s root) {m : K} (hm : s.memberOrder.get? raw = some m) (hkey : ¬ key < m) :
    ∃ s' result, s.add n raw (some key) = some (s', result) ∧ Alike root s s' ∧ s'.nextOrder = s.nextOrder + 1 := by
  have hraw : raw ∈ s.parent.keys := (h.ordered raw).1 ⟨m, hm⟩
  obtain ⟨a, k, ha, hk, -⟩ := h.anchored raw hraw
  obtain ⟨p, hfind, hp, hpk, -⟩ := h.rooted.find_height hraw
  have hfind' : ResetAnchorComponents.find { s with nextOrder := s.nextOrder + 1 } raw =
      some ({ s with parent := p, nextOrder := s.nextOrder + 1 }, root raw) := by
    rw [ResetAnchorComponents.find, hfind]
    rfl
  refine ⟨{ s with parent := p, nextOrder := s.nextOrder + 1 }, (a, []), ?_, ?_, rfl⟩
  · simp only [ResetAnchorComponents.add, Option.getD_some, if_pos hraw, ResetAnchorComponents.addAgain, hfind',
      Option.bind_eq_bind, Option.bind_some, ha, hm, hk, if_neg hkey]
  · exact ⟨h.rooted, hp, hpk, rfl, rfl, rfl, rfl, rfl⟩

/-- **A seed in the order of the keys** leaves what the first calls alone leave, but for pointers and counter. -/
theorem seed_firsts (n : Nearness α K) (h : Ascending calls) : ∃ s t root,
    empty.addAll n calls = some s ∧ empty.addAll n (firsts calls) = some t ∧ Components n calls s root ∧
    Like calls.length (firsts calls).length s t := by
  induction calls using List.reverseRecOn with
  | nil =>
    have hc := components_empty n
    exact ⟨empty, empty, id, rfl, rfl, hc, ⟨id, hc.toSound.alike⟩, rfl, rfl⟩
  | append_singleton calls call ih =>
    obtain ⟨raw, key⟩ := call
    obtain ⟨hcalls, hlt⟩ := h.snoc
    obtain ⟨s, t, root, hs, ht, hc, hlike⟩ := ih hcalls
    obtain ⟨s', root', winner, retired, hadd, hc', -⟩ := hc.add hcalls.keysDistinct raw key
    have hs' : empty.addAll n (calls ++ [(raw, key)]) = some s' := by
      simp only [addAll_append, hs, Option.bind_some, ResetAnchorComponents.addAll, hadd, Option.bind_eq_bind]
    rw [firsts_snoc, List.length_append, List.length_singleton]
    by_cases hraw : raw ∈ calls.map Prod.fst
    · rw [if_pos hraw]
      obtain ⟨m, hm⟩ := (hc.ordered raw).2 ((hc.members raw).2 hraw)
      have hmin := (hc.orders raw m).1 hm
      obtain ⟨u, result, hagain, halike, hcount⟩ := hc.toSound.addAgain (n := n) hm (not_lt.2 (hlt raw m hmin.1).le)
      have hu : u = s' := congrArg Prod.fst (Option.some.inj (hagain.symm.trans hadd))
      subst hu
      obtain ⟨⟨root₁, hst⟩, hsn, htn⟩ := hlike
      exact ⟨u, t, root', hs', ht, hc', ⟨root₁, hst.through halike⟩, hcount.trans (congrArg (· + 1) hsn), htn⟩
    · rw [if_neg hraw]
      have hagree := hlike.addKeyed n raw key
      rw [hadd] at hagree
      obtain ⟨⟨t', result⟩, hadd'⟩ : ∃ q, t.add n raw (some key) = some q := by
        cases h' : t.add n raw (some key) with
        | none =>
          rw [h'] at hagree
          cases hagree
        | some q => exact ⟨q, rfl⟩
      rw [hadd'] at hagree
      cases hagree with
      | some hagree =>
        refine ⟨s', t', root', hs', ?_, hc', ?_⟩
        · simp only [addAll_append, ht, Option.bind_some, ResetAnchorComponents.addAll, hadd', Option.bind_eq_bind]
        · rw [List.length_append, List.length_singleton]
          exact hagree.1

end ResetAnchorComponents

/-! ## Rows and entries -/

section
variable {parse : ρ → α} {rows : List (ρ × K)} {entries : List (α × K × Int)}

omit [LinearOrder α] [LinearOrder K] in
theorem mem_keysOf {spelling : ρ} : key ∈ keysOf rows spelling ↔ (spelling, key) ∈ rows := by
  simp [keysOf]

omit [LinearOrder α] in
theorem mem_evidenceOf {entry : α × K × Int} : entry ∈ evidenceOf parse rows ↔
    ∃ spelling k, Least.least id (keysOf rows spelling) = some k ∧
      entry = (parse spelling, k, ((rows.map Prod.fst).count spelling : Int)) := by
  rw [evidenceOf, List.mem_filterMap]
  constructor
  · intro ⟨spelling, _, h⟩
    obtain ⟨k, hk, rfl⟩ := Option.map_eq_some_iff.1 h
    exact ⟨spelling, k, hk, rfl⟩
  · intro ⟨spelling, k, hk, heq⟩
    have hmem : (spelling, k) ∈ rows := mem_keysOf.1 (Least.least_mem hk)
    refine ⟨spelling, List.mem_dedup.2 (List.mem_map_of_mem hmem), ?_⟩
    rw [hk, heq]
    rfl

omit [LinearOrder α] in
theorem exists_leastKey {spelling : ρ} (h : (spelling, key) ∈ rows) :
    ∃ k, Least.least id (keysOf rows spelling) = some k ∧ k ≤ key := by
  cases hk : Least.least id (keysOf rows spelling) with
  | none =>
    rw [Least.least_eq_none] at hk
    have := mem_keysOf.2 h
    rw [hk] at this
    cases this
  | some k => exact ⟨k, rfl, Least.least_le hk (mem_keysOf.2 h)⟩

omit [LinearOrder α] in
theorem minKey_evidence (x : α) (k : K) :
    MinKey (rows.map fun row => (parse row.1, row.2)) x k ↔
      MinKey ((evidenceOf parse rows).map fun e => (e.1, e.2.1)) x k := by
  have hrow : ∀ y m, (y, m) ∈ rows.map (fun row => (parse row.1, row.2)) ↔
      ∃ spelling, (spelling, m) ∈ rows ∧ parse spelling = y := by
    intro y m
    simp only [List.mem_map, Prod.mk.injEq, Prod.exists]
    constructor
    · intro ⟨spelling, m', h, hy, hm⟩
      exact ⟨spelling, hm ▸ h, hy⟩
    · intro ⟨spelling, h, hy⟩
      exact ⟨spelling, m, h, hy, rfl⟩
  have hentry : ∀ y m, (y, m) ∈ (evidenceOf parse rows).map (fun e => (e.1, e.2.1)) ↔
      ∃ spelling, Least.least id (keysOf rows spelling) = some m ∧ parse spelling = y := by
    intro y m
    simp only [List.mem_map, mem_evidenceOf, Prod.mk.injEq]
    constructor
    · intro ⟨e, ⟨spelling, k, hk, he⟩, hy, hm⟩
      subst he
      exact ⟨spelling, hm ▸ hk, hy⟩
    · intro ⟨spelling, hm, hy⟩
      exact ⟨_, ⟨spelling, m, hm, rfl⟩, hy, rfl⟩
  unfold MinKey
  simp only [hrow, hentry]
  constructor
  · intro ⟨⟨spelling, hk, hx⟩, hle⟩
    obtain ⟨m, hm, hmk⟩ := exists_leastKey hk
    have hkm : k ≤ m := hle m ⟨spelling, mem_keysOf.1 (Least.least_mem hm), hx⟩
    have hmk' : m = k := le_antisymm hmk hkm
    subst hmk'
    refine ⟨⟨spelling, hm, hx⟩, fun l ⟨other, hl, hx'⟩ => ?_⟩
    exact hle l ⟨other, mem_keysOf.1 (Least.least_mem hl), hx'⟩
  · intro ⟨⟨spelling, hk, hx⟩, hle⟩
    refine ⟨⟨spelling, mem_keysOf.1 (Least.least_mem hk), hx⟩, fun l ⟨other, hl, hx'⟩ => ?_⟩
    obtain ⟨m, hm, hml⟩ := exists_leastKey hl
    exact (hle m ⟨other, hm, hx'⟩).trans hml

omit [LinearOrder α] in
theorem nodup_keys_evidence (hk : (rows.map Prod.snd).Nodup) :
    ((evidenceOf parse rows).map fun e => e.2.1).Nodup := by
  have hmap : ((evidenceOf parse rows).map fun e => e.2.1) =
      (rows.map Prod.fst).dedup.filterMap fun spelling => Least.least id (keysOf rows spelling) := by
    rw [evidenceOf, List.map_filterMap]
    refine List.filterMap_congr fun spelling _ => ?_
    cases Least.least id (keysOf rows spelling) <;> rfl
  rw [hmap]
  refine (List.nodup_dedup _).filterMap fun x y k hx hy => ?_
  have hx' := mem_keysOf.1 (Least.least_mem hx)
  have hy' := mem_keysOf.1 (Least.least_mem hy)
  exact congrArg Prod.fst (List.inj_on_of_nodup_map hk hx' hy' rfl)

omit [LinearOrder α] in
theorem totalRows_evidence (parse : ρ → α) (rows : List (ρ × K)) :
    ResetAnchorComponents.totalRows (evidenceOf parse rows) = (rows.length : Int) := by
  have hmap : ((evidenceOf parse rows).map fun e => e.2.2) =
      ((rows.map Prod.fst).dedup.map fun spelling => (rows.map Prod.fst).count spelling).map Nat.cast := by
    rw [evidenceOf, List.map_filterMap, List.map_map]
    refine Eq.trans (List.filterMap_congr fun spelling hs => ?_) (congrFun List.filterMap_eq_map _)
    obtain ⟨⟨spelling', key⟩, hrow, rfl⟩ := List.mem_map.1 (List.mem_dedup.1 hs)
    obtain ⟨k, hk, -⟩ := exists_leastKey hrow
    rw [hk]
    rfl
  have hsum := List.sum_map_count_dedup_eq_length (rows.map Prod.fst)
  rw [List.length_map] at hsum
  rw [ResetAnchorComponents.totalRows, hmap, ← hsum, Nat.cast_list_sum]

omit [LinearOrder α] in
theorem minKey_congr {calls calls' : List (α × K)} (h : ∀ c, c ∈ calls ↔ c ∈ calls') (x : α) (k : K) :
    MinKey calls x k ↔ MinKey calls' x k := by
  unfold MinKey
  simp only [h]

theorem firsts_evidence (hk : (rows.map Prod.snd).Nodup) (he : entries.Perm (evidenceOf parse rows)) :
    Ascending ((rows.insertionSort fun d e => d.2 ≤ e.2).map fun row => (parse row.1, row.2)) ∧
    Ascending ((ResetAnchorComponents.sortEvidence entries).map fun e => (e.1, e.2.1)) ∧
    firsts ((rows.insertionSort fun d e => d.2 ≤ e.2).map fun row => (parse row.1, row.2)) =
      firsts ((ResetAnchorComponents.sortEvidence entries).map fun e => (e.1, e.2.1)) := by
  have hseed : Ascending ((rows.insertionSort fun d e => d.2 ≤ e.2).map fun row => (parse row.1, row.2)) :=
    List.pairwise_map.2 (Least.pairwise_insertionSort_lt hk)
  have hkeys : (entries.map fun e => e.2.1).Nodup := (he.map _).nodup_iff.2 (nodup_keys_evidence hk)
  have hevidence : Ascending ((ResetAnchorComponents.sortEvidence entries).map fun e => (e.1, e.2.1)) :=
    List.pairwise_map.2 (Least.pairwise_insertionSort_lt hkeys)
  refine ⟨hseed, hevidence, ?_⟩
  refine eq_of_sorted (ascending_firsts hseed) (ascending_firsts hevidence) fun ⟨x, k⟩ => ?_
  have hrows := (List.perm_insertionSort (fun d e : ρ × K => d.2 ≤ e.2) rows).map fun row => (parse row.1, row.2)
  have hentries := ((List.perm_insertionSort (fun d e : α × K × Int => d.2.1 ≤ e.2.1) entries).trans he).map
    fun e => (e.1, e.2.1)
  rw [mem_firsts hseed, mem_firsts hevidence, ResetAnchorComponents.sortEvidence,
    minKey_congr fun c => hrows.mem_iff, minKey_congr fun c => hentries.mem_iff]
  exact minKey_evidence x k

end

namespace ResetAnchorComponents

structure SameComponents (n : Nearness α K) (s t : ResetAnchorComponents α K) : Prop where
  members : t.parent.keys = s.parent.keys
  orders : t.memberOrder = s.memberOrder
  canonical : ∀ x, (t.canonical x).map Prod.snd = (s.canonical x).map Prod.snd
  nextOrder : t.nextOrder = s.nextOrder
  further : ∀ calls, (t.addEach n calls).map Prod.snd = (s.addEach n calls).map Prod.snd

theorem Like.same {a : Nat} {t : ResetAnchorComponents α K} (h : Like a a s t) (n : Nearness α K) :
    SameComponents n s t := by
  obtain ⟨root, halike⟩ := h.1
  refine ⟨halike.keys, halike.memberOrder, fun x => ?_, h.2.2.trans h.2.1.symm, fun calls => ?_⟩
  · exact (h.canonical x).answers.symm
  · exact (h.addEach n calls).answers.symm

/-- **Components from evidence are those of the seed**, to every call that follows. -/
theorem fromEvidence_seed (n : Nearness α K) (parse : ρ → α) (rows : List (ρ × K)) (entries : List (α × K × Int))
    (hk : (rows.map Prod.snd).Nodup) (he : entries.Perm (evidenceOf parse rows)) :
    ∃ s t, seedRows n parse rows = some s ∧ fromEvidence n entries = some t ∧ SameComponents n s t := by
  obtain ⟨hseed, hevidence, hfirsts⟩ := firsts_evidence hk he
  obtain ⟨s, u, -, hs, hu, -, ⟨root, hsu⟩, hsn, -⟩ := seed_firsts n hseed
  obtain ⟨t, u', -, ht, hu', -, ⟨root', htu⟩, -, -⟩ := seed_firsts n hevidence
  rw [← hfirsts, hu] at hu'
  obtain rfl := Option.some.inj hu'
  have htotal : totalRows entries = (rows.length : Int) := by
    rw [← totalRows_evidence parse rows]
    exact (he.map _).sum_eq
  have hcounts : (entries.any fun e => e.2.2 < 1) = false := by
    rw [List.any_eq_false]
    intro e hmem
    obtain ⟨spelling, k, hk, rfl⟩ := mem_evidenceOf.1 (he.mem_iff.1 hmem)
    have hrow : (spelling, k) ∈ rows := mem_keysOf.1 (Least.least_mem hk)
    have hpos : 0 < (rows.map Prod.fst).count spelling := List.count_pos_iff.2 (List.mem_map_of_mem hrow)
    simp only [decide_eq_true_eq]
    omega
  rw [List.length_map, (List.perm_insertionSort _ rows).length_eq] at hsn
  refine ⟨s, { t with nextOrder := (totalRows entries).toNat }, hs, ?_, ?_⟩
  · rw [fromEvidence, hcounts, ht]
    rfl
  · have halike := htu.symm.through hsu.symm
    rw [htotal, Int.toNat_natCast]
    refine Like.same (a := rows.length) ?_ n
    exact ⟨⟨root', halike.left, halike.right, halike.keys, halike.rank, halike.anchor, halike.firstOrder,
      halike.memberOrder, halike.buckets⟩, hsn, rfl⟩

theorem fromEvidence_seed_spellings :
    let rows := [("00:00Z", rowKey "b" 0 2), ("00:00+00:00", rowKey "a" 0 1), ("00:10Z", rowKey "a" 7 3),
      ("00:00Z", rowKey "c" 0 4)]
    let parse := fun spelling => if spelling = "00:10Z" then (600000000 : RawReset) else 0
    ∃ s t, seedRows (resetNearness 600) parse rows = some s ∧
      fromEvidence (resetNearness 600) (evidenceOf parse rows) = some t ∧ SameComponents (resetNearness 600) s t :=
  fromEvidence_seed (resetNearness 600) _ _ _ (by simp [rowKey]) (.refl _)

end ResetAnchorComponents

end

end Cctally
