import Cctally.PosixPath
import Mathlib.Data.Finset.Sort
import Mathlib.Data.Finset.Lattice.Fold
import Mathlib.Data.List.Lex
import Mathlib.Data.Char
import Mathlib.Data.Finset.Union

/-!
# The directories of a certificate

A walk certifies the configured roots and, of each source, its parent and every
directory above it up to the first root that contains the parent. A canonical
source is handled as text: each parent is resolved once, and a walk upwards stops
at a directory whose chain up to the same root is collected. Any other source goes
through path objects.
-/

namespace Cctally.FrontierClosure

open PosixPath

def isCanonicalAbsolute (raw : Text) : Bool :=
  ['/'] <+: raw ∧ ¬ ['/', '/'] <:+: raw ∧ ¬ ['/', '.', '/'] <:+: raw ∧ ¬ ['/'] <:+ raw ∧ ¬ ['/', '.'] <:+ raw

def rfind (raw : Text) (c : Char) : Option Nat := (raw.reverse.findIdx? (· = c)).map fun k => raw.length - 1 - k

def up (raw : Text) : Text :=
  let head :=
    match rfind raw '/' with
    | some i => raw.take i
    | none => raw.dropLast
  if head = [] then ['/'] else head

def pathlibClimb (root : PurePath) : Nat → PurePath → Finset Text → Option (Finset Text)
  | 0, _, _ => none
  | fuel + 1, cur, directories =>
    if cur = root then some (insert cur.str directories) else pathlibClimb root fuel cur.parent (insert cur.str directories)

def addSourceChainPathlib (normalizedRoots : List PurePath) (directories : Finset Text) (raw : Text) :
    Option (Finset Text) :=
  let parent := (parse raw).parent
  match normalizedRoots.find? (·.contains parent) with
  | none => some directories
  | some root => pathlibClimb root (parent.parts.length + 1) parent directories

structure Closure where
  directories : Finset Text
  complete : List (Finset Text)
  resolvedParents : Finset Text

def climb : Nat → Text → Finset Text → Finset Text → Option (Finset Text × Finset Text)
  | 0, cur, chain, directories => if cur ∈ chain then some (chain, directories) else none
  | fuel + 1, cur, chain, directories =>
    if cur ∈ chain then some (chain, directories)
    else climb fuel (up cur) (insert cur chain) (insert cur directories)

def addSource (normalizedRoots : List PurePath) (s : Closure) (raw : Text) : Option Closure :=
  if isCanonicalAbsolute raw = false then
    (addSourceChainPathlib normalizedRoots s.directories raw).map fun directories => { s with directories := directories }
  else
    let parent := up raw
    if parent ∈ s.resolvedParents then some s
    else
      let s := { s with resolvedParents := insert parent s.resolvedParents }
      match (normalizedRoots.map PurePath.str).findIdx? fun root => parent = root ∨ below root <+: parent with
      | none => some s
      | some index =>
        (climb parent.length parent (s.complete.getD index ∅) s.directories).map fun r =>
          { s with complete := s.complete.set index r.1, directories := r.2 }

def normalizedRoots (cwd : PurePath) (roots : List Text) : List PurePath :=
  roots.map fun root => cwd.absolute (parse root)

/-- `_source_directory_closure`, of the flattened roots and the sources that are read. -/
def sourceDirectoryClosure (cwd : PurePath) (roots sources : List Text) : Option (List PurePath) :=
  let rootStrings := (normalizedRoots cwd roots).map PurePath.str
  (sources.foldlM (addSource (normalizedRoots cwd roots)) ⟨rootStrings.toFinset, rootStrings.map ({·}), ∅⟩).map
    fun s => s.directories.sort.map parse

def ancestors (p : PurePath) : List PurePath := p.parts.inits.map (PurePath.mk p.anchor)

/-- From `root` down to `p`. -/
def chainTexts (root p : PurePath) : Finset Text :=
  (((ancestors p).filter (root.contains ·)).map PurePath.str).toFinset

def chainOf (normalizedRoots : List PurePath) (raw : Text) : Finset Text :=
  match normalizedRoots.find? (·.contains (parse raw).parent) with
  | none => ∅
  | some root => chainTexts root (parse raw).parent

/-! ## Chains -/

theorem mem_chainTexts {root p : PurePath} {t : Text} : t ∈ chainTexts root p ↔
    ∃ qs, qs <+: p.parts ∧ root.contains ⟨p.anchor, qs⟩ = true ∧ (PurePath.mk p.anchor qs).str = t := by
  unfold chainTexts ancestors
  rw [List.mem_toFinset, List.mem_map]
  constructor
  · rintro ⟨q, hq, rfl⟩
    obtain ⟨hmem, hroot⟩ := List.mem_filter.1 hq
    obtain ⟨qs, hqs, rfl⟩ := List.mem_map.1 hmem
    exact ⟨qs, (List.mem_inits ..).1 hqs, hroot, rfl⟩
  · rintro ⟨qs, hqs, hroot, rfl⟩
    exact ⟨⟨p.anchor, qs⟩, List.mem_filter.2 ⟨List.mem_map_of_mem ((List.mem_inits ..).2 hqs), hroot⟩, rfl⟩

theorem contains_eq {root p : PurePath} : root.contains p = true ↔ ∃ us, p = ⟨root.anchor, root.parts ++ us⟩ := by
  obtain ⟨anchor, ps⟩ := p
  simp only [PurePath.contains, decide_eq_true_eq, PurePath.mk.injEq]
  constructor
  · rintro ⟨hanchor, us, hus⟩
    exact ⟨us, hanchor.symm, hus.symm⟩
  · rintro ⟨us, hanchor, hus⟩
    exact ⟨hanchor.symm, us, hus.symm⟩

section
variable (root : PurePath)

def under (us : List Segment) : PurePath := ⟨root.anchor, root.parts ++ us⟩

theorem mem_chain_under {us : List Segment} {t : Text} :
    t ∈ chainTexts root (under root us) ↔ ∃ vs, vs <+: us ∧ (under root vs).str = t := by
  rw [mem_chainTexts]
  constructor
  · rintro ⟨qs, hqs, hroot, rfl⟩
    obtain ⟨vs, hvs⟩ := contains_eq.1 hroot
    cases hvs
    exact ⟨vs, (List.prefix_append_right_inj _).1 hqs, rfl⟩
  · rintro ⟨vs, hvs, rfl⟩
    exact ⟨root.parts ++ vs, (List.prefix_append_right_inj _).2 hvs, contains_eq.2 ⟨vs, rfl⟩, rfl⟩

theorem chain_root : chainTexts root (under root []) = {root.str} := by
  ext t
  rw [mem_chain_under, Finset.mem_singleton]
  constructor
  · rintro ⟨vs, hvs, rfl⟩
    rw [List.prefix_nil.1 hvs, under, List.append_nil]
  · rintro rfl
    exact ⟨[], List.nil_prefix, by rw [under, List.append_nil]⟩

theorem chain_concat (us : List Segment) (s : Segment) :
    chainTexts root (under root (us ++ [s])) = insert (under root (us ++ [s])).str (chainTexts root (under root us)) := by
  ext t
  rw [mem_chain_under, Finset.mem_insert, mem_chain_under]
  constructor
  · rintro ⟨vs, hvs, rfl⟩
    rcases List.prefix_concat_iff.1 hvs with rfl | hvs
    · exact .inl rfl
    · exact .inr ⟨vs, hvs, rfl⟩
  · rintro (rfl | ⟨vs, hvs, rfl⟩)
    · exact ⟨us ++ [s], List.prefix_refl _, rfl⟩
    · exact ⟨vs, hvs.trans (List.prefix_append ..), rfl⟩

theorem chain_subset {us vs : List Segment} (h : vs <+: us) :
    chainTexts root (under root vs) ⊆ chainTexts root (under root us) := by
  intro t ht
  obtain ⟨ws, hws, rfl⟩ := (mem_chain_under root).1 ht
  exact (mem_chain_under root).2 ⟨ws, hws.trans h, rfl⟩

theorem parent_concat (us : List Segment) (s : Segment) : (under root (us ++ [s])).parent = under root us := by
  rw [under, PurePath.parent, ← List.append_assoc, List.dropLast_concat]
  rfl

theorem pathlibClimb_under (us : List Segment) (fuel : Nat) (directories : Finset Text) (hfuel : us.length < fuel) :
    pathlibClimb root fuel (under root us) directories = some (directories ∪ chainTexts root (under root us)) := by
  induction us using List.reverseRecOn generalizing fuel directories with
  | nil =>
    obtain ⟨fuel, rfl⟩ := Nat.exists_eq_add_one_of_ne_zero (Nat.ne_of_gt hfuel)
    have hroot : under root [] = root := by rw [under, List.append_nil]
    rw [pathlibClimb, if_pos hroot, chain_root, hroot, Finset.union_comm, Finset.singleton_union]
  | append_singleton us s ih =>
    obtain ⟨fuel, rfl⟩ := Nat.exists_eq_add_one_of_ne_zero (Nat.ne_of_gt (Nat.zero_lt_of_lt hfuel))
    rw [List.length_append, List.length_singleton] at hfuel
    have hne : under root (us ++ [s]) ≠ root := fun h => by
      have hparts : root.parts ++ (us ++ [s]) = root.parts := congrArg PurePath.parts h
      simp at hparts
    rw [pathlibClimb, if_neg hne, parent_concat, ih fuel _ (by omega), chain_concat, Finset.insert_union,
      Finset.union_insert]

end

theorem addSourceChainPathlib_eq (normalizedRoots : List PurePath) (directories : Finset Text) (raw : Text) :
    addSourceChainPathlib normalizedRoots directories raw = some (directories ∪ chainOf normalizedRoots raw) := by
  dsimp only [addSourceChainPathlib, chainOf]
  cases hfind : normalizedRoots.find? (·.contains (parse raw).parent) with
  | none => rw [Finset.union_empty]
  | some root =>
    have hroot := List.find?_some hfind
    obtain ⟨us, hus⟩ := contains_eq.1 hroot
    rw [hus]
    refine pathlibClimb_under root us _ directories ?_
    dsimp only
    rw [List.length_append]
    omega

theorem canonical_oneText {raw : Text} (h : isCanonicalAbsolute raw = true) : ∃ ps s, raw = oneText (ps ++ [s]) := by
  unfold isCanonicalAbsolute at h
  obtain ⟨⟨t, rfl⟩, hempty, hdot, hend, hdotend⟩ := of_decide_eq_true h
  rw [List.singleton_append] at hempty hdot hend hdotend ⊢
  rw [← trail_splitOn t] at hempty hdot hend hdotend ⊢
  have hsegments : ∀ x ∈ t.splitOn '/', x ≠ [] ∧ x ≠ ['.'] ∧ '/' ∉ x := by
    intro x hx
    obtain ⟨as, bs, hsplit⟩ := List.append_of_mem hx
    have htrail : trail (t.splitOn '/') = trail as ++ ('/' :: (x ++ trail bs)) := by rw [hsplit, trail_append, trail_cons]
    rw [htrail] at hempty hdot hend hdotend
    refine ⟨?_, ?_, not_mem_splitOn x hx⟩
    · rintro rfl
      cases bs with
      | nil => exact hend (List.suffix_append ..)
      | cons b bs => exact hempty ⟨trail as, b ++ trail bs, by simp⟩
    · rintro rfl
      cases bs with
      | nil => exact hdotend (List.suffix_append ..)
      | cons b bs => exact hdot ⟨trail as, b ++ trail bs, by simp⟩
  obtain ⟨qs, hqs⟩ := exists_texts hsegments
  have hne : qs ≠ [] := by
    rintro rfl
    exact List.splitOn_ne_nil _ _ hqs
  refine ⟨qs.dropLast, qs.getLast hne, ?_⟩
  rw [List.dropLast_append_getLast hne, hqs, oneText, if_neg hne]

theorem rfind_append (a : Text) {s : Text} (hs : '/' ∉ s) : rfind (a ++ '/' :: s) '/' = some a.length := by
  have hfind : (a ++ '/' :: s).reverse.findIdx? (· = '/') = some s.length := by
    rw [List.reverse_append, List.reverse_cons, List.append_assoc, List.findIdx?_append]
    have hnone : s.reverse.findIdx? (· = '/') = none := by
      rw [List.findIdx?_eq_none_iff]
      intro c hc
      exact decide_eq_false fun heq => hs (heq ▸ List.mem_reverse.1 hc)
    rw [hnone]
    simp [List.findIdx?_cons]
  rw [rfind, hfind, Option.map_some, List.length_append, List.length_cons]
  congr 1
  omega

theorem up_oneText (ps : List Segment) (s : Segment) : up (oneText (ps ++ [s])) = oneText ps := by
  have htext : oneText (ps ++ [s]) = trail (texts ps) ++ '/' :: s.val := by
    rw [oneText, if_neg (by simp)]
    simp
  dsimp only [up]
  rw [htext, rfind_append _ s.property.2.2]
  simp only [List.take_left]
  rw [oneText]
  by_cases hps : ps = []
  · rw [if_pos hps, if_pos (by rw [hps]; rfl)]
  · rw [if_neg hps, if_neg fun h => hps (List.map_eq_nil_iff.1 (trail_eq_nil.1 h))]

theorem canonical_parent {raw : Text} (h : isCanonicalAbsolute raw = true) :
    ∃ ps, up raw = oneText ps ∧ (parse raw).parent = ⟨.one, ps⟩ := by
  obtain ⟨ps, s, rfl⟩ := canonical_oneText h
  refine ⟨ps, up_oneText ps s, ?_⟩
  rw [parse_oneText, PurePath.parent, List.dropLast_concat]

theorem climb_mem {cur : Text} {chain : Finset Text} (h : cur ∈ chain) (fuel : Nat) (directories : Finset Text) :
    climb fuel cur chain directories = some (chain, directories) := by
  cases fuel with
  | zero => exact if_pos h
  | succ fuel => exact if_pos h

structure Kept (root : PurePath) (chain : Finset Text) : Prop where
  top : root.str ∈ chain
  closed : ∀ us, (under root us).str ∈ chain → chainTexts root (under root us) ⊆ chain

section
variable {root : PurePath} (hroot : root.anchor = .one)
include hroot

theorem str_under (us : List Segment) : (under root us).str = oneText (root.parts ++ us) := by
  rw [oneText_eq, under, hroot]

theorem str_under_inj {us vs : List Segment} (h : (under root us).str = (under root vs).str) : us = vs := by
  rw [str_under hroot, str_under hroot] at h
  exact List.append_cancel_left (oneText_inj h)

theorem up_under (us : List Segment) (s : Segment) : up (under root (us ++ [s])).str = (under root us).str := by
  rw [str_under hroot, str_under hroot, ← List.append_assoc, up_oneText]

theorem kept_root : Kept root {root.str} := by
  refine ⟨Finset.mem_singleton_self _, fun us hus => ?_⟩
  have hnil : us = [] := by
    refine str_under_inj hroot ?_
    rw [Finset.mem_singleton.1 hus, under, List.append_nil]
  rw [hnil, chain_root]

theorem Kept.union {chain : Finset Text} (h : Kept root chain) (us : List Segment) :
    Kept root (chain ∪ chainTexts root (under root us)) := by
  refine ⟨Finset.mem_union_left _ h.top, fun vs hvs => ?_⟩
  rcases Finset.mem_union.1 hvs with hmem | hmem
  · exact (h.closed vs hmem).trans Finset.subset_union_left
  · obtain ⟨ws, hws, hstr⟩ := (mem_chain_under root).1 hmem
    rw [← str_under_inj hroot hstr]
    exact (chain_subset root hws).trans Finset.subset_union_right

theorem climb_under (us : List Segment) {chain directories : Finset Text} (htop : root.str ∈ chain)
    (hclosed : ∀ vs, vs <+: us → (under root vs).str ∈ chain → chainTexts root (under root vs) ⊆ chain)
    (hsubset : chain ⊆ directories) {fuel : Nat} (hfuel : us.length ≤ fuel) :
    climb fuel (under root us).str chain directories =
      some (chain ∪ chainTexts root (under root us), directories ∪ chainTexts root (under root us)) := by
  induction us using List.reverseRecOn generalizing chain directories fuel with
  | nil =>
    have hmem : (under root []).str ∈ chain := by rwa [under, List.append_nil]
    have hchain := hclosed [] (List.prefix_refl _) hmem
    rw [climb_mem hmem, Finset.union_eq_left.2 hchain, Finset.union_eq_left.2 (hchain.trans hsubset)]
  | append_singleton us s ih =>
    by_cases hmem : (under root (us ++ [s])).str ∈ chain
    · have hchain := hclosed _ (List.prefix_refl _) hmem
      rw [climb_mem hmem, Finset.union_eq_left.2 hchain, Finset.union_eq_left.2 (hchain.trans hsubset)]
    · rw [List.length_append, List.length_singleton] at hfuel
      obtain ⟨fuel, rfl⟩ := Nat.exists_eq_add_one_of_ne_zero (Nat.ne_of_gt (Nat.lt_of_lt_of_le (Nat.succ_pos _) hfuel))
      -- what was put in lies below every directory the rest of the walk meets
      have hinsert : ∀ vs, vs <+: us → (under root vs).str ∈ insert (under root (us ++ [s])).str chain →
          chainTexts root (under root vs) ⊆ insert (under root (us ++ [s])).str chain := by
        intro vs hvs hvmem
        rcases Finset.mem_insert.1 hvmem with heq | hvmem
        · have hlength := hvs.length_le
          rw [str_under_inj hroot heq, List.length_append, List.length_singleton] at hlength
          omega
        · exact (hclosed vs (hvs.trans (List.prefix_append ..)) hvmem).trans (Finset.subset_insert ..)
      rw [climb, if_neg hmem, up_under hroot, ih (Finset.mem_insert_of_mem htop) hinsert
        (Finset.insert_subset_insert _ hsubset) (Nat.le_of_succ_le_succ hfuel), chain_concat]
      simp only [Finset.insert_union, Finset.union_insert]

end

/-! ## The loop over the sources -/

section
variable (roots : List PurePath)

/-- What holds of the directories, the chains and the parents resolved, once `sources` are read. -/
structure Inv (sources : List Text) (s : Closure) : Prop where
  directories : s.directories = (roots.map PurePath.str).toFinset ∪ sources.toFinset.biUnion (chainOf roots)
  length : s.complete.length = roots.length
  kept : ∀ (i : Nat) root chain, roots[i]? = some root → s.complete[i]? = some chain → root.anchor = .one →
    Kept root chain ∧ chain ⊆ s.directories
  resolved : ∀ raw, isCanonicalAbsolute raw = true → up raw ∈ s.resolvedParents → chainOf roots raw ⊆ s.directories

theorem inv_start : Inv roots [] ⟨(roots.map PurePath.str).toFinset, (roots.map PurePath.str).map ({·}), ∅⟩ where
  directories := by simp
  length := by simp
  kept := by
    intro i root chain hi hchain hanchor
    rw [List.getElem?_map, List.getElem?_map, hi] at hchain
    cases hchain
    refine ⟨kept_root hanchor, ?_⟩
    rw [Finset.singleton_subset_iff, List.mem_toFinset]
    exact List.mem_map_of_mem (List.mem_of_getElem? hi)
  resolved := fun raw _ h => absurd h (Finset.notMem_empty _)

variable {roots}

theorem union_chainOf (sources : List Text) (raw : Text) :
    (roots.map PurePath.str).toFinset ∪ (sources ++ [raw]).toFinset.biUnion (chainOf roots) =
      ((roots.map PurePath.str).toFinset ∪ sources.toFinset.biUnion (chainOf roots)) ∪ chainOf roots raw := by
  rw [List.toFinset_append, Finset.union_biUnion, Finset.union_assoc]
  simp

theorem chainOf_up {a b : Text} (ha : isCanonicalAbsolute a = true) (hb : isCanonicalAbsolute b = true) (h : up a = up b) :
    chainOf roots a = chainOf roots b := by
  obtain ⟨ps, hups, hps⟩ := canonical_parent ha
  obtain ⟨qs, huqs, hqs⟩ := canonical_parent hb
  have heq : ps = qs := oneText_inj (by rw [← hups, ← huqs, h])
  unfold chainOf
  rw [hps, hqs, heq]

theorem Inv.grow {sources : List Text} {s t : Closure} {raw : Text} (h : Inv roots sources s)
    (hdirectories : t.directories = s.directories ∪ chainOf roots raw) (hlength : t.complete.length = s.complete.length)
    (hkept : ∀ (i : Nat) root chain, roots[i]? = some root → t.complete[i]? = some chain → root.anchor = .one →
      s.complete[i]? = some chain ∨ Kept root chain ∧ chain ⊆ t.directories)
    (hresolved : ∀ other, isCanonicalAbsolute other = true → up other ∈ t.resolvedParents →
      up other ∈ s.resolvedParents ∨ chainOf roots other = chainOf roots raw) : Inv roots (sources ++ [raw]) t where
  directories := by rw [hdirectories, h.directories, union_chainOf]
  length := hlength.trans h.length
  kept := by
    intro i root chain hi hchain hanchor
    rcases hkept i root chain hi hchain hanchor with hold | hnew
    · obtain ⟨hk, hsub⟩ := h.kept i root chain hi hold hanchor
      exact ⟨hk, hsub.trans (hdirectories ▸ Finset.subset_union_left)⟩
    · exact hnew
  resolved := by
    intro other hcanonical hmem
    rw [hdirectories]
    rcases hresolved other hcanonical hmem with hold | hnew
    · exact (h.resolved other hcanonical hold).trans Finset.subset_union_left
    · exact hnew ▸ Finset.subset_union_right

theorem addSource_inv {sources : List Text} {s : Closure} (h : Inv roots sources s) (raw : Text) :
    ∃ t, addSource roots s raw = some t ∧ Inv roots (sources ++ [raw]) t := by
  by_cases hcanonical : isCanonicalAbsolute raw = true
  swap
  · refine ⟨{ s with directories := s.directories ∪ chainOf roots raw }, ?_, ?_⟩
    · rw [addSource, if_pos (Bool.eq_false_of_not_eq_true hcanonical), addSourceChainPathlib_eq]
      rfl
    · exact h.grow rfl rfl (fun _ _ _ _ hchain _ => .inl hchain) fun _ _ hmem => .inl hmem
  obtain ⟨ps, hup, hparent⟩ := canonical_parent hcanonical
  dsimp only [addSource]
  rw [if_neg (by rw [hcanonical]; exact Bool.noConfusion)]
  by_cases hmem : up raw ∈ s.resolvedParents
  · refine ⟨s, if_pos hmem, h.grow ?_ rfl (fun _ _ _ _ hchain _ => .inl hchain) fun _ _ hmem => .inl hmem⟩
    exact (Finset.union_eq_left.2 (h.resolved raw hcanonical hmem)).symm
  rw [if_neg hmem]
  have hresolved : ∀ other, isCanonicalAbsolute other = true → up other ∈ insert (up raw) s.resolvedParents →
      up other ∈ s.resolvedParents ∨ chainOf roots other = chainOf roots raw := by
    intro other hother hin
    rcases Finset.mem_insert.1 hin with heq | hin
    · exact .inr (chainOf_up hother hcanonical heq)
    · exact .inl hin
  -- the first root by its text is the first that contains the parent
  have hindex : (roots.map PurePath.str).findIdx? (fun root => decide (up raw = root ∨ below root <+: up raw)) =
      roots.findIdx? (·.contains (parse raw).parent) := by
    rw [List.findIdx?_map]
    congr 1
    funext root
    rw [hparent, hup]
    exact Bool.eq_iff_iff.2 ((decide_eq_true_iff ..).trans (contains_iff root ps))
  rw [hindex]
  cases hfind : roots.findIdx? (·.contains (parse raw).parent) with
  | none =>
    refine ⟨_, rfl, h.grow ?_ rfl (fun _ _ _ _ hchain _ => .inl hchain) hresolved⟩
    have hnone : chainOf roots raw = ∅ := by
      unfold chainOf
      rw [List.find?_eq_bind_findIdx?_getElem?, hfind]
      rfl
    rw [hnone, Finset.union_empty]
  | some index =>
    obtain ⟨hindex, hcontains, -⟩ := List.findIdx?_eq_some_iff_getElem.1 hfind
    obtain ⟨us, hus⟩ := contains_eq.1 hcontains
    have hget : roots[index]? = some roots[index] := List.getElem?_eq_getElem hindex
    have hlength : index < s.complete.length := h.length ▸ hindex
    have hchain : s.complete[index]? = some s.complete[index] := List.getElem?_eq_getElem hlength
    have hanchor : roots[index].anchor = .one := by
      rw [hparent] at hus
      exact (congrArg PurePath.anchor hus).symm
    obtain ⟨hkept, hsubset⟩ := h.kept index _ _ hget hchain hanchor
    have hof : chainOf roots raw = chainTexts roots[index] (under roots[index] us) := by
      unfold chainOf
      rw [List.find?_eq_bind_findIdx?_getElem?, hfind, Option.bind_some, hget]
      dsimp only
      rw [hus]
      rfl
    have htext : up raw = (under roots[index] us).str := by
      rw [str_under hanchor, hup]
      rw [hparent] at hus
      exact congrArg oneText (congrArg PurePath.parts hus)
    have hfuel : us.length ≤ (up raw).length := by
      rw [htext, str_under hanchor]
      refine le_trans ?_ (length_le_oneText _)
      rw [List.length_append]
      exact Nat.le_add_left ..
    have hclimb : climb (up raw).length (up raw) (s.complete.getD index ∅) s.directories =
        some (s.complete[index] ∪ chainOf roots raw, s.directories ∪ chainOf roots raw) := by
      rw [List.getD_eq_getElem?_getD, hchain, Option.getD_some, hof]
      have hwalk := climb_under hanchor us hkept.top (fun vs _ => hkept.closed vs) hsubset hfuel
      rwa [← htext] at hwalk
    dsimp only
    rw [hclimb, Option.map_some]
    refine ⟨_, rfl, h.grow rfl List.length_set ?_ hresolved⟩
    intro i root chain hi hset hone
    rw [List.getElem?_set] at hset
    by_cases hii : index = i
    · subst hii
      rw [if_pos rfl, if_pos hlength] at hset
      cases hset
      rw [hget] at hi
      cases hi
      rw [hof]
      exact .inr ⟨hkept.union hanchor us, Finset.union_subset_union_left hsubset⟩
    · rw [if_neg hii] at hset
      exact .inl hset

theorem addSources_inv {read : List Text} {s : Closure} (h : Inv roots read s) (sources : List Text) :
    ∃ t, sources.foldlM (addSource roots) s = some t ∧ Inv roots (read ++ sources) t := by
  induction sources generalizing read s with
  | nil => exact ⟨s, rfl, by rwa [List.append_nil]⟩
  | cons raw sources ih =>
    obtain ⟨t, hadd, ht⟩ := addSource_inv h raw
    obtain ⟨u, hfold, hu⟩ := ih ht
    refine ⟨u, ?_, ?_⟩
    · rw [List.foldlM_cons, hadd]
      exact hfold
    · rwa [List.append_assoc, List.singleton_append] at hu

end

/-- **The directories are the roots and what each source contributes**, and a source contributes
what the walk over path objects adds for it. -/
theorem sourceDirectoryClosure_exact (cwd : PurePath) (roots sources : List Text) :
    (∀ directories raw, addSourceChainPathlib (normalizedRoots cwd roots) directories raw =
      some (directories ∪ chainOf (normalizedRoots cwd roots) raw)) ∧
    sourceDirectoryClosure cwd roots sources =
      some ((((normalizedRoots cwd roots).map PurePath.str).toFinset ∪
        sources.toFinset.biUnion (chainOf (normalizedRoots cwd roots))).sort.map parse) := by
  refine ⟨addSourceChainPathlib_eq _, ?_⟩
  obtain ⟨t, hfold, ht⟩ := addSources_inv (inv_start (normalizedRoots cwd roots)) sources
  dsimp only [sourceDirectoryClosure]
  rw [hfold, Option.map_some, ht.directories, List.nil_append]

end Cctally.FrontierClosure
