import Cctally.CodexSegments
import Mathlib.Data.List.Chain

/-!
# Segments tile a turn

Every segment is the groups that the budget or a boundary behind the floor leaves, and
then the groups that begin before the rows of these end. So the segments are the whole
turn, their rows are apart, and each is as full as the budget and the floor let it be.
-/

namespace Cctally

namespace CodexSegments

section
variable {ρ : Type}

def blocksOf (groups : List (FoldGroup ρ)) : Nat := (groups.map (·.blockCount)).sum

theorem blocksOf_cons (group : FoldGroup ρ) (groups : List (FoldGroup ρ)) :
    blocksOf (group :: groups) = group.blockCount + blocksOf groups := List.sum_cons

theorem blocksOf_append (a b : List (FoldGroup ρ)) : blocksOf (a ++ b) = blocksOf a + blocksOf b := by
  rw [blocksOf, List.map_append, List.sum_append, blocksOf, blocksOf]

theorem blocksOf_take_le (groups : List (FoldGroup ρ)) {i j : Nat} (h : i ≤ j) :
    blocksOf (groups.take i) ≤ blocksOf (groups.take j) := by
  obtain ⟨k, rfl⟩ := Nat.exists_eq_add_of_le h
  rw [List.take_add, blocksOf_append]
  exact Nat.le_add_right _ _

def Before (g g' : FoldGroup ρ) : Prop := ∀ last ∈ g.lastPos, ∀ first ∈ g'.firstPos, last < first

def Spans (g g' : FoldGroup ρ) : Prop :=
  ∃ first last first', g.firstPos = some first ∧ g.lastPos = some last ∧ g'.firstPos = some first' ∧
    first ≤ first' ∧ first' ≤ last

structure Placed (groups : List (FoldGroup ρ)) : Prop where
  rows : ∀ g ∈ groups, ∃ first last, g.firstPos = some first ∧ g.lastPos = some last ∧ first ≤ last
  sorted : groups.Pairwise fun g g' => ∀ first ∈ g.firstPos, ∀ first' ∈ g'.firstPos, first < first'

theorem Placed.sublist {a b : List (FoldGroup ρ)} (h : Placed b) (hs : a.Sublist b) : Placed a :=
  ⟨fun g hg => h.rows g (hs.subset hg), h.sorted.sublist hs⟩

/-! ## Contiguous rows -/

theorem absorb_cons {group : FoldGroup ρ} {first last maxLast : Int} (hfirst : group.firstPos = some first)
    (hlast : group.lastPos = some last) (rest : List (FoldGroup ρ)) :
    absorb maxLast (group :: rest) = if maxLast < first then 0 else 1 + absorb (max maxLast last) rest := by
  rw [absorb, hfirst, hlast]

theorem absorb_before : ∀ {groups : List (FoldGroup ρ)} {maxLast : Int}, Placed groups →
    ∀ g' ∈ groups.drop (absorb maxLast groups), (∀ first ∈ g'.firstPos, maxLast < first) ∧
      ∀ g ∈ groups.take (absorb maxLast groups), Before g g'
  | [], _, _, _, h => nomatch h
  | group :: rest, maxLast, hplaced, g', hg' => by
    obtain ⟨first, last, hfirst, hlast, _⟩ := hplaced.rows group List.mem_cons_self
    obtain ⟨hhead, hrest⟩ := List.pairwise_cons.1 hplaced.sorted
    rw [absorb_cons hfirst hlast] at hg' ⊢
    by_cases hlt : maxLast < first
    · rw [if_pos hlt] at hg' ⊢
      refine ⟨fun first' hfirst' => ?_, nofun⟩
      rcases List.mem_cons.1 hg' with rfl | hmem
      · rw [hfirst, Option.mem_some_iff] at hfirst'
        exact hfirst' ▸ hlt
      · exact hlt.trans (hhead g' hmem first hfirst first' hfirst')
    · rw [if_neg hlt, Nat.add_comm] at hg' ⊢
      obtain ⟨hbehind, hbefore⟩ := absorb_before (hplaced.sublist (List.sublist_cons_self _ _)) g' hg'
      refine ⟨fun first' hfirst' => (le_max_left _ _).trans_lt (hbehind first' hfirst'), fun g hg => ?_⟩
      rcases List.mem_cons.1 hg with rfl | hmem
      · intro last' hlast' first' hfirst'
        rw [hlast, Option.mem_some_iff] at hlast'
        exact hlast' ▸ (le_max_right _ _).trans_lt (hbehind first' hfirst')
      · exact hbefore g hmem

theorem absorb_spans : ∀ {groups kept : List (FoldGroup ρ)} {maxLast : Int}, Placed (kept ++ groups) →
    (∃ g ∈ kept, g.lastPos = some maxLast) → ∀ p g q, groups.take (absorb maxLast groups) = p ++ g :: q →
      ∃ g₀ ∈ kept ++ p, Spans g₀ g
  | [], _, _, _, _, p, g, q, h => by
    rw [List.take_nil] at h
    exact absurd (congrArg List.length h) (by simp)
  | group :: rest, kept, maxLast, hplaced, ⟨g₁, hg₁, hmax⟩, p, g, q, h => by
    have hmem : group ∈ kept ++ group :: rest := List.mem_append_right _ List.mem_cons_self
    obtain ⟨first, last, hfirst, hlast, _⟩ := hplaced.rows group hmem
    rw [absorb_cons hfirst hlast] at h
    by_cases hlt : maxLast < first
    · rw [if_pos hlt, List.take_zero] at h
      exact absurd (congrArg List.length h) (by simp)
    · rw [if_neg hlt, Nat.add_comm, List.take_succ_cons] at h
      cases p with
      | nil =>
        -- the first to be taken is spanned by the one whose rows end last
        obtain ⟨rfl, _⟩ := List.cons_eq_cons.1 h
        obtain ⟨first₁, last₁, hfirst₁, hlast₁, _⟩ := hplaced.rows g₁ (List.mem_append_left _ hg₁)
        have hsorted := (List.pairwise_append.1 hplaced.sorted).2.2 g₁ hg₁ group List.mem_cons_self
        refine ⟨g₁, List.mem_append_left _ hg₁, first₁, maxLast, first, hfirst₁, hmax, hfirst, ?_, not_lt.1 hlt⟩
        exact (hsorted first₁ hfirst₁ first hfirst).le
      | cons g₂ p =>
        obtain ⟨rfl, hrest⟩ := List.cons_eq_cons.1 h
        have hplaced' : Placed ((kept ++ [group]) ++ rest) := by rwa [List.append_assoc]
        have hmax' : ∃ g ∈ kept ++ [group], g.lastPos = some (max maxLast last) := by
          rcases le_total maxLast last with hle | hle
          · exact ⟨group, List.mem_append_right _ (List.mem_singleton_self _), by rw [max_eq_right hle, hlast]⟩
          · exact ⟨g₁, List.mem_append_left _ hg₁, by rw [max_eq_left hle, hmax]⟩
        obtain ⟨g₀, hg₀, hspans⟩ := absorb_spans hplaced' hmax' p g q hrest
        rw [List.append_assoc] at hg₀
        exact ⟨g₀, hg₀, hspans⟩

variable (blockBudget floorBlocks : Int)

theorem reachFrom_fits : ∀ (groups : List (FoldGroup ρ)) {blocks : Nat}, (blocks : Int) ≤ blockBudget →
    ((blocks + blocksOf (groups.take (reachFrom blockBudget blocks groups)) : Nat) : Int) ≤ blockBudget
  | [], _, h => h
  | group :: rest, blocks, h => by
    rw [reachFrom]
    by_cases hfit : blockBudget < (blocks + group.blockCount : Nat)
    · rw [if_pos hfit]
      exact h
    · have ih := reachFrom_fits rest (not_lt.1 hfit)
      rw [if_neg hfit, Nat.add_comm 1, List.take_succ_cons, blocksOf_cons]
      omega

theorem reachFrom_next : ∀ (groups : List (FoldGroup ρ)) (blocks : Nat),
    ∀ g ∈ (groups.drop (reachFrom blockBudget blocks groups)).head?,
      blockBudget < (blocks + blocksOf (groups.take (reachFrom blockBudget blocks groups)) + g.blockCount : Nat)
  | [], _, _, h => nomatch h
  | group :: rest, blocks, g, h => by
    rw [reachFrom] at h ⊢
    by_cases hfit : blockBudget < (blocks + group.blockCount : Nat)
    · rw [if_pos hfit] at h ⊢
      obtain rfl := Option.some.inj h
      exact hfit
    · rw [if_neg hfit, Nat.add_comm 1] at h ⊢
      have ih := reachFrom_next rest (blocks + group.blockCount) g h
      rw [List.take_succ_cons, blocksOf_cons]
      omega

theorem boundaryAt_kept {rank : Nat} : ∀ {groups : List (FoldGroup ρ)} {cut kept c : Nat},
    boundaryAt floorBlocks rank cut kept groups = some c → 0 < c ∧ floorBlocks ≤ (kept + blocksOf (groups.take (c - cut)) : Nat)
  | group :: rest, cut, kept, c, h => by
    rw [boundaryAt] at h
    split at h
    next hcut =>
      obtain rfl := Option.some.inj h
      rw [Nat.sub_self]
      exact ⟨hcut.1, hcut.2.1⟩
    next =>
      obtain ⟨hpos, hfloor⟩ := boundaryAt_kept h
      have hlt := (boundaryAt_bounds floorBlocks h).1
      obtain ⟨k, rfl⟩ := Nat.exists_eq_add_of_le hlt
      have hsub : cut + 1 + k - cut = k + 1 := by omega
      have hsub' : cut + 1 + k - (cut + 1) = k := by omega
      rw [hsub'] at hfloor
      rw [hsub, List.take_succ_cons, blocksOf_cons, ← Nat.add_assoc]
      exact ⟨hpos, hfloor⟩

structure Ended (kept absorbed rest : List (FoldGroup ρ)) : Prop where
  ne_nil : kept ≠ []
  fits : (blocksOf kept : Int) ≤ blockBudget ∨ ∃ g ∈ kept.head?, blockBudget < g.blockCount
  filled : floorBlocks ≤ blocksOf kept ∨ ∀ g ∈ (absorbed ++ rest).head?, blockBudget < (blocksOf kept + g.blockCount : Nat)
  spanned : ∀ p g q, absorbed = p ++ g :: q → ∃ g₀ ∈ kept ++ p, Spans g₀ g
  apart : ∀ g ∈ kept ++ absorbed, ∀ g' ∈ rest, Before g g'

theorem kept_spec {groups : List (FoldGroup ρ)} (h : groups ≠ []) :
    let stop := (bestCut floorBlocks (window blockBudget groups)).getD (reach blockBudget groups)
    0 < stop ∧ ((blocksOf (groups.take stop) : Int) ≤ blockBudget ∨ ∃ g ∈ (groups.take stop).head?, blockBudget < g.blockCount) ∧
      (floorBlocks ≤ blocksOf (groups.take stop) ∨
        ∀ g ∈ (groups.drop stop).head?, blockBudget < (blocksOf (groups.take stop) + g.blockCount : Nat)) := by
  obtain ⟨group, rest, rfl⟩ := List.exists_cons_of_ne_nil h
  intro stop
  have hle : stop ≤ reach blockBudget (group :: rest) := cut_le blockBudget floorBlocks (group :: rest)
  have hfits : (blocksOf ((group :: rest).take (reach blockBudget (group :: rest))) : Int) ≤ blockBudget ∨
      blockBudget < group.blockCount := by
    by_cases hone : blockBudget < group.blockCount
    · exact .inr hone
    · have hrest := reachFrom_fits blockBudget rest (not_lt.1 hone)
      rw [reach, Nat.add_comm 1, List.take_succ_cons, blocksOf_cons]
      exact .inl hrest
  have hpos : 0 < stop ∧ (floorBlocks ≤ blocksOf ((group :: rest).take stop) ∨ stop = reach blockBudget (group :: rest)) := by
    cases hcut : bestCut floorBlocks (window blockBudget (group :: rest)) with
    | none =>
      have hstop : stop = reach blockBudget (group :: rest) := congrArg (Option.getD · _) hcut
      refine ⟨?_, .inr hstop⟩
      rw [hstop, reach]
      omega
    | some c =>
      have hstop : stop = c := congrArg (Option.getD · _) hcut
      have hkept : 0 < c ∧ floorBlocks ≤ blocksOf ((window blockBudget (group :: rest)).take c) := by
        rw [bestCut_eq] at hcut
        rcases Option.or_eq_some_iff.1 hcut with hzero | ⟨_, hone⟩
        · have hat := boundaryAt_kept floorBlocks hzero
          rwa [Nat.sub_zero, Nat.zero_add] at hat
        · have hat := boundaryAt_kept floorBlocks hone
          rwa [Nat.sub_zero, Nat.zero_add] at hat
      rw [window, List.take_take, min_eq_left (hstop ▸ hle), ← hstop] at hkept
      exact ⟨hkept.1, .inl hkept.2⟩
  refine ⟨hpos.1, ?_, ?_⟩
  · rcases hfits with hfits | hone
    · exact .inl (le_trans (by exact_mod_cast blocksOf_take_le _ hle) hfits)
    · refine .inr ⟨group, ?_, hone⟩
      rw [List.head?_take, if_neg hpos.1.ne']
      rfl
  · rcases hpos.2 with hfloor | hreach
    · exact .inl hfloor
    · refine .inr fun g hg => ?_
      rw [hreach, reach, Nat.add_comm 1] at hg ⊢
      rw [List.drop_succ_cons] at hg
      rw [List.take_succ_cons, blocksOf_cons]
      exact reachFrom_next blockBudget rest group.blockCount g hg

theorem segmentEnd_ended {groups : List (FoldGroup ρ)} (hplaced : Placed groups) (h : groups ≠ []) :
    ∃ kept absorbed, groups.take (segmentEnd blockBudget floorBlocks groups) = kept ++ absorbed ∧
      Ended blockBudget floorBlocks kept absorbed (groups.drop (segmentEnd blockBudget floorBlocks groups)) := by
  obtain ⟨hpos, hfits, hfilled⟩ := kept_spec blockBudget floorBlocks h
  rw [segmentEnd_eq]
  generalize (bestCut floorBlocks (window blockBudget groups)).getD (reach blockBudget groups) = stop at *
  have hne : groups.take stop ≠ [] := by
    rw [ne_eq, List.take_eq_nil_iff, not_or]
    exact ⟨hpos.ne', h⟩
  -- the first of the kept groups has rows, so there is a last one
  obtain ⟨g₁, hg₁⟩ := List.exists_mem_of_ne_nil _ hne
  obtain ⟨first₁, last₁, hfirst₁, hlast₁, _⟩ := hplaced.rows g₁ (List.mem_of_mem_take hg₁)
  obtain ⟨maxLast, hmax⟩ : ∃ maxLast, ((groups.take stop).filterMap (·.lastPos)).max? = some maxLast := by
    refine Option.isSome_iff_exists.1 (List.isSome_max?_of_mem (List.mem_filterMap.2 ⟨g₁, hg₁, hlast₁⟩))
  obtain ⟨hmem, hmaximal⟩ := List.max?_eq_some_iff.1 hmax
  obtain ⟨g₂, hg₂, hlast₂⟩ := List.mem_filterMap.1 hmem
  rw [extendToContiguous, hmax]
  have htake := List.take_add (l := groups) (i := stop) (j := absorb maxLast (groups.drop stop))
  refine ⟨groups.take stop, (groups.drop stop).take (absorb maxLast (groups.drop stop)), htake, hne, hfits, ?_, ?_, ?_⟩
  · rw [← List.drop_drop, List.take_append_drop]
    exact hfilled
  · refine absorb_spans ?_ ⟨g₂, hg₂, hlast₂⟩
    rwa [List.take_append_drop]
  · rw [← List.drop_drop]
    intro g hg g' hg'
    obtain ⟨hbehind, hbefore⟩ := absorb_before (hplaced.sublist (List.drop_sublist _ _)) g' hg'
    rcases List.mem_append.1 hg with hg | hg
    · intro last hlast first hfirst
      exact (hmaximal last (List.mem_filterMap.2 ⟨g, hg, hlast⟩)).trans_lt (hbehind first hfirst)
    · exact hbefore g hg

/-! ## All segments -/

def Grown (groups : List (FoldGroup ρ)) : Prop :=
  ∃ kept absorbed, groups = kept ++ absorbed ∧ kept ≠ [] ∧ absorbed ≠ [] ∧ (blocksOf kept : Int) ≤ blockBudget ∧
    ∀ p g q, absorbed = p ++ g :: q → ∃ g₀ ∈ kept ++ p, Spans g₀ g

structure Tiles (groups : List (FoldGroup ρ)) (segments : List (Segment ρ)) : Prop where
  whole : segments.flatMap (·.groups) = groups
  ne_nil : ∀ s ∈ segments, s.groups ≠ []
  blocks : ∀ s ∈ segments, s.blockCount = blocksOf s.groups
  apart : segments.IsChain fun s s' => ∀ g ∈ s.groups, ∀ g' ∈ s'.groups, Before g g'
  filled : segments.IsChain fun s s' => floorBlocks ≤ s.blockCount ∨
    ∃ g ∈ s'.groups.head?, blockBudget < (s.blockCount + g.blockCount : Nat)
  bounded : ∀ s ∈ segments, blockBudget < s.blockCount →
    (∃ g ∈ s.groups.head?, blockBudget < g.blockCount) ∨ Grown blockBudget s.groups

variable {blockBudget floorBlocks}

theorem Ended.bounded {kept absorbed rest : List (FoldGroup ρ)} (h : Ended blockBudget floorBlocks kept absorbed rest)
    (hover : blockBudget < blocksOf (kept ++ absorbed)) :
    (∃ g ∈ (kept ++ absorbed).head?, blockBudget < g.blockCount) ∨ Grown blockBudget (kept ++ absorbed) := by
  rcases h.fits with hfits | ⟨g, hg, hone⟩
  · refine .inr ⟨kept, absorbed, rfl, h.ne_nil, ?_, hfits, h.spanned⟩
    rintro rfl
    rw [List.append_nil] at hover
    exact absurd hfits (not_le.2 hover)
  · exact .inl ⟨g, by rw [List.head?_append, hg]; rfl, hone⟩

theorem Ended.filled_next {kept absorbed rest : List (FoldGroup ρ)} (h : Ended blockBudget floorBlocks kept absorbed rest) :
    floorBlocks ≤ blocksOf (kept ++ absorbed) ∨
      ∀ g ∈ rest.head?, blockBudget < (blocksOf (kept ++ absorbed) + g.blockCount : Nat) := by
  rw [blocksOf_append]
  rcases h.filled with hfloor | hnext
  · exact .inl (by omega)
  · refine .inr fun g hg => ?_
    cases absorbed with
    | nil =>
      exact hnext g hg
    | cons g₀ absorbed =>
      have hg₀ := hnext g₀ rfl
      rw [blocksOf_cons]
      omega

theorem head_segmentsFrom {groups : List (FoldGroup ρ)} (ordinal : Nat) (h : groups ≠ []) :
    ∃ s segments, segmentsFrom blockBudget floorBlocks ordinal groups = s :: segments ∧
      s.groups <+: groups ∧ s.groups.head? = groups.head? := by
  refine ⟨_, _, segmentsFrom_eq blockBudget floorBlocks ordinal h, List.take_prefix _ _, ?_⟩
  show (groups.take _).head? = groups.head?
  rw [List.head?_take, if_neg (segmentEnd_pos blockBudget floorBlocks h).ne']

theorem segmentsFrom_tiles (groups : List (FoldGroup ρ)) (hplaced : Placed groups) (ordinal : Nat) :
    Tiles blockBudget floorBlocks groups (segmentsFrom blockBudget floorBlocks ordinal groups) := by
  by_cases h : groups = []
  · subst h
    rw [segmentsFrom_nil]
    exact ⟨rfl, nofun, nofun, List.IsChain.nil, List.IsChain.nil, nofun⟩
  · obtain ⟨kept, absorbed, htake, hended⟩ := segmentEnd_ended blockBudget floorBlocks hplaced h
    have hne : groups.take (segmentEnd blockBudget floorBlocks groups) ≠ [] := by
      rw [htake]
      exact List.append_ne_nil_of_left_ne_nil hended.ne_nil _
    have hrest := segmentsFrom_tiles _ (hplaced.sublist (List.drop_sublist (segmentEnd blockBudget floorBlocks groups) _))
      (ordinal + 1)
    -- what holds between the segment and the one behind it
    have hnext : ∀ s' ∈ (segmentsFrom blockBudget floorBlocks (ordinal + 1)
        (groups.drop (segmentEnd blockBudget floorBlocks groups))).head?,
        s'.groups <+: groups.drop (segmentEnd blockBudget floorBlocks groups) ∧
          s'.groups.head? = (groups.drop (segmentEnd blockBudget floorBlocks groups)).head? ∧
            groups.drop (segmentEnd blockBudget floorBlocks groups) ≠ [] := by
      intro s' hs'
      have hdrop : groups.drop (segmentEnd blockBudget floorBlocks groups) ≠ [] := fun hnil => by
        rw [hnil, segmentsFrom_nil] at hs'
        cases hs'
      obtain ⟨s, segments, heq, hpre, hhead⟩ := head_segmentsFrom (ordinal + 1) hdrop
      rw [heq] at hs'
      obtain rfl := Option.some.inj hs'
      exact ⟨hpre, hhead, hdrop⟩
    rw [segmentsFrom_eq blockBudget floorBlocks ordinal h]
    refine ⟨?_, ?_, ?_, ?_, ?_, ?_⟩
    · rw [List.flatMap_cons, hrest.whole]
      exact List.take_append_drop _ _
    · exact List.forall_mem_cons.2 ⟨hne, hrest.ne_nil⟩
    · exact List.forall_mem_cons.2 ⟨rfl, hrest.blocks⟩
    · refine List.isChain_cons.2 ⟨fun s' hs' g hg g' hg' => ?_, hrest.apart⟩
      have hg : g ∈ groups.take (segmentEnd blockBudget floorBlocks groups) := hg
      rw [htake] at hg
      exact hended.apart g hg g' ((hnext s' hs').1.subset hg')
    · refine List.isChain_cons.2 ⟨fun s' hs' => ?_, hrest.filled⟩
      obtain ⟨_, hhead, hdrop⟩ := hnext s' hs'
      show floorBlocks ≤ blocksOf (groups.take _) ∨ _
      rw [hhead, htake]
      refine hended.filled_next.imp_right fun hfits => ?_
      obtain ⟨g, hg⟩ := Option.isSome_iff_exists.1 (List.isSome_head?.2 hdrop)
      exact ⟨g, hg, hfits g hg⟩
    · refine List.forall_mem_cons.2 ⟨fun hover => ?_, hrest.bounded⟩
      have hover : blockBudget < blocksOf (groups.take (segmentEnd blockBudget floorBlocks groups)) := hover
      show (∃ g ∈ (groups.take _).head?, _) ∨ Grown _ (groups.take _)
      rw [htake] at hover ⊢
      exact hended.bounded hover
termination_by groups.length
decreasing_by
  have hpos := segmentEnd_pos blockBudget floorBlocks h
  have hlen := List.length_pos_iff.2 h
  rw [List.length_drop]
  omega

/-- **Segments tile a turn**: whole, apart, filled up to the floor and bounded by the budget. -/
theorem planSegments_tiles (blockBudget : Int) (lookbackFraction : ℚ) (lookback : Int) (groups : List (FoldGroup ρ))
    (hbudget : 0 < blockBudget) (hlow : 0 ≤ lookbackFraction) (hhigh : lookbackFraction < 1) (hplaced : Placed groups) :
    ∃ segments, planSegments blockBudget lookbackFraction lookback groups = .ok segments ∧
      Tiles blockBudget (blockBudget - lookback) groups segments :=
  ⟨_, planSegments_eq lookback hbudget hlow hhigh groups, segmentsFrom_tiles groups hplaced 0⟩

end

def bracketing : List (FoldGroup Unit) :=
  [{ rowGroup 3 false false 0 with lastPos := some 2 }, rowGroup 5 false false 1, rowGroup 1 true false 3]

theorem planSegments_tiles_bracketing :
    ∃ segments, planSegments 4 (1 / 4) 1 bracketing = .ok segments ∧ Tiles 4 (4 - 1) bracketing segments :=
  planSegments_tiles 4 (1 / 4) 1 bracketing (by decide) (by norm_num) (by norm_num)
    ⟨by simp [bracketing, rowGroup], by simp [bracketing, rowGroup]⟩

end CodexSegments

end Cctally
