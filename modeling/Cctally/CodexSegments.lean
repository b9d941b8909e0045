import Cctally.Except
import Cctally.Journal
import Mathlib

/-!
# Segments of a Codex turn

A turn's fold groups are cut greedily into segments: as many groups as the block
budget holds, or fewer up to a semantic boundary behind the lookback floor, and
then more until the rows are contiguous. Where the segments of a growing turn
stay as they were is decided by the titles that still come within a budget.
-/

namespace Cctally

namespace CodexSegments

structure FoldGroup (ρ : Type) where
  rows : List ρ
  blockCount : Nat
  sourceBytes : Nat
  isTitleBoundary : Bool
  isToolTransition : Bool
  firstPos : Option Int
  lastPos : Option Int

structure Segment (ρ : Type) where
  ordinal : Nat
  groups : List (FoldGroup ρ)
  blockCount : Nat
  sourceBytes : Nat
  anchorRow : Option ρ

section
variable {ρ : Type}

def boundaryRank (group : FoldGroup ρ) : Nat :=
  if group.isTitleBoundary then 0 else if group.isToolTransition then 1 else 2

def absorb (maxLast : Int) : List (FoldGroup ρ) → Nat
  | [] => 0
  | group :: rest =>
    match group.firstPos with
    | none => 0
    | some next =>
      if maxLast < next then 0
      else 1 + absorb (match group.lastPos with
        | some last => max maxLast last
        | none => maxLast) rest

def extendToContiguous (groups : List (FoldGroup ρ)) (stop : Nat) : Nat :=
  match ((groups.take stop).filterMap (·.lastPos)).max? with
  | none => stop
  | some maxLast => stop + absorb maxLast (groups.drop stop)

def reachFrom (blockBudget : Int) (blocks : Nat) : List (FoldGroup ρ) → Nat
  | [] => 0
  | group :: rest =>
    let candidate := blocks + group.blockCount
    if blockBudget < candidate then 0 else 1 + reachFrom blockBudget candidate rest

def reach (blockBudget : Int) : List (FoldGroup ρ) → Nat
  | [] => 0
  | group :: rest => 1 + reachFrom blockBudget group.blockCount rest

def bestCutFrom (floorBlocks : Int) (cut kept : Nat) (best : Option Nat) (bestRank : Nat) :
    List (FoldGroup ρ) → Option Nat
  | [] => best
  | group :: rest =>
    let kept' := kept + group.blockCount
    if 0 < cut ∧ floorBlocks ≤ kept ∧ boundaryRank group < bestRank then
      if boundaryRank group = 0 then some cut
      else bestCutFrom floorBlocks (cut + 1) kept' (some cut) (boundaryRank group) rest
    else bestCutFrom floorBlocks (cut + 1) kept' best bestRank rest

def bestCut (floorBlocks : Int) (window : List (FoldGroup ρ)) : Option Nat := bestCutFrom floorBlocks 0 0 none 2 window

variable (blockBudget floorBlocks : Int)

def segmentEnd (groups : List (FoldGroup ρ)) : Nat :=
  let stop := reach blockBudget groups
  extendToContiguous groups ((bestCut floorBlocks (groups.take stop)).getD stop)

def segment (ordinal : Nat) (chosen : List (FoldGroup ρ)) : Segment ρ :=
  { ordinal := ordinal
    groups := chosen
    blockCount := (chosen.map (·.blockCount)).sum
    sourceBytes := (chosen.map (·.sourceBytes)).sum
    anchorRow := chosen.head?.bind (·.rows.head?) }

theorem le_extendToContiguous (groups : List (FoldGroup ρ)) (stop : Nat) : stop ≤ extendToContiguous groups stop := by
  unfold extendToContiguous
  cases ((groups.take stop).filterMap (·.lastPos)).max? with
  | none => exact Nat.le_refl _
  | some maxLast => exact Nat.le_add_right _ _

theorem bestCutFrom_pos : ∀ {groups : List (FoldGroup ρ)} {cut kept bestRank c : Nat} {best : Option Nat},
    (∀ b, best = some b → 0 < b) → bestCutFrom floorBlocks cut kept best bestRank groups = some c → 0 < c
  | [], _, _, _, _, _, hbest, h => hbest _ h
  | group :: rest, cut, kept, bestRank, c, best, hbest, h => by
    simp only [bestCutFrom] at h
    by_cases hcut : 0 < cut ∧ floorBlocks ≤ kept ∧ boundaryRank group < bestRank
    · rw [if_pos hcut] at h
      by_cases hrank : boundaryRank group = 0
      · rw [if_pos hrank, Option.some.injEq] at h
        exact h ▸ hcut.1
      · rw [if_neg hrank] at h
        refine bestCutFrom_pos (fun b hb => ?_) h
        cases hb
        exact hcut.1
    · rw [if_neg hcut] at h
      exact bestCutFrom_pos hbest h

theorem segmentEnd_pos {groups : List (FoldGroup ρ)} (h : groups ≠ []) : 0 < segmentEnd blockBudget floorBlocks groups := by
  have hreach : 0 < reach blockBudget groups := by
    cases groups with
    | nil => exact absurd rfl h
    | cons group rest =>
      simp only [reach]
      omega
  refine Nat.lt_of_lt_of_le ?_ (le_extendToContiguous _ _)
  cases hc : bestCut floorBlocks (groups.take (reach blockBudget groups)) with
  | none => exact hreach
  | some c => exact bestCutFrom_pos floorBlocks (by simp) hc

def segmentsFrom (ordinal : Nat) (groups : List (FoldGroup ρ)) : List (Segment ρ) :=
  if h : groups = [] then []
  else
    segment ordinal (groups.take (segmentEnd blockBudget floorBlocks groups)) ::
      segmentsFrom (ordinal + 1) (groups.drop (segmentEnd blockBudget floorBlocks groups))
termination_by groups.length
decreasing_by
  have hpos := segmentEnd_pos blockBudget floorBlocks h
  have hlen := List.length_pos_iff.2 h
  rw [List.length_drop]
  omega

/-- `plan_segments`. `lookback` is `int(block_budget * lookback_fraction)`, a product of doubles. -/
def planSegments (blockBudget : Int) (lookbackFraction : ℚ) (lookback : Int) (foldGroups : List (FoldGroup ρ)) :
    Py (List (Segment ρ)) := do
  if blockBudget ≤ 0 then throw (.value "block_budget must be positive")
  if ¬ (0 ≤ lookbackFraction ∧ lookbackFraction < 1) then throw (.value "lookback_fraction must be in [0.0, 1.0)")
  return segmentsFrom blockBudget (blockBudget - lookback) 0 foldGroups

end

section
variable {ρ : Type} (blockBudget floorBlocks : Int)

def boundaryAt (rank cut kept : Nat) : List (FoldGroup ρ) → Option Nat
  | [] => none
  | group :: rest =>
    if 0 < cut ∧ floorBlocks ≤ kept ∧ boundaryRank group = rank then some cut
    else boundaryAt rank (cut + 1) (kept + group.blockCount) rest

theorem boundaryRank_le (group : FoldGroup ρ) : boundaryRank group ≤ 2 := by
  unfold boundaryRank
  split
  · omega
  · split <;> omega

theorem bestCutFrom_one : ∀ (groups : List (FoldGroup ρ)) (cut kept : Nat) (best : Option Nat),
    bestCutFrom floorBlocks cut kept best 1 groups = (boundaryAt floorBlocks 0 cut kept groups).or best
  | [], _, _, _ => rfl
  | group :: rest, cut, kept, best => by
    simp only [bestCutFrom, boundaryAt]
    by_cases hrank : boundaryRank group = 0
    · by_cases hcut : 0 < cut ∧ floorBlocks ≤ kept
      · simp [hrank, hcut]
      · have hnot : ∀ p : Prop, ¬ (0 < cut ∧ floorBlocks ≤ kept ∧ p) := fun p h => hcut ⟨h.1, h.2.1⟩
        rw [if_neg (hnot _), if_neg (hnot _)]
        exact bestCutFrom_one rest _ _ _
    · have hone : ¬ boundaryRank group < 1 := by omega
      simp only [hrank, hone, and_false, if_false]
      exact bestCutFrom_one rest _ _ _

theorem bestCutFrom_eq : ∀ (groups : List (FoldGroup ρ)) (cut kept : Nat),
    bestCutFrom floorBlocks cut kept none 2 groups =
      (boundaryAt floorBlocks 0 cut kept groups).or (boundaryAt floorBlocks 1 cut kept groups)
  | [], _, _ => rfl
  | group :: rest, cut, kept => by
    simp only [bestCutFrom, boundaryAt]
    by_cases hcut : 0 < cut ∧ floorBlocks ≤ kept
    · simp only [hcut, true_and]
      have hle := boundaryRank_le group
      by_cases hzero : boundaryRank group = 0
      · simp [hzero]
      · by_cases hone : boundaryRank group = 1
        · simp only [hone, Nat.one_lt_two, Nat.one_ne_zero, if_true, if_false]
          exact bestCutFrom_one floorBlocks rest _ _ _
        · have htwo : ¬ boundaryRank group < 2 := by omega
          simp only [hzero, hone, htwo, if_false]
          exact bestCutFrom_eq rest _ _
    · have hnot : ∀ p : Prop, ¬ (0 < cut ∧ floorBlocks ≤ kept ∧ p) := fun p h => hcut ⟨h.1, h.2.1⟩
      rw [if_neg (hnot _), if_neg (hnot _), if_neg (hnot _)]
      exact bestCutFrom_eq rest _ _

theorem bestCut_eq (window : List (FoldGroup ρ)) : bestCut floorBlocks window =
    (boundaryAt floorBlocks 0 0 0 window).or (boundaryAt floorBlocks 1 0 0 window) :=
  bestCutFrom_eq floorBlocks window 0 0

theorem boundaryAt_append (rank : Nat) : ∀ (a b : List (FoldGroup ρ)) (cut kept : Nat),
    boundaryAt floorBlocks rank cut kept (a ++ b) = (boundaryAt floorBlocks rank cut kept a).or
      (boundaryAt floorBlocks rank (cut + a.length) (kept + (a.map (·.blockCount)).sum) b)
  | [], _, _, _ => rfl
  | group :: a, b, cut, kept => by
    simp only [List.cons_append, boundaryAt, List.length_cons, List.map_cons, List.sum_cons]
    split
    · rfl
    · rw [boundaryAt_append rank a b, Nat.add_right_comm cut, Nat.add_assoc kept]
      rfl

theorem boundaryAt_bounds {rank : Nat} : ∀ {groups : List (FoldGroup ρ)} {cut kept c : Nat},
    boundaryAt floorBlocks rank cut kept groups = some c → cut ≤ c ∧ c < cut + groups.length
  | group :: rest, cut, kept, c, h => by
    simp only [boundaryAt] at h
    rw [List.length_cons]
    split at h
    · cases h
      omega
    · have := boundaryAt_bounds h
      omega

theorem reachFrom_le : ∀ (groups : List (FoldGroup ρ)) (blocks : Nat), reachFrom blockBudget blocks groups ≤ groups.length
  | [], _ => Nat.le_refl _
  | group :: rest, blocks => by
    simp only [reachFrom, List.length_cons]
    have := reachFrom_le rest (blocks + group.blockCount)
    split <;> omega

theorem reach_le (groups : List (FoldGroup ρ)) : reach blockBudget groups ≤ groups.length := by
  cases groups with
  | nil => exact Nat.le_refl _
  | cons group rest =>
    have := reachFrom_le blockBudget rest group.blockCount
    simp only [reach, List.length_cons]
    omega

theorem reachFrom_append : ∀ (a b : List (FoldGroup ρ)) (blocks : Nat),
    reachFrom blockBudget blocks a ≤ reachFrom blockBudget blocks (a ++ b) ∧
      (reachFrom blockBudget blocks a < a.length →
        reachFrom blockBudget blocks (a ++ b) = reachFrom blockBudget blocks a)
  | [], _, _ => ⟨Nat.zero_le _, fun h => absurd h (Nat.not_lt_zero _)⟩
  | group :: a, b, blocks => by
    obtain ⟨hle, heq⟩ := reachFrom_append a b (blocks + group.blockCount)
    simp only [List.cons_append, reachFrom, List.length_cons]
    by_cases hfit : blockBudget < (blocks + group.blockCount : Nat)
    · simp only [hfit, if_true]
      exact ⟨Nat.le_refl _, fun _ => trivial⟩
    · simp only [hfit, if_false]
      refine ⟨by omega, fun h => ?_⟩
      rw [heq (by omega)]

theorem reach_append (a b : List (FoldGroup ρ)) : reach blockBudget a ≤ reach blockBudget (a ++ b) ∧
    (reach blockBudget a < a.length → reach blockBudget (a ++ b) = reach blockBudget a) := by
  cases a with
  | nil => exact ⟨Nat.zero_le _, fun h => absurd h (Nat.not_lt_zero _)⟩
  | cons group a =>
    obtain ⟨hle, heq⟩ := reachFrom_append blockBudget a b group.blockCount
    simp only [List.cons_append, reach, List.length_cons]
    refine ⟨by omega, fun h => ?_⟩
    rw [heq (by omega)]

theorem absorb_le : ∀ (groups : List (FoldGroup ρ)) (maxLast : Int), absorb maxLast groups ≤ groups.length
  | [], _ => Nat.le_refl _
  | group :: rest, maxLast => by
    simp only [absorb, List.length_cons]
    split
    · omega
    · split
      · omega
      · rw [Nat.add_comm]
        exact Nat.succ_le_succ (absorb_le rest _)

theorem absorb_append : ∀ (a b : List (FoldGroup ρ)) (maxLast : Int), absorb maxLast a < a.length →
    absorb maxLast (a ++ b) = absorb maxLast a
  | [], _, _, h => absurd h (Nat.not_lt_zero _)
  | group :: a, b, maxLast, h => by
    simp only [absorb, List.cons_append, List.length_cons] at h ⊢
    split
    · rfl
    · rename_i next hfirst
      rw [hfirst] at h
      simp only at h
      by_cases hlt : maxLast < next
      · rw [if_pos hlt, if_pos hlt]
      · rw [if_neg hlt] at h ⊢
        rw [if_neg hlt, absorb_append a b _ (by omega)]

theorem extendToContiguous_le {groups : List (FoldGroup ρ)} {stop : Nat} (h : stop ≤ groups.length) :
    extendToContiguous groups stop ≤ groups.length := by
  unfold extendToContiguous
  cases ((groups.take stop).filterMap (·.lastPos)).max? with
  | none => exact h
  | some maxLast =>
    have := absorb_le (groups.drop stop) maxLast
    rw [List.length_drop] at this
    simp only
    omega

theorem extendToContiguous_append {a : List (FoldGroup ρ)} (b : List (FoldGroup ρ)) {stop : Nat} (hstop : stop ≤ a.length)
    (h : extendToContiguous a stop < a.length) : extendToContiguous (a ++ b) stop = extendToContiguous a stop := by
  unfold extendToContiguous at h ⊢
  rw [List.take_append_of_le_length hstop, List.drop_append_of_le_length hstop]
  cases hmax : ((a.take stop).filterMap (·.lastPos)).max? with
  | none => rfl
  | some maxLast =>
    rw [hmax] at h
    simp only at h ⊢
    rw [absorb_append _ _ _ (by rw [List.length_drop]; omega)]

/-! ## One cut -/

def window (groups : List (FoldGroup ρ)) : List (FoldGroup ρ) := groups.take (reach blockBudget groups)

def Retitled (tail more : List (FoldGroup ρ)) : Prop :=
  boundaryAt floorBlocks 0 0 0 (window blockBudget tail) = none ∧
    boundaryAt floorBlocks 0 0 0 (window blockBudget (tail ++ more)) ≠ none

theorem segmentEnd_eq (groups : List (FoldGroup ρ)) : segmentEnd blockBudget floorBlocks groups =
    extendToContiguous groups ((bestCut floorBlocks (window blockBudget groups)).getD (reach blockBudget groups)) := rfl

theorem cut_le (groups : List (FoldGroup ρ)) :
    (bestCut floorBlocks (window blockBudget groups)).getD (reach blockBudget groups) ≤ reach blockBudget groups := by
  rw [bestCut_eq]
  cases hcut : (boundaryAt floorBlocks 0 0 0 (window blockBudget groups)).or
      (boundaryAt floorBlocks 1 0 0 (window blockBudget groups)) with
  | none => exact Nat.le_refl _
  | some c =>
    have hlt : c < 0 + (window blockBudget groups).length := by
      rcases Option.or_eq_some_iff.1 hcut with h | ⟨-, h⟩
      · exact (boundaryAt_bounds floorBlocks h).2
      · exact (boundaryAt_bounds floorBlocks h).2
    unfold window at hlt
    rw [List.length_take] at hlt
    simp only [Option.getD_some]
    omega

theorem segmentEnd_le (groups : List (FoldGroup ρ)) : segmentEnd blockBudget floorBlocks groups ≤ groups.length := by
  rw [segmentEnd_eq]
  exact extendToContiguous_le ((cut_le blockBudget floorBlocks groups).trans (reach_le blockBudget groups))

theorem segmentEnd_append_of_lt {tail : List (FoldGroup ρ)} (more : List (FoldGroup ρ))
    (hreach : reach blockBudget tail < tail.length) (h : segmentEnd blockBudget floorBlocks tail < tail.length) :
    window blockBudget (tail ++ more) = window blockBudget tail ∧
      segmentEnd blockBudget floorBlocks (tail ++ more) = segmentEnd blockBudget floorBlocks tail := by
  have hsame := (reach_append blockBudget tail more).2 hreach
  have hwindow : window blockBudget (tail ++ more) = window blockBudget tail := by
    unfold window
    rw [hsame, List.take_append_of_le_length (Nat.le_of_lt hreach)]
  refine ⟨hwindow, ?_⟩
  rw [segmentEnd_eq] at h
  rw [segmentEnd_eq, segmentEnd_eq, hwindow, hsame]
  exact extendToContiguous_append more ((cut_le blockBudget floorBlocks tail).trans (Nat.le_of_lt hreach)) h

theorem window_whole {tail : List (FoldGroup ρ)} (more : List (FoldGroup ρ)) (hreach : reach blockBudget tail = tail.length) :
    window blockBudget tail = tail ∧ ∃ some', window blockBudget (tail ++ more) = tail ++ some' := by
  have hle := (reach_append blockBudget tail more).1
  refine ⟨by rw [window, hreach, List.take_length], more.take (reach blockBudget (tail ++ more) - tail.length), ?_⟩
  unfold window
  rw [List.take_append, List.take_of_length_le (by omega)]

theorem segmentEnd_append_iff {tail : List (FoldGroup ρ)} (more : List (FoldGroup ρ))
    (h : segmentEnd blockBudget floorBlocks tail < tail.length) :
    segmentEnd blockBudget floorBlocks (tail ++ more) = segmentEnd blockBudget floorBlocks tail ↔
      ¬ Retitled blockBudget floorBlocks tail more := by
  by_cases hreach : reach blockBudget tail < tail.length
  · obtain ⟨hwindow, hend⟩ := segmentEnd_append_of_lt blockBudget floorBlocks more hreach h
    refine ⟨fun _ ⟨hnone, hsome⟩ => hsome (hwindow ▸ hnone), fun _ => hend⟩
  have hwhole : reach blockBudget tail = tail.length := by
    have := reach_le blockBudget tail
    omega
  obtain ⟨hwindow, front, hwindow'⟩ := window_whole blockBudget more hwhole
  -- the groups fit whole, so the cut is a boundary
  have hcut : ∃ c, bestCut floorBlocks tail = some c := by
    cases hc : bestCut floorBlocks tail with
    | some c => exact ⟨c, rfl⟩
    | none =>
      rw [segmentEnd_eq, hwindow, hc, Option.getD_none, hwhole] at h
      have := le_extendToContiguous tail tail.length
      omega
  obtain ⟨c, hc⟩ := hcut
  have hend : segmentEnd blockBudget floorBlocks tail = extendToContiguous tail c := by
    rw [segmentEnd_eq, hwindow, hc, Option.getD_some]
  have hcle : c ≤ tail.length := by
    have := le_extendToContiguous tail c
    omega
  have hkept : bestCut floorBlocks (window blockBudget (tail ++ more)) = some c →
      segmentEnd blockBudget floorBlocks (tail ++ more) = segmentEnd blockBudget floorBlocks tail := by
    intro hsame
    rw [hend] at h
    rw [segmentEnd_eq, hsame, Option.getD_some, hend]
    exact extendToContiguous_append more hcle h
  unfold Retitled
  rw [hwindow]
  cases htitle : boundaryAt floorBlocks 0 0 0 tail with
  | some d =>
    have hd : c = d := by
      rw [bestCut_eq, htitle] at hc
      exact (Option.some.inj hc).symm
    refine ⟨fun _ h => Option.some_ne_none _ h.1, fun _ => hkept ?_⟩
    rw [bestCut_eq, hwindow', boundaryAt_append, htitle, hd]
    rfl
  | none =>
    have hone : boundaryAt floorBlocks 1 0 0 tail = some c := by
      rw [bestCut_eq, htitle] at hc
      exact hc
    cases htitle' : boundaryAt floorBlocks 0 0 0 (window blockBudget (tail ++ more)) with
    | none =>
      refine ⟨fun _ h => h.2 rfl, fun _ => hkept ?_⟩
      rw [bestCut_eq, htitle', hwindow', boundaryAt_append, hone]
      rfl
    | some d =>
      refine ⟨fun heq => ?_, fun hnot => absurd ⟨rfl, nofun⟩ hnot⟩
      have hd : tail.length ≤ d := by
        rw [hwindow', boundaryAt_append, htitle, Option.none_or] at htitle'
        have := (boundaryAt_bounds floorBlocks htitle').1
        omega
      rw [segmentEnd_eq, bestCut_eq, htitle', Option.some_or, Option.getD_some] at heq
      have := le_extendToContiguous (tail ++ more) d
      omega

/-! ## The whole turn -/

inductive Opens (groups : List (FoldGroup ρ)) : List (FoldGroup ρ) → Prop
  | first : Opens groups groups
  | next {tail : List (FoldGroup ρ)} :
    Opens groups tail → Opens groups (tail.drop (segmentEnd blockBudget floorBlocks tail))

def Settled (groups more : List (FoldGroup ρ)) : Prop :=
  ∀ tail, Opens blockBudget floorBlocks groups tail → segmentEnd blockBudget floorBlocks tail < tail.length →
    ¬ Retitled blockBudget floorBlocks tail more

theorem Opens.of_drop {groups tail : List (FoldGroup ρ)}
    (h : Opens blockBudget floorBlocks (groups.drop (segmentEnd blockBudget floorBlocks groups)) tail) :
    Opens blockBudget floorBlocks groups tail := by
  induction h with
  | first => exact .next .first
  | next _ ih => exact .next ih

theorem Opens.cases_drop {groups tail : List (FoldGroup ρ)} (h : Opens blockBudget floorBlocks groups tail) :
    tail = groups ∨ Opens blockBudget floorBlocks (groups.drop (segmentEnd blockBudget floorBlocks groups)) tail := by
  induction h with
  | first => exact .inl rfl
  | next _ ih =>
    rcases ih with rfl | ih
    · exact .inr .first
    · exact .inr (.next ih)

theorem settled_iff {groups more : List (FoldGroup ρ)} (h : segmentEnd blockBudget floorBlocks groups < groups.length) :
    Settled blockBudget floorBlocks groups more ↔ ¬ Retitled blockBudget floorBlocks groups more ∧
      Settled blockBudget floorBlocks (groups.drop (segmentEnd blockBudget floorBlocks groups)) more := by
  refine ⟨fun hs => ⟨hs _ .first h, fun tail ht => hs tail ht.of_drop⟩, fun ⟨hhere, hs⟩ tail ht hlt => ?_⟩
  rcases ht.cases_drop with rfl | ht
  · exact hhere
  · exact hs tail ht hlt

theorem Opens.nil {tail : List (FoldGroup ρ)} (h : Opens blockBudget floorBlocks [] tail) : tail = [] := by
  induction h with
  | first => rfl
  | next _ ih => rw [ih, List.drop_nil]

theorem settled_of_last {groups more : List (FoldGroup ρ)}
    (h : ¬ segmentEnd blockBudget floorBlocks groups < groups.length) : Settled blockBudget floorBlocks groups more := by
  intro tail ht hlt
  rcases ht.cases_drop with rfl | ht
  · exact absurd hlt h
  · rw [List.drop_eq_nil_of_le (not_lt.1 h)] at ht
    rw [ht.nil] at hlt
    exact absurd hlt (Nat.not_lt_zero _)

theorem segmentsFrom_nil (ordinal : Nat) : segmentsFrom blockBudget floorBlocks ordinal ([] : List (FoldGroup ρ)) = [] := by
  rw [segmentsFrom, dif_pos rfl]

theorem segmentsFrom_eq (ordinal : Nat) {groups : List (FoldGroup ρ)} (h : groups ≠ []) :
    segmentsFrom blockBudget floorBlocks ordinal groups =
      segment ordinal (groups.take (segmentEnd blockBudget floorBlocks groups)) ::
        segmentsFrom blockBudget floorBlocks (ordinal + 1) (groups.drop (segmentEnd blockBudget floorBlocks groups)) := by
  rw [segmentsFrom, dif_neg h]

theorem segment_inj {ordinal : Nat} {a b : List (FoldGroup ρ)} (h : segment ordinal a = segment ordinal b) : a = b :=
  congrArg Segment.groups h

theorem segmentsFrom_iff (groups more : List (FoldGroup ρ)) (ordinal : Nat) :
    (segmentsFrom blockBudget floorBlocks ordinal groups).dropLast <+:
        segmentsFrom blockBudget floorBlocks ordinal (groups ++ more) ↔
      Settled blockBudget floorBlocks groups more := by
  by_cases hlt : segmentEnd blockBudget floorBlocks groups < groups.length
  · have hne : groups ≠ [] := by
      rintro rfl
      exact absurd hlt (Nat.not_lt_zero _)
    have hpos := segmentEnd_pos blockBudget floorBlocks hne
    have hrest : segmentsFrom blockBudget floorBlocks (ordinal + 1)
        (groups.drop (segmentEnd blockBudget floorBlocks groups)) ≠ [] := by
      rw [segmentsFrom_eq blockBudget floorBlocks _ (List.drop_eq_nil_iff.not.2 (not_le.2 hlt))]
      exact List.cons_ne_nil _ _
    have hne' : groups ++ more ≠ [] := List.append_ne_nil_of_left_ne_nil hne _
    have hsame : segment ordinal (groups.take (segmentEnd blockBudget floorBlocks groups)) =
        segment ordinal ((groups ++ more).take (segmentEnd blockBudget floorBlocks (groups ++ more))) ↔
          segmentEnd blockBudget floorBlocks (groups ++ more) = segmentEnd blockBudget floorBlocks groups := by
      refine ⟨fun h => ?_, fun h => ?_⟩
      · have hlen := congrArg List.length (segment_inj h)
        have hle := segmentEnd_le blockBudget floorBlocks (groups ++ more)
        rw [List.length_take, List.length_take] at hlen
        omega
      · rw [h, List.take_append_of_le_length (Nat.le_of_lt hlt)]
    rw [settled_iff blockBudget floorBlocks hlt, ← segmentEnd_append_iff blockBudget floorBlocks more hlt,
      segmentsFrom_eq blockBudget floorBlocks ordinal hne, segmentsFrom_eq blockBudget floorBlocks ordinal hne',
      List.dropLast_cons_of_ne_nil hrest, List.cons_prefix_cons, hsame]
    refine and_congr_right fun hend => ?_
    rw [hend, List.drop_append_of_le_length (Nat.le_of_lt hlt)]
    exact segmentsFrom_iff _ more (ordinal + 1)
  · refine iff_of_true ?_ (settled_of_last blockBudget floorBlocks hlt)
    by_cases hne : groups = []
    · subst hne
      rw [segmentsFrom_nil]
      exact List.nil_prefix
    · rw [segmentsFrom_eq blockBudget floorBlocks ordinal hne, List.drop_eq_nil_of_le (not_lt.1 hlt), segmentsFrom_nil]
      exact List.nil_prefix
termination_by groups.length
decreasing_by
  rw [List.length_drop]
  omega

theorem planSegments_eq {blockBudget : Int} {lookbackFraction : ℚ} (lookback : Int) (hbudget : 0 < blockBudget)
    (hlow : 0 ≤ lookbackFraction) (hhigh : lookbackFraction < 1) (groups : List (FoldGroup ρ)) :
    planSegments blockBudget lookbackFraction lookback groups =
      .ok (segmentsFrom blockBudget (blockBudget - lookback) 0 groups) := by
  unfold planSegments
  rw [if_neg (not_le.2 hbudget), if_neg (not_not.2 ⟨hlow, hhigh⟩)]
  rfl

/-- **Segments are stable under growth** exactly when no title comes first into the
window of a segment that is not the last. -/
theorem planSegments_stable_iff (blockBudget : Int) (lookbackFraction : ℚ) (lookback : Int)
    (groups more : List (FoldGroup ρ)) (hbudget : 0 < blockBudget) (hlow : 0 ≤ lookbackFraction)
    (hhigh : lookbackFraction < 1) :
    ∃ before after, planSegments blockBudget lookbackFraction lookback groups = .ok before ∧
      planSegments blockBudget lookbackFraction lookback (groups ++ more) = .ok after ∧
      (before.dropLast <+: after ↔ Settled blockBudget (blockBudget - lookback) groups more) :=
  ⟨_, _, planSegments_eq lookback hbudget hlow hhigh groups, planSegments_eq lookback hbudget hlow hhigh _,
    segmentsFrom_iff blockBudget (blockBudget - lookback) groups more 0⟩

end

def rowGroup (blocks : Nat) (title transition : Bool) (pos : Int) : FoldGroup Unit :=
  { rows := [()], blockCount := blocks, sourceBytes := 0, isTitleBoundary := title, isToolTransition := transition,
    firstPos := some pos, lastPos := some pos }

def openTurn : List (FoldGroup Unit) := [rowGroup 30 false false 0, rowGroup 1 false true 1]

theorem planSegments_stable_iff_title : ∃ before after,
    planSegments 40 (1 / 4) 10 openTurn = .ok before ∧
      planSegments 40 (1 / 4) 10 (openTurn ++ [rowGroup 1 true false 2]) = .ok after ∧
      (before.dropLast <+: after ↔ Settled 40 (40 - 10) openTurn [rowGroup 1 true false 2]) :=
  planSegments_stable_iff 40 (1 / 4) 10 openTurn [rowGroup 1 true false 2] (by decide) (by norm_num) (by norm_num)

theorem planSegments_retitled : ∃ before after,
    planSegments 40 (1 / 4) 10 openTurn = .ok before ∧
      planSegments 40 (1 / 4) 10 (openTurn ++ [rowGroup 1 true false 2]) = .ok after ∧
      ¬ before.dropLast <+: after := by
  refine ⟨_, _, planSegments_eq 10 (by decide) (by norm_num) (by norm_num) _,
    planSegments_eq 10 (by decide) (by norm_num) (by norm_num) _, fun h => ?_⟩
  rw [segmentsFrom_iff] at h
  exact h openTurn .first (by decide) ⟨by decide, by decide⟩

end CodexSegments

end Cctally
