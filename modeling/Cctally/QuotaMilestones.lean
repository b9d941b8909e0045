import Cctally.Quota

/-!
# Percent milestones are the first crossings

The high-water mark after a prefix of the observations bounds every percent reached in
it, so a percent is crossed by the first observation that reaches it and by no other.
-/

namespace Cctally.Quota

def reaches (percent : Int) (o : QuotaObservation) : Bool := percent ≤ integerPercent o.usedPercent.1

theorem mem_crossed {highWater current p : Int} : p ∈ crossed highWater current ↔ highWater < p ∧ p ≤ current := by
  unfold crossed
  rw [List.mem_map]
  constructor
  · intro ⟨i, hi, hp⟩
    rw [List.mem_range] at hi
    omega
  · intro ⟨hlo, hhi⟩
    refine ⟨(p - highWater - 1).toNat, List.mem_range.2 (by omega), by omega⟩

theorem pairwise_crossed (highWater current : Int) : (crossed highWater current).Pairwise (· < ·) := by
  unfold crossed
  rw [List.pairwise_map]
  exact List.pairwise_lt_range.imp fun hlt => by omega

theorem mem_milestonesAbove : ∀ {l : List QuotaObservation} {highWater : Int} {m : QuotaPercentMilestone},
    m ∈ milestonesAbove highWater l →
      highWater < m.percent ∧ l.find? (reaches m.percent) = some m.observation ∧ m.capturedAt = m.observation.capturedAt
  | [], _, _, h => absurd h List.not_mem_nil
  | o :: l, highWater, m, h => by
    rw [milestonesAbove] at h
    by_cases hle : integerPercent o.usedPercent.1 ≤ highWater
    · rw [if_pos hle] at h
      obtain ⟨habove, hfind, hat⟩ := mem_milestonesAbove h
      have hnot : reaches m.percent o = false := decide_eq_false (by omega)
      exact ⟨habove, by rw [List.find?_cons, hnot]; exact hfind, hat⟩
    · rw [if_neg hle] at h
      obtain h | h := List.mem_append.1 h
      · obtain ⟨p, hp, rfl⟩ := List.mem_map.1 h
        obtain ⟨hlo, hhi⟩ := mem_crossed.1 hp
        have hreach : reaches p o = true := decide_eq_true hhi
        exact ⟨hlo, by rw [List.find?_cons, hreach], rfl⟩
      · obtain ⟨habove, hfind, hat⟩ := mem_milestonesAbove h
        have hnot : reaches m.percent o = false := decide_eq_false (by omega)
        exact ⟨by omega, by rw [List.find?_cons, hnot]; exact hfind, hat⟩

theorem exists_milestonesAbove {p : Int} : ∀ {l : List QuotaObservation} {highWater : Int}, highWater < p →
    (∃ o ∈ l, reaches p o) → ∃ m ∈ milestonesAbove highWater l, m.percent = p
  | [], _, _, h => by simp at h
  | o :: l, highWater, habove, h => by
    rw [milestonesAbove]
    by_cases hreach : reaches p o = true
    · have hhi : p ≤ integerPercent o.usedPercent.1 := of_decide_eq_true hreach
      rw [if_neg (by omega)]
      exact ⟨_, List.mem_append_left _ (List.mem_map_of_mem (mem_crossed.2 ⟨habove, hhi⟩)), rfl⟩
    · have hlt : integerPercent o.usedPercent.1 < p := not_le.1 fun hle => hreach (decide_eq_true hle)
      have hrest : ∃ o ∈ l, reaches p o := by
        obtain ⟨o', ho', hr⟩ := h
        obtain rfl | ho' := List.mem_cons.1 ho'
        · exact absurd hr hreach
        · exact ⟨o', ho', hr⟩
      by_cases hle : integerPercent o.usedPercent.1 ≤ highWater
      · rw [if_pos hle]
        exact exists_milestonesAbove habove hrest
      · rw [if_neg hle]
        obtain ⟨m, hm, hp⟩ := exists_milestonesAbove hlt hrest
        exact ⟨m, List.mem_append_right _ hm, hp⟩

theorem pairwise_milestonesAbove : ∀ (l : List QuotaObservation) (highWater : Int),
    (milestonesAbove highWater l).Pairwise (·.percent < ·.percent)
  | [], _ => .nil
  | o :: l, highWater => by
    rw [milestonesAbove]
    by_cases hle : integerPercent o.usedPercent.1 ≤ highWater
    · rw [if_pos hle]
      exact pairwise_milestonesAbove l highWater
    · rw [if_neg hle, List.pairwise_append]
      refine ⟨?_, pairwise_milestonesAbove l _, ?_⟩
      · rw [List.pairwise_map]
        exact pairwise_crossed _ _
      · intro a ha b hb
        obtain ⟨p, hp, rfl⟩ := List.mem_map.1 ha
        exact lt_of_le_of_lt (mem_crossed.1 hp).2 (mem_milestonesAbove hb).1

/-- **The milestones of a block** are one for each percent above its first observation that some observation
reaches, in increasing order, each at the first observation that reaches it. -/
theorem percentMilestones_first (block : QuotaBlock) :
    (∀ p, (∃ m ∈ percentMilestones block, m.percent = p) ↔
      (∃ first ∈ block.observations.head?, integerPercent first.usedPercent.1 < p) ∧
        ∃ o ∈ block.observations, p ≤ integerPercent o.usedPercent.1) ∧
      (percentMilestones block).Pairwise (·.percent < ·.percent) ∧
      ∀ m ∈ percentMilestones block,
        block.observations.find? (fun o => m.percent ≤ integerPercent o.usedPercent.1) = some m.observation ∧
          m.capturedAt = m.observation.capturedAt := by
  unfold percentMilestones
  cases block.observations with
  | nil => simp
  | cons first rest =>
    refine ⟨?_, pairwise_milestonesAbove rest _, ?_⟩
    · intro p
      constructor
      · intro ⟨m, hm, hp⟩
        obtain ⟨habove, hfind, -⟩ := mem_milestonesAbove hm
        subst hp
        have hreach := List.find?_some hfind
        exact ⟨⟨first, rfl, habove⟩, m.observation, List.mem_cons_of_mem _ (List.mem_of_find?_eq_some hfind),
          of_decide_eq_true hreach⟩
      · intro ⟨⟨o, ho, habove⟩, o', ho', hreach⟩
        cases ho
        refine exists_milestonesAbove habove ?_
        obtain rfl | ho' := List.mem_cons.1 ho'
        · exact absurd hreach (not_le.2 habove)
        · exact ⟨o', ho', decide_eq_true hreach⟩
    · intro m hm
      obtain ⟨habove, hfind, hat⟩ := mem_milestonesAbove hm
      refine ⟨?_, hat⟩
      rw [List.find?_cons, decide_eq_false (not_le.2 habove)]
      exact hfind

end Cctally.Quota
