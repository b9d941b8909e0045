import Cctally.JournalCandidates

/-!
# Places in a batch

A marker has its phase as its place in the batch, an action its sequence. The
first record read for a place stays, and reading taints a batch exactly when two
records read for one of its places have different digests.
-/

namespace Cctally

abbrev Place := Phase ⊕ Nat

def Reading.digestAt (b : String) (p : Place) : Reading → Option String
  | .marker b' ph _ digest _ => if b' = b ∧ Sum.inl ph = p then some digest else none
  | .action c digest => if c.batch = b ∧ Sum.inr c.seq = p then some digest else none
  | _ => none

def SelectorFold.digestAt (fold : SelectorFold) (b : String) : Place → Option String
  | .inl ph => (fold.marker b ph).map (·.digest)
  | .inr k => (fold.action b k).map (·.digest)

section
variable {rt : Runtime}

theorem digestAt_apply (fold : SelectorFold) (s : Nat) (r : Reading) (b : String) (p : Place) :
    (fold.apply rt s r).digestAt b p = (fold.digestAt b p).or (r.digestAt b p) := by
  cases p with
  | inl ph =>
    simp only [SelectorFold.digestAt, marker_apply]
    cases fold.marker b ph with
    | some m => rfl
    | none =>
      cases r with
      | marker b' ph' core digest identity =>
        simp only [Reading.marker?, Reading.digestAt, Sum.inl.injEq, Option.none_or, Option.map_none]
        split
        · rfl
        · rfl
      | action c digest => simp [Reading.marker?, Reading.digestAt]
      | _ => rfl
  | inr k =>
    simp only [SelectorFold.digestAt, action_apply]
    cases fold.action b k with
    | some a => rfl
    | none =>
      cases r with
      | marker b' ph' core digest identity => simp [Reading.action?, Reading.digestAt]
      | action c digest =>
        simp only [Reading.action?, Reading.digestAt, Sum.inr.injEq, Option.none_or, Option.map_none]
        split
        · rfl
        · rfl
      | _ => rfl

theorem conflicts_iff (fold : SelectorFold) (s : Nat) (r : Reading) (b : String) :
    (∃ entry ∈ r.conflicts fold s, entry.1.batchId = b) ↔
      ∃ p d d', fold.digestAt b p = some d ∧ r.digestAt b p = some d' ∧ d ≠ d' := by
  cases r with
  | marker b' ph core digest identity =>
    refine ⟨fun h => ?_, fun h => ?_⟩
    · obtain ⟨entry, he, rfl⟩ := h
      simp only [Reading.conflicts] at he
      split at he
      · rename_i m hm
        split at he
        · rename_i hne
          rw [List.mem_singleton.mp he]
          refine ⟨.inl ph, m.digest, digest, ?_, ?_, hne⟩
          · simp [SelectorFold.digestAt, hm]
          · simp [Reading.digestAt]
        · cases he
      · cases he
    · obtain ⟨p, d, d', hd, hd', hne⟩ := h
      simp only [Reading.digestAt, Option.ite_none_right_eq_some, Option.some.injEq] at hd'
      obtain ⟨⟨rfl, rfl⟩, rfl⟩ := hd'
      obtain ⟨m, hm, rfl⟩ := Option.map_eq_some_iff.mp hd
      simp only [Reading.conflicts, hm, if_pos hne]
      exact ⟨_, List.mem_singleton_self _, rfl⟩
  | action c digest =>
    refine ⟨fun h => ?_, fun h => ?_⟩
    · obtain ⟨entry, he, rfl⟩ := h
      simp only [Reading.conflicts] at he
      split at he
      · rename_i a ha
        split at he
        · rename_i hne
          rw [List.mem_singleton.mp he]
          refine ⟨.inr c.seq, a.digest, digest, ?_, ?_, hne⟩
          · simp [SelectorFold.digestAt, ha]
          · simp [Reading.digestAt]
        · cases he
      · cases he
    · obtain ⟨p, d, d', hd, hd', hne⟩ := h
      simp only [Reading.digestAt, Option.ite_none_right_eq_some, Option.some.injEq] at hd'
      obtain ⟨⟨rfl, rfl⟩, rfl⟩ := hd'
      obtain ⟨a, ha, rfl⟩ := Option.map_eq_some_iff.mp hd
      simp only [Reading.conflicts, ha, if_pos hne]
      exact ⟨_, List.mem_singleton_self _, rfl⟩
  | _ => simp [Reading.conflicts, Reading.digestAt]

theorem phaseOne_snoc (rs : List Reading) (r : Reading) :
    phaseOne rt (rs ++ [r]) = (phaseOne rt rs).apply rt rs.length r := by
  rw [phaseOne, applyAll_append, Nat.zero_add]
  rfl

theorem phaseOne_digestAt (b : String) (p : Place) (rs : List Reading) :
    (phaseOne rt rs).digestAt b p = rs.findSome? (Reading.digestAt b p) := by
  induction rs using List.reverseRecOn with
  | nil => cases p <;> rfl
  | append_singleton rs r ih =>
    rw [phaseOne_snoc, digestAt_apply, ih, List.findSome?_append]
    cases h : r.digestAt b p with
    | none => simp [h]
    | some d => simp [h]

theorem mem_tainted_apply (fold : SelectorFold) (s : Nat) (r : Reading) (b : String) :
    b ∈ (fold.apply rt s r).taintedBatches ↔
      b ∈ fold.taintedBatches ∨ ∃ entry ∈ r.conflicts fold s, entry.1.batchId = b := by
  have := @taints_apply rt fold s r
  rw [show (fold.apply rt s r).taintedBatches = (fold.apply rt s r).taints.batches from rfl, this, mem_addAll_batches]
  rfl

/-- **Reading taints a batch** exactly when two records of one place differ. -/
theorem phaseOne_tainted {b : String} (rs : List Reading) : b ∈ (phaseOne rt rs).taintedBatches ↔
    ∃ p, ∃ r ∈ rs, ∃ r' ∈ rs, ∃ d d', r.digestAt b p = some d ∧ r'.digestAt b p = some d' ∧ d ≠ d' := by
  induction rs using List.reverseRecOn with
  | nil =>
    refine ⟨fun h => absurd h (Finset.notMem_empty b), fun h => ?_⟩
    obtain ⟨p, r, hr, -⟩ := h
    cases hr
  | append_singleton rs r ih =>
    rw [phaseOne_snoc, mem_tainted_apply, ih, conflicts_iff]
    refine ⟨fun h => ?_, fun h => ?_⟩
    · rcases h with ⟨p, q, hq, q', hq', h⟩ | ⟨p, d, d', hd, hd', hne⟩
      · exact ⟨p, q, List.mem_append_left _ hq, q', List.mem_append_left _ hq', h⟩
      · rw [phaseOne_digestAt] at hd
        obtain ⟨q, hq, hqd⟩ := List.exists_of_findSome?_eq_some hd
        exact ⟨p, q, List.mem_append_left _ hq, r, by simp, d, d', hqd, hd', hne⟩
    · obtain ⟨p, q, hq, q', hq', d, d', hd, hd', hne⟩ := h
      by_cases hfirst : ∃ e, rs.findSome? (Reading.digestAt b p) = some e
      · -- one of the two differs from the first record of the place
        obtain ⟨e, he⟩ := hfirst
        obtain ⟨f, hf, hfe⟩ := List.exists_of_findSome?_eq_some he
        have hcase : ∀ {x : Reading} {dx : String}, x ∈ rs ++ [r] → x.digestAt b p = some dx → e ≠ dx →
            (∃ p, ∃ r ∈ rs, ∃ r' ∈ rs, ∃ d d', r.digestAt b p = some d ∧ r'.digestAt b p = some d' ∧ d ≠ d') ∨
            ∃ p d d', (phaseOne rt rs).digestAt b p = some d ∧ r.digestAt b p = some d' ∧ d ≠ d' := by
          intro x dx hx hdx hne
          rcases List.mem_append.mp hx with hx | hx
          · exact Or.inl ⟨p, f, hf, x, hx, e, dx, hfe, hdx, hne⟩
          · rw [List.mem_singleton.mp hx] at hdx
            exact Or.inr ⟨p, e, dx, by rw [phaseOne_digestAt, he], hdx, hne⟩
        by_cases hed : e = d
        · exact hcase hq' hd' (hed ▸ hne)
        · exact hcase hq hd hed
      · have hnone : ∀ x ∈ rs, x.digestAt b p = none := by
          intro x hx
          have : rs.findSome? (Reading.digestAt b p) = none := by
            cases h : rs.findSome? (Reading.digestAt b p) with
            | none => rfl
            | some e => exact absurd ⟨e, h⟩ hfirst
          exact List.findSome?_eq_none_iff.mp this x hx
        have hr : ∀ {x : Reading} {dx : String}, x ∈ rs ++ [r] → x.digestAt b p = some dx → x = r := by
          intro x dx hx hdx
          rcases List.mem_append.mp hx with hx | hx
          · rw [hnone x hx] at hdx
            cases hdx
          · exact List.mem_singleton.mp hx
        rw [hr hq hd] at hd
        rw [hr hq' hd', hd] at hd'
        exact absurd (Option.some.inj hd') hne

theorem firstMarker_eq_some {b : String} {ph : Phase} : ∀ {rs : List Reading} {s : Nat} {m : Marker},
    firstMarker b ph s rs = some m ↔ ∃ i core digest identity, rs[i]? = some (.marker b ph core digest identity) ∧
      m = ⟨core, digest, identity, s + i⟩ ∧ ∀ j < i, ∀ core d ident, rs[j]? ≠ some (.marker b ph core d ident)
  | [], s, m => by simp [firstMarker]
  | r :: rs, s, m => by
    rw [firstMarker, Option.or_eq_some_iff]
    refine ⟨fun h => ?_, fun h => ?_⟩
    · rcases h with h | ⟨hn, h⟩
      · cases r with
        | marker b' ph' core digest identity =>
          simp only [Reading.marker?, Option.ite_none_right_eq_some, Option.some.injEq] at h
          obtain ⟨⟨rfl, rfl⟩, rfl⟩ := h
          exact ⟨0, core, digest, identity, rfl, rfl, fun j hj => absurd hj (Nat.not_lt_zero j)⟩
        | _ => cases h
      · obtain ⟨i, core, digest, identity, hi, rfl, hfirst⟩ := firstMarker_eq_some.mp h
        refine ⟨i + 1, core, digest, identity, hi, by rw [show s + (i + 1) = s + 1 + i by omega], ?_⟩
        intro j hj core' d ident hj'
        cases j with
        | zero =>
          obtain rfl : r = .marker b ph core' d ident := Option.some.inj hj'
          simp [Reading.marker?] at hn
        | succ j => exact hfirst j (by omega) core' d ident hj'
    · obtain ⟨i, core, digest, identity, hi, rfl, hfirst⟩ := h
      cases i with
      | zero =>
        obtain rfl : r = .marker b ph core digest identity := Option.some.inj hi
        exact Or.inl (by simp [Reading.marker?])
      | succ i =>
        have hn : r.marker? s b ph = none := by
          cases r with
          | marker b' ph' core' d ident =>
            have := hfirst 0 (Nat.succ_pos i) core' d ident
            simp only [List.getElem?_cons_zero, ne_eq, Option.some.injEq, Reading.marker.injEq, and_true,
              not_and] at this
            simpa [Reading.marker?] using this
          | _ => rfl
        refine Or.inr ⟨hn, firstMarker_eq_some.mpr ⟨i, core, digest, identity, hi, ?_, ?_⟩⟩
        · rw [show s + (i + 1) = s + 1 + i by omega]
        · intro j hj core' d ident
          exact hfirst (j + 1) (by omega) core' d ident

theorem phaseOne_marker_eq_some {rs : List Reading} {b : String} {ph : Phase} {m : Marker} :
    (phaseOne rt rs).marker b ph = some m ↔ rs[m.sequence]? = some (.marker b ph m.core m.digest m.identity) ∧
      ∀ j < m.sequence, ∀ core d ident, rs[j]? ≠ some (.marker b ph core d ident) := by
  rw [phaseOne_marker, firstMarker_eq_some]
  refine ⟨fun h => ?_, fun h => ?_⟩
  · obtain ⟨i, core, digest, identity, hi, rfl, hfirst⟩ := h
    rw [Nat.zero_add]
    exact ⟨hi, hfirst⟩
  · exact ⟨m.sequence, m.core, m.digest, m.identity, h.1, by rw [Nat.zero_add], h.2⟩

end

end Cctally
