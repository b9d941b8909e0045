import Cctally.Retained

/-!
# Coordinate views are lists of coordinates

The run table says, of every position, which segment it is in. With it the views
of the starts and ends list, item by item and slice by slice, what a list of
`(segment, offset)` tuples would hold.
-/

namespace Cctally.Retained

open PySeq

abbrev Place := String × Nat × Nat

def coordinate (isEnd : Bool) (p : Place) : String × Nat := (p.1, if isEnd then p.2.1 + p.2.2 + 1 else p.2.1)

structure Tracks (c : LineCoordinates) (places : List Place) : Prop where
  starts : c.starts = places.map (·.2.1)
  lengths : c.lengths = places.map (·.2.2)
  runs : c.runFirsts.length = c.runSegments.length
  sorted : c.runFirsts.Pairwise (· < ·)
  inside : ∀ f ∈ c.runFirsts, f < places.length
  first : places ≠ [] → c.runFirsts[0]? = some 0
  covers : ∀ (run f : Nat) (s : String), c.runFirsts[run]? = some f → c.runSegments[run]? = some s →
    ∀ (i : Nat) (p : Place), places[i]? = some p → f ≤ i → i < c.runStop run → p.1 = s

section
variable {E : Type} {c : LineCoordinates} {places : List Place}

theorem runStop_nat (c : LineCoordinates) (run : Nat) :
    c.runStop run = (c.runFirsts[run + 1]?).getD c.starts.length := by
  unfold LineCoordinates.runStop
  rw [getItem_of_nonneg (by omega)]
  rfl

theorem Tracks.len (h : Tracks c places) : c.len = places.length := by
  simp [LineCoordinates.len, h.starts]

theorem tracks_init : Tracks .init [] where
  starts := rfl
  lengths := rfl
  runs := rfl
  sorted := .nil
  inside := nofun
  first := fun h => absurd rfl h
  covers := nofun

theorem Tracks.lengthen (h : Tracks c places) {p : Place} (hlast : c.runSegments.getLast? = some p.1) :
    Tracks { c with starts := c.starts ++ [p.2.1], lengths := c.lengths ++ [p.2.2] } (places ++ [p]) where
  starts := by simp [h.starts]
  lengths := by simp [h.lengths]
  runs := h.runs
  sorted := h.sorted
  inside := fun f hf => by
    have := h.inside f hf
    simp only [List.length_append, List.length_singleton]
    omega
  first := fun _ => by
    refine h.first fun hnil => ?_
    cases hruns : c.runFirsts with
    | nil =>
      have hlen := h.runs
      rw [hruns] at hlen
      rw [List.length_eq_zero_iff.1 hlen.symm] at hlast
      cases hlast
    | cons f _ =>
      have := h.inside f (by rw [hruns]; exact List.mem_cons_self ..)
      rw [hnil] at this
      cases this
  covers := fun run f s hf hs i q hq hle hlt => by
    rw [runStop_nat] at hlt
    simp only [h.starts, List.length_append, List.length_map, List.length_singleton] at hlt
    by_cases hi : i < places.length
    · rw [List.getElem?_append_left hi] at hq
      refine h.covers run f s hf hs i q hq hle ?_
      rw [runStop_nat, h.starts, List.length_map]
      cases hnext : c.runFirsts[run + 1]? with
      | none => exact hi
      | some f' => simpa [hnext] using hlt
    · -- only the last run reaches the new place
      have hi' : i = places.length := by
        have := (List.getElem?_eq_some_iff.1 hq).1
        simp only [List.length_append, List.length_singleton] at this
        omega
      have hnext : c.runFirsts[run + 1]? = none := by
        cases hnext : c.runFirsts[run + 1]? with
        | none => rfl
        | some f' =>
          have := h.inside f' (List.mem_of_getElem? hnext)
          simp only [hnext, Option.getD_some] at hlt
          omega
      have hrun : run = c.runSegments.length - 1 := by
        have h1 : run < c.runSegments.length := (List.getElem?_eq_some_iff.1 hs).1
        have h2 := List.getElem?_eq_none_iff.1 hnext
        have h3 := h.runs
        omega
      have hqp : q = p := by
        rw [hi', List.getElem?_append_right le_rfl, Nat.sub_self] at hq
        exact (Option.some.inj hq).symm
      rw [List.getLast?_eq_getElem?, ← hrun, hs] at hlast
      rw [hqp]
      exact (Option.some.inj hlast).symm

theorem Tracks.openRun (h : Tracks c places) (p : Place) :
    Tracks ⟨c.starts ++ [p.2.1], c.lengths ++ [p.2.2], c.runSegments ++ [p.1], c.runFirsts ++ [c.starts.length]⟩
      (places ++ [p]) where
  starts := by simp [h.starts]
  lengths := by simp [h.lengths]
  runs := by simp [h.runs]
  sorted := by
    refine List.pairwise_append.2 ⟨h.sorted, List.pairwise_singleton .., fun f hf g hg => ?_⟩
    have := h.inside f hf
    rw [List.mem_singleton.1 hg, h.starts, List.length_map]
    exact this
  inside := fun f hf => by
    rw [List.length_append, List.length_singleton]
    obtain hf | hf := List.mem_append.1 hf
    · exact Nat.lt_succ_of_lt (h.inside f hf)
    · rw [List.mem_singleton.1 hf, h.starts, List.length_map]
      exact Nat.lt_succ_self _
  first := fun _ => by
    cases hp : places with
    | nil =>
      have hnil : c.runFirsts = [] := by
        refine List.eq_nil_iff_forall_not_mem.2 fun f hf => ?_
        have := h.inside f hf
        rw [hp] at this
        cases this
      simp [hnil, h.starts, hp]
    | cons q rest =>
      have h0 := h.first (by rw [hp]; nofun)
      rw [List.getElem?_append_left (List.getElem?_eq_some_iff.1 h0).1]
      exact h0
  covers := fun run f s hf hs i q hq hle hlt => by
    rw [runStop_nat] at hlt
    simp only [h.starts, List.length_append, List.length_map, List.length_singleton] at hlt hf
    obtain hrun | hrun := Nat.lt_or_ge run c.runFirsts.length
    · rw [List.getElem?_append_left hrun] at hf
      rw [List.getElem?_append_left (by rw [← h.runs]; exact hrun)] at hs
      have hold : i < c.runStop run := by
        rw [runStop_nat, h.starts, List.length_map]
        obtain hnext | hnext := Nat.lt_or_ge (run + 1) c.runFirsts.length
        · rw [List.getElem?_append_left hnext] at hlt
          simpa [List.getElem?_eq_getElem hnext] using hlt
        · have hlast : run + 1 = c.runFirsts.length := by omega
          rw [List.getElem?_eq_none hnext]
          simpa [hlast] using hlt
      have hi : i < places.length := by
        refine lt_of_lt_of_le hold ?_
        rw [runStop_nat, h.starts, List.length_map]
        cases hnext : c.runFirsts[run + 1]? with
        | none => exact le_rfl
        | some f' => exact (h.inside f' (List.mem_of_getElem? hnext)).le
      rw [List.getElem?_append_left hi] at hq
      exact h.covers run f s hf hs i q hq hle hold
    · have hlt' := (List.getElem?_eq_some_iff.1 hf).1
      rw [List.length_append, List.length_singleton] at hlt'
      have heq : run = c.runFirsts.length := by omega
      have hi : i = places.length := by
        have := (List.getElem?_eq_some_iff.1 hq).1
        rw [List.length_append, List.length_singleton] at this
        have hf' : places.length = f := by simpa [heq] using hf
        omega
      have hs' : p.1 = s := by simpa [heq, h.runs] using hs
      have hqp : p = q := by simpa [hi] using hq
      rw [← hqp, hs']

theorem Tracks.append (h : Tracks c places) {p : Place} {c' : LineCoordinates}
    (ha : (c.append p.1 p.2.1 p.2.2 : Except (Raised E) LineCoordinates) = .ok c') : Tracks c' (places ++ [p]) := by
  unfold LineCoordinates.append at ha
  by_cases hlast : c.runSegments.getLast? = some p.1
  · rw [if_pos hlast] at ha
    split at ha
    · cases ha
    · split at ha
      · cases ha
      · cases ha
        exact h.lengthen hlast
  · rw [if_neg hlast] at ha
    split at ha
    · cases ha
    · split at ha
      · cases ha
      · cases ha
        exact h.openRun p

/-! ## The run of a position -/

structure RunAt (c : LineCoordinates) (i : Nat) (segment : String) (run f : Nat) : Prop where
  first : c.runFirsts[run]? = some f
  segment : c.runSegments[run]? = some segment
  le : f ≤ i
  lt : i < c.runStop run

theorem Tracks.runOf (h : Tracks c places) {i : Nat} {p : Place} (hp : places[i]? = some p) :
    ∃ run f : Nat, c.runOf i = run ∧ RunAt c i p.1 run f := by
  have hb := Bisect.bisectRight_between (h.sorted.imp Nat.le_of_lt) i
  have hpos : Bisect.bisectRight c.runFirsts i ≠ 0 := by
    intro h0
    have hne : places ≠ [] := by
      rintro rfl
      cases hp
    exact absurd (hb.above 0 0 (by omega) (h.first hne)) (Nat.not_lt_zero i)
  obtain ⟨run, hrun⟩ := Nat.exists_eq_succ_of_ne_zero hpos
  have hlt : run < c.runFirsts.length := by
    have := hb.le_length
    omega
  have hsegment : run < c.runSegments.length := by
    rw [← h.runs]
    exact hlt
  have hle : c.runFirsts[run] ≤ i := hb.below run _ (by omega) (List.getElem?_eq_getElem hlt)
  have hstop : i < c.runStop run := by
    rw [runStop_nat]
    cases hnext : c.runFirsts[run + 1]? with
    | none =>
      have := (List.getElem?_eq_some_iff.1 hp).1
      simpa [h.starts] using this
    | some f' => exact hb.above _ _ (by omega) hnext
  have hcover := h.covers run _ _ (List.getElem?_eq_getElem hlt) (List.getElem?_eq_getElem hsegment) i p hp hle hstop
  refine ⟨run, c.runFirsts[run], ?_, List.getElem?_eq_getElem hlt, ?_, hle, hstop⟩
  · unfold LineCoordinates.runOf
    omega
  · rw [hcover]
    exact List.getElem?_eq_getElem hsegment

theorem subscript_nat {α : Type} {what : String} {xs : List α} {n : Nat} {x : α} (h : xs[n]? = some x) :
    (subscript what xs (n : Int) : Except (Raised E) α) = .ok x := by
  unfold subscript
  rw [getItem_of_nonneg (Int.natCast_nonneg n), Int.toNat_natCast, h]

theorem Tracks.starts_at (h : Tracks c places) {i : Nat} {p : Place} (hp : places[i]? = some p) :
    (subscript "array" c.starts (i : Int) : Except (Raised E) Nat) = .ok p.2.1 := by
  refine subscript_nat ?_
  rw [h.starts, List.getElem?_map, hp]
  rfl

theorem Tracks.lengths_at (h : Tracks c places) {i : Nat} {p : Place} (hp : places[i]? = some p) :
    (subscript "array" c.lengths (i : Int) : Except (Raised E) Nat) = .ok p.2.2 := by
  refine subscript_nat ?_
  rw [h.lengths, List.getElem?_map, hp]
  rfl

theorem Tracks.normalize (h : Tracks c places) {i : Nat} (hi : i < places.length) :
    (c.normalize (i : Int) : Except (Raised E) Nat) = .ok i := by
  unfold LineCoordinates.normalize
  simp only [h.len, place_of_nonneg (Int.natCast_nonneg i)]
  rw [if_pos (by omega), Int.toNat_natCast]

/-- **A position's line** is the place it was appended with. -/
theorem Tracks.line (h : Tracks c places) {i : Nat} {p : Place} (hp : places[i]? = some p) :
    (c.line (i : Int) : Except (Raised E) Place) = .ok p := by
  obtain ⟨run, f, hrun, hat⟩ := h.runOf hp
  unfold LineCoordinates.line
  rw [h.normalize (List.getElem?_eq_some_iff.1 hp).1, Except.ok_bind, hrun, subscript_nat hat.segment, Except.ok_bind,
    h.starts_at hp, Except.ok_bind, h.lengths_at hp, Except.ok_bind]
  rfl

theorem Tracks.startOf (h : Tracks c places) {i : Nat} {p : Place} (hp : places[i]? = some p) :
    (c.startOf (i : Int) : Except (Raised E) (String × Nat)) = .ok (coordinate false p) := by
  obtain ⟨run, f, hrun, hat⟩ := h.runOf hp
  unfold LineCoordinates.startOf
  rw [h.normalize (List.getElem?_eq_some_iff.1 hp).1, Except.ok_bind, hrun, subscript_nat hat.segment, Except.ok_bind,
    h.starts_at hp, Except.ok_bind]
  rfl

theorem Tracks.endOf (h : Tracks c places) {i : Nat} {p : Place} (hp : places[i]? = some p) :
    (c.endOf (i : Int) : Except (Raised E) (String × Nat)) = .ok (coordinate true p) := by
  obtain ⟨run, f, hrun, hat⟩ := h.runOf hp
  unfold LineCoordinates.endOf
  rw [h.normalize (List.getElem?_eq_some_iff.1 hp).1, Except.ok_bind, hrun, subscript_nat hat.segment, Except.ok_bind,
    h.starts_at hp, Except.ok_bind, h.lengths_at hp, Except.ok_bind]
  rfl

def Cached (c : LineCoordinates) (r : RunCache) : Prop :=
  ∃ run : Nat, c.runFirsts[run]? = some r.first ∧ c.runSegments[run]? = some r.segment ∧ c.runStop run = r.stop

theorem Tracks.enterRun (h : Tracks c places) {i : Nat} {p : Place} (hp : places[i]? = some p) :
    ∃ r, (c.enterRun i : Except (Raised E) RunCache) = .ok r ∧ Cached c r ∧ r.segment = p.1 := by
  obtain ⟨run, f, hrun, hat⟩ := h.runOf hp
  refine ⟨⟨f, c.runStop run, p.1⟩, ?_, ⟨run, hat.first, hat.segment, rfl⟩, rfl⟩
  unfold LineCoordinates.enterRun
  rw [hrun, subscript_nat hat.segment, Except.ok_bind, subscript_nat hat.first, Except.ok_bind]
  rfl

theorem Tracks.stayOrEnter (h : Tracks c places) {cache : Option RunCache} (hc : ∀ r ∈ cache, Cached c r) {i : Nat}
    {p : Place} (hp : places[i]? = some p) :
    ∃ r, (c.stayOrEnter i cache : Except (Raised E) RunCache) = .ok r ∧ Cached c r ∧ r.segment = p.1 := by
  cases cache with
  | none => exact h.enterRun hp
  | some r =>
    unfold LineCoordinates.stayOrEnter
    by_cases hin : r.first ≤ i ∧ i < r.stop
    · obtain ⟨run, hf, hs, hstop⟩ := hc r rfl
      refine ⟨r, if_pos hin, ⟨run, hf, hs, hstop⟩, ?_⟩
      exact (h.covers run _ _ hf hs i p hp hin.1 (by rw [hstop]; exact hin.2)).symm
    · simp only [if_neg hin]
      exact h.enterRun hp

theorem Tracks.iterate (h : Tracks c places) (isEnd : Bool) : ∀ (positions : List Int) (cache : Option RunCache),
    (∀ r ∈ cache, Cached c r) → Within places.length positions →
    (c.iterate isEnd cache (positions.map Int.toNat) : Except (Raised E) (List (String × Nat))) =
      .ok (pick (places.map (coordinate isEnd)) positions)
  | [], _, _, _ => rfl
  | i :: positions, cache, hc, hin => by
    have hi := hin i (List.mem_cons_self ..)
    have hlt : i.toNat < places.length := by omega
    have hp : places[i.toNat]? = some places[i.toNat] := List.getElem?_eq_getElem hlt
    obtain ⟨r, hr, hcached, hsegment⟩ := h.stayOrEnter (E := E) hc hp
    have ih := h.iterate isEnd positions (some r) (fun s hs => by cases hs; exact hcached)
      fun j hj => hin j (List.mem_cons_of_mem _ hj)
    have hcons : pick (places.map (coordinate isEnd)) (i :: positions) =
        coordinate isEnd places[i.toNat] :: pick (places.map (coordinate isEnd)) positions := by
      simp [pick, hlt]
    rw [List.map_cons, LineCoordinates.iterate, hr, Except.ok_bind, h.starts_at hp, Except.ok_bind, h.lengths_at hp,
      Except.ok_bind, ih, Except.ok_bind, hcons, hsegment]
    rfl

/-! ## Looking an end up -/

def Place.end (p : Place) : Nat := p.2.1 + p.2.2 + 1

def JournalOrder (places : List Place) : Prop := places.Pairwise fun p q => p.1 = q.1 → p.end < q.end

theorem Tracks.endAt (h : Tracks c places) {i : Nat} {p : Place} (hp : places[i]? = some p) : c.endAt i = p.end := by
  unfold LineCoordinates.endAt
  rw [h.starts, h.lengths, List.getD_eq_getElem?_getD, List.getD_eq_getElem?_getD, List.getElem?_map, List.getElem?_map,
    hp]
  rfl

theorem searchRun_iff {target : Int} {m : Nat} : ∀ (fuel lo hi : Nat), hi - lo ≤ fuel →
    (∀ i j, lo ≤ i → i < j → j < hi → c.endAt i < c.endAt j) →
    (c.searchRun target fuel lo hi = some m ↔ lo ≤ m ∧ m < hi ∧ (c.endAt m : Int) = target)
  | 0, lo, hi, hf, _ => by
    refine ⟨nofun, fun ⟨h1, h2, _⟩ => ?_⟩
    omega
  | fuel + 1, lo, hi, hf, hmono => by
    unfold LineCoordinates.searchRun
    by_cases hlt : lo < hi
    · have hmid : lo ≤ (lo + hi) / 2 ∧ (lo + hi) / 2 < hi := by omega
      rw [if_pos hlt]
      by_cases hbelow : (c.endAt ((lo + hi) / 2) : Int) < target
      · simp only [if_pos hbelow]
        rw [searchRun_iff fuel _ _ (by omega) fun i j hi => hmono i j (by omega)]
        refine ⟨fun ⟨h1, h2, h3⟩ => ⟨by omega, h2, h3⟩, fun ⟨h1, h2, h3⟩ => ⟨?_, h2, h3⟩⟩
        by_contra hn
        obtain heq | hm := Nat.eq_or_lt_of_le (show m ≤ (lo + hi) / 2 by omega)
        · rw [heq] at h3
          omega
        · have := hmono m _ h1 hm hmid.2
          omega
      · simp only [if_neg hbelow]
        by_cases habove : target < (c.endAt ((lo + hi) / 2) : Int)
        · rw [if_pos habove, searchRun_iff fuel _ _ (by omega) fun i j hi hj hk => hmono i j hi hj (by omega)]
          refine ⟨fun ⟨h1, h2, h3⟩ => ⟨h1, by omega, h3⟩, fun ⟨h1, h2, h3⟩ => ⟨h1, ?_, h3⟩⟩
          by_contra hn
          obtain heq | hm := Nat.eq_or_lt_of_le (show (lo + hi) / 2 ≤ m by omega)
          · rw [← heq] at h3
            omega
          · have := hmono _ m hmid.1 hm h2
            omega
        · rw [if_neg habove]
          have hat : (c.endAt ((lo + hi) / 2) : Int) = target := by omega
          refine ⟨fun h => ?_, fun ⟨h1, h2, h3⟩ => ?_⟩
          · cases h
            exact ⟨hmid.1, hmid.2, hat⟩
          · obtain hm | heq | hm := Nat.lt_trichotomy m ((lo + hi) / 2)
            · have := hmono _ _ h1 hm hmid.2
              omega
            · rw [heq]
            · have := hmono _ _ hmid.1 hm h2
              omega
    · rw [if_neg hlt]
      refine ⟨nofun, fun ⟨h1, h2, _⟩ => ?_⟩
      omega

theorem Tracks.runStop_le (h : Tracks c places) (run : Nat) : c.runStop run ≤ places.length := by
  rw [runStop_nat, h.starts, List.length_map]
  cases hnext : c.runFirsts[run + 1]? with
  | none => exact le_rfl
  | some f => exact (h.inside f (List.mem_of_getElem? hnext)).le

theorem JournalOrder.lt (h : JournalOrder places) {i j : Nat} {p q : Place} (hij : i < j) (hp : places[i]? = some p)
    (hq : places[j]? = some q) (hsegment : p.1 = q.1) : p.end < q.end := by
  obtain ⟨hi, rfl⟩ := List.getElem?_eq_some_iff.1 hp
  obtain ⟨hj, rfl⟩ := List.getElem?_eq_some_iff.1 hq
  exact List.pairwise_iff_getElem.1 h i j hi hj hij hsegment

/-- **A run is searched exactly**: what is found in it is the position with the end asked for. -/
theorem Tracks.indexRun_iff (h : Tracks c places) (ho : JournalOrder places) {segment : String} {target : Int}
    {run f : Nat} (hf : c.runFirsts[run]? = some f) {i : Nat} :
    c.indexRun segment target run = some i ↔
      c.runSegments[run]? = some segment ∧ f ≤ i ∧ i < c.runStop run ∧ (c.endAt i : Int) = target := by
  unfold LineCoordinates.indexRun
  by_cases hs : c.runSegments[run]? = some segment
  · rw [if_pos hs, List.getD_eq_getElem?_getD, hf, Option.getD_some]
    have hstop := h.runStop_le run
    have hlen : c.starts.length = places.length := by rw [h.starts, List.length_map]
    rw [searchRun_iff _ _ _ (by omega)]
    · simp only [hs, true_and]
    · intro a b ha hab hb
      have hp : places[a]? = some places[a] := List.getElem?_eq_getElem (by omega)
      have hq : places[b]? = some places[b] := List.getElem?_eq_getElem (by omega)
      rw [h.endAt hp, h.endAt hq]
      refine ho.lt hab hp hq ?_
      rw [h.covers run f segment hf hs a _ hp ha (by omega), h.covers run f segment hf hs b _ hq (by omega) hb]
  · rw [if_neg hs]
    exact ⟨nofun, fun h => absurd h.1 hs⟩

/-- **The position of an end**, when one has it. -/
theorem Tracks.indexEnd (h : Tracks c places) (ho : JournalOrder places) (cursor : Cursor) :
    (∃ i p, (c.indexEnd cursor : Except (Raised E) Nat) = .ok i ∧ places[i]? = some p ∧
        Cursor.of (coordinate true p) = cursor) ∨
      (c.indexEnd cursor : Except (Raised E) Nat) = .error (.notInList cursor) ∧
        ∀ p ∈ places, Cursor.of (coordinate true p) ≠ cursor := by
  cases cursor with
  | unpaired repr => exact .inr ⟨rfl, fun _ _ h => by cases h⟩
  | pair segment target =>
    simp only [LineCoordinates.indexEnd]
    cases hfind : (List.range c.runSegments.length).findSome? (c.indexRun segment target) with
    | some i =>
      obtain ⟨run, hrun, hi⟩ := List.exists_of_findSome?_eq_some hfind
      have hlt : run < c.runFirsts.length := by
        rw [h.runs]
        exact List.mem_range.1 hrun
      obtain ⟨hs, hle, hstop, hend⟩ := (h.indexRun_iff ho (List.getElem?_eq_getElem hlt)).1 hi
      have hbound := h.runStop_le run
      have hp : places[i]? = some places[i] := List.getElem?_eq_getElem (by omega)
      refine .inl ⟨i, places[i], rfl, hp, ?_⟩
      rw [h.endAt hp] at hend
      have hseg := h.covers run _ _ (List.getElem?_eq_getElem hlt) hs i _ hp hle hstop
      rw [← hseg, ← hend]
      rfl
    | none =>
      refine .inr ⟨rfl, fun p hmem hcursor => ?_⟩
      obtain ⟨i, hp⟩ := List.mem_iff_getElem?.1 hmem
      obtain ⟨run, f, -, hat⟩ := h.runOf hp
      have hrun : run ∈ List.range c.runSegments.length :=
        List.mem_range.2 (List.getElem?_eq_some_iff.1 hat.segment).1
      have hnone := List.findSome?_eq_none_iff.1 hfind run hrun
      cases hcursor
      have hsome := (h.indexRun_iff ho hat.first).2 ⟨hat.segment, hat.le, hat.lt, congrArg Int.ofNat (h.endAt hp)⟩
      exact absurd (hsome.symm.trans hnone) (Option.some_ne_none _)

structure Over (v : CoordinateView) (places : List Place) : Prop where
  tracks : Tracks v.coords places
  within : Within places.length v.range.toList

def CoordinateView.listed (v : CoordinateView) (places : List Place) : List (String × Nat) :=
  pick (places.map (coordinate v.isEnd)) v.range.toList

variable {v : CoordinateView}

theorem over_whole (h : Tracks c places) (isEnd : Bool) : Over ⟨c, none, isEnd⟩ places where
  tracks := h
  within := by
    rw [← h.len]
    exact within_upTo c.len

theorem listed_whole (h : Tracks c places) (isEnd : Bool) :
    CoordinateView.listed ⟨c, none, isEnd⟩ places = places.map (coordinate isEnd) := by
  have hlen : c.len = (places.map (coordinate isEnd)).length := by rw [List.length_map, h.len]
  simp only [CoordinateView.listed, CoordinateView.range, Option.getD_none]
  rw [hlen, pick_upTo]

theorem Over.within_map (h : Over v places) (isEnd : Bool) :
    Within (places.map (coordinate isEnd)).length v.range.toList := by
  rw [List.length_map]
  exact h.within

theorem Over.len (h : Over v places) : v.len = (v.listed places).length := by
  unfold CoordinateView.listed CoordinateView.len
  rw [length_pick (h.within_map v.isEnd), Range.length_toList]

theorem Over.iter (h : Over v places) : (v.iter : Except (Raised E) (List (String × Nat))) = .ok (v.listed places) :=
  h.tracks.iterate v.isEnd _ none nofun h.within

theorem Over.getItem (h : Over v places) (i : Int) : (v.getItem i : Except (Raised E) (String × Nat)) =
    match PySeq.getItem (v.listed places) i with
    | some p => .ok p
    | none => .error (.indexError "range object index out of range") := by
  unfold CoordinateView.getItem CoordinateView.listed
  rw [getItem_pick (h.within_map v.isEnd), ← Range.getItem_toList]
  cases hj : PySeq.getItem v.range.toList i with
  | none => rfl
  | some j =>
    obtain ⟨h0, hlt⟩ := within_of_getItem h.within hj
    have hp : places[j.toNat]? = some places[j.toNat] := List.getElem?_eq_getElem (by omega)
    have hstart := h.tracks.startOf (E := E) hp
    have hend := h.tracks.endOf (E := E) hp
    rw [Int.toNat_of_nonneg h0] at hstart hend
    rw [Option.bind_some, List.getElem?_map, hp]
    cases hv : v.isEnd with
    | true => exact hend
    | false => exact hstart

theorem Over.slice (h : Over v places) (s : Slice) :
    match PySeq.slice (v.listed places) s with
    | some xs => ∃ w, (v.slice s : Except (Raised E) CoordinateView) = .ok w ∧ Over w places ∧ w.isEnd = v.isEnd ∧
        w.listed places = xs
    | none => (v.slice s : Except (Raised E) CoordinateView) = .error (.valueError "slice step cannot be zero") := by
  unfold CoordinateView.slice
  have hlisted : PySeq.slice (v.listed places) s =
      (v.range.slice s).map fun r => pick (places.map (coordinate v.isEnd)) r.toList := by
    unfold CoordinateView.listed
    rw [slice_pick (h.within_map v.isEnd), Range.toList_slice, Option.map_map]
    rfl
  rw [hlisted]
  cases hr : v.range.slice s with
  | none => rfl
  | some r =>
    refine ⟨{ v with positions := some r }, rfl, ⟨h.tracks, ?_⟩, rfl, rfl⟩
    refine h.within.slice (s := s) ?_
    rw [Range.toList_slice, hr]
    rfl

/-! ## Looking a coordinate up in a view -/

theorem Over.scan (h : Over v places) (cursor : Cursor) (stop : Option Int) : ∀ (fuel n : Nat), v.len < fuel + n →
    (∃ m : Nat, (v.scan cursor stop fuel n : Except (Raised E) Int) = .ok (m : Int) ∧ n ≤ m ∧
        (stop.all fun s => decide ((m : Int) < s)) ∧ ((v.listed places).map Cursor.of)[m]? = some cursor ∧
        ∀ k, n ≤ k → k < m → ((v.listed places).map Cursor.of)[k]? ≠ some cursor) ∨
      (v.scan cursor stop fuel n : Except (Raised E) Int) = .error (.notInList cursor) ∧
        ∀ m : Nat, n ≤ m → (stop.all fun s => decide ((m : Int) < s)) →
          ((v.listed places).map Cursor.of)[m]? ≠ some cursor
  | 0, n, hf => by
    refine .inr ⟨rfl, fun m hm _ hcursor => ?_⟩
    have hlt := (List.getElem?_eq_some_iff.1 hcursor).1
    rw [List.length_map, ← h.len] at hlt
    omega
  | fuel + 1, n, hf => by
    unfold CoordinateView.scan
    by_cases hstop : stop.all fun s => decide ((n : Int) < s)
    · rw [if_pos hstop, h.getItem, getItem_of_nonneg (Int.natCast_nonneg n), Int.toNat_natCast]
      cases hn : (v.listed places)[n]? with
      | none =>
        refine .inr ⟨rfl, fun m hm _ hcursor => ?_⟩
        have hlt := (List.getElem?_eq_some_iff.1 hcursor).1
        have hge := List.getElem?_eq_none_iff.1 hn
        rw [List.length_map] at hlt
        omega
      | some p =>
        have hat : ((v.listed places).map Cursor.of)[n]? = some (Cursor.of p) := by rw [List.getElem?_map, hn]; rfl
        by_cases hp : Cursor.of p = cursor
        · refine .inl ⟨n, if_pos hp, le_rfl, hstop, by rw [hat, hp], fun k hk hk' => ?_⟩
          omega
        · have hskip : ∀ m, n ≤ m → ((v.listed places).map Cursor.of)[m]? = some cursor → n + 1 ≤ m := by
            intro m hm hcursor
            obtain heq | hlt := Nat.eq_or_lt_of_le hm
            · rw [← heq, hat] at hcursor
              exact absurd (Option.some.inj hcursor) hp
            · exact hlt
          simp only [if_neg hp]
          obtain ⟨m, hm, hle, hms, hmc, hfirst⟩ | ⟨herr, hnone⟩ := h.scan cursor stop fuel (n + 1) (by omega)
          · refine .inl ⟨m, hm, by omega, hms, hmc, fun k hk hkm hcursor => ?_⟩
            exact hfirst k (hskip k hk hcursor) hkm hcursor
          · exact .inr ⟨herr, fun m hm hms hcursor => hnone m (hskip m hm hcursor) hms hcursor⟩
    · rw [if_neg hstop]
      refine .inr ⟨rfl, fun m hm hms _ => hstop ?_⟩
      cases stop with
      | none => rfl
      | some s =>
        simp only [Option.all_some, decide_eq_true_eq] at hms ⊢
        omega

theorem JournalOrder.unique (h : JournalOrder places) {i j : Nat} {p q : Place} (hp : places[i]? = some p)
    (hq : places[j]? = some q) (heq : coordinate true p = coordinate true q) : i = j := by
  obtain ⟨hsegment, hend⟩ : p.1 = q.1 ∧ p.end = q.end := Prod.mk.inj heq
  obtain hlt | heq | hlt := Nat.lt_trichotomy i j
  · have := h.lt hlt hp hq hsegment
    omega
  · exact heq
  · have := h.lt hlt hq hp hsegment.symm
    omega

theorem cursor_of_inj {p q : String × Nat} (h : Cursor.of p = Cursor.of q) : p = q := by
  unfold Cursor.of at h
  injection h with h1 h2
  exact Prod.ext h1 (Int.natCast_inj.1 h2)

theorem all_stop_iff {len n : Nat} (hn : n < len) (stop : Option Int) :
    ((stop.map fun s : Int => if s < 0 then s + len else s).all fun s => decide ((n : Int) < s)) = true ↔
      (n : Int) < (stop.map (clip len)).getD len := by
  cases stop with
  | none => simpa using hn
  | some s =>
    simp only [Option.map_some, Option.all_some, decide_eq_true_eq, Option.getD_some, clip]
    split <;> omega

theorem getD_stop_iff {len n : Nat} (stop : Option Int) :
    (n : Int) < (stop.map fun s : Int => if s < 0 then s + len else s).getD len ↔
      (n : Int) < (stop.map (clip len)).getD len := by
  cases stop with
  | none => rfl
  | some s =>
    simp only [Option.map_some, Option.getD_some, clip]
    split <;> omega

theorem Over.holds_end_iff (h : Over v places) (ho : JournalOrder places) (hv : v.isEnd = true) {i : Nat} {p : Place}
    (hp : places[i]? = some p) {n : Nat} :
    ((v.listed places).map Cursor.of)[n]? = some (Cursor.of (coordinate true p)) ↔ v.range.index i = some n := by
  rw [Range.index_eq_some, List.getElem?_map, CoordinateView.listed, getElem?_pick (h.within_map v.isEnd),
    Range.getElem?_toList, hv]
  by_cases hn : n < v.range.length
  · rw [if_pos hn, Option.bind_some, List.getElem?_map]
    obtain ⟨h0, hlt⟩ := h.within (v.range.item n) (Range.mem_toList.2 ⟨n, (Range.lt_length_iff _ _).1 hn, rfl⟩)
    obtain ⟨q, hq⟩ : ∃ q, places[(v.range.item n).toNat]? = some q := ⟨_, List.getElem?_eq_getElem (by omega)⟩
    rw [hq]
    simp only [Option.map_some, Option.some.injEq]
    refine ⟨fun heq => ⟨hn, ?_⟩, fun ⟨_, heq⟩ => ?_⟩
    · have := ho.unique hq hp (cursor_of_inj heq)
      omega
    · have heq' : (v.range.item n).toNat = i := by omega
      rw [heq', hp] at hq
      rw [← Option.some.inj hq]
  · rw [if_neg hn]
    exact ⟨nofun, fun h => absurd h.1 hn⟩

/-- **Looking a cursor up** in a view is `list.index` on the list it stands for. -/
theorem Over.index (h : Over v places) (ho : v.isEnd = true → JournalOrder places) (cursor : Cursor) (start : Int)
    (stop : Option Int) : (v.index cursor start stop : Except (Raised E) Int) =
      match PySeq.index ((v.listed places).map Cursor.of) cursor start stop with
      | some n => .ok (n : Int)
      | none => .error (.notInList cursor) := by
  have hlen : ((v.listed places).map Cursor.of).length = v.len := by rw [List.length_map, ← h.len]
  have hclip : (if start < 0 then max (v.len + start) 0 else start) = clip v.len start := by
    unfold clip
    rw [add_comm]
  have hnonneg : 0 ≤ clip v.len start := by
    unfold clip
    split <;> omega
  unfold CoordinateView.index
  simp only [hclip]
  cases hv : v.isEnd with
  | true =>
    rw [if_pos rfl]
    obtain ⟨i, p, hi, hp, rfl⟩ | ⟨herr, hnone⟩ := h.tracks.indexEnd (E := E) (ho hv) cursor
    · have hiff := fun n => h.holds_end_iff (ho hv) hv hp (n := n)
      rw [hi, Except.ok_bind]
      cases hfound : v.range.index i with
      | none =>
        rw [index_eq_none fun n hn => ?_]
        have := (hiff n).1 hn.2.2
        rw [hfound] at this
        cases this
      | some found =>
        have hat := (hiff found).2 hfound
        simp only [getD_stop_iff]
        by_cases hin : clip v.len start ≤ found ∧ (found : Int) < (stop.map (clip v.len)).getD v.len
        · rw [if_pos hin, index_eq_some (n := found)]
          · rw [← hlen] at hin
            exact ⟨hin.1, hin.2, hat⟩
          · intro m hm hold
            have := (hiff m).1 hold.2.2
            rw [hfound] at this
            cases this
            omega
        · rw [if_neg hin, index_eq_none fun n hn => ?_]
          have := (hiff n).1 hn.2.2
          rw [hfound] at this
          cases this
          unfold Holds at hn
          rw [hlen] at hn
          exact hin ⟨hn.1, hn.2.1⟩
    · rw [herr, index_eq_none fun n hn => ?_]
      · rfl
      · have hmem := List.mem_of_getElem? hn.2.2
        obtain ⟨x, hx, hxc⟩ := List.mem_map.1 hmem
        obtain ⟨p, hp, rfl⟩ := List.mem_map.1 (mem_pick hx)
        rw [hv] at hxc
        exact hnone p hp hxc
  | false =>
    rw [if_neg Bool.false_ne_true, ← Int.toNat_of_nonneg hnonneg]
    obtain ⟨m, hm, hle, hstop, hcursor, hfirst⟩ | ⟨herr, hnone⟩ :=
      h.scan (E := E) cursor (stop.map fun s : Int => if s < 0 then s + v.len else s) (v.len + 1)
        (clip v.len start).toNat (by omega)
    · have hlt := (List.getElem?_eq_some_iff.1 hcursor).1
      rw [hlen] at hlt
      rw [hm, index_eq_some (n := m)]
      · refine ⟨?_, ?_, hcursor⟩
        · rw [hlen]
          omega
        · rw [hlen]
          exact (all_stop_iff hlt stop).1 hstop
      · intro k hk hold
        refine hfirst k ?_ hk hold.2.2
        have := hold.1
        rw [hlen] at this
        omega
    · rw [herr, index_eq_none fun n hn => ?_]
      have hlt := (List.getElem?_eq_some_iff.1 hn.2.2).1
      unfold Holds at hn
      rw [hlen] at hlt hn
      exact hnone n (by omega) ((all_stop_iff hlt stop).2 hn.2.1) hn.2.2

end

end Cctally.Retained
