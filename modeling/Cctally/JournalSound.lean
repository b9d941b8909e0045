import Cctally.JournalResolve

/-!
# Completion and taint over a growing journal

A pass over `P ++ E` retains every marker and action a pass over `P` retained,
so a batch tainted by `P` stays tainted and a batch completed by `P` is
completed or tainted.
-/

namespace Cctally

def phaseOne (rt : Runtime) (rs : List Reading) : SelectorFold := SelectorFold.empty.applyAll rt 0 rs

section
variable {rt : Runtime}

theorem marker_mem_batchIds {fold : SelectorFold} {b : String} {ph : Phase} {m : Marker}
    (h : fold.marker b ph = some m) : b ∈ fold.batchIds := by
  refine List.mem_append_left _ (Dict.mem_keys.mpr ?_)
  unfold SelectorFold.marker Dict.getSub? Dict.sub at h
  cases hb : fold.markers.get? b with
  | none => rw [hb] at h; cases h
  | some d => exact ⟨d, rfl⟩

theorem accumulate_resolved {records : List Json} {fold : SelectorFold}
    (h : accumulate rt records = .ok fold) :
    ∃ rs, readEntries rt records 0 = .ok rs ∧
      Resolved rt (phaseOne rt rs) (sortedSet (phaseOne rt rs).batchIds) fold := by
  obtain ⟨⟨f, n⟩, hf, h⟩ := Except.bind_eq_ok.mp h
  obtain ⟨rs, hrs, he⟩ := foldRecords_eq_ok.mp hf
  simp only [Prod.mk.injEq] at he
  obtain ⟨rfl, -⟩ := he
  exact ⟨rs, hrs, resolveBatches_resolved h⟩

theorem log_ne_nil_commit {fold : SelectorFold} {b : String} (h : fold.log rt b ≠ []) :
    ∃ m, fold.marker b .commit = some m := by
  unfold SelectorFold.log at h
  cases hc : fold.marker b .commit with
  | some m => exact ⟨m, rfl⟩
  | none =>
    rw [hc, batchViolations_none.mpr rfl] at h
    exact absurd rfl h

section
variable {fold fold' : SelectorFold} (h : Resolved rt fold (sortedSet fold.batchIds) fold')
include h

theorem Resolved.mem_tainted {b : String} :
    b ∈ fold'.taintedBatches ↔ b ∈ fold.taintedBatches ∨ fold.log rt b ≠ [] := by
  have := @mem_taints_log rt fold (sortedSet fold.batchIds) fold.taints b
  rw [← h.taints] at this
  refine this.trans ⟨fun hx => hx.imp id And.right, fun hx => hx.imp id fun hl => ⟨?_, hl⟩⟩
  obtain ⟨m, hm⟩ := log_ne_nil_commit hl
  exact mem_sortedSet.mpr (marker_mem_batchIds hm)

theorem Resolved.mem_completed (hempty : fold.completed = ∅) {b : String} :
    b ∈ fold'.completed ↔ fold.completes rt b = true := by
  rw [h.completed, hempty]
  refine ⟨fun hx => hx.elim (fun hx => absurd hx (Finset.notMem_empty b)) And.right, fun hx => Or.inr ⟨?_, hx⟩⟩
  obtain ⟨⟨bg, hbg⟩, -⟩ := completes_iff.mp hx
  exact mem_sortedSet.mpr (marker_mem_batchIds hbg)

theorem Resolved.checked_all (b : String) : batchViolations rt b (fold.marker b .begin) (fold.marker b .commit)
    (fold.actions.sub b) = .ok (fold.log rt b) := by
  by_cases hb : b ∈ sortedSet fold.batchIds
  · exact h.checked b hb
  · have hc : fold.marker b .commit = none := by
      cases hc : fold.marker b .commit with
      | none => rfl
      | some m => exact absurd (mem_sortedSet.mpr (marker_mem_batchIds hc)) hb
    rw [SelectorFold.log, hc, batchViolations_none.mpr rfl]
    rfl

end

/-! ## The fold of an extended journal -/

theorem phaseOne_continues (rs es : List Reading) (b : String) :
    (∀ ph, Continues Marker.sequence rs.length ((phaseOne rt rs).marker b ph)
      ((phaseOne rt (rs ++ es)).marker b ph)) ∧
    ∀ k, Continues BatchAction.sequence rs.length ((phaseOne rt rs).action b k)
      ((phaseOne rt (rs ++ es)).action b k) := by
  refine ⟨fun ph => ?_, fun k => ?_⟩
  · rw [phaseOne, phaseOne, applyAll_append, marker_applyAll b ph es, Nat.zero_add]
    refine ⟨fun m hm => ?_, fun hn m hm => ?_⟩
    · refine ⟨by rw [hm]; rfl, ?_⟩
      rw [marker_applyAll, show SelectorFold.empty.marker b ph = none from rfl, Option.none_or] at hm
      simpa using (firstMarker_range b ph hm).2
    · rw [hn, Option.none_or] at hm
      exact (firstMarker_range b ph hm).1
  · rw [phaseOne, phaseOne, applyAll_append, action_applyAll b k es, Nat.zero_add]
    refine ⟨fun a ha => ?_, fun hn a ha => ?_⟩
    · refine ⟨by rw [ha]; rfl, ?_⟩
      rw [action_applyAll, show SelectorFold.empty.action b k = none from rfl, Option.none_or] at ha
      simpa using (firstAction_range b k ha).2
    · rw [hn, Option.none_or] at ha
      exact (firstAction_range b k ha).1

theorem phaseOne_tainted_mono (rs es : List Reading) {b : String}
    (h : b ∈ (phaseOne rt rs).taintedBatches) : b ∈ (phaseOne rt (rs ++ es)).taintedBatches := by
  rw [phaseOne, applyAll_append]
  have := @taints_applyAll rt es (SelectorFold.empty.applyAll rt 0 rs) (0 + rs.length)
  rw [show ((SelectorFold.empty.applyAll rt 0 rs).applyAll rt (0 + rs.length) es).taintedBatches =
    ((SelectorFold.empty.applyAll rt 0 rs).applyAll rt (0 + rs.length) es).taints.batches from rfl, this]
  exact mem_addAll_batches.mpr (Or.inl h)

theorem phaseOne_completed (rs : List Reading) : (phaseOne rt rs).completed = ∅ :=
  completed_applyAll rs _ 0

theorem accumulate_append {P E : List Json} {fP fPE : SelectorFold} (hP : accumulate rt P = .ok fP)
    (hPE : accumulate rt (P ++ E) = .ok fPE) :
    ∃ rs es, readEntries rt P 0 = .ok rs ∧ readEntries rt E P.length = .ok es ∧
      Resolved rt (phaseOne rt rs) (sortedSet (phaseOne rt rs).batchIds) fP ∧
      Resolved rt (phaseOne rt (rs ++ es)) (sortedSet (phaseOne rt (rs ++ es)).batchIds) fPE := by
  obtain ⟨rs, hrs, hP⟩ := accumulate_resolved hP
  obtain ⟨rs', hrs', hPE⟩ := accumulate_resolved hPE
  obtain ⟨rs₁, es, h₁, h₂, rfl⟩ := readEntries_append.mp hrs'
  obtain rfl : rs = rs₁ := Except.ok.inj (hrs.symm.trans h₁)
  exact ⟨rs, es, hrs, by simpa using h₂, hP, hPE⟩

theorem log_permanent {rs es : List Reading} {fP fPE : SelectorFold}
    (hP : Resolved rt (phaseOne rt rs) (sortedSet (phaseOne rt rs).batchIds) fP)
    (hPE : Resolved rt (phaseOne rt (rs ++ es)) (sortedSet (phaseOne rt (rs ++ es)).batchIds) fPE)
    {b : String} (h : (phaseOne rt rs).log rt b ≠ []) : (phaseOne rt (rs ++ es)).log rt b ≠ [] :=
  have hc := @phaseOne_continues rt rs es b
  batchViolations_permanent (hc.1 .begin) (hc.1 .commit) hc.2 (hP.checked_all b) (hPE.checked_all b) h

/-- **Taint is permanent and completion never silently lapses.** -/
theorem taint_permanent {P E : List Json} {fP fPE : SelectorFold} (hP : accumulate rt P = .ok fP)
    (hPE : accumulate rt (P ++ E) = .ok fPE) :
    (∀ b ∈ fP.taintedBatches, b ∈ fPE.taintedBatches) ∧
    (∀ b ∈ fP.completed, b ∈ fPE.completed ∨ b ∈ fPE.taintedBatches) ∧
    (∀ b, ¬ (b ∈ fP.completed ∧ b ∈ fP.taintedBatches)) ∧
    ∀ b, ¬ (b ∈ fPE.completed ∧ b ∈ fPE.taintedBatches) := by
  obtain ⟨rs, es, -, -, rP, rPE⟩ := accumulate_append hP hPE
  -- completion and taint exclude each other in any resolved fold
  have hex : ∀ {qs : List Reading} {f : SelectorFold},
      Resolved rt (phaseOne rt qs) (sortedSet (phaseOne rt qs).batchIds) f →
        ∀ b, ¬ (b ∈ f.completed ∧ b ∈ f.taintedBatches) := by
    rintro qs f hf b ⟨hc, ht⟩
    obtain ⟨-, -, hnt, hnl⟩ := completes_iff.mp ((hf.mem_completed (phaseOne_completed qs)).mp hc)
    rcases hf.mem_tainted.mp ht with ht | ht
    · exact hnt ht
    · exact ht hnl
  refine ⟨fun b hb => ?_, fun b hb => ?_, hex rP, hex rPE⟩
  · rw [rPE.mem_tainted]
    rcases rP.mem_tainted.mp hb with hb | hb
    · exact Or.inl (phaseOne_tainted_mono rs es hb)
    · exact Or.inr (log_permanent rP rPE hb)
  · obtain ⟨⟨bg, hbg⟩, ⟨cm, hcm⟩, -, -⟩ :=
      completes_iff.mp ((rP.mem_completed (phaseOne_completed rs)).mp hb)
    have hc := @phaseOne_continues rt rs es b
    rw [rPE.mem_completed (phaseOne_completed _), rPE.mem_tainted, completes_iff]
    by_cases ht : b ∈ (phaseOne rt (rs ++ es)).taintedBatches
    · exact Or.inr (Or.inl ht)
    · by_cases hl : (phaseOne rt (rs ++ es)).log rt b = []
      · exact Or.inl ⟨⟨bg, ((hc.1 .begin).1 bg hbg).1⟩, ⟨cm, ((hc.1 .commit).1 cm hcm).1⟩, ht, hl⟩
      · exact Or.inr (Or.inr hl)

end

def mixText (acc : Nat) (text : String) : Nat :=
  text.toList.foldl (fun a c => (a * 1114129 + c.toNat) % 2 ^ 256) acc

mutual
def mixJson (acc : Nat) : Json → Nat
  | .null => (acc * 1114129 + 1) % 2 ^ 256
  | .bool b => (acc * 1114129 + if b then 2 else 3) % 2 ^ 256
  | .num n => (acc * 1114129 + 4 + n.natAbs) % 2 ^ 256
  | .float r => mixText (acc * 1114129 + 5) r
  | .str s => mixText (acc * 1114129 + 6) s
  | .arr items => mixItems (acc * 1114129 + 7) items
  | .obj fields => mixFields (acc * 1114129 + 8) fields
def mixItems (acc : Nat) : List Json → Nat
  | [] => acc
  | item :: items => mixItems (mixJson acc item) items
def mixFields (acc : Nat) : List (String × Json) → Nat
  | [] => acc
  | (key, value) :: fields => mixFields (mixJson (mixText acc key) value) fields
end

def workedRuntime : Runtime where
  sha256 value := String.ofList ((List.range 64).map fun i => Nat.digitChar (mixJson 17 value / 16 ^ i % 16))
  isBase16 := isLowerHex

def workedAction (kind : String) (rev : Nat) : Json :=
  .obj [("action", .str "replace"), ("at", .str "t"), ("id", .str "e"),
    ("payload", .obj [("kind", .str kind)]), ("rev", .num rev)]

/-- A batch of one action replacing the event `e`. -/
def workedBatch (batchId kind : String) (rev : Nat) : List Json :=
  ((makeCorrectionBatch workedRuntime batchId "family" "t" [workedAction kind rev]).toOption).getD []

/-- A commit before its begin: the late begin withdraws `commit_without_begin`
and the batch stays tainted. -/
theorem taint_permanent_lateBegin :
    ∃ fP fPE, accumulate workedRuntime ((workedBatch "A" "x" 1).drop 2 ++ workedBatch "B" "y" 1) = .ok fP ∧
      accumulate workedRuntime ((workedBatch "A" "x" 1).drop 2 ++ workedBatch "B" "y" 1 ++
        (workedBatch "A" "x" 1).take 1) = .ok fPE ∧
      "A" ∈ fP.taintedBatches ∧ "A" ∈ fPE.taintedBatches ∧ "B" ∈ fP.completed ∧
      ("B" ∈ fPE.completed ∨ "B" ∈ fPE.taintedBatches) := by
  obtain ⟨fP, hP, h⟩ := Except.returns_iff.mp (show (accumulate workedRuntime
    ((workedBatch "A" "x" 1).drop 2 ++ workedBatch "B" "y" 1)).returns
      (fun f => decide ("A" ∈ f.taintedBatches ∧ "B" ∈ f.completed)) = true by decide +kernel)
  obtain ⟨fPE, hPE, -⟩ := Except.returns_iff.mp (show (accumulate workedRuntime
    ((workedBatch "A" "x" 1).drop 2 ++ workedBatch "B" "y" 1 ++ (workedBatch "A" "x" 1).take 1)).returns
      (fun _ => true) = true by decide +kernel)
  obtain ⟨hA, hB⟩ := of_decide_eq_true h
  obtain ⟨ht, hc, -⟩ := taint_permanent hP hPE
  exact ⟨fP, fPE, hP, hPE, hA, ht _ hA, hB, hc _ hB⟩

end Cctally
