import Cctally.StaleProofCompact

/-!
# When the compact samples prove the same

A proof takes the latest sample that qualifies, so it is the same on the compact
samples exactly where that sample is kept. A sample decides some proof of a rise
where it follows an instant and no parsable request is later among the early
samples up to its value, and of a low where none is among those from its value on.
-/

namespace Cctally.StaleProof

section
variable {I : Type} {env : Env} {window : PyInt} {axis : Axis}

theorem axisWindow_mem {samples inside : List (Sample I ℚ)} (h : axisWindow env samples axis window = .ok inside) :
    inside.Sublist samples ∧ ∀ s ∈ inside, (rawValue axis s).isSome = true := by
  unfold axisWindow at h
  unfold rawValue
  by_cases haxis : axis = .fiveHour
  · rw [if_pos haxis] at h
    cases h
    refine ⟨List.filter_sublist, fun s hs => ?_⟩
    obtain ⟨-, hs⟩ := List.mem_filter.1 hs
    rw [if_pos haxis]
    simp only [inFiveHour, decide_eq_true_eq] at hs
    exact hs.1
  · rw [if_neg haxis] at h
    obtain ⟨text, -, h⟩ := Except.bind_eq_ok.1 h
    rw [Except.filter_of_filterM h]
    refine ⟨List.filter_sublist, fun s hs => ?_⟩
    obtain ⟨-, hs⟩ := List.mem_filter.1 hs
    rw [if_neg haxis]
    unfold inWeekly at hs
    cases hw : s.weeklyPercent.isSome with
    | true => rfl
    | false => simp [hw] at hs; cases hs

theorem axisWindow_subset {samples inside kept : List (Sample I ℚ)} (h : axisWindow env samples axis window = .ok inside)
    (hkept : ∀ s ∈ kept, s ∈ inside) : axisWindow env kept axis window = .ok kept := by
  unfold axisWindow at h ⊢
  by_cases haxis : axis = .fiveHour
  · rw [if_pos haxis] at h ⊢
    cases h
    exact congrArg Except.ok (List.filter_eq_self.2 fun s hs => (List.mem_filter.1 (hkept s hs)).2)
  · rw [if_neg haxis] at h ⊢
    obtain ⟨text, htext, h⟩ := Except.bind_eq_ok.1 h
    rw [htext, Except.ok_bind, Except.filterM_pure (p := fun _ => true), List.filter_true]
    intro s hs
    have hin := hkept s hs
    rw [Except.filter_of_filterM h, List.mem_filter] at hin
    obtain ⟨-, hin⟩ := hin
    cases hw : inWeekly env text s with
    | ok b => rw [hw] at hin; exact congrArg Except.ok hin
    | error e => rw [hw] at hin; cases hin

theorem axisWindow_congr (samples : List (Sample I ℚ)) {window' : PyInt} (h : window'.value = window.value) :
    axisWindow env samples axis window' = axisWindow env samples axis window := by
  unfold axisWindow
  rw [h]

theorem after_isSome {a b : Option String} (h : after env a b = true) : (interval env a).isSome = true := by
  unfold after at h
  split at h
  · rename_i ha _
    rw [ha]
    rfl
  · cases h

theorem after_mono {a a' b : Option String} (h : after env a b = true) (ha' : (interval env a').isSome = true)
    (hle : instantOrder env a ≤ instantOrder env a') : after env a' b = true := by
  obtain ⟨ia', ha'⟩ := Option.isSome_iff_exists.1 ha'
  unfold after at h ⊢
  split at h
  · rename_i ia ib ha hb
    unfold instantOrder at hle
    rw [ha, ha'] at hle
    rw [ha', hb]
    simp only [decide_eq_true_eq] at h ⊢
    exact h.trans hle
  · cases h

theorem beforeEpoch_mono {a : Option String} {epoch epoch' : Int} (h : beforeEpoch env a epoch = true) (hle : epoch ≤ epoch') :
    beforeEpoch env a epoch' = true := by
  unfold beforeEpoch at h ⊢
  split
  · rename_i i hi
    rw [hi] at h
    simp only [decide_eq_true_eq] at h ⊢
    unfold NS at h ⊢
    omega
  · rename_i hi
    rw [hi] at h
    cases h

end

section
variable {I : Type} [LinearOrder I] {env : Env} {window : PyInt} {floorEpoch : Option Int} {axis : Axis}

theorem instantOrder_le {s t : Sample I ℚ} (h : requestKey env s ≤ requestKey env t) :
    instantOrder env s.requestedAt ≤ instantOrder env t.requestedAt := Prod.Lex.monotone_fst _ _ h

omit [LinearOrder I] in
theorem requestKey_inj {inside : List (Sample I ℚ)} (hid : (inside.map (·.observationId)).Nodup) :
    ∀ a ∈ inside, ∀ b ∈ inside, OrderDual.toDual (requestKey env a) = OrderDual.toDual (requestKey env b) → a = b :=
  fun _ ha _ hb hab => List.inj_on_of_nodup_map hid ha hb (congrArg (fun k => (ofLex k).2) (OrderDual.toDual_inj.1 hab))

theorem latest_eq_some {inside : List (Sample I ℚ)} (hid : (inside.map (·.observationId)).Nodup) {p : Sample I ℚ → Bool}
    {s : Sample I ℚ} : latest env (inside.filter p) = some s ↔
      s ∈ inside ∧ p s = true ∧ ∀ t ∈ inside, p t = true → requestKey env t ≤ requestKey env s := by
  rw [latest_eq, Least.least_eq_some fun a ha b hb => requestKey_inj hid a (List.mem_of_mem_filter ha) b (List.mem_of_mem_filter hb)]
  simp only [List.mem_filter, and_imp, and_assoc, OrderDual.toDual_le_toDual]

theorem latest_same {inside kept : List (Sample I ℚ)} (hid : (inside.map (·.observationId)).Nodup)
    (hkept : ∀ s ∈ kept, s ∈ inside) (p : Sample I ℚ → Bool) :
    latest env (kept.filter p) = latest env (inside.filter p) ↔ ∀ s, latest env (inside.filter p) = some s → s ∈ kept := by
  rw [latest_eq, latest_eq, Least.least_subset]
  · refine forall₂_congr fun s hs => ?_
    rw [List.mem_filter]
    exact ⟨And.left, fun h => ⟨h, (List.mem_filter.1 (Least.least_mem hs)).2⟩⟩
  · exact fun a ha b hb => requestKey_inj hid a (List.mem_of_mem_filter ha) b (List.mem_of_mem_filter hb)
  · intro a ha
    obtain ⟨ha, hp⟩ := List.mem_filter.1 ha
    exact List.mem_filter.2 ⟨hkept a ha, hp⟩

theorem scan_eq {samples inside : List (Sample I ℚ)} (h : axisWindow env samples axis window = .ok inside)
    (p : Sample I ℚ → ℚ → Bool) :
    scan env rationals samples axis window p = .ok (latest env (inside.filter fun s => p s (valueOf axis s))) := by
  unfold scan
  rw [h, Except.ok_bind, Except.filterM_pure (p := fun s => p s (valueOf axis s))]
  · rfl
  · intro s hs
    obtain ⟨v, hv⟩ := Option.isSome_iff_exists.1 ((axisWindow_mem h).2 s hs)
    unfold axisValue valueOf
    rw [hv]
    rfl

/-! ## Samples that decide a proof -/

variable (env window axis) in
/-- No parsable request is later among the early samples whose values are `r` to that of `s`. -/
def Last (r : ℚ → ℚ → Prop) (inside : List (Sample I ℚ)) (s : Sample I ℚ) : Prop :=
  ∀ t ∈ inside, early env window t = true → (interval env t.requestedAt).isSome = true →
    r (valueOf axis t) (valueOf axis s) → requestKey env t ≤ requestKey env s

variable (env window axis) in
def Decides (inside : List (Sample I ℚ)) (s : Sample I ℚ) : Prop :=
  early env window s = true ∧ (∃ b, after env s.requestedAt b = true) ∧
    (Last env window axis (· ≤ ·) inside s ∨ Last env window axis (· ≥ ·) inside s)

theorem last_of_latest {inside : List (Sample I ℚ)} (hid : (inside.map (·.observationId)).Nodup) {p : Sample I ℚ → Bool}
    {r : ℚ → ℚ → Prop} {s : Sample I ℚ} (h : latest env (inside.filter p) = some s)
    (hp : ∀ t ∈ inside, early env window t = true → (interval env t.requestedAt).isSome = true →
      r (valueOf axis t) (valueOf axis s) → instantOrder env s.requestedAt ≤ instantOrder env t.requestedAt → p t = true) :
    Last env window axis r inside s := by
  obtain ⟨-, -, hle⟩ := (latest_eq_some hid).1 h
  intro t ht hearlyt hparsed hr
  by_contra hlt
  rw [not_le] at hlt
  exact absurd (hle t ht (hp t ht hearlyt hparsed hr (instantOrder_le hlt.le))) (not_le.2 hlt)

theorem exists_above (v : ℚ) : ∀ l : List ℚ, ∃ limit, v < limit ∧ ∀ x ∈ l, x < limit → x ≤ v
  | [] => ⟨v + 1, by linarith, fun _ h => by cases h⟩
  | y :: l => by
    obtain ⟨limit, hv, hl⟩ := exists_above v l
    by_cases hy : v < y
    · refine ⟨min limit y, lt_min hv hy, List.forall_mem_cons.2 ⟨fun h => ?_, fun x hx h => ?_⟩⟩
      · exact absurd (h.trans_le (min_le_right limit y)) (lt_irrefl y)
      · exact hl x hx (h.trans_le (min_le_left limit y))
    · exact ⟨limit, hv, List.forall_mem_cons.2 ⟨fun _ => not_lt.1 hy, hl⟩⟩

theorem exists_below (v : ℚ) (l : List ℚ) : ∃ limit, limit < v ∧ ∀ x ∈ l, limit < x → v ≤ x := by
  obtain ⟨limit, hv, hl⟩ := exists_above (-v) (l.map fun x => -x)
  refine ⟨-limit, by linarith, fun x hx h => ?_⟩
  have := hl (-x) (List.mem_map_of_mem hx) (by linarith)
  linarith

variable (env window axis) in
def RiseCondition (p : Sample I ℚ → Bool) : Prop :=
  ∃ (sigma : SampleIdentity ℚ) (afterUtc : Option String) (reset : Int), sigma.axis = axis ∧
    sigma.window.value = window.value ∧ window.value - RESET_MARGIN_SECONDS ≤ reset ∧
    p = fun s => provesStale env rationals sigma afterUtc reset s (valueOf axis s)

variable (env window axis) in
def LowCondition (p : Sample I ℚ → Bool) : Prop :=
  ∃ (boundUtc : Option String) (percent : ℚ) (reset : Int), window.value - RESET_MARGIN_SECONDS ≤ reset ∧
    p = fun s => provesStaleLow env rationals boundUtc percent reset s (valueOf axis s)

theorem decides_of_rise {inside : List (Sample I ℚ)} (hid : (inside.map (·.observationId)).Nodup) {p : Sample I ℚ → Bool}
    (hp : RiseCondition env window axis p) {s : Sample I ℚ} (h : latest env (inside.filter p) = some s)
    (hearly : early env window s = true) : Decides env window axis inside s := by
  obtain ⟨sigma, afterUtc, reset, -, -, hreset, rfl⟩ := hp
  obtain ⟨-, hs, -⟩ := (latest_eq_some hid).1 h
  simp only [provesStale, rationals, Bool.and_eq_true, decide_eq_true_eq] at hs
  obtain ⟨⟨⟨hvalue, hactivity⟩, hafter⟩, -⟩ := hs
  refine ⟨hearly, ⟨_, hafter⟩, .inl (last_of_latest hid h fun t _ hearlyt hparsed hr horder => ?_)⟩
  simp only [provesStale, rationals, Bool.and_eq_true, decide_eq_true_eq]
  exact ⟨⟨⟨hr.trans_lt hvalue, after_mono hactivity hparsed horder⟩, after_mono hafter hparsed horder⟩,
    beforeEpoch_mono hearlyt hreset⟩

theorem decides_of_low {inside : List (Sample I ℚ)} (hid : (inside.map (·.observationId)).Nodup) {p : Sample I ℚ → Bool}
    (hp : LowCondition env window axis p) {s : Sample I ℚ} (h : latest env (inside.filter p) = some s)
    (hearly : early env window s = true) : Decides env window axis inside s := by
  obtain ⟨boundUtc, percent, reset, hreset, rfl⟩ := hp
  obtain ⟨-, hs, -⟩ := (latest_eq_some hid).1 h
  simp only [provesStaleLow, rationals, Bool.and_eq_true, decide_eq_true_eq] at hs
  obtain ⟨⟨hvalue, hafter⟩, -⟩ := hs
  refine ⟨hearly, ⟨_, hafter⟩, .inr (last_of_latest hid h fun t _ hearlyt hparsed hr horder => ?_)⟩
  simp only [provesStaleLow, rationals, Bool.and_eq_true, decide_eq_true_eq]
  exact ⟨⟨hvalue.trans_le hr, after_mono hafter hparsed horder⟩, beforeEpoch_mono hearlyt hreset⟩

theorem taken_of_decides {inside : List (Sample I ℚ)} (hid : (inside.map (·.observationId)).Nodup) {s : Sample I ℚ}
    (hs : s ∈ inside) (h : Decides env window axis inside s) :
    ∃ p : Sample I ℚ → Bool, (RiseCondition env window axis p ∨ LowCondition env window axis p) ∧
      latest env (inside.filter p) = some s := by
  obtain ⟨hearly, ⟨b, hb⟩, hlast⟩ := h
  have hbound : ∃ text, b = some text := by
    cases b with
    | some text => exact ⟨text, rfl⟩
    | none =>
      have hnone : interval env none = none := rfl
      rw [after_none hnone] at hb
      cases hb
  obtain ⟨text, rfl⟩ := hbound
  rcases hlast with hlast | hlast
  · obtain ⟨limit, hv, hlimit⟩ := exists_above (valueOf axis s) (inside.map (valueOf axis))
    refine ⟨fun t => provesStale env rationals ⟨"", text, axis, limit + 1, window, 0, 0⟩ (some text)
      (window.value - RESET_MARGIN_SECONDS) t (valueOf axis t), .inl ⟨_, _, _, rfl, rfl, le_refl _, rfl⟩,
      (latest_eq_some hid).2 ⟨hs, ?_, fun t ht htp => ?_⟩⟩
    · simp only [provesStale, rationals, Bool.and_eq_true, decide_eq_true_eq, add_sub_cancel_right]
      exact ⟨⟨⟨hv, hb⟩, hb⟩, hearly⟩
    · simp only [provesStale, rationals, Bool.and_eq_true, decide_eq_true_eq, add_sub_cancel_right] at htp
      obtain ⟨⟨⟨hvt, hbt⟩, -⟩, hearlyt⟩ := htp
      exact hlast t ht hearlyt (after_isSome hbt) (hlimit _ (List.mem_map_of_mem ht) hvt)
  · obtain ⟨limit, hv, hlimit⟩ := exists_below (valueOf axis s) (inside.map (valueOf axis))
    refine ⟨fun t => provesStaleLow env rationals (some text) (limit - 1)
      (window.value - RESET_MARGIN_SECONDS) t (valueOf axis t), .inr ⟨_, _, _, le_refl _, rfl⟩,
      (latest_eq_some hid).2 ⟨hs, ?_, fun t ht htp => ?_⟩⟩
    · simp only [provesStaleLow, rationals, Bool.and_eq_true, decide_eq_true_eq, sub_add_cancel]
      exact ⟨⟨hv, hb⟩, hearly⟩
    · simp only [provesStaleLow, rationals, Bool.and_eq_true, decide_eq_true_eq, sub_add_cancel] at htp
      obtain ⟨⟨hvt, hbt⟩, hearlyt⟩ := htp
      exact hlast t ht hearlyt (after_isSome hbt) (hlimit _ (List.mem_map_of_mem ht) hvt)

variable (floorEpoch) in
theorem compact_spec {samples inside : List (Sample I ℚ)} (hid : (samples.map (·.observationId)).Nodup)
    (h : axisWindow env samples axis window = .ok inside) :
    ∃ kept, fresh (compactSamples env rationals (prepare env samples) window floorEpoch axis) = .ok kept ∧
      (∀ s, s ∈ kept ↔ s ∈ inside ∧ Survives env window floorEpoch axis inside s) ∧
      kept.Pairwise fun a b => requestKey env a < requestKey env b := by
  obtain ⟨hsub, hvalue⟩ := axisWindow_mem h
  rw [Ends.fresh (compactSamples_ends samples window floorEpoch axis)]
  rw [axisWindow_eq] at h
  obtain ⟨ps, hps, h⟩ := Except.bind_eq_ok.1 h
  rw [Except.pure_eq_ok] at h
  subst h
  have hplaced : Placed env ps := (placed_prepare samples).sublist (positionsIn_sublist hps)
  have hids : (ps.map fun e => e.sample.observationId).Nodup := by
    have hinside := hid.sublist (hsub.map (·.observationId))
    rwa [List.map_map] at hinside
  rw [hps]
  exact compacted_spec hplaced (fun e he => hvalue _ (List.mem_map_of_mem he)) hids

theorem window_of_compact {samples kept : List (Sample I ℚ)}
    (h : fresh (compactSamples env rationals (prepare env samples) window floorEpoch axis) = .ok kept) :
    ∃ inside, axisWindow env samples axis window = .ok inside := by
  rw [Ends.fresh (compactSamples_ends samples window floorEpoch axis)] at h
  obtain ⟨ps, hps, -⟩ := Except.bind_eq_ok.1 h
  rw [axisWindow_eq, hps]
  exact ⟨_, rfl⟩

theorem eq_of_rising {l l' : List (Sample I ℚ)} (hl : l.Pairwise fun a b => requestKey env a < requestKey env b)
    (hl' : l'.Pairwise fun a b => requestKey env a < requestKey env b) (h : ∀ s, s ∈ l ↔ s ∈ l') : l = l' := by
  have hnodup : ∀ {l : List (Sample I ℚ)}, l.Pairwise (fun a b => requestKey env a < requestKey env b) → l.Nodup :=
    fun hl => hl.imp fun {a b} (hab : requestKey env a < requestKey env b) (heq : a = b) =>
      absurd (heq ▸ hab) (lt_irrefl (requestKey env b))
  refine ((List.perm_ext_iff_of_nodup (hnodup hl) (hnodup hl')).2 h).eq_of_pairwise ?_ hl hl'
  intro a b _ _ hab hba
  exact absurd (hab.trans hba) (lt_irrefl _)

theorem Survives.subset {inside kept : List (Sample I ℚ)} (hkept : ∀ s ∈ kept, s ∈ inside) {s : Sample I ℚ}
    (h : Survives env window floorEpoch axis inside s) : Survives env window floorEpoch axis kept s := by
  rcases h with h | h | ⟨hs, h⟩
  · exact .inl h
  · exact .inr (.inl fun t ht => h t (hkept t ht))
  · exact .inr (.inr ⟨hs, fun t ht => h t (hkept t ht)⟩)

omit [LinearOrder I] in
theorem earn_fiveHour {acc : Accounted ℚ} (h : acc.axis = .fiveHour) (accountedPercent : ℚ)
    (completedAt indexIdentity : String) (support support' : Option (Sample I ℚ)) :
    earn env rationals acc accountedPercent completedAt indexIdentity support =
      earn env rationals acc accountedPercent completedAt indexIdentity support' := by
  funext earned sigma
  unfold earn
  rw [if_pos h, if_pos h]

theorem segmentSupport_eq {samples inside : List (Sample I ℚ)} (h : axisWindow env samples .weekly window = .ok inside) :
    segmentSupport env samples window floorEpoch = .ok (latest env (inside.filter (floored env floorEpoch))) := by
  unfold segmentSupport
  rw [h]
  rfl

theorem support_kept {inside kept : List (Sample I ℚ)} (hid : (inside.map (·.observationId)).Nodup)
    (hkept : ∀ s, s ∈ kept ↔ s ∈ inside ∧ Survives env window floorEpoch axis inside s) :
    latest env (kept.filter (floored env floorEpoch)) = latest env (inside.filter (floored env floorEpoch)) := by
  refine (latest_same hid (fun s hs => ((hkept s).1 hs).1) _).2 fun s hs => (hkept s).2 ?_
  obtain ⟨hmem, hfloor, hle⟩ := (latest_eq_some hid).1 hs
  exact ⟨hmem, .inr (.inr ⟨hfloor, fun t ht _ _ hfloort => hle t ht hfloort⟩)⟩

/-! ## The same answers -/

/-- The answers on the compact samples are those on all of them: for the members of the window
whose reset is not before the margin, for the receipts of the segment, and for compacting again. -/
structure SameAnswers (env : Env) (window : PyInt) (floorEpoch : Option Int) (axis : Axis)
    (samples kept : List (Sample I ℚ)) : Prop where
  rise : ∀ (sigma : SampleIdentity ℚ) (afterUtc : Option String) (reset : Option Int), sigma.axis = axis →
    sigma.window.value = window.value → window.value - RESET_MARGIN_SECONDS ≤ reset.getD window.value →
    fresh (provenStale env rationals (prepare env kept) sigma afterUtc reset) =
      fresh (provenStale env rationals (prepare env samples) sigma afterUtc reset)
  low : ∀ (boundUtc : Option String) (memberWindow : PyInt) (percent : ℚ) (reset : Option Int),
    memberWindow.value = window.value → window.value - RESET_MARGIN_SECONDS ≤ reset.getD window.value →
    fresh (provenStaleLow env rationals (prepare env kept) boundUtc axis memberWindow percent reset) =
      fresh (provenStaleLow env rationals (prepare env samples) boundUtc axis memberWindow percent reset)
  receipts : ∀ (members : List (SampleIdentity ℚ)) (acc : Accounted ℚ) (completedAt indexIdentity : String),
    acc.axis = axis → acc.window.value = window.value → acc.floorEpoch = floorEpoch →
    ∀ earned, fresh (earnReceipts env rationals (prepare env samples) members acc completedAt indexIdentity) = .ok earned →
      fresh (earnReceipts env rationals (prepare env kept) members acc completedAt indexIdentity) = .ok earned
  again : fresh (compactSamples env rationals (prepare env kept) window floorEpoch axis) = .ok kept

theorem receipts_same {samples inside kept : List (Sample I ℚ)} (hid : (samples.map (·.observationId)).Nodup)
    (h : axisWindow env samples axis window = .ok inside)
    (hkept : ∀ s, s ∈ kept ↔ s ∈ inside ∧ Survives env window floorEpoch axis inside s) {members : List (SampleIdentity ℚ)}
    {acc : Accounted ℚ} {completedAt indexIdentity : String} (haxis : acc.axis = axis)
    (hwindow : acc.window.value = window.value) (hfloor : acc.floorEpoch = floorEpoch) {earned : List (Receipt I ℚ)}
    (hearned : scanReceipts env rationals samples members acc completedAt indexIdentity = .ok earned) :
    scanReceipts env rationals kept members acc completedAt indexIdentity = .ok earned := by
  obtain ⟨hsub, -⟩ := axisWindow_mem h
  have hinside : ∀ s ∈ kept, s ∈ inside := fun s hs => ((hkept s).1 hs).1
  unfold scanReceipts at hearned ⊢
  cases hpercent : acc.percent with
  | none => rw [hpercent] at hearned; exact hearned
  | some accountedPercent =>
    rw [hpercent] at hearned
    dsimp only at hearned ⊢
    subst haxis
    cases hacc : acc.axis with
    | other name => rw [hacc] at hearned; exact hearned
    | weekly =>
      rw [hacc] at hearned h
      rw [← axisWindow_congr samples hwindow] at h
      rw [segmentSupport_eq h, hfloor] at hearned
      rw [segmentSupport_eq (axisWindow_subset h hinside), hfloor, support_kept (hid.sublist (hsub.map _)) hkept]
      exact hearned
    | fiveHour =>
      rw [hacc] at hearned
      obtain ⟨support, hsupport, hearned⟩ := Except.bind_eq_ok.1 hearned
      obtain ⟨weekly, hweekly, -⟩ := Except.bind_eq_ok.1 hsupport
      obtain ⟨weekly', hweekly'⟩ : ∃ w, axisWindow env kept .weekly acc.window = .ok w := by
        have hmem : ∀ s ∈ kept, s ∈ samples := fun s hs => hsub.subset (hinside s hs)
        obtain ⟨text, htext, hfilter⟩ := Except.bind_eq_ok.1 hweekly
        obtain ⟨w, hw⟩ := Except.filterM_returns fun s hs => Except.ok_of_filterM hfilter s (hmem s hs)
        exact ⟨w, Except.bind_eq_ok.2 ⟨text, htext, hw⟩⟩
      rw [segmentSupport_eq hweekly']
      exact (congrArg (fun f => members.foldlM f []) (earn_fiveHour hacc _ _ _ _ support)).trans hearned

variable (env window floorEpoch axis) in
/-- Every early sample of the window that decides some proof is the latest early one of its value,
or the latest of those captured at or after the floor. -/
def Revealed (samples : List (Sample I ℚ)) : Prop :=
  axis.known = true → ∀ inside, axisWindow env samples axis window = .ok inside →
    ∀ s ∈ inside, Decides env window axis inside s →
      Latest env window axis inside s ∨ LatestFloored env window floorEpoch axis inside s

theorem scan_same {samples inside kept : List (Sample I ℚ)} (hid : (inside.map (·.observationId)).Nodup)
    (h : axisWindow env samples axis window = .ok inside) (hkept : ∀ s ∈ kept, s ∈ inside) {memberWindow : PyInt}
    (hwindow : memberWindow.value = window.value) (p : Sample I ℚ → ℚ → Bool) :
    scan env rationals kept axis memberWindow p = scan env rationals samples axis memberWindow p ↔
      ∀ s, latest env (inside.filter fun s => p s (valueOf axis s)) = some s → s ∈ kept := by
  rw [← axisWindow_congr samples hwindow] at h
  rw [scan_eq h, scan_eq (axisWindow_subset h hkept), Except.ok.injEq]
  exact latest_same hid hkept _

end

def plainEnv : Env where
  digit c := if c.isDigit then some (c.toNat - 48) else none
  fromisoformat _ := none
  timestamp t := t
  outOfRange _ := .valueError

def sampleAt (id requestedAt capturedAt : String) (percent : ℚ) : Sample String ℚ where
  observationId := id
  requestedAt := some requestedAt
  capturedAt := some capturedAt
  weeklyPercent := some percent
  weeklyResetsAt := .int 1700000000
  fiveHourPercent := none
  fiveHourWindowKey := none

def beforeTheEpoch : Sample String ℚ := sampleAt "a" "1969-12-31T23:00:00Z" "1969-12-31T23:00:01Z" 10

def unparsable : Sample String ℚ := sampleAt "b" "" "2000-01-01T00:00:00Z" 10

def staleMember : SampleIdentity ℚ where
  token := ""
  activityAt := "1969-12-31T22:00:00Z"
  axis := .weekly
  percent := 20
  window := ⟨1700000000, true⟩
  evidenceRevision := 1
  parserRevision := 1

end Cctally.StaleProof
