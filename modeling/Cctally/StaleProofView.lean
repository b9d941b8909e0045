import Cctally.Least
import Cctally.StaleProof

/-!
# The prepared view answers like the plain scan

A window of the view holds the entries of the window in their order. What it adds
when a call first needs it, the sorted entries and their values, is determined by
them, so every call answers as the scan of the samples does, whatever was asked
before.
-/

namespace Cctally.StaleProof

section
variable {I R : Type} {env : Env}

structure Placed (env : Env) (entries : List (Entry I R)) : Prop where
  prepared : ∀ e ∈ entries, e = entryOf env (e.sample, e.place)
  rising : entries.Pairwise fun a b => a.place < b.place

theorem Placed.sublist {l l' : List (Entry I R)} (h : Placed env l) (hl : l'.Sublist l) : Placed env l' :=
  ⟨fun e he => h.prepared e (hl.subset he), h.rising.sublist hl⟩

theorem Placed.inj {l : List (Entry I R)} (h : Placed env l) {a b : Entry I R} (ha : a ∈ l) (hb : b ∈ l)
    (hab : a.place = b.place) : a = b := by
  have hnodup : (l.map (·.place)).Nodup := List.pairwise_map.2 (h.rising.imp Nat.ne_of_lt)
  exact List.inj_on_of_nodup_map hnodup ha hb hab

theorem placed_prepare (samples : List (Sample I R)) : Placed env (prepare env samples) := by
  refine ⟨fun e he => ?_, ?_⟩
  · obtain ⟨p, -, rfl⟩ := List.mem_map.1 he
    rfl
  · rw [prepare, List.pairwise_map]
    have hplaces : ((samples.zipIdx).map Prod.snd).Pairwise (· < ·) := by
      rw [List.zipIdx_map_snd]
      exact List.pairwise_lt_range'
    exact List.pairwise_map.1 hplaces

theorem map_sample_prepare (samples : List (Sample I R)) : (prepare env samples).map (·.sample) = samples := by
  rw [prepare, List.map_map]
  exact List.zipIdx_map_fst 0 samples

variable (env) in
/-- The entries of a window, as `windowOf` selects them. -/
def positionsIn (view : List (Entry I R)) (axis : Axis) (window : PyInt) : Except Raised (List (Entry I R)) :=
  if axis = .fiveHour then .ok (fivePositions view window.value)
  else normalizeWeeklyReset env window.value >>= fun text => weeklyPositions env view text

theorem positionsIn_sublist {view ps : List (Entry I R)} {axis : Axis} {window : PyInt}
    (h : positionsIn env view axis window = .ok ps) : ps.Sublist view := by
  unfold positionsIn at h
  by_cases haxis : axis = .fiveHour
  · rw [if_pos haxis] at h
    cases h
    exact List.filter_sublist
  · rw [if_neg haxis] at h
    obtain ⟨text, -, h⟩ := Except.bind_eq_ok.1 h
    rw [Except.filter_of_filterM h]
    exact List.filter_sublist

theorem axisWindow_eq (samples : List (Sample I R)) (axis : Axis) (window : PyInt) :
    axisWindow env samples axis window =
      positionsIn env (prepare env samples) axis window >>= fun ps => pure (ps.map (·.sample)) := by
  unfold axisWindow positionsIn
  conv_lhs => rw [← @map_sample_prepare I R env samples]
  by_cases haxis : axis = .fiveHour
  · rw [if_pos haxis, if_pos haxis, List.filter_map]
    rfl
  · rw [if_neg haxis, if_neg haxis, bind_assoc]
    refine congrArg _ (funext fun text => ?_)
    rw [Except.filterM_map]
    rfl

/-! ## Values -/

variable {V : Type} {num : Numbers R V}

theorem convert_other {axis : Axis} {n : Nat} : ∀ {ps : List (Entry I R)} {values values' : Dict Nat V},
    convert num axis values ps = .ok (some values') → (∀ e ∈ ps, e.place ≠ n) → values'.get? n = values.get? n
  | [], values, values', h, _ => by cases h; rfl
  | e :: ps, values, values', h, hn => by
    unfold convert at h
    split at h
    · cases h
    · split at h
      · split at h
        · rw [convert_other h fun e' he' => hn e' (List.mem_cons_of_mem _ he'),
            Dict.get?_set_ne _ _ (hn e (List.mem_cons_self ..))]
        · cases h
        · cases h
      · cases h

theorem get?_convert {axis : Axis} : ∀ {ps : List (Entry I R)} {values values' : Dict Nat V},
    ps.Pairwise (fun a b => a.place < b.place) → convert num axis values ps = .ok (some values') →
    ∀ e ∈ ps, ∃ v, axisValue num axis e.sample = .ok v ∧ values'.get? e.place = some v
  | [], _, _, _, _, e, he => by cases he
  | a :: ps, values, values', hr, h, e, he => by
    obtain ⟨ha, hr⟩ := List.pairwise_cons.1 hr
    unfold convert at h
    split at h
    · cases h
    · rename_i raw hraw
      split at h
      · split at h
        · rename_i v hv
          rcases List.mem_cons.1 he with rfl | he
          · refine ⟨v, by rw [axisValue, hraw]; exact hv, ?_⟩
            rw [convert_other h fun e' he' => (ha e' he').ne', Dict.get?_set_self]
          · exact get?_convert hr h e he
        · cases h
        · cases h
      · cases h

theorem convert_error {axis : Axis} {err : Raised} (p : Sample I R → V → Bool) :
    ∀ {ps : List (Entry I R)} {values : Dict Nat V}, convert num axis values ps = .error err →
    (ps.map (·.sample)).filterM (fun s => axisValue num axis s >>= fun v => pure (p s v)) = .error err
  | [], _, h => by cases h
  | a :: ps, values, h => by
    rw [List.map_cons, Except.filterM_cons, axisValue]
    unfold convert at h
    split at h
    · cases h
    · rename_i raw hraw
      rw [hraw]
      split at h
      · dsimp only
        split at h
        · rename_i v hv
          rw [hv, convert_error p h]
          rfl
        · cases h
        · rename_i hv
          rw [hv]
          cases h
          rfl
      · cases h

theorem filterM_of_convert {axis : Axis} {ps : List (Entry I R)} {values : Dict Nat V}
    (hr : ps.Pairwise fun a b => a.place < b.place) (h : convert num axis Dict.empty ps = .ok (some values))
    (p : Sample I R → V → Bool) :
    (ps.map (·.sample)).filterM (fun s => axisValue num axis s >>= fun v => pure (p s v)) =
      .ok ((ps.filter fun e => valueAt values e (p e.sample)).map (·.sample)) := by
  have hget := get?_convert hr h
  rw [Except.filterM_map, @Except.filterM_pure _ _ _ fun e : Entry I R => valueAt values e (p e.sample)]
  · rfl
  · intro e he
    obtain ⟨v, hv, hat⟩ := hget e he
    rw [hv, valueAt, hat]
    rfl

end

section
variable {I R : Type} [LinearOrder I] {env : Env}

theorem latest_eq (samples : List (Sample I R)) :
    latest env samples = Least.least (fun s => OrderDual.toDual (requestKey env s)) samples := by
  refine congrArg (fun f => samples.foldl f none) (funext fun best => funext fun s => ?_)
  cases best with
  | none => rfl
  | some b =>
    rw [Least.better]
    dsimp only
    by_cases hlt : requestKey env b < requestKey env s
    · rw [if_pos hlt, if_pos (OrderDual.toDual_lt_toDual.2 hlt)]
    · rw [if_neg hlt, if_neg fun h => hlt (OrderDual.toDual_lt_toDual.1 h)]

theorem entryKey_lt {a b : Entry I R} (hab : a.place < b.place) : entryKey a < entryKey b ↔ orderKey a < orderKey b := by
  unfold entryKey orderKey
  rw [Prod.Lex.toLex_lt_toLex, Prod.Lex.toLex_lt_toLex, Prod.Lex.toLex_lt_toLex]
  have hneg : ¬ -(a.place : Int) < -(b.place : Int) := by omega
  simp only [hneg, and_false, or_false]

/-- **A scan from the end of the sorted entries** finds the latest that is sought. -/
theorem find?_sortedEntries {l : List (Entry I R)} (h : Placed env l) (p : Entry I R → Bool) :
    ((sortedEntries l).reverse.find? p).map (·.sample) = latest env ((l.filter p).map (·.sample)) := by
  have hsorted : (sortedEntries l).reverse.Pairwise fun a b => OrderDual.toDual (entryKey a) ≤ OrderDual.toDual (entryKey b) := by
    rw [List.pairwise_reverse]
    exact List.pairwise_insertionSort _ l
  have hmem : ∀ e, e ∈ (sortedEntries l).reverse ↔ e ∈ l := by
    intro e
    rw [List.mem_reverse]
    exact (List.perm_insertionSort _ l).mem_iff
  have hinj : ∀ a ∈ (sortedEntries l).reverse, ∀ b ∈ (sortedEntries l).reverse,
      OrderDual.toDual (entryKey a) = OrderDual.toDual (entryKey b) → a = b := by
    intro a ha b hb hab
    have hplace : -(a.place : Int) = -(b.place : Int) := congrArg (fun k => (ofLex (ofLex k).2).2) (OrderDual.toDual_inj.1 hab)
    exact h.inj ((hmem a).1 ha) ((hmem b).1 hb) (by omega)
  rw [Least.find?_of_pairwise hsorted hmem hinj, latest_eq, Least.least_map]
  refine congrArg _ (Least.least_congr_key ?_)
  have hplaced := h.sublist (List.filter_sublist (p := p))
  refine hplaced.rising.imp_of_mem fun {a b} ha hb hab => ?_
  have hkey : ∀ e ∈ l.filter p, requestKey env e.sample = orderKey e := by
    intro e he
    rw [hplaced.prepared e he]
    rfl
  rw [hkey a ha, hkey b hb]
  exact entryKey_lt hab

theorem pairwise_order (l : List (Entry I R)) : ((sortedEntries l).map (·.order)).Pairwise (· ≤ ·) := by
  rw [List.pairwise_map]
  refine (List.pairwise_insertionSort _ l).imp fun {a b} hab => ?_
  exact Prod.Lex.monotone_fst _ _ hab

end

section
variable {I R V : Type} [LinearOrder I] (env : Env) (num : Numbers R V) (view : List (Entry I R))

/-! ## What a window of the view holds -/

def Key.axis : Key → Axis
  | .fiveHour _ => .fiveHour
  | .weekly _ => .weekly

def Key.positions : Key → Except Raised (List (Entry I R))
  | .fiveHour window => .ok (fivePositions view window)
  | .weekly text => weeklyPositions env view text

structure Good (axis : Axis) (ps : List (Entry I R)) (h : Held I R V) : Prop where
  positions : h.window.positions = ps
  ordered : ∀ o, h.window.ordered = some o →
    o = sortedEntries ps ∧ h.window.keys = some ((sortedEntries ps).map (·.order))
  values : ∀ v, h.window.values = some v → convert num axis Dict.empty ps = .ok v
  key : ∀ k, h.key = some k → k.axis = axis ∧ k.positions env view = .ok ps

def Inv (windows : Windows I R V) : Prop :=
  ∀ k w, windows.get? k = some w → ∃ ps, Good env num view k.axis ps ⟨some k, w⟩

/-- A call that answers as `p` does, with a value that is good for what `p` gives. -/
def Like {α β : Type} (p : Except Raised α) (good : α → β → Prop) : Except Raised β → Prop
  | .ok b => ∃ a, p = .ok a ∧ good a b
  | .error e => p = .error e

variable {env} {num} {view}

theorem inv_empty : Inv env num view Dict.empty := fun _ _ h => by simp at h

theorem save_ends {axis : Axis} {ps : List (Entry I R)} {h : Held I R V} (hg : Good env num view axis ps h) :
    Call.Ends (Inv env num view) (save h) (· = .ok ()) := by
  intro windows hinv
  unfold save
  cases hk : h.key with
  | none => exact ⟨rfl, hinv⟩
  | some key =>
    refine ⟨rfl, fun k w hw => ?_⟩
    rw [Call.on_modify, Dict.get?_set] at hw
    by_cases hkk : key = k
    · rw [if_pos hkk] at hw
      cases hw
      obtain ⟨haxis, hpos⟩ := hg.key key hk
      subst hkk
      refine ⟨ps, hg.positions, hg.ordered, haxis ▸ hg.values, fun k' hk' => ?_⟩
      cases hk'
      exact ⟨rfl, hpos⟩
    · rw [if_neg hkk] at hw
      exact hinv k w hw

theorem newWindow_good {axis : Axis} {ps : List (Entry I R)} {key : Option Key}
    (hkey : ∀ k, key = some k → k.axis = axis ∧ k.positions env view = .ok ps) :
    Good env num view axis ps ⟨key, newWindow ps⟩ :=
  ⟨rfl, fun _ h => (by cases h), fun _ h => (by cases h), hkey⟩

theorem fill_ends (key : Key) :
    Call.Ends (Inv env num view)
      (Call.ofExcept (key.positions env view) >>= fun ps =>
        save ⟨some key, newWindow ps⟩ >>= fun _ => pure (⟨some key, newWindow ps⟩ : Held I R V))
      (Like (key.positions env view) fun ps h => Good env num view key.axis ps h) := by
  refine Call.Ends.bind (Call.Ends.ofExcept (q := (· = key.positions env view)) rfl) (fun ps hps => ?_) fun e he => he.symm
  have hg : Good env num view key.axis ps ⟨some key, newWindow ps⟩ := by
    refine newWindow_good fun k hk => ?_
    cases hk
    exact ⟨rfl, hps.symm⟩
  exact (save_ends hg).bind (fun _ _ => Call.Ends.pure ⟨ps, hps.symm, hg⟩) fun e he => by cases he

theorem memoized_ends (key : Key) :
    Call.Ends (Inv env num view) (memoized key (key.positions env view))
      (Like (key.positions env view) fun ps h => Good env num view key.axis ps h) := by
  intro windows hinv
  unfold memoized
  rw [Call.on_bind_of_ok (Call.on_get windows)]
  cases hget : windows.get? key with
  | some w =>
    obtain ⟨ps, hg⟩ := hinv key w hget
    exact ⟨⟨ps, (hg.key key rfl).2, hg⟩, hinv⟩
  | none =>
    exact fill_ends key windows hinv

def side (axis : Axis) : Axis := if axis = .fiveHour then .fiveHour else .weekly

theorem side_known {axis : Axis} (h : axis.known = true) : side axis = axis := by
  cases axis with
  | weekly => rfl
  | fiveHour => rfl
  | other => cases h

theorem windowOf_ends (axis : Axis) (window : PyInt) :
    Call.Ends (Inv env num view) (windowOf env view axis window)
      (Like (positionsIn env view axis window) fun ps h => Good env num view (side axis) ps h) := by
  unfold windowOf positionsIn side
  by_cases haxis : axis = .fiveHour
  · rw [if_pos haxis, if_pos haxis, if_pos haxis]
    by_cases hexact : window.exact = true
    · rw [if_pos hexact]
      exact memoized_ends (.fiveHour window.value)
    · rw [if_neg hexact]
      exact Call.Ends.pure ⟨_, rfl, newWindow_good fun k hk => by cases hk⟩
  · rw [if_neg haxis, if_neg haxis, if_neg haxis]
    refine Call.Ends.bind (Call.Ends.ofExcept (q := (· = normalizeWeeklyReset env window.value)) rfl)
      (fun text htext => ?_) fun e he => by rw [← he]; rfl
    rw [← htext]
    exact memoized_ends (.weekly text)

def Sorted (ps : List (Entry I R)) (h : Held I R V) : Prop :=
  h.window.ordered = some (sortedEntries ps) ∧ h.window.keys = some ((sortedEntries ps).map (·.order))

theorem ordered_ends {axis : Axis} {ps : List (Entry I R)} {h : Held I R V} (hg : Good env num view axis ps h) :
    Call.Ends (Inv env num view) (ordered h) fun r => ∃ h', r = .ok h' ∧ Good env num view axis ps h' ∧ Sorted ps h' := by
  unfold ordered
  cases ho : h.window.ordered with
  | some o =>
    obtain ⟨rfl, hkeys⟩ := hg.ordered o ho
    exact Call.Ends.pure ⟨h, rfl, hg, ho, hkeys⟩
  | none =>
    obtain ⟨rfl, -, hvalues, hkey⟩ := hg
    have hg' : Good env num view axis h.window.positions { h with window := { h.window with
        ordered := some (sortedEntries h.window.positions)
        keys := some ((sortedEntries h.window.positions).map (·.order)) } } := by
      refine ⟨rfl, fun o ho => ?_, hvalues, hkey⟩
      cases ho
      exact ⟨rfl, rfl⟩
    exact (save_ends hg').bind (fun _ _ => Call.Ends.pure ⟨_, rfl, hg', rfl, rfl⟩) fun e he => by cases he

theorem proofValues_ends {axis : Axis} {ps : List (Entry I R)} {h : Held I R V} (hg : Good env num view axis ps h) :
    Call.Ends (Inv env num view) (proofValues num axis h)
      (Like (convert num axis Dict.empty ps) fun values r => r.2 = values ∧ Good env num view axis ps r.1 ∧ Sorted ps r.1) := by
  unfold proofValues
  refine (ordered_ends hg).bind (fun h' hh' => ?_) fun e he => by obtain ⟨_, he, _⟩ := he; cases he
  obtain ⟨h₁, heq, hg₁, hsorted⟩ := hh'
  cases heq
  cases hv : h'.window.values with
  | some values => exact Call.Ends.pure ⟨values, hg₁.values values hv, rfl, hg₁, hsorted⟩
  | none =>
    refine Call.Ends.bind (Call.Ends.ofExcept (q := (· = convert num axis Dict.empty ps)) (by rw [hg₁.positions]))
      (fun values hvalues => ?_) fun e he => he.symm
    have hg₂ : Good env num view axis ps { h' with window := { h'.window with values := some values } } := by
      refine ⟨hg₁.positions, hg₁.ordered, fun v hv => ?_, hg₁.key⟩
      cases hv
      exact hvalues.symm
    exact (save_ends hg₂).bind (fun _ _ => Call.Ends.pure ⟨values, hvalues.symm, rfl, hg₂, hsorted⟩) fun e he => by cases he

theorem latestRequestedAfter_eq {ps : List (Entry I R)} {h : Held I R V} (hp : Placed env ps) (hs : Sorted ps h)
    (boundEnd : Int) (accept : Entry I R → Bool) :
    latestRequestedAfter h.window boundEnd accept =
      latest env ((ps.filter fun e => (e.request.any fun r => decide (boundEnd ≤ r.1)) && accept e).map (·.sample)) := by
  obtain ⟨ho, hk⟩ := hs
  unfold latestRequestedAfter
  rw [ho, hk, Option.getD_some, Option.getD_some]
  dsimp only
  rw [Bisect.find?_reverse_drop_bisectLeft (pairwise_order ps) ?_]
  · exact find?_sortedEntries hp _
  · intro e he hpe
    rw [hp.prepared e ((List.perm_insertionSort _ ps).mem_iff.1 he)] at hpe ⊢
    simp only [entryOf, Bool.and_eq_true, Option.any_eq_true, decide_eq_true_eq] at hpe ⊢
    obtain ⟨⟨r, hr, hle⟩, -⟩ := hpe
    rw [instantOrder, hr]
    exact hle

/-! ## The plain scan -/

section
variable (env num)

def provesStale (sigma : SampleIdentity V) (afterUtc : Option String) (reset : Int) (s : Sample I R) (v : V) : Bool :=
  num.lt v (num.sub sigma.percent num.tolerance) && after env s.requestedAt (some sigma.activityAt) &&
    after env s.requestedAt afterUtc && beforeEpoch env s.capturedAt reset

def provesStaleLow (boundUtc : Option String) (percent : V) (reset : Int) (s : Sample I R) (v : V) : Bool :=
  num.lt (num.add percent num.tolerance) v && after env s.requestedAt boundUtc && beforeEpoch env s.capturedAt reset

def scan (samples : List (Sample I R)) (axis : Axis) (window : PyInt) (p : Sample I R → V → Bool) :
    Except Raised (Option (Sample I R)) := do
  let inside ← axisWindow env samples axis window
  let proving ← inside.filterM fun s => axisValue num axis s >>= fun v => pure (p s v)
  pure (latest env proving)

def scanStale (samples : List (Sample I R)) (sigma : SampleIdentity V) (afterUtc : Option String)
    (advertisedResetEpoch : Option Int) : Except Raised (Option (Sample I R)) :=
  if !sigma.axis.known then pure none
  else scan env num samples sigma.axis sigma.window
    (provesStale env num sigma afterUtc (advertisedResetEpoch.getD sigma.window.value))

def scanStaleLow (samples : List (Sample I R)) (boundUtc : Option String) (axis : Axis) (window : PyInt) (percent : V)
    (advertisedResetEpoch : Option Int) : Except Raised (Option (Sample I R)) :=
  if (interval env boundUtc).isNone || !axis.known then pure none
  else scan env num samples axis window (provesStaleLow env num boundUtc percent (advertisedResetEpoch.getD window.value))

def segmentSupport (samples : List (Sample I R)) (window : PyInt) (floorEpoch : Option Int) :
    Except Raised (Option (Sample I R)) := do
  let inside ← axisWindow env samples .weekly window
  pure (latest env (inside.filter fun s => floorEpoch.all (atOrAfterEpoch env s.capturedAt)))

def scanReceipts (samples : List (Sample I R)) (members : List (SampleIdentity V)) (acc : Accounted V)
    (completedAt indexIdentity : String) : Except Raised (List (Receipt I V)) :=
  match acc.percent with
  | none => pure []
  | some accountedPercent =>
    if !acc.axis.known then pure []
    else do
      let support ← segmentSupport env samples acc.window acc.floorEpoch
      members.foldlM (earn env num acc accountedPercent completedAt indexIdentity support) []

end

theorem after_eq {a b : Option String} {ib : Int × Int} (h : interval env b = some ib) :
    after env a b = (interval env a).any fun r => decide (ib.2 ≤ r.1) := by
  unfold after
  rw [h]
  cases interval env a <;> rfl

theorem after_none {a b : Option String} (h : interval env b = none) : after env a b = false := by
  unfold after
  rw [h]
  cases interval env a <;> rfl

theorem beforeEpoch_eq (a : Option String) (epoch : Int) :
    beforeEpoch env a epoch = (interval env a).any fun c => decide (c.2 ≤ epoch * NS) := by
  unfold beforeEpoch
  cases interval env a <;> rfl

theorem scan_ends {samples : List (Sample I R)} {axis : Axis} (haxis : axis.known = true) (window : PyInt)
    (p : Sample I R → V → Bool) {f : Held I R V × Option (Dict Nat V) → View I R V (Option (Sample I R))}
    (hscan : ∀ h, f (h, none) = Call.ofExcept ((h.window.positions.map (·.sample)).filterM fun s =>
      axisValue num axis s >>= fun v => pure (p s v)) >>= fun proving => pure (latest env proving))
    (hview : ∀ h values, Placed env h.window.positions → Sorted h.window.positions h → f (h, some values) =
      pure (latest env ((h.window.positions.filter fun e => valueAt values e (p e.sample)).map (·.sample)))) :
    Call.Ends (Inv env num (prepare env samples))
      (windowOf env (prepare env samples) axis window >>= fun h => proofValues num axis h >>= f)
      (· = scan env num samples axis window p) := by
  unfold scan
  rw [axisWindow_eq]
  refine (windowOf_ends axis window).bind (fun h hh => ?_) fun e he => ?_
  · obtain ⟨ps, hps, hg⟩ := hh
    rw [side_known haxis] at hg
    have hplaced : Placed env ps := (placed_prepare samples).sublist (positionsIn_sublist hps)
    rw [hps]
    refine (proofValues_ends hg).bind (fun r hr => ?_) fun e he => ?_
    · obtain ⟨values, hconvert, hvalues, hg', hsorted⟩ := hr
      obtain ⟨h', values'⟩ := r
      subst hvalues
      obtain rfl := hg'.positions
      cases values' with
      | none =>
        rw [hscan]
        refine Call.Ends.bind (Call.Ends.ofExcept rfl) (fun proving hproving => Call.Ends.pure ?_) fun e he => ?_
        · exact (congrArg (· >>= fun l => pure (latest env l)) hproving).symm
        · exact (congrArg (· >>= fun l => pure (latest env l)) he).symm
      | some values =>
        rw [hview h' values hplaced hsorted]
        refine Call.Ends.pure ?_
        exact (congrArg (· >>= fun l => pure (latest env l)) (filterM_of_convert hplaced.rising hconvert p)).symm
    · exact (congrArg (· >>= fun l => pure (latest env l)) (convert_error p he)).symm
  · rw [show positionsIn env (prepare env samples) axis window = .error e from he]
    rfl

theorem any_max_le (o : Option (Int × Int)) (x y : Int) : (o.any fun r => decide (max x y ≤ r.1)) =
    ((o.any fun r => decide (x ≤ r.1)) && o.any fun r => decide (y ≤ r.1)) := by
  cases o with
  | none => rfl
  | some r => simp

theorem provenStale_ends (samples : List (Sample I R)) (sigma : SampleIdentity V) (afterUtc : Option String)
    (advertisedResetEpoch : Option Int) :
    Call.Ends (Inv env num (prepare env samples))
      (provenStale env num (prepare env samples) sigma afterUtc advertisedResetEpoch)
      (· = scanStale env num samples sigma afterUtc advertisedResetEpoch) := by
  unfold provenStale scanStale
  cases haxis : sigma.axis.known with
  | false => exact Call.Ends.pure rfl
  | true =>
    refine scan_ends haxis sigma.window (provesStale env num sigma afterUtc _) (fun h => rfl) fun h values hplaced hsorted => ?_
    dsimp only
    have hkeep : ∀ e ∈ h.window.positions, ∀ t bound : Int × Int, interval env (some sigma.activityAt) = some t →
        interval env afterUtc = some bound →
        ((e.request.any fun r => decide (max t.2 bound.2 ≤ r.1)) &&
          (valueAt values e (fun v => num.lt v (num.sub sigma.percent num.tolerance)) &&
            capturedBefore (advertisedResetEpoch.getD sigma.window.value * NS) e)) =
          valueAt values e (provesStale env num sigma afterUtc (advertisedResetEpoch.getD sigma.window.value) e.sample) := by
      intro e he t bound ht hbound
      rw [hplaced.prepared e he]
      unfold valueAt provesStale capturedBefore entryOf
      dsimp only
      rw [after_eq ht, after_eq hbound, beforeEpoch_eq, any_max_le]
      cases values.get? e.place with
      | none => simp
      | some v => simp only [Option.any_some]; ac_rfl
    have hnone : interval env (some sigma.activityAt) = none ∨ interval env afterUtc = none →
        (h.window.positions.filter fun e =>
          valueAt values e (provesStale env num sigma afterUtc (advertisedResetEpoch.getD sigma.window.value) e.sample)) = [] := by
      intro hor
      rw [List.filter_eq_nil_iff]
      intro e _
      unfold valueAt provesStale
      rcases hor with h | h
      · rw [after_none h]
        cases values.get? e.place <;> simp
      · rw [after_none h]
        cases values.get? e.place <;> simp
    split
    · rename_i hnil
      rw [hnil]
      rfl
    · cases ht : interval env (some sigma.activityAt) with
      | none => rw [hnone (.inl ht)]; rfl
      | some t =>
        cases hbound : interval env afterUtc with
        | none => rw [hnone (.inr hbound)]; rfl
        | some bound =>
          dsimp only
          rw [latestRequestedAfter_eq hplaced hsorted, List.filter_congr fun e he => hkeep e he t bound ht hbound]

theorem provenStaleLow_ends (samples : List (Sample I R)) (boundUtc : Option String) (axis : Axis) (window : PyInt)
    (percent : V) (advertisedResetEpoch : Option Int) :
    Call.Ends (Inv env num (prepare env samples))
      (provenStaleLow env num (prepare env samples) boundUtc axis window percent advertisedResetEpoch)
      (· = scanStaleLow env num samples boundUtc axis window percent advertisedResetEpoch) := by
  unfold provenStaleLow scanStaleLow
  cases hbound : interval env boundUtc with
  | none => exact Call.Ends.pure rfl
  | some bound =>
    dsimp only
    cases haxis : axis.known with
    | false => exact Call.Ends.pure rfl
    | true =>
      refine scan_ends haxis window (provesStaleLow env num boundUtc percent _) (fun h => rfl) fun h values hplaced hsorted => ?_
      dsimp only
      split
      · rename_i hnil
        rw [hnil]
        rfl
      · rw [latestRequestedAfter_eq hplaced hsorted]
        refine congrArg (fun l : List (Entry I R) => (pure (latest env (l.map (·.sample))) : View I R V _)) (List.filter_congr fun e he => ?_)
        rw [hplaced.prepared e he]
        unfold valueAt provesStaleLow capturedBefore entryOf
        dsimp only
        rw [after_eq hbound, beforeEpoch_eq]
        cases values.get? e.place with
        | none => simp
        | some v => simp only [Option.any_some]; ac_rfl

theorem earnReceipts_ends (samples : List (Sample I R)) (members : List (SampleIdentity V)) (acc : Accounted V)
    (completedAt indexIdentity : String) :
    Call.Ends (Inv env num (prepare env samples))
      (earnReceipts env num (prepare env samples) members acc completedAt indexIdentity)
      (· = scanReceipts env num samples members acc completedAt indexIdentity) := by
  unfold earnReceipts scanReceipts segmentSupport
  cases acc.percent with
  | none => exact Call.Ends.pure rfl
  | some accountedPercent =>
    dsimp only
    cases acc.axis.known with
    | false => exact Call.Ends.pure rfl
    | true =>
      rw [axisWindow_eq]
      refine (windowOf_ends .weekly acc.window).bind (fun h hh => ?_) fun e he => ?_
      · obtain ⟨ps, hps, hg⟩ := hh
        have hplaced : Placed env ps := (placed_prepare samples).sublist (positionsIn_sublist hps)
        refine (ordered_ends hg).bind (fun h' hh' => ?_) fun e he => by obtain ⟨_, he, _⟩ := he; cases he
        obtain ⟨h₁, heq, hg₁, ho, -⟩ := hh'
        cases heq
        refine Call.Ends.ofExcept ?_
        rw [hps, ho, Option.getD_some, find?_sortedEntries hplaced]
        have hfilter : (ps.filter (atFloor acc.floorEpoch)).map (·.sample) =
            (ps.map (·.sample)).filter fun s => acc.floorEpoch.all (atOrAfterEpoch env s.capturedAt) := by
          rw [List.filter_map]
          refine congrArg _ (List.filter_congr fun e he => ?_)
          rw [hplaced.prepared e he, Function.comp]
          unfold atFloor atOrAfterEpoch entryOf
          cases acc.floorEpoch with
          | none => rfl
          | some floor => cases interval env e.sample.capturedAt <;> rfl
        rw [hfilter]
        rfl
      · rw [show positionsIn env (prepare env samples) .weekly acc.window = .error e from he]
        rfl

/-! ## Calls on one view -/

def fresh {α : Type} (m : View I R V α) : Except Raised α := (m.on Dict.empty).1

theorem Ends.fresh {α : Type} {view : List (Entry I R)} {m : View I R V α} {r : Except Raised α}
    (h : Call.Ends (Inv env num view) m (· = r)) : fresh m = r := (h Dict.empty inv_empty).1

theorem Ends.map {α β : Type} {view : List (Entry I R)} {m : View I R V α} {r : Except Raised α} (f : α → β)
    (h : Call.Ends (Inv env num view) m (· = r)) : Call.Ends (Inv env num view) (m >>= fun a => pure (f a)) (· = r.map f) :=
  h.bind (fun _ ha => Call.Ends.pure (by rw [← ha]; rfl)) fun _ he => by rw [← he]; rfl

theorem fresh_provenStale (samples : List (Sample I R)) (sigma : SampleIdentity V) (afterUtc : Option String)
    (reset : Option Int) : fresh (provenStale env num (prepare env samples) sigma afterUtc reset) =
      scanStale env num samples sigma afterUtc reset :=
  Ends.fresh (provenStale_ends samples sigma afterUtc reset)

theorem fresh_provenStaleLow (samples : List (Sample I R)) (boundUtc : Option String) (axis : Axis) (window : PyInt)
    (percent : V) (reset : Option Int) :
    fresh (provenStaleLow env num (prepare env samples) boundUtc axis window percent reset) =
      scanStaleLow env num samples boundUtc axis window percent reset :=
  Ends.fresh (provenStaleLow_ends samples boundUtc axis window percent reset)

theorem fresh_earnReceipts (samples : List (Sample I R)) (members : List (SampleIdentity V)) (acc : Accounted V)
    (completedAt indexIdentity : String) :
    fresh (earnReceipts env num (prepare env samples) members acc completedAt indexIdentity) =
      scanReceipts env num samples members acc completedAt indexIdentity :=
  Ends.fresh (earnReceipts_ends samples members acc completedAt indexIdentity)

variable [DecidableEq V]

inductive Ask (V : Type)
  | provenStale (sigma : SampleIdentity V) (afterUtc : Option String) (advertisedResetEpoch : Option Int)
  | provenStaleLow (boundUtc : Option String) (axis : Axis) (window : PyInt) (percent : V)
    (advertisedResetEpoch : Option Int)
  | earnReceipts (members : List (SampleIdentity V)) (acc : Accounted V) (completedAt indexIdentity : String)
  | compactSamples (window : PyInt) (floorEpoch : Option Int) (axis : Axis)

inductive Answer (I R V : Type)
  | sample (s : Option (Sample I R))
  | receipts (rs : List (Receipt I V))
  | samples (ss : List (Sample I R))

section
variable (env num)

def answer (view : List (Entry I R)) : Ask V → View I R V (Answer I R V)
  | .provenStale sigma afterUtc reset => return .sample (← provenStale env num view sigma afterUtc reset)
  | .provenStaleLow boundUtc axis window percent reset =>
    return .sample (← provenStaleLow env num view boundUtc axis window percent reset)
  | .earnReceipts members acc completedAt indexIdentity =>
    return .receipts (← earnReceipts env num view members acc completedAt indexIdentity)
  | .compactSamples window floorEpoch axis => return .samples (← compactSamples env num view window floorEpoch axis)

def answers (view : List (Entry I R)) (windows : Windows I R V) : List (Ask V) → List (Except Raised (Answer I R V))
  | [] => []
  | ask :: asks =>
    ((answer env num view ask).on windows).1 :: answers view ((answer env num view ask).on windows).2 asks

end

theorem compactSamples_ends (samples : List (Sample I R)) (window : PyInt) (floorEpoch : Option Int) (axis : Axis) :
    Call.Ends (Inv env num (prepare env samples))
      (compactSamples env num (prepare env samples) window floorEpoch axis)
      (· = positionsIn env (prepare env samples) axis window >>= fun ps => compacted num ps window floorEpoch axis) := by
  unfold compactSamples
  refine (windowOf_ends axis window).bind (fun h hh => ?_) fun e he => ?_
  · obtain ⟨ps, hps, hg⟩ := hh
    rw [hps, ← hg.positions]
    exact Call.Ends.ofExcept rfl
  · rw [show positionsIn env (prepare env samples) axis window = .error e from he]
    rfl

theorem answer_ends (samples : List (Sample I R)) (ask : Ask V) :
    Call.Ends (Inv env num (prepare env samples)) (answer env num (prepare env samples) ask)
      (· = fresh (answer env num (prepare env samples) ask)) := by
  have hdetermined : ∃ r, Call.Ends (Inv env num (prepare env samples)) (answer env num (prepare env samples) ask) (· = r) := by
    cases ask with
    | provenStale sigma afterUtc reset => exact ⟨_, Ends.map _ (provenStale_ends samples sigma afterUtc reset)⟩
    | provenStaleLow boundUtc axis window percent reset =>
      exact ⟨_, Ends.map _ (provenStaleLow_ends samples boundUtc axis window percent reset)⟩
    | earnReceipts members acc completedAt indexIdentity =>
      exact ⟨_, Ends.map _ (earnReceipts_ends samples members acc completedAt indexIdentity)⟩
    | compactSamples window floorEpoch axis => exact ⟨_, Ends.map _ (compactSamples_ends samples window floorEpoch axis)⟩
  obtain ⟨r, hr⟩ := hdetermined
  rw [Ends.fresh hr]
  exact hr

theorem answers_eq (samples : List (Sample I R)) : ∀ (asks : List (Ask V)) (windows : Windows I R V),
    Inv env num (prepare env samples) windows → answers env num (prepare env samples) windows asks =
      asks.map fun ask => fresh (answer env num (prepare env samples) ask)
  | [], _, _ => rfl
  | ask :: asks, windows, hinv => by
    obtain ⟨hanswer, hinv'⟩ := answer_ends samples ask windows hinv
    rw [answers, List.map_cons, hanswer, answers_eq samples asks _ hinv']

/-- **The prepared view answers like the plain scan.** A proof is the latest of the window's
samples that meet its conditions, in their order; the support of a segment is the latest of the
window captured at or after the floor; and one view answers every call of a sequence as a view
made for that call. -/
theorem prepared_exact (env : Env) (num : Numbers R V) (samples : List (Sample I R)) :
    (∀ sigma afterUtc reset, fresh (provenStale env num (prepare env samples) sigma afterUtc reset) =
      scanStale env num samples sigma afterUtc reset) ∧
    (∀ boundUtc axis window percent reset,
      fresh (provenStaleLow env num (prepare env samples) boundUtc axis window percent reset) =
        scanStaleLow env num samples boundUtc axis window percent reset) ∧
    (∀ members acc completedAt indexIdentity,
      fresh (earnReceipts env num (prepare env samples) members acc completedAt indexIdentity) =
        scanReceipts env num samples members acc completedAt indexIdentity) ∧
    ∀ asks, answers env num (prepare env samples) Dict.empty asks =
      asks.map fun ask => fresh (answer env num (prepare env samples) ask) :=
  ⟨fresh_provenStale samples, fresh_provenStaleLow samples, fresh_earnReceipts samples,
    fun asks => answers_eq samples asks _ inv_empty⟩

end

end Cctally.StaleProof
