import Cctally.LineageAssess

/-!
# Reading on demand

A reader may leave out the rows that the demand of a set of lineages does not
ask for. Such a row neither taints nor unsettles any lineage of the set, so each
is assessed as it would be with every row.
-/

namespace Cctally

inductive Omits {α : Type} (p : α → Prop) : List α → List α → Prop where
  | nil : Omits p [] []
  | keep {l l' : List α} (a : α) (h : Omits p l l') : Omits p (a :: l) (a :: l')
  | drop {l l' : List α} {a : α} (ha : p a) (h : Omits p l l') : Omits p (a :: l) l'

section
variable {α β σ ε : Type} {p : α → Prop} {l l' : List α}

theorem Omits.mapM {f : α → Except ε β} (h : Omits p l l') : ∀ {r : List β}, l.mapM f = .ok r →
    ∃ r', l'.mapM f = .ok r' ∧ Omits (fun b => ∃ a, p a ∧ f a = .ok b) r r' := by
  induction h with
  | nil =>
    intro r hr
    rw [List.mapM_nil, Except.pure_eq_ok] at hr
    subst hr
    exact ⟨[], rfl, .nil⟩
  | keep a h ih =>
    intro r hr
    obtain ⟨b, bs, hb, hbs, rfl⟩ := Except.mapM_cons.1 hr
    obtain ⟨bs', hbs', hom⟩ := ih hbs
    exact ⟨b :: bs', Except.mapM_cons.2 ⟨b, bs', hb, hbs', rfl⟩, .keep b hom⟩
  | drop ha h ih =>
    intro r hr
    obtain ⟨b, bs, hb, hbs, rfl⟩ := Except.mapM_cons.1 hr
    obtain ⟨bs', hbs', hom⟩ := ih hbs
    exact ⟨bs', hbs', .drop ⟨_, ha, hb⟩ hom⟩

theorem Omits.foldl {f : σ → α → σ} (h : Omits p l l') (hp : ∀ a s, p a → f s a = s) (s : σ) :
    l'.foldl f s = l.foldl f s := by
  induction h generalizing s with
  | nil => rfl
  | keep a h ih => exact ih (f s a)
  | drop ha h ih => rw [List.foldl_cons, hp _ s ha, ih]

end

section
variable {C K : Type} [LinearOrder K] (rd : Reader C K)

def OutOfReach (d : RowDemand K) (accountKey : String) (t : Instant) : Prop :=
  d.empty = true ∨ (∃ start, d.start = some start ∧ t < start) ∨ (∃ u, d.untilAt = some u ∧ u < t) ∨
    ∃ scope, d.account = some scope ∧ accountKey ≠ scope

def Omittable (demand : Option (RowDemand K)) (row : CorrectionRow C) : Prop :=
  ∀ d, demand = some d → d.opBefore ≤ rd.coordKey row.opCoord ∨
    ∃ accountKey t, row.accountKey = some accountKey ∧ capturedInstant rd row = .ok (some t) ∧
      OutOfReach d accountKey t

/-! ## What the needs cover -/

structure Needs.HasWindow (needs : Needs K) (w : LineageWindow) : Prop where
  start : ∀ s, w.start = some s → s ∈ needs.starts
  openStart : w.start = none → needs.openStart = true
  untilAt : ∀ u, w.untilAt = some u → u ∈ needs.untils
  openUntil : w.untilAt = none → needs.openUntil = true

structure Needs.Le (needs needs' : Needs K) : Prop where
  latest : ∀ k, needs.latest = some k → ∃ k', needs'.latest = some k' ∧ k ≤ k'
  scopes : ∀ s ∈ needs.scopes, s ∈ needs'.scopes
  windows : ∀ w, needs.HasWindow w → needs'.HasWindow w

def Covers (batches : List (BatchFact C)) (lineage : Json.Fields) (needs : Needs K) : Prop :=
  ∃ basis, basisOf rd lineage = .ok basis ∧ ∀ k ∈ outsideCommits rd batches basis,
    (∃ latest, needs.latest = some latest ∧ k ≤ latest) ∧ scopeOf rd lineage ∈ needs.scopes ∧
      ∃ windows, parsedWindows rd (Json.field lineage "dependencyWindows") = .ok windows ∧
        ∀ w ∈ windows, needs.HasWindow w

theorem Needs.Le.refl (needs : Needs K) : needs.Le needs := ⟨fun k h => ⟨k, h, le_refl k⟩, fun _ => id, fun _ => id⟩

theorem Needs.Le.trans {a b c : Needs K} (h : a.Le b) (h' : b.Le c) : a.Le c := by
  refine ⟨?_, fun s hs => h'.scopes s (h.scopes s hs), fun w hw => h'.windows w (h.windows w hw)⟩
  intro k hk
  obtain ⟨m, hm, hkm⟩ := h.latest k hk
  obtain ⟨n, hn, hmn⟩ := h'.latest m hm
  exact ⟨n, hn, le_trans hkm hmn⟩

variable {rd}

theorem Covers.mono {batches : List (BatchFact C)} {lineage : Json.Fields} {needs needs' : Needs K}
    (h : Covers rd batches lineage needs) (hle : needs.Le needs') : Covers rd batches lineage needs' := by
  obtain ⟨basis, hb, hcover⟩ := h
  refine ⟨basis, hb, ?_⟩
  intro k hk
  obtain ⟨⟨latest, hlatest, hkl⟩, hscope, windows, hw, hin⟩ := hcover k hk
  obtain ⟨latest', hlatest', hll⟩ := hle.latest latest hlatest
  exact ⟨⟨latest', hlatest', le_trans hkl hll⟩, hle.scopes _ hscope, windows, hw, fun w hmem => hle.windows w (hin w hmem)⟩

omit [LinearOrder K] in
theorem addWindow_fields (needs : Needs K) (w : LineageWindow) :
    (needs.addWindow w).starts = needs.starts ++ w.start.toList ∧
      (needs.addWindow w).openStart = (needs.openStart || w.start.isNone) ∧
      (needs.addWindow w).untils = needs.untils ++ w.untilAt.toList ∧
      (needs.addWindow w).openUntil = (needs.openUntil || w.untilAt.isNone) ∧
      (needs.addWindow w).latest = needs.latest ∧ (needs.addWindow w).scopes = needs.scopes := by
  unfold Needs.addWindow
  cases w.start <;> cases w.untilAt <;> simp

theorem addWindow_le (needs : Needs K) (w : LineageWindow) : needs.Le (needs.addWindow w) := by
  obtain ⟨hs, hos, hu, hou, hl, hsc⟩ := addWindow_fields needs w
  refine ⟨?_, ?_, ?_⟩
  · intro k hk
    exact ⟨k, hl.trans hk, le_refl k⟩
  · intro s h
    rw [hsc]
    exact h
  · intro v hv
    refine ⟨?_, ?_, ?_, ?_⟩
    · intro s h
      rw [hs, List.mem_append]
      exact .inl (hv.start s h)
    · intro h
      rw [hos, hv.openStart h, Bool.true_or]
    · intro u h
      rw [hu, List.mem_append]
      exact .inl (hv.untilAt u h)
    · intro h
      rw [hou, hv.openUntil h, Bool.true_or]

omit [LinearOrder K] in
theorem addWindow_hasWindow (needs : Needs K) (w : LineageWindow) : (needs.addWindow w).HasWindow w := by
  obtain ⟨hs, hos, hu, hou, -, -⟩ := addWindow_fields needs w
  refine ⟨?_, ?_, ?_, ?_⟩
  · intro s h
    simp [hs, h]
  · intro h
    simp [hos, h]
  · intro u h
    simp [hu, h]
  · intro h
    simp [hou, h]

theorem foldl_addWindow (windows : List LineageWindow) (needs : Needs K) :
    needs.Le (windows.foldl Needs.addWindow needs) ∧
      ∀ w ∈ windows, (windows.foldl Needs.addWindow needs).HasWindow w := by
  induction windows generalizing needs with
  | nil => exact ⟨Needs.Le.refl needs, nofun⟩
  | cons v windows ih =>
    obtain ⟨hle, hhas⟩ := ih (needs.addWindow v)
    refine ⟨(addWindow_le needs v).trans hle, ?_⟩
    intro w hw
    obtain rfl | hw := List.mem_cons.1 hw
    · exact hle.windows w (addWindow_hasWindow needs w)
    · exact hhas w hw

theorem needsOf_spec {batches : List (BatchFact C)} {needs needs' : Needs K} {lineage : Json.Fields}
    (h : needsOf rd batches needs lineage = .ok needs') :
    needs.Le needs' ∧ Covers rd batches lineage needs' := by
  obtain ⟨basis, hb, h⟩ := Except.bind_eq_ok.1 h
  cases hmax : (outsideCommits rd batches basis).max? with
  | none =>
    rw [hmax] at h
    rw [Except.pure_eq_ok] at h
    subst h
    rw [List.max?_eq_none_iff] at hmax
    refine ⟨Needs.Le.refl _, basis, hb, ?_⟩
    intro k hk
    rw [hmax] at hk
    cases hk
  | some newest =>
    rw [hmax] at h
    obtain ⟨windows, hw, h⟩ := Except.bind_eq_ok.1 h
    rw [Except.pure_eq_ok] at h
    subst h
    obtain ⟨hle, hhas⟩ := foldl_addWindow windows
      { needs with
        latest := some (needs.latest.elim newest fun latest => if latest < newest then newest else latest)
        scopes := needs.scopes.insert (scopeOf rd lineage) }
    have hstart : needs.Le
        { needs with
          latest := some (needs.latest.elim newest fun latest => if latest < newest then newest else latest)
          scopes := needs.scopes.insert (scopeOf rd lineage) } := by
      refine ⟨?_, fun s hs => List.mem_insert_of_mem hs, fun w hv =>
        ⟨hv.start, hv.openStart, hv.untilAt, hv.openUntil⟩⟩
      intro k hk
      refine ⟨_, rfl, ?_⟩
      rw [hk, Option.elim_some]
      by_cases hlt : k < newest
      · rw [if_pos hlt]
        exact le_of_lt hlt
      · rw [if_neg hlt]
    refine ⟨hstart.trans hle, basis, hb, ?_⟩
    · intro k hk
      refine ⟨?_, hle.scopes _ List.mem_insert_self, windows, hw, hhas⟩
      obtain ⟨latest, hlatest, hnl⟩ := hle.latest _ rfl
      refine ⟨latest, hlatest, le_trans ?_ hnl⟩
      have hkn : k ≤ newest := (List.max?_eq_some_iff.1 hmax).2 k hk
      cases needs.latest with
      | none => exact hkn
      | some old =>
        rw [Option.elim_some]
        by_cases hlt : old < newest
        · rw [if_pos hlt]
          exact hkn
        · rw [if_neg hlt]
          exact le_trans hkn (not_lt.1 hlt)

theorem foldlM_needsOf {batches : List (BatchFact C)} : ∀ {lineages : List Json.Fields} {needs needs' : Needs K},
    lineages.foldlM (needsOf rd batches) needs = .ok needs' →
      needs.Le needs' ∧ ∀ lineage ∈ lineages, Covers rd batches lineage needs'
  | [], needs, needs', h => by
    rw [List.foldlM_nil, Except.pure_eq_ok] at h
    subst h
    exact ⟨Needs.Le.refl _, nofun⟩
  | lineage :: lineages, needs, needs', h => by
    obtain ⟨mid, hmid, h⟩ := Except.foldlM_cons.1 h
    obtain ⟨hle, hcover⟩ := needsOf_spec hmid
    obtain ⟨hle', hcovers⟩ := foldlM_needsOf h
    refine ⟨hle.trans hle', ?_⟩
    intro l hl
    obtain rfl | hl := List.mem_cons.1 hl
    · exact hcover.mono hle'
    · exact hcovers l hl

/-! ## A row left out moves nothing -/

omit [LinearOrder K] in
theorem not_outOfReach {needs : Needs K} {d : RowDemand K} {w : LineageWindow} {accountKey scope : String}
    {t : Instant} (hd : needs.demand = some d) (hw : needs.HasWindow w) (hin : inWindow t w = true)
    (hscope : scope ∈ needs.scopes) (ha : scope = "*" ∨ accountKey = scope) : ¬ OutOfReach d accountKey t := by
  obtain ⟨latest, -, hd⟩ := Option.map_eq_some_iff.1 hd
  subst hd
  obtain ⟨hfrom, hto⟩ := inWindow_iff.1 hin
  intro hout
  obtain hempty | ⟨start, hstart, hlt⟩ | ⟨u, hu, hlt⟩ | ⟨only, honly, hne⟩ := hout
  · cases hs : w.start with
    | none => simp [hw.openStart hs] at hempty
    | some s =>
      have hmem := hw.start s hs
      simp only [Bool.not_eq_true', Bool.or_eq_false_iff, decide_eq_false_iff_not, not_not] at hempty
      rw [hempty.1] at hmem
      cases hmem
  · simp only at hstart
    split at hstart
    · cases hstart
    · rename_i hopen
      cases hs : w.start with
      | none => simp [hw.openStart hs] at hopen
      | some s =>
        have hle : start ≤ s := (List.min?_eq_some_iff.1 hstart).2 s (hw.start s hs)
        exact absurd hlt (not_lt.2 (le_trans hle (hfrom s hs)))
  · simp only at hu
    split at hu
    · cases hu
    · rename_i hopen
      cases hs : w.untilAt with
      | none => simp [hw.openUntil hs] at hopen
      | some v =>
        have hle : v ≤ u := (List.max?_eq_some_iff.1 hu).2 v (hw.untilAt v hs)
        obtain hv | ⟨hv, -⟩ := hto v hs
        · exact absurd (lt_trans hlt hv) (not_lt.2 hle)
        · exact absurd hlt (not_lt.2 (hv ▸ hle))
  · simp only at honly
    split at honly
    · rename_i one hscopes
      rw [hscopes, List.mem_singleton] at hscope
      by_cases hstar : one = "*"
      · rw [if_pos hstar] at honly
        cases honly
      · rw [if_neg hstar] at honly
        cases honly
        obtain ha | ha := ha
        · exact hstar (hscope.symm.trans ha)
        · exact hne (ha.trans hscope)
    · cases honly

variable {lineage : Json.Fields} {facts : CorrectionFacts C} {needs : Needs K} {row : CorrectionRow C}

theorem Covers.of_followedBy (h : Covers rd facts.batches lineage needs)
    (hf : FollowedBy rd lineage facts row TouchesClaude) :
    (∃ d, needs.demand = some d ∧ ¬ d.opBefore ≤ rd.coordKey row.opCoord) ∧ scopeOf rd lineage ∈ needs.scopes ∧
      ∃ windows, parsedWindows rd (Json.field lineage "dependencyWindows") = .ok windows ∧
        ∀ w ∈ windows, needs.HasWindow w := by
  obtain ⟨basis, hb, hcover⟩ := h
  obtain ⟨b, hmem, hout, hlt, htouch⟩ := hf
  have hcommit : rd.coordKey b.commitCoord ∈ outsideCommits rd facts.batches basis := by
    refine List.mem_map.2 ⟨b, List.mem_filter.2 ⟨hmem, ?_⟩, rfl⟩
    rw [decide_eq_true_eq]
    exact ⟨fun hin => hout ((basisOf_inv hb _).1 hin), touchesClaude_iff.2 htouch⟩
  obtain ⟨⟨latest, hlatest, hle⟩, hrest⟩ := hcover _ hcommit
  refine ⟨?_, hrest⟩
  rw [Needs.demand, hlatest]
  exact ⟨_, rfl, not_le.2 (lt_of_lt_of_le hlt hle)⟩

theorem Omittable.not_tainting (h : Omittable rd needs.demand row) (hc : Covers rd facts.batches lineage needs) :
    ¬ Tainting rd lineage facts row := by
  intro ⟨accountKey, t, ht⟩
  obtain ⟨b, hmem, hout, hlt, htouch⟩ := ht.followed
  obtain ⟨⟨d, hd, hop⟩, hscope, windows, hw, hhas⟩ := hc.of_followedBy ⟨b, hmem, hout, hlt, htouch.touchesClaude⟩
  obtain hle | ⟨accountKey', t', ha, hcap, hreach⟩ := h d hd
  · exact hop hle
  · obtain rfl : accountKey = accountKey' := Option.some.inj (ht.resolved.symm.trans ha)
    obtain rfl : t = t' := Option.some.inj (Except.ok.inj (ht.captured.symm.trans hcap))
    obtain ⟨w, hmem, hin⟩ := List.any_eq_true.1 ((inWindows_iff hw t).2 ht.window)
    exact not_outOfReach hd (hhas w hmem) hin hscope ht.scope hreach

theorem Omittable.not_unsettled (h : Omittable rd needs.demand row) (hc : Covers rd facts.batches lineage needs) :
    ¬ Unsettled rd lineage facts row := by
  intro ⟨hnone, hf⟩
  obtain ⟨⟨d, hd, hop⟩, -⟩ := hc.of_followedBy hf
  obtain hle | ⟨accountKey, t, ha, hcap, -⟩ := h d hd
  · exact hop hle
  · rw [ha, hcap] at hnone
    simp at hnone

theorem assessLineage_omits {facts' : CorrectionFacts C} (hb : facts'.batches = facts.batches)
    (hom : Omits (Omittable rd needs.demand) facts.corrections facts'.corrections)
    (hc : Covers rd facts.batches lineage needs)
    (hr : ∀ row ∈ facts.corrections, ∃ captured, capturedInstant rd row = .ok captured) :
    assessLineage rd lineage facts' = assessLineage rd lineage facts := by
  have hprep : ∀ row ∈ facts.corrections, ∃ r, preparedRow rd row = .ok r := by
    intro row hrow
    obtain ⟨captured, hcap⟩ := hr row hrow
    exact ⟨⟨rd.coordKey row.opCoord, row, captured⟩, by rw [preparedRow, hcap]; rfl⟩
  obtain ⟨rows, hrows⟩ := Except.mapM_returns hprep
  obtain ⟨rows', hrows', homits⟩ := hom.mapM hrows
  unfold assessLineage
  rw [hrows, hrows', hb]
  cases hbasis : basisOf rd lineage with
  | error e => rfl
  | ok basis =>
    simp only [Except.ok_bind]
    by_cases hnil : outsideOf rd facts.batches basis = []
    · rw [if_pos hnil, if_pos hnil]
    · rw [if_neg hnil, if_neg hnil]
      cases hw : parsedWindows rd (Json.field lineage "dependencyWindows") with
      | error e => rfl
      | ok windows =>
        simp only [Except.ok_bind]
        rw [homits.foldl]
        intro r found ⟨row, homit, hrow⟩
        have ht := homit.not_tainting hc
        have hu := homit.not_unsettled hc
        rw [← rowTaints_iff hbasis hw hrow] at ht
        rw [← rowUnsettled_iff hbasis hrow] at hu
        rw [assessRow_eq (sorted_outsideOf facts.batches basis), if_neg ht, if_neg hu]

def accountLineage : Json :=
  .obj [("accountScope", .str "acct"), ("basis", .arr [.str "old"]),
    ("dependencyWindows", .arr [.obj [("from", .str "2026-01-05T00:00:00Z"), ("until", .null),
      ("untilInclusive", .bool true)]])]

/-- The facts of `midnightFacts` with a row of another account and one after every commit. -/
def crowdedFacts : CorrectionFacts Nat :=
  { midnightFacts with
    corrections := [⟨"other", "seen", some "else", some "2026-01-05T00:00:00Z", 1⟩,
      ⟨"late", "first", some "acct", some "2026-01-05T00:00:00Z", 2⟩] ++ midnightFacts.corrections }

def crowdedDemand : RowDemand Nat := ⟨2, some 1767571200000000, none, false, some "acct"⟩

theorem omits_crowdedFacts :
    Omits (Omittable midnightReader (some crowdedDemand)) crowdedFacts.corrections midnightFacts.corrections := by
  refine .drop ?_ (.drop ?_ (.keep _ (.keep _ (.keep _ .nil))))
  · intro d hd
    cases hd
    exact .inr ⟨"else", 1767571200000000, rfl, by decide, .inr (.inr (.inr ⟨"acct", rfl, by decide⟩))⟩
  · intro d hd
    cases hd
    exact .inl (Nat.le_refl 2)

end

end Cctally
