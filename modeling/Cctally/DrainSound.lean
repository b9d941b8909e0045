import Cctally.Drain

/-!
# The startup drain releases only when it should

A digest that repeats is the digest of the pass before, with nothing but quiet
accounting ticks between. An obligation leaves the drain only where the facts of
a counted pass show its anchored keys published.
-/

namespace Cctally.Drain

open StartupDrain

section
variable {ν : Type} [DecidableEq ν]

def Call.isAccounting : Call ν → Bool
  | .accounting .. => true
  | .pass _ => false

def Silent (calls : List (Call ν)) : Prop :=
  ∀ before c rest, calls = before ++ c :: rest → ((after before).step c).2 = none

def Quiet (start between : List (Call ν)) : Prop :=
  ∀ l endedNs censusComplete residuals rest, between = l ++ .accounting endedNs censusComplete residuals :: rest →
    (∀ c ∈ start ++ l, c.isAccounting = false) ∨
      (censusComplete = true ∧
        (after (start ++ l ++ [.accounting endedNs censusComplete residuals])).accounting = (after (start ++ l)).accounting)

def Follows (calls : List (Call ν)) (digest : Digest ν) : Prop :=
  ∃ before info between, calls = before ++ .pass info :: between ∧ (∀ c ∈ between, c.isAccounting = true) ∧
    info.counted = true ∧ info.censusComplete = true ∧ (after (before ++ [.pass info])).digest = digest ∧
    ((after calls).chainBroken = false → Quiet (before ++ [.pass info]) between)

theorem after_snoc (calls : List (Call ν)) (c : Call ν) : after (calls ++ [c]) = ((after calls).step c).1 := by
  rw [after, List.foldl_append]
  rfl

theorem Silent.init {calls : List (Call ν)} {c : Call ν} (h : Silent (calls ++ [c])) : Silent calls := by
  rintro before c' rest rfl
  exact h before c' (rest ++ [c]) (by simp)

theorem Silent.last {calls : List (Call ν)} {c : Call ν} (h : Silent (calls ++ [c])) :
    ((after calls).step c).2 = none := h calls c [] rfl

/-! ## What a pass does -/

section
omit [DecidableEq ν]
variable (s : StartupDrain ν) (info : PassInfo ν)

theorem worked_eq : (s.worked info).chainBroken = s.chainBroken ∧ (s.worked info).previousDigest = s.previousDigest ∧
    (s.worked info).accounting = s.accounting ∧ (s.worked info).accountingSeen = s.accountingSeen := by
  have habsorb : (s.absorb info).chainBroken = s.chainBroken ∧ (s.absorb info).previousDigest = s.previousDigest ∧
      (s.absorb info).accounting = s.accounting ∧ (s.absorb info).accountingSeen = s.accountingSeen := by
    unfold absorb
    split
    · exact ⟨rfl, rfl, rfl, rfl⟩
    · exact ⟨rfl, rfl, rfl, rfl⟩
  unfold worked
  dsimp only
  split
  · exact habsorb
  · exact habsorb

theorem judged_previousDigest :
    (s.judged info).previousDigest = if s.chainBroken then none else s.previousDigest := by
  rw [judged, (worked_eq s info).1, (worked_eq s info).2.1]

end

section
variable {s : StartupDrain ν} {info : PassInfo ν}

theorem observe_judged : ∃ previous, (s.observe info).1 = { s.judged info with previousDigest := previous } := by
  unfold observe
  dsimp only
  split
  · exact ⟨_, rfl⟩
  · split
    · exact ⟨_, rfl⟩
    · split
      · exact ⟨_, rfl⟩
      · exact ⟨_, rfl⟩

theorem observe_settled (h : (s.observe info).2 = some .settled) :
    info.counted = true ∧ info.censusComplete = true ∧ s.chainBroken = false ∧ (s.observe info).1.digest ≠ ⟨[], []⟩ ∧
      s.previousDigest = some (s.observe info).1.digest := by
  obtain ⟨previous, hjudged⟩ := @observe_judged _ _ s info
  rw [hjudged]
  unfold observe at h
  dsimp only at h
  split at h
  · cases h
  · rename_i hcounted
    split at h
    · cases h
    · split at h
      · rename_i hdigest
        have hprevious := hdigest.2
        rw [judged_previousDigest] at hprevious
        cases hbroken : s.chainBroken with
        | true => simp [hbroken] at hprevious
        | false =>
          rw [hbroken, if_neg Bool.false_ne_true] at hprevious
          simp only [Bool.or_eq_true, Bool.not_eq_true', not_or, Bool.not_eq_false] at hcounted
          exact ⟨hcounted.1, hcounted.2, rfl, hdigest.1, hprevious.symm⟩
      · cases h

theorem observe_drained (h : (s.observe info).2 = some .drained) :
    info.counted = true ∧ info.censusComplete = true ∧ info.certifiable = true ∧ (s.observe info).1.obligations = [] ∧
      ∀ provider residual, (s.observe info).1.accounting.get? provider = some residual → residual = [] := by
  obtain ⟨previous, hjudged⟩ := @observe_judged _ _ s info
  rw [hjudged]
  unfold observe at h
  dsimp only at h
  split at h
  · cases h
  · rename_i hcounted
    split at h
    · rename_i hleft
      simp only [Bool.and_eq_true, List.isEmpty_iff, List.all_eq_true] at hleft
      simp only [Bool.or_eq_true, Bool.not_eq_true', not_or, Bool.not_eq_false] at hcounted
      obtain ⟨⟨hcert, hobligations⟩, haccounting⟩ := hleft
      exact ⟨hcounted.1, hcounted.2, hcert, hobligations, fun provider residual hget =>
        haccounting residual (Dict.mem_values.2 ⟨provider, hget⟩)⟩
    · split at h <;> cases h

theorem observe_undecided {digest : Digest ν} (h : (s.observe info).2 = none)
    (hprevious : (s.observe info).1.previousDigest = some digest) :
    info.counted = true ∧ info.censusComplete = true ∧ (s.observe info).1.digest = digest := by
  unfold observe at h hprevious ⊢
  dsimp only at h hprevious ⊢
  split
  · rename_i hcounted
    rw [if_pos hcounted] at hprevious
    cases hprevious
  · rename_i hcounted
    rw [if_neg hcounted] at h hprevious
    split
    · rename_i hleft
      rw [if_pos hleft] at h
      cases h
    · rename_i hleft
      rw [if_neg hleft] at h hprevious
      split
      · rename_i hdigest
        rw [if_pos hdigest] at h
        cases h
      · rename_i hdigest
        rw [if_neg hdigest] at hprevious
        simp only [Bool.or_eq_true, Bool.not_eq_true', not_or, Bool.not_eq_false] at hcounted
        exact ⟨hcounted.1, hcounted.2, Option.some.inj hprevious⟩

end

theorem accountingSeen_of_mem (calls : List (Call ν)) (h : (after calls).accountingSeen = false) :
    ∀ c ∈ calls, c.isAccounting = false := by
  induction calls using List.reverseRecOn with
  | nil => nofun
  | append_singleton calls c ih =>
    rw [after_snoc] at h
    intro c' hc'
    cases c with
    | accounting endedNs censusComplete residuals => cases h
    | pass info =>
      obtain ⟨previous, hjudged⟩ := @observe_judged _ _ (after calls) info
      rw [step, hjudged] at h
      have hseen : (after calls).accountingSeen = false := (worked_eq _ info).2.2.2.symm.trans h
      obtain hc' | hc' := List.mem_append.1 hc'
      · exact ih hseen c' hc'
      · rw [List.mem_singleton.1 hc']
        rfl

theorem Quiet.snoc {start between : List (Call ν)} {endedNs : Int} {censusComplete : Bool}
    {residuals : Dict String (Option (Residual ν))} (h : Quiet start between)
    (hbroken : (after (start ++ between ++ [.accounting endedNs censusComplete residuals])).chainBroken = false) :
    Quiet start (between ++ [.accounting endedNs censusComplete residuals]) := by
  intro l e cc r rest heq
  obtain ⟨rest, rfl⟩ | ⟨rfl, hlast⟩ : (∃ rest', rest = rest' ++ [.accounting endedNs censusComplete residuals]) ∨
      rest = [] ∧ Call.accounting e cc r = .accounting endedNs censusComplete residuals := by
    induction rest using List.reverseRecOn with
    | nil => exact .inr ⟨rfl, (List.append_inj' heq rfl).2 |> fun h => by simpa using h.symm⟩
    | append_singleton rest c _ =>
      refine .inl ⟨rest, ?_⟩
      rw [← List.cons_append, ← List.append_assoc] at heq
      have hc : [Call.accounting endedNs censusComplete residuals] = [c] := (List.append_inj' heq rfl).2
      rw [hc]
  · rw [← List.cons_append, ← List.append_assoc] at heq
    exact h l e cc r rest (List.append_inj' heq rfl).1
  · rw [hlast] at heq ⊢
    cases hlast
    obtain rfl : between = l := (List.append_inj' heq rfl).1
    rw [after_snoc] at hbroken ⊢
    simp only [step, observeAccounting, Bool.or_eq_false_iff] at hbroken
    cases hseen : (after (start ++ between)).accountingSeen with
    | false => exact .inl (accountingSeen_of_mem _ hseen)
    | true =>
      simp only [hseen, Bool.true_and, Bool.or_eq_false_iff, Bool.not_eq_false', decide_eq_false_iff_not,
        not_not] at hbroken
      obtain ⟨-, hcomplete, hentries⟩ := hbroken
      refine .inr ⟨hcomplete, ?_⟩
      rw [step, observeAccounting]
      generalize hmerged : residuals.entries.foldl carry (after (start ++ between)).accounting = merged at hentries ⊢
      cases merged
      cases hacc : (after (start ++ between)).accounting
      rw [hacc] at hentries
      cases hentries
      rfl

theorem follows_of_previousDigest (calls : List (Call ν)) {digest : Digest ν} (hsilent : Silent calls)
    (h : (after calls).previousDigest = some digest) : Follows calls digest := by
  induction calls using List.reverseRecOn with
  | nil => cases h
  | append_singleton calls c ih =>
    rw [after_snoc] at h
    cases c with
    | accounting endedNs censusComplete residuals =>
      obtain ⟨before, info, between, rfl, hbetween, hcounted, hcomplete, hdigest, hquiet⟩ := ih hsilent.init h
      refine ⟨before, info, between ++ [.accounting endedNs censusComplete residuals], by simp, ?_, hcounted, hcomplete,
        hdigest, fun hbroken => ?_⟩
      · intro c hc
        obtain hc | hc := List.mem_append.1 hc
        · exact hbetween c hc
        · rw [List.mem_singleton.1 hc]
          rfl
      · have hbefore : (after (before ++ .pass info :: between)).chainBroken = false := by
          rw [after_snoc] at hbroken
          simp only [step, observeAccounting, Bool.or_eq_false_iff] at hbroken
          exact hbroken.1
        refine (hquiet hbefore).snoc ?_
        rw [List.append_assoc before, List.singleton_append]
        exact hbroken
    | pass info =>
      obtain ⟨hcounted, hcomplete, hdigest⟩ := observe_undecided hsilent.last h
      refine ⟨calls, info, [], rfl, nofun, hcounted, hcomplete, ?_, fun _ => ?_⟩
      · rw [after_snoc]
        exact hdigest
      · intro l _ _ _ rest heq
        simp at heq

/-! ## Obligations and anchors -/

def Reports (info : PassInfo ν) (path : String) : Prop :=
  ∃ deferrals deferral, info.deferrals = some deferrals ∧ deferrals.get? path = some deferral ∧
    deferral.covered = true ∧ deferral.keys ≠ []

def Resolved (calls : List (Call ν)) (path : String) (anchor : Anchor) : Prop :=
  ∃ before info rest identity keys raw, calls = before ++ .pass info :: rest ∧ info.counted = true ∧
    (after (before ++ [.pass info])).tracked.get? path = some (identity, keys) ∧ info.facts.get? path = some raw ∧
    resolveAnchor keys raw = some anchor ∧ ∀ key ∈ keys, key ∈ anchor.required.map Prod.fst

def ShownPublished (start calls : List (Call ν)) (path : String) : Prop :=
  ∃ mid info rest raw anchor, calls = mid ++ .pass info :: rest ∧ info.counted = true ∧
    info.facts.get? path = some raw ∧ Resolved (start ++ mid ++ [.pass info]) path anchor ∧ anchor.required ≠ [] ∧
    ∀ p ∈ anchor.required, ∃ facts published, raw.keys.get? p.1 = some facts ∧ facts.published = some published ∧
      p.2 ≤ published

theorem Resolved.snoc {calls : List (Call ν)} {path : String} {anchor : Anchor} (h : Resolved calls path anchor)
    (c : Call ν) : Resolved (calls ++ [c]) path anchor := by
  obtain ⟨before, info, rest, identity, keys, raw, rfl, h⟩ := h
  exact ⟨before, info, rest ++ [c], identity, keys, raw, by simp, h⟩

theorem ShownPublished.snoc {start calls : List (Call ν)} {path : String} (h : ShownPublished start calls path)
    (c : Call ν) : ShownPublished start (calls ++ [c]) path := by
  obtain ⟨mid, info, rest, raw, anchor, rfl, h⟩ := h
  exact ⟨mid, info, rest ++ [c], raw, anchor, by simp, h⟩

omit [DecidableEq ν] in
theorem discharged_iff {anchor : Option Anchor} {raw : Option RawFacts} (h : discharged anchor raw = true) :
    ∃ a r, anchor = some a ∧ raw = some r ∧ a.required ≠ [] ∧
      ∀ p ∈ a.required, ∃ facts published, r.keys.get? p.1 = some facts ∧ facts.published = some published ∧
        p.2 ≤ published := by
  cases anchor with
  | none => cases h
  | some a =>
    cases raw with
    | none => cases h
    | some r =>
      simp only [discharged, Bool.and_eq_true, Bool.not_eq_true', List.isEmpty_eq_false_iff, List.all_eq_true] at h
      refine ⟨a, r, rfl, rfl, h.1, fun p hp => ?_⟩
      have hpublished := h.2 p hp
      unfold publishedAt at hpublished
      split at hpublished
      · cases hpublished
      · rename_i published hbind
        obtain ⟨facts, hfacts, hpub⟩ := Option.bind_eq_some_iff.1 hbind
        exact ⟨facts, published, hfacts, hpub, of_decide_eq_true hpublished⟩

theorem mapM_bindRequired {facts : Dict String KeyFacts} : ∀ {keys : List String} {required : List (String × Int)},
    keys.mapM (bindRequired facts) = some required → required.map Prod.fst = keys
  | [], required, h => by
    rw [List.mapM_nil] at h
    cases h
    rfl
  | key :: keys, required, h => by
    rw [List.mapM_cons] at h
    obtain ⟨p, hp, h⟩ := Option.bind_eq_some_iff.1 h
    obtain ⟨ps, hps, h⟩ := Option.bind_eq_some_iff.1 h
    cases h
    obtain ⟨found, -, hp⟩ := Option.bind_eq_some_iff.1 hp
    obtain ⟨revision, -, hp⟩ := Option.bind_eq_some_iff.1 hp
    cases hp
    rw [List.map_cons, mapM_bindRequired hps]

theorem mem_resolveAnchor {keys : List String} {raw : RawFacts} {anchor : Anchor}
    (h : resolveAnchor keys raw = some anchor) {key : String} (hkey : key ∈ keys) : key ∈ anchor.required.map Prod.fst := by
  obtain ⟨target, -, h⟩ := Option.bind_eq_some_iff.1 h
  obtain ⟨lineEnd, -, h⟩ := Option.bind_eq_some_iff.1 h
  split at h
  · cases h
  · obtain ⟨required, hrequired, h⟩ := Option.bind_eq_some_iff.1 h
    cases h
    rw [mapM_bindRequired hrequired, mem_sortedSet]
    exact List.mem_append_left _ hkey

section
omit [DecidableEq ν]
variable {s : StartupDrain ν} {info : PassInfo ν} {path : String}

theorem get?_foldl_anchor {facts : Dict String RawFacts} {a : Anchor} :
    ∀ (entries : List (String × Option String × List String)) (anchors : Dict String Anchor),
      (entries.foldl (anchor facts) anchors).get? path = some a →
        anchors.get? path = some a ∨ ∃ identity keys raw, (path, identity, keys) ∈ entries ∧
          facts.get? path = some raw ∧ resolveAnchor keys raw = some a
  | [], anchors, h => .inl h
  | (path', identity, keys) :: entries, anchors, h => by
    obtain hstep | ⟨identity', keys', raw, hmem, hresolved⟩ := get?_foldl_anchor entries _ h
    · unfold anchor at hstep
      dsimp only at hstep
      split at hstep
      · rename_i a' _ hresolved
        by_cases hpath : path' = path
        · subst hpath
          rw [Dict.get?_set_self, Option.some.injEq] at hstep
          subst hstep
          obtain ⟨raw, hraw, hresolved⟩ := Option.bind_eq_some_iff.1 hresolved
          exact .inr ⟨identity, keys, raw, List.mem_cons_self .., hraw, hresolved⟩
        · rw [Dict.get?_set_ne _ _ hpath] at hstep
          exact .inl hstep
      · exact .inl hstep
    · exact .inr ⟨identity', keys', raw, List.mem_cons_of_mem _ hmem, hresolved⟩

theorem absorb_anchors {a : Anchor} (h : (s.absorb info).anchors.get? path = some a) : s.anchors.get? path = some a := by
  unfold absorb at h
  split at h
  · exact h
  · exact (Dict.get?_filter_eq_some.1 h).1

theorem worked_tracked : (s.worked info).tracked = (s.absorb info).tracked := by
  unfold worked
  dsimp only
  split <;> rfl

theorem worked_anchors {a : Anchor} (h : (s.worked info).anchors.get? path = some a) :
    s.anchors.get? path = some a ∨ (info.counted = true ∧ ∃ identity keys raw,
      (s.worked info).tracked.get? path = some (identity, keys) ∧ info.facts.get? path = some raw ∧
        resolveAnchor keys raw = some a) := by
  rw [worked_tracked]
  unfold worked at h
  dsimp only at h
  split at h
  · rename_i hcounted
    obtain h | ⟨identity, keys, raw, hmem, h⟩ := get?_foldl_anchor _ _ h
    · exact .inl (absorb_anchors h)
    · exact .inr ⟨hcounted, identity, keys, raw, Dict.get?_eq_some.2 hmem, h⟩
  · exact .inl (absorb_anchors h)

theorem mem_foldl_owe : ∀ {entries : List (String × Deferral)} {obligations : List String},
    path ∈ entries.foldl owe obligations ↔
      path ∈ obligations ∨ ∃ d, (path, d) ∈ entries ∧ d.covered = true ∧ d.keys ≠ []
  | [], obligations => by simp
  | (path', d) :: entries, obligations => by
    rw [List.foldl_cons, mem_foldl_owe, owe]
    by_cases hd : d.covered = true ∧ d.keys ≠ []
    · rw [if_pos (by simpa using hd), List.mem_insert_iff]
      constructor
      · rintro ((rfl | h) | ⟨e, he, h⟩)
        · exact .inr ⟨d, List.mem_cons_self .., hd⟩
        · exact .inl h
        · exact .inr ⟨e, List.mem_cons_of_mem _ he, h⟩
      · rintro (h | ⟨e, he, h⟩)
        · exact .inl (.inr h)
        · obtain he | he := List.mem_cons.1 he
          · exact .inl (.inl (congrArg Prod.fst he))
          · exact .inr ⟨e, he, h⟩
    · rw [if_neg (by simpa using hd)]
      refine or_congr_right ⟨fun ⟨e, he, h⟩ => ⟨e, List.mem_cons_of_mem _ he, h⟩, ?_⟩
      rintro ⟨e, he, h⟩
      obtain he | he := List.mem_cons.1 he
      · cases he
        exact absurd h hd
      · exact ⟨e, he, h⟩

theorem absorb_obligations (h : path ∈ s.obligations ∨ Reports info path) : path ∈ (s.absorb info).obligations := by
  unfold absorb
  split
  · rename_i hnone
    obtain h | ⟨deferrals, d, hsome, -⟩ := h
    · exact h
    · rw [hnone] at hsome
      cases hsome
  · rename_i deferrals hdeferrals
    refine mem_foldl_owe.2 (h.imp_right ?_)
    rintro ⟨deferrals', d, hsome, hget, hd⟩
    rw [hdeferrals, Option.some.injEq] at hsome
    exact ⟨d, hsome ▸ Dict.get?_eq_some.1 hget, hd⟩

theorem worked_obligations (h : path ∈ (s.absorb info).obligations) :
    path ∈ (s.worked info).obligations ∨
      (info.counted = true ∧ discharged ((s.worked info).anchors.get? path) (info.facts.get? path) = true) := by
  unfold worked
  dsimp only
  split
  · rename_i hcounted
    rw [discharge]
    dsimp only
    by_cases hd : discharged ((List.foldl (anchor info.facts) (s.absorb info).anchors
        (s.absorb info).tracked.entries).get? path) (info.facts.get? path) = true
    · exact .inr ⟨hcounted, hd⟩
    · exact .inl (List.mem_filter.2 ⟨h, by simp [hd]⟩)
  · exact .inl h

theorem obligations_of_worked (h : path ∈ (s.worked info).obligations) : path ∈ (s.absorb info).obligations := by
  unfold worked at h
  dsimp only at h
  split at h
  · exact (List.mem_filter.1 h).1
  · exact h

theorem mem_keys_foldl_track : ∀ {entries : List (String × Deferral)}
    {tracked : Dict String (Option String × List String)},
    path ∈ (entries.foldl track tracked).keys ↔ path ∈ entries.map Prod.fst ∨ path ∈ tracked.keys
  | [], tracked => by simp
  | (path', d) :: entries, tracked => by
    rw [List.foldl_cons, mem_keys_foldl_track, track, Dict.mem_keys_set, List.map_cons, List.mem_cons, or_left_comm, or_assoc]

theorem worked_tracks (hs : ∀ path ∈ s.obligations, path ∈ s.tracked.keys) (h : path ∈ (s.worked info).obligations) :
    path ∈ (s.worked info).tracked.keys := by
  have hobligation := obligations_of_worked h
  rw [worked_tracked]
  unfold absorb at hobligation ⊢
  split at hobligation
  · exact hs path hobligation
  · rename_i deferrals _
    have hkey : path ∈ (deferrals.entries.foldl track s.tracked).keys := by
      refine mem_keys_foldl_track.2 ?_
      obtain h | ⟨d, hd, -⟩ := mem_foldl_owe.1 hobligation
      · exact .inr (hs path h)
      · exact .inl (List.mem_map_of_mem hd)
    obtain ⟨e, he⟩ := Dict.mem_keys.1 hkey
    refine Dict.mem_keys.2 ⟨e, Dict.get?_filter_eq_some.2 ⟨he, ?_⟩⟩
    exact decide_eq_true fun hdropped => hdropped.2.2 hobligation

theorem residual_facts (facts : Dict String RawFacts) (h : path ∈ s.obligations) :
    (path, s.clipped facts path) ∈ (s.residual facts).facts := by
  rw [StartupDrain.residual, residualDigest, List.mem_insertionSort]
  have hnodup : (((sortedSet (s.deferrals.keys ++ s.obligations)).map fun path => (path, s.clipped facts path)).map
      Prod.fst).Nodup := by
    rw [List.map_map]
    exact (List.map_id _).symm ▸ nodup_sortedSet _
  rw [(Dict.perm_ofList hnodup).mem_iff]
  exact List.mem_map.2 ⟨path, mem_sortedSet.2 (List.mem_append_right _ h), rfl⟩

end

/-! ## Whole runs -/

theorem observe_eq (s : StartupDrain ν) (info : PassInfo ν) :
    (s.observe info).1.tracked = (s.worked info).tracked ∧ (s.observe info).1.anchors = (s.worked info).anchors ∧
      (s.observe info).1.obligations = (s.worked info).obligations ∧
      (s.observe info).1.accounting = (s.worked info).accounting ∧
      (s.observe info).1.digest = (s.worked info).residual info.facts := by
  obtain ⟨previous, hjudged⟩ := @observe_judged _ _ s info
  rw [hjudged]
  exact ⟨rfl, rfl, rfl, rfl, rfl⟩

theorem after_pass (calls : List (Call ν)) (info : PassInfo ν) :
    after (calls ++ [.pass info]) = ((after calls).observe info).1 := after_snoc calls _

theorem anchors_resolved (calls : List (Call ν)) {path : String} {a : Anchor}
    (h : (after calls).anchors.get? path = some a) : Resolved calls path a := by
  induction calls using List.reverseRecOn with
  | nil => cases h
  | append_singleton calls c ih =>
    cases c with
    | accounting endedNs censusComplete residuals =>
      rw [after_snoc] at h
      exact (ih h).snoc _
    | pass info =>
      rw [after_pass, (observe_eq _ info).2.1] at h
      obtain h | ⟨hcounted, identity, keys, raw, htracked, hraw, hresolved⟩ := worked_anchors h
      · exact (ih h).snoc _
      · refine ⟨calls, info, [], identity, keys, raw, rfl, hcounted, ?_, hraw, hresolved, fun key hkey =>
          mem_resolveAnchor hresolved hkey⟩
        rw [after_pass, (observe_eq _ info).1]
        exact htracked

theorem obligations_tracked (calls : List (Call ν)) : ∀ path ∈ (after calls).obligations, path ∈ (after calls).tracked.keys := by
  induction calls using List.reverseRecOn with
  | nil => nofun
  | append_singleton calls c ih =>
    cases c with
    | accounting endedNs censusComplete residuals =>
      rw [after_snoc]
      exact ih
    | pass info =>
      intro path h
      rw [after_pass, (observe_eq _ info).2.2.1] at h
      rw [after_pass, (observe_eq _ info).1]
      exact worked_tracks ih h

theorem digest_obligations (calls : List (Call ν)) (info : PassInfo ν) {path : String}
    (h : path ∈ (after (calls ++ [.pass info])).obligations) :
    (path, (after (calls ++ [.pass info])).clipped info.facts path) ∈ (after (calls ++ [.pass info])).digest.facts := by
  obtain ⟨htracked, hanchors, hobligations, -, hdigest⟩ := observe_eq (after calls) info
  rw [after_pass] at h ⊢
  rw [hobligations] at h
  rw [hdigest, clipped, htracked, hanchors]
  exact residual_facts info.facts h

theorem shown_of_pass (start calls : List (Call ν)) (info : PassInfo ν) {path : String}
    (h : path ∈ (after (start ++ calls)).obligations ∨ Reports info path) :
    path ∈ (after (start ++ calls ++ [.pass info])).obligations ∨ ShownPublished start (calls ++ [.pass info]) path := by
  obtain hstays | ⟨hcounted, hdischarged⟩ := worked_obligations (absorb_obligations h)
  · left
    rw [after_pass, (observe_eq _ info).2.2.1]
    exact hstays
  · obtain ⟨a, raw, ha, hraw, hne, hpublished⟩ := discharged_iff hdischarged
    refine .inr ⟨calls, info, [], raw, a, rfl, hcounted, hraw, anchors_resolved _ ?_, hne, hpublished⟩
    rw [after_pass, (observe_eq _ info).2.1]
    exact ha

theorem owed_or_shown {path : String} (before : List (Call ν)) {rep : PassInfo ν} (hrep : Reports rep path)
    (rest : List (Call ν)) : path ∈ (after (before ++ .pass rep :: rest)).obligations ∨
      ShownPublished before (.pass rep :: rest) path := by
  induction rest using List.reverseRecOn with
  | nil => simpa using shown_of_pass before [] rep (.inr hrep)
  | append_singleton rest c ih =>
    rw [← List.cons_append, ← List.append_assoc]
    obtain howed | hshown := ih
    · cases c with
      | accounting endedNs censusComplete residuals =>
        left
        rw [after_snoc]
        exact howed
      | pass info => exact shown_of_pass before (.pass rep :: rest) info (.inl howed)
    · exact .inr (hshown.snoc c)

/-- **The drain settles on a digest that repeats over quiet ticks, drains once nothing is owed, and keeps every
obligation in sight.** -/
theorem releases_when_due (calls : List (Call ν)) (info : PassInfo ν) (hsilent : Silent calls) :
    (((after calls).observe info).2 = some .settled →
      info.counted = true ∧ info.censusComplete = true ∧ (after (calls ++ [.pass info])).digest ≠ ⟨[], []⟩ ∧
        ∃ before previous between, calls = before ++ .pass previous :: between ∧
          (∀ c ∈ between, c.isAccounting = true) ∧ previous.counted = true ∧ previous.censusComplete = true ∧
          (after (before ++ [.pass previous])).digest = (after (calls ++ [.pass info])).digest ∧
          Quiet (before ++ [.pass previous]) between) ∧
    (((after calls).observe info).2 = some .drained →
      info.counted = true ∧ info.censusComplete = true ∧ info.certifiable = true ∧
        (∀ provider residual, (after calls).accounting.get? provider = some residual → residual = []) ∧
        ∀ before rep rest path, calls ++ [.pass info] = before ++ .pass rep :: rest → Reports rep path →
          ShownPublished before (.pass rep :: rest) path) ∧
    (∀ path ∈ (after calls).obligations, path ∈ (after calls).tracked.keys) ∧
    ∀ path ∈ (after (calls ++ [.pass info])).obligations,
      (path, (after (calls ++ [.pass info])).clipped info.facts path) ∈ (after (calls ++ [.pass info])).digest.facts := by
  refine ⟨fun hsettled => ?_, fun hdrained => ?_, obligations_tracked calls, fun path => digest_obligations calls info⟩
  · obtain ⟨hcounted, hcomplete, hbroken, hne, hprevious⟩ := observe_settled hsettled
    obtain ⟨before, previous, between, hcalls, hbetween, hcounted', hcomplete', hdigest, hquiet⟩ :=
      follows_of_previousDigest calls hsilent hprevious
    rw [after_pass]
    exact ⟨hcounted, hcomplete, hne, before, previous, between, hcalls, hbetween, hcounted', hcomplete', hdigest,
      hquiet hbroken⟩
  · obtain ⟨hcounted, hcomplete, hcert, hobligations, haccounting⟩ := observe_drained hdrained
    refine ⟨hcounted, hcomplete, hcert, ?_, ?_⟩
    · rw [(observe_eq _ info).2.2.2.1, (worked_eq _ info).2.2.1] at haccounting
      exact haccounting
    · intro before rep rest path hcalls hrep
      obtain howed | hshown := owed_or_shown before hrep rest
      · rw [← hcalls, after_pass, hobligations] at howed
        cases howed
      · exact hshown

def workedFacts : RawFacts :=
  ⟨some ⟨some "g1", some 100, some "g1", some 100, some "ready", none⟩, ["k"], Dict.ofList [("k", ⟨some 3, some 3, some 3, none⟩)]⟩

def workedPass : PassInfo String :=
  ⟨true, true, true, Dict.empty, some (Dict.ofList [("/r/a.jsonl", ⟨some "a", true, ["k"]⟩)]),
    Dict.ofList [("/r/a.jsonl", workedFacts)]⟩

def workedCalls : List (Call String) := [.accounting 1 true (Dict.ofList [("codex", some [])])]

theorem silent_workedCalls : Silent workedCalls := by
  intro before c rest h
  obtain _ | ⟨_, before⟩ := before
  · cases h
    rfl
  · simp [workedCalls] at h

theorem releases_when_due_worked :
    ((after workedCalls).observe workedPass).2 = some .drained ∧
      ShownPublished workedCalls [.pass workedPass] "/r/a.jsonl" := by
  have hdrained : ((after workedCalls).observe workedPass).2 = some .drained := by decide +kernel
  have hreports : Reports workedPass "/r/a.jsonl" := ⟨_, ⟨some "a", true, ["k"]⟩, rfl, rfl, rfl, nofun⟩
  exact ⟨hdrained, ((releases_when_due workedCalls workedPass silent_workedCalls).2.1 hdrained).2.2.2.2
    workedCalls workedPass [] "/r/a.jsonl" rfl hreports⟩

theorem drained_in_the_reporting_pass :
    ¬ ∀ (calls : List (Call String)) (info : PassInfo String), Silent calls →
      ((after calls).observe info).2 = some .drained →
      ∀ before rep rest path, calls ++ [.pass info] = before ++ .pass rep :: rest → Reports rep path →
        ShownPublished (before ++ [.pass rep]) rest path := by
  intro h
  have hdrained : ((after workedCalls).observe workedPass).2 = some .drained := by decide +kernel
  have hreports : Reports workedPass "/r/a.jsonl" := ⟨_, ⟨some "a", true, ["k"]⟩, rfl, rfl, rfl, nofun⟩
  obtain ⟨mid, info, rest, raw, a, heq, -⟩ :=
    h workedCalls workedPass silent_workedCalls hdrained workedCalls workedPass [] "/r/a.jsonl" rfl hreports
  exact absurd heq (by simp)

end

end Cctally.Drain
