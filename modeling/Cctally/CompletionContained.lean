import Cctally.CompletionOwned
import Cctally.FiveHourSettles

/-!
# Completion never makes history worse

What a component lands violates nothing that its required additions alone would
not. The answers the planner remembers are those a simulation gives, as long as
every retained id has a revision.
-/

namespace Cctally.Completion

open Rederive

section
variable {env : Env} {inp : Inputs}

theorem prepare_spec {p : Prepared} (h : prepare env inp = .ok p) :
    ownership env inp = .ok p.own ∧ p.own.owned.mapM (candidatesOf env inp p.own) = .ok p.blocks ∧
      todaysRecords env inp p.own = .ok p.todays := by
  obtain ⟨own, hown, h⟩ := Except.bind_eq_ok.1 h
  obtain ⟨blocks, hblocks, h⟩ := Except.bind_eq_ok.1 h
  obtain ⟨todays, htodays, h⟩ := Except.bind_eq_ok.1 h
  obtain rfl := Except.ok.inj h
  exact ⟨hown, hblocks, htodays⟩

theorem landed_rewrites {p : Prepared} (h : prepare env inp = .ok p) {b : Candidates} (hb : b ∈ p.blocks)
    {name : CandidateName} {id : String} {r : Record} (hr : (b.of name).get? id = some r) :
    id ∈ handledIds env inp p.own ∧ r.payload ≠ [] ∧
      ∃ s, (inp.withGap.get? id = some s ∨ inp.current.get? id = some s) ∧ Rewrites s r := by
  obtain ⟨hown, hblocks, -⟩ := prepare_spec h
  obtain ⟨out, hs⟩ := ownership_settled hown
  obtain ⟨c, hc, hcandidates⟩ := (Except.mem_of_mapM hblocks b).1 hb
  obtain ⟨records, hrecords, hreturn⟩ := Except.bind_eq_ok.1 hcandidates
  obtain rfl := Except.ok.inj hreturn
  cases hget : (Dict.ofList records).get? name with
  | none =>
    rw [Candidates.of, Dict.sub, hget, Option.getD_none] at hr
    cases hr
  | some landed =>
    rw [Candidates.of, Dict.sub, hget, Option.getD_some] at hr
    obtain ⟨name', -, hname⟩ := (Except.mem_of_mapM hrecords _).1 (Dict.mem_of_get?_ofList hget)
    obtain ⟨records', hcandidate, hpair⟩ := Except.bind_eq_ok.1 hname
    obtain ⟨rfl, rfl⟩ := Prod.mk.inj (Except.ok.inj hpair)
    exact hs.candidate_rewrites hc hcandidate hr

theorem mem_candidateOrder {p : Prepared} (h : prepare env inp = .ok p) {b : Candidates} (hb : b ∈ p.blocks) :
    ∃ rest, candidateOrder b.blockClass = .proposal :: rest ∧ CandidateName.A ∈ rest := by
  obtain ⟨hown, hblocks, -⟩ := prepare_spec h
  obtain ⟨out, hs⟩ := ownership_settled hown
  obtain ⟨c, hc, hcandidates⟩ := (Except.mem_of_mapM hblocks b).1 hb
  obtain ⟨records, -, hreturn⟩ := Except.bind_eq_ok.1 hcandidates
  obtain rfl := Except.ok.inj hreturn
  have hclass := classifyBlock_class (hs.owned c hc) (hs.decides c hc)
  cases hclass' : c.blockClass with
  | frozen => exact ⟨_, rfl, by decide⟩
  | replaced => exact ⟨_, rfl, by decide⟩
  | added => exact ⟨_, rfl, by decide⟩
  | «open» => exact absurd hclass' hclass

def Derived (inp : Inputs) (records : Dict String Record) : Prop :=
  ∀ id r, records.get? id = some r → id ∉ inp.current.keys →
    ∃ d, inp.withGap.get? id = some d ∧ Rewrites d r ∧ (r = d ∨ r.payload ≠ [])

theorem Derived.empty : Derived inp .empty := fun _ _ h => nomatch h

theorem Derived.merge {x y : Dict String Record} (hx : Derived inp x) (hy : Derived inp y) : Derived inp (x.merge y) :=
  fun id r h hid => (Dict.mem_merge h).elim (hy id r · hid) (hx id r · hid)

theorem Derived.filter {x : Dict String Record} (hx : Derived inp x) (p : String → Record → Bool) :
    Derived inp (x.filter p) :=
  fun id r h hid => hx id r (Dict.get?_filter_eq_some.1 h).1 hid

theorem derived_of {p : Prepared} (h : prepare env inp = .ok p) {b : Candidates} (hb : b ∈ p.blocks)
    (name : CandidateName) : Derived inp (b.of name) := by
  intro id r hr hid
  obtain ⟨-, hpayload, s, hs, hrewrites⟩ := landed_rewrites h hb hr
  rcases hs with hs | hs
  · exact ⟨s, hs, hrewrites, .inr hpayload⟩
  · exact absurd (Dict.mem_keys.2 ⟨s, hs⟩) hid

theorem derived_todays {own : Ownership} {todays : Dict String Record} (h : todaysRecords env inp own = .ok todays) :
    Derived inp todays := by
  obtain ⟨records, hrecords, h⟩ := Except.bind_eq_ok.1 h
  obtain rfl := Except.ok.inj h
  intro id r hr hid
  have hmem := List.reduceOption_mem_iff.1 (Dict.mem_of_get?_ofList hr)
  obtain ⟨id', hid', hrecord⟩ := (Except.mem_of_mapM hrecords _).1 hmem
  obtain ⟨record, htoday, hreturn⟩ := Except.bind_eq_ok.1 hrecord
  obtain ⟨r', hr', hpair⟩ := Option.map_eq_some_iff.1 (Except.ok.inj hreturn)
  obtain ⟨rfl, rfl⟩ := Prod.mk.inj hpair
  obtain ⟨rfl, -⟩ := Option.filter_eq_some_iff.1 hr'
  have hacted : id' ∈ inp.acted := by
    have htest := (List.mem_filter.1 (mem_sortedSet.1 hid')).2
    exact of_decide_eq_true (Bool.and_eq_true_iff.1 htest).1
  rw [todaysRecord, if_neg (not_not.2 hacted), Dict.get?_eq_none.2 hid] at htoday
  split at htoday
  · cases htoday
  · rename_i d hd _
    obtain rfl := Option.some.inj (Except.ok.inj htoday)
    exact ⟨d, hd, Rewrites.refl d, .inl rfl⟩
  · rename_i hnone
    cases hnone

theorem derived_landedRecords {p : Prepared} (h : prepare env inp = .ok p) :
    ∀ (choices : List (Candidates × CandidateName)) (out : Dict String Record), Derived inp out →
      (∀ choice ∈ choices, choice.1 ∈ p.blocks) →
      Derived inp (choices.foldl (fun out q => out.merge (q.1.of q.2)) out)
  | [], _, hout, _ => hout
  | choice :: rest, _, hout, hb => derived_landedRecords h rest _
      (hout.merge (derived_of h (hb choice (List.mem_cons_self ..)) choice.2)) fun c hc => hb c (List.mem_cons_of_mem _ hc)

/-! ## Simulation sees semantic events only -/

theorem semanticEvent_inj {r s : Record} (h : semanticEvent r = semanticEvent s) :
    r.at_ = s.at_ ∧ r.id = s.id ∧ r.payload = s.payload := by
  simpa [semanticEvent] using h

theorem eq_of_semanticEvent {d r s : Record} (hr : Rewrites d r) (hs : Rewrites d s) (hr' : r = d ∨ r.payload ≠ [])
    (hs' : s = d ∨ s.payload ≠ []) (h : semanticEvent r = semanticEvent s) : r = s := by
  obtain ⟨-, -, hpayload⟩ := semanticEvent_inj h
  -- writing back the payload a record already has changes nothing
  have hsame : ∀ {x : Record}, x.payload = d.payload → x.payload ≠ [] → d.withPayload x.payload = d := by
    intro x hx hne
    rw [hx] at hne ⊢
    rcases d.reads with hreads | ⟨-, hnil⟩
    · refine Record.ext (Json.setField_of_find d.ordered ?_) rfl
      rw [Json.field] at hreads
      cases hfind : Dict.find "payload" d.fields with
      | none =>
        rw [hfind, Option.getD_none] at hreads
        cases hreads
      | some v =>
        rw [hfind, Option.getD_some] at hreads
        rw [hreads]
    · exact absurd hnil hne
  rcases hr.record with rfl | ⟨p, rfl⟩
  · rcases hs.record with rfl | ⟨q, rfl⟩
    · rfl
    · rcases hs' with hs' | hs'
      · exact hs'.symm
      · exact (hsame (x := r.withPayload q) hpayload.symm hs').symm
  · rcases hs.record with rfl | ⟨q, rfl⟩
    · rcases hr' with hr' | hr'
      · exact hr'
      · exact hsame (x := s.withPayload p) hpayload hr'
    · exact congrArg d.withPayload hpayload

theorem get?_of_eventsKey {x y : Dict String Record} (h : eventsKey x = eventsKey y) {id : String} {r : Record}
    (hr : x.get? id = some r) : ∃ s, y.get? id = some s ∧ semanticEvent r = semanticEvent s := by
  have hmem : Json.arr [.str id, semanticEvent r] ∈
      (sortedSet x.keys).filterMap fun id => (x.get? id).map fun r => Json.arr [.str id, semanticEvent r] :=
    List.mem_filterMap.2 ⟨id, mem_sortedSet.2 (Dict.mem_keys.2 ⟨r, hr⟩), by rw [hr, Option.map_some]⟩
  rw [Json.arr.inj h] at hmem
  obtain ⟨id', -, hentry⟩ := List.mem_filterMap.1 hmem
  obtain ⟨s, hs, hpair⟩ := Option.map_eq_some_iff.1 hentry
  obtain ⟨hid, hevent, -⟩ : id' = id ∧ semanticEvent s = semanticEvent r ∧ True := by simpa using hpair
  exact ⟨s, hid ▸ hs, hevent.symm⟩

theorem events_congr {x y : Dict String Record} (h : eventsKey x = eventsKey y) (id : String) :
    (x.get? id).map semanticEvent = (y.get? id).map semanticEvent := by
  cases hx : x.get? id with
  | none =>
    cases hy : y.get? id with
    | none => rfl
    | some s =>
      obtain ⟨r, hr, -⟩ := get?_of_eventsKey h.symm hy
      rw [hx] at hr
      cases hr
  | some r =>
    obtain ⟨s, hs, hevent⟩ := get?_of_eventsKey h hx
    rw [hs, Option.map_some, Option.map_some, hevent]

theorem keys_congr {x y : Dict String Record} (h : eventsKey x = eventsKey y) : sortedSet x.keys = sortedSet y.keys := by
  refine sortedSet_congr fun id => ?_
  rw [Dict.mem_keys, Dict.mem_keys]
  constructor
  · rintro ⟨r, hr⟩
    obtain ⟨s, hs, -⟩ := get?_of_eventsKey h hr
    exact ⟨s, hs⟩
  · rintro ⟨r, hr⟩
    obtain ⟨s, hs, -⟩ := get?_of_eventsKey h.symm hr
    exact ⟨s, hs⟩

theorem sameEvent_congr (now : Record) {r s : Record} (h : semanticEvent r = semanticEvent s) :
    sameEvent env now r = sameEvent env now s := by
  rw [sameEvent, h, sameEvent]

theorem replaceAction_congr (id : String) (rev : Int) {r s : Record} (h : semanticEvent r = semanticEvent s) :
    replaceAction env id rev r = replaceAction env id rev s := by
  obtain ⟨hat, -, hpayload⟩ := semanticEvent_inj h
  rw [replaceAction, hat, hpayload, replaceAction]

theorem restoration_payload (lineage : FiveHour.Lineage) (id : String) (r : Record) :
    lineage.restoration env.toEnv id r.fields = lineage.restoration env.toEnv id [("payload", .obj r.payload)] := by
  have hread : Json.field [("payload", .obj r.payload)] "payload" = .obj r.payload := rfl
  rcases r.reads with hr | ⟨hfalsy, hnil⟩
  · simp only [FiveHour.Lineage.restoration, hr, hread]
  · have hnull : Json.field r.payload "block_cost_usd" = .null := by rw [hnil]; rfl
    cases hv : Json.field r.fields "payload" with
    | obj payload =>
      rw [hv] at hfalsy
      have hempty : payload = r.payload := by simpa [Json.truthy, hnil] using hfalsy
      simp only [FiveHour.Lineage.restoration, hv, hempty, hread]
    | _ => simp only [FiveHour.Lineage.restoration, hv, hread, hnull]

theorem restoration_congr (lineage : FiveHour.Lineage) (id : String) {r s : Record} (h : r.payload = s.payload) :
    lineage.restoration env.toEnv id r.fields = lineage.restoration env.toEnv id s.fields := by
  rw [restoration_payload, h, ← restoration_payload]

section
variable {x y : Dict String Record} (h : eventsKey x = eventsKey y)
include h

theorem actions_congr :
    ((pending env inp x).filterMap fun p => (inp.physical.get? p.1).map fun rev => replaceAction env p.1 rev p.2) =
      (pending env inp y).filterMap fun p => (inp.physical.get? p.1).map fun rev => replaceAction env p.1 rev p.2 := by
  unfold pending
  rw [List.filterMap_filterMap, List.filterMap_filterMap, keys_congr h]
  refine List.filterMap_congr fun id _ => ?_
  have hid := events_congr h id
  cases hx : x.get? id with
  | none =>
    rw [hx, Option.map_none] at hid
    rw [Option.map_eq_none_iff.1 hid.symm]
  | some r =>
    rw [hx, Option.map_some] at hid
    obtain ⟨s, hs, hevent⟩ := Option.map_eq_some_iff.1 hid.symm
    rw [hs]
    simp only [Option.filter_some, sameEvent_congr _ hevent.symm]
    split
    · simp only [Option.map_some, Option.bind_some, replaceAction_congr id _ hevent.symm]
    · rfl

theorem violationKeys_congr {before after : FiveHour.Lineage} (ids : List String) :
    violationKeys env before after ids x = violationKeys env before after ids y := by
  have hread : ∀ id, after.restoration env.toEnv id (((x.get? id).map Record.fields).getD (selectedMilestoneView after id)) =
      after.restoration env.toEnv id (((y.get? id).map Record.fields).getD (selectedMilestoneView after id)) := by
    intro id
    have hid := events_congr h id
    cases hx : x.get? id with
    | none =>
      rw [hx, Option.map_none] at hid
      rw [Option.map_eq_none_iff.1 hid.symm]
    | some r =>
      rw [hx, Option.map_some] at hid
      obtain ⟨s, hs, hevent⟩ := Option.map_eq_some_iff.1 hid.symm
      rw [hs]
      exact restoration_congr after id (semanticEvent_inj hevent).2.2.symm
  unfold violationKeys
  simp only [hread]

section
variable (hphysical : ∀ id ∈ inp.current.keys, id ∈ inp.physical.keys) (hx : Derived inp x) (hy : Derived inp y)
include hphysical hx hy

theorem plain_congr :
    ((pending env inp x).filter fun p => (inp.physical.get? p.1).isNone).map Prod.snd =
      ((pending env inp y).filter fun p => (inp.physical.get? p.1).isNone).map Prod.snd := by
  unfold pending
  rw [List.filter_filterMap, List.filter_filterMap, List.map_filterMap, List.map_filterMap, keys_congr h]
  refine List.filterMap_congr fun id _ => ?_
  have hid := events_congr h id
  cases hgetx : x.get? id with
  | none =>
    rw [hgetx, Option.map_none] at hid
    rw [Option.map_eq_none_iff.1 hid.symm]
  | some r =>
    rw [hgetx, Option.map_some] at hid
    obtain ⟨s, hs, hevent⟩ := Option.map_eq_some_iff.1 hid.symm
    rw [hs]
    cases hrev : inp.physical.get? id with
    | none =>
      have hcurrent : id ∉ inp.current.keys := fun hid => Dict.get?_eq_none.1 hrev (hphysical id hid)
      obtain ⟨d, hd, hrewrites, hplain⟩ := hx id r hgetx hcurrent
      obtain ⟨d', hd', hrewrites', hplain'⟩ := hy id s hs hcurrent
      obtain rfl := Option.some.inj (hd.symm.trans hd')
      rw [eq_of_semanticEvent hrewrites hrewrites' hplain hplain' hevent.symm]
    | some rev =>
      simp only [Option.filter_some]
      split <;> split <;> simp [Option.filter, hrev]

theorem simulate_congr {c : Component} {records records' : Dict String Record} (hc : x = c.todays.merge records)
    (hc' : y = c.todays.merge records') : simulate env inp c records = simulate env inp c records' := by
  unfold simulate
  simp only [← hc, ← hc', actions_congr h, plain_congr h hphysical hx hy, violationKeys_congr h]

end

end

def Extends (cache cache' : Cache) : Prop := ∀ key answer, cache.get? key = some answer → cache'.get? key = some answer

theorem Extends.refl (cache : Cache) : Extends cache cache := fun _ _ h => h

theorem Extends.trans {a b c : Cache} (h : Extends a b) (h' : Extends b c) : Extends a c :=
  fun key answer hget => h' key answer (h key answer hget)

def Answers (c : Component) (cache : Cache) (records : Dict String Record) (answer : Violations) : Prop :=
  cache.get? (eventsKey (c.todays.merge records)) = some answer

theorem Answers.extends {c : Component} {cache cache' : Cache} {records : Dict String Record} {answer : Violations}
    (h : Answers c cache records answer) (he : Extends cache cache') : Answers c cache' records answer := he _ _ h

structure Sound (env : Env) (inp : Inputs) (c : Component) (cache : Cache) : Prop where
  simulated : ∀ key answer, cache.get? key = some answer → ∃ records, Derived inp (c.todays.merge records) ∧
    eventsKey (c.todays.merge records) = key ∧ simulate env inp c records = .ok answer

theorem Sound.empty (c : Component) : Sound env inp c .empty := ⟨fun _ _ h => nomatch h⟩

theorem Sound.answers {c : Component} {cache : Cache} (hs : Sound env inp c cache)
    (hphysical : ∀ id ∈ inp.current.keys, id ∈ inp.physical.keys) {records : Dict String Record}
    (hr : Derived inp (c.todays.merge records)) {answer : Violations} (h : Answers c cache records answer) :
    simulate env inp c records = .ok answer := by
  obtain ⟨records', hr', hkey, hsimulated⟩ := hs.simulated _ _ h
  rw [simulate_congr hkey.symm hphysical hr hr' rfl rfl]
  exact hsimulated

theorem violations_of_answers {c : Component} {cache : Cache} {records : Dict String Record} {answer : Violations}
    (h : Answers c cache records answer) : violations env inp c cache records = .ok (answer, cache) := by
  unfold violations
  dsimp only
  rw [h]

theorem violations_spec {c : Component} {cache cache' : Cache} (hs : Sound env inp c cache) {records : Dict String Record}
    (hr : Derived inp (c.todays.merge records)) {answer : Violations}
    (h : violations env inp c cache records = .ok (answer, cache')) :
    Sound env inp c cache' ∧ Extends cache cache' ∧ Answers c cache' records answer := by
  unfold violations at h
  dsimp only at h
  split at h
  · rename_i known hknown
    obtain ⟨rfl, rfl⟩ := Prod.mk.inj (Except.ok.inj h)
    exact ⟨hs, Extends.refl cache, hknown⟩
  · rename_i hnone
    obtain ⟨simulated, hsimulated, hreturn⟩ := Except.bind_eq_ok.1 h
    obtain ⟨rfl, rfl⟩ := Prod.mk.inj (Except.ok.inj hreturn)
    refine ⟨⟨fun key answer hget => ?_⟩, fun key answer hget => ?_, Dict.get?_set_self ..⟩
    · rw [Dict.get?_set] at hget
      split at hget
      · rename_i hkey
        obtain rfl := Option.some.inj hget
        exact ⟨records, hr, hkey, hsimulated⟩
      · exact hs.simulated key answer hget
    · have hne : eventsKey (c.todays.merge records) ≠ key := fun heq => by
        rw [heq, hget] at hnone
        cases hnone
      rw [Dict.get?_set_ne _ _ hne, hget]

def FoundBy (c : Component) (block : Candidates) (carried : Dict String Record) (cache : Cache) (found : Found) : Prop :=
  ∀ name answer, found.get? name = some answer → Answers c cache (carried.merge (block.of name)) answer

section
variable {c : Component} {block : Candidates} {carried : Dict String Record}
variable (hd : ∀ name, Derived inp (c.todays.merge (carried.merge (block.of name))))
include hd

theorem simulateAll_spec : ∀ {names : List CandidateName} {cache cache' : Cache} {found found' : Found},
    Sound env inp c cache → FoundBy c block carried cache found →
    simulateAll env inp c block carried names cache found = .ok (found', cache') →
    Sound env inp c cache' ∧ Extends cache cache' ∧ FoundBy c block carried cache' found' ∧
      ∀ name, name ∈ names ∨ name ∈ found.keys → name ∈ found'.keys
  | [], cache, cache', found, found', hs, hf, h => by
    obtain ⟨rfl, rfl⟩ := Prod.mk.inj (Except.ok.inj h)
    exact ⟨hs, Extends.refl cache, hf, fun name hname => hname.resolve_left List.not_mem_nil⟩
  | name :: rest, cache, cache', found, found', hs, hf, h => by
    obtain ⟨⟨answer, next⟩, hanswer, h⟩ := Except.bind_eq_ok.1 h
    obtain ⟨hs', he, ha⟩ := violations_spec hs (hd name) hanswer
    have hf' : FoundBy c block carried next (found.set name answer) := by
      intro other answer' hget
      rw [Dict.get?_set] at hget
      split at hget
      · rename_i heq
        obtain rfl := Option.some.inj hget
        exact heq ▸ ha
      · exact (hf other answer' hget).extends he
    obtain ⟨hs'', he', hf'', hkeys⟩ := simulateAll_spec hs' hf' h
    refine ⟨hs'', he.trans he', hf'', fun other hother => hkeys other ?_⟩
    rw [Dict.mem_keys_set]
    rcases hother with hother | hother
    · exact (List.mem_cons.1 hother).symm.imp_right .inl
    · exact .inr (.inr hother)

theorem choose_spec {rest : List CandidateName} (horder : candidateOrder block.blockClass = .proposal :: rest)
    (hA : .A ∈ rest) {cache cache' : Cache} (hs : Sound env inp c cache) {name : CandidateName} {found : Found}
    (h : choose env inp c block carried cache = .ok ((name, found), cache')) :
    Sound env inp c cache' ∧ Extends cache cache' ∧ ∃ answer,
      Answers c cache' (carried.merge (block.of name)) answer ∧
        (answer = ∅ ∨ ∃ additions, Answers c cache' (carried.merge (block.of .A)) additions ∧ answer ⊆ additions) := by
  unfold choose at h
  obtain ⟨⟨first, next⟩, hfirst, h⟩ := Except.bind_eq_ok.1 h
  obtain ⟨hs', he, ha⟩ := violations_spec hs (hd .proposal) hfirst
  dsimp only at h
  split at h
  · rename_i hempty
    obtain ⟨hpair, rfl⟩ := Prod.mk.inj (Except.ok.inj h)
    obtain ⟨rfl, -⟩ := Prod.mk.inj hpair
    exact ⟨hs', he, first, ha, .inl hempty⟩
  · obtain ⟨⟨found', last⟩, hall, hreturn⟩ := Except.bind_eq_ok.1 h
    obtain ⟨hpair, rfl⟩ := Prod.mk.inj (Except.ok.inj hreturn)
    obtain ⟨hname, rfl⟩ := Prod.mk.inj hpair
    have hf : FoundBy c block carried next (Dict.empty.set .proposal first) := by
      intro other answer hget
      rw [Dict.get?_set] at hget
      split at hget
      · rename_i heq
        obtain rfl := Option.some.inj hget
        exact heq ▸ ha
      · cases hget
    obtain ⟨hs'', he', hf', hkeys⟩ := simulateAll_spec hd hs' hf hall
    have hfound : ∀ n ∈ candidateOrder block.blockClass, n ∈ found'.keys := by
      intro n hn
      rw [horder] at hn
      rcases List.mem_cons.1 hn with rfl | hn
      · exact hkeys _ (.inr (Dict.mem_keys_set.2 (.inl rfl)))
      · exact hkeys _ (.inl (by rw [horder]; exact hn))
    obtain ⟨additions, hadditions⟩ := Dict.mem_keys.1 (hfound .A (by rw [horder]; exact List.mem_cons_of_mem _ hA))
    refine ⟨hs'', he.trans he', ?_⟩
    cases hfind : (candidateOrder block.blockClass).find? (acceptable (candidateOrder block.blockClass) found') with
    | none =>
      rw [hfind, Option.getD_none] at hname
      subst hname
      exact ⟨additions, hf' _ _ hadditions, .inr ⟨additions, hf' _ _ hadditions, Finset.Subset.refl _⟩⟩
    | some chosen =>
      rw [hfind, Option.getD_some] at hname
      subst hname
      obtain ⟨answer, hanswer⟩ := Dict.mem_keys.1 (hfound chosen (List.mem_of_find?_eq_some hfind))
      have htest : acceptable (candidateOrder block.blockClass) found' chosen = true := List.find?_some hfind
      have hacceptable := (Bool.and_eq_true_iff.1 htest).1
      rw [decide_eq_true_eq, Found.of, Found.of, hanswer, hadditions, Option.getD_some, Option.getD_some] at hacceptable
      exact ⟨answer, hf' _ _ hanswer, .inr ⟨additions, hf' _ _ hadditions, hacceptable⟩⟩

end

/-! ## One component -/

structure Prepares (env : Env) (inp : Inputs) (p : Prepared) (c : Component) : Prop where
  prepared : prepare env inp = .ok p
  touched : ∀ b ∈ c.touched, b ∈ p.blocks
  todays : Derived inp c.todays

section
variable {p : Prepared} {c : Component} (hp : Prepares env inp p c)
include hp

theorem Prepares.landed {choices : List (Candidates × CandidateName)} (h : ∀ choice ∈ choices, choice.1 ∈ c.touched) :
    Derived inp (landedRecords choices) :=
  derived_landedRecords hp.prepared choices .empty Derived.empty fun choice hc => hp.touched _ (h choice hc)

theorem Prepares.carried {carried : Dict String Record} (h : Derived inp carried) {b : Candidates} (hb : b ∈ c.touched)
    (name : CandidateName) : Derived inp (c.todays.merge (carried.merge (b.of name))) :=
  hp.todays.merge (h.merge (derived_of hp.prepared (hp.touched b hb) name))

theorem chooseEach_spec : ∀ {blocks : List Candidates} {cache cache' : Cache} {choices : List Choice},
    (∀ b ∈ blocks, b ∈ c.touched) → Sound env inp c cache →
    chooseEach env inp c blocks cache = .ok (choices, cache') →
    Sound env inp c cache' ∧ choices.map Choice.candidates = blocks
  | [], cache, cache', choices, _, hs, h => by
    obtain ⟨rfl, rfl⟩ := Prod.mk.inj (Except.ok.inj h)
    exact ⟨hs, rfl⟩
  | block :: rest, cache, cache', choices, hblocks, hs, h => by
    obtain ⟨⟨⟨name, found⟩, next⟩, hchoose, h⟩ := Except.bind_eq_ok.1 h
    obtain ⟨⟨others, last⟩, heach, hreturn⟩ := Except.bind_eq_ok.1 h
    obtain ⟨rfl, rfl⟩ := Prod.mk.inj (Except.ok.inj hreturn)
    have hb := hblocks block (List.mem_cons_self ..)
    obtain ⟨order, horder, hA⟩ := mem_candidateOrder hp.prepared (hp.touched block hb)
    have hcarried : Derived inp (landedRecords ((c.touched.filter (·.block ≠ block.block)).map fun b => (b, .A))) := by
      refine hp.landed fun choice hchoice => ?_
      obtain ⟨b, hb, rfl⟩ := List.mem_map.1 hchoice
      exact (List.mem_filter.1 hb).1
    obtain ⟨hs', -⟩ := choose_spec (hp.carried hcarried hb) horder hA hs hchoose
    obtain ⟨hs'', hmap⟩ := chooseEach_spec (fun b hb => hblocks b (List.mem_cons_of_mem _ hb)) hs' heach
    exact ⟨hs'', by rw [List.map_cons, hmap]⟩

theorem decideComponent_spec {choices : List Choice} {cache : Cache} (h : decideComponent env inp c = .ok (choices, cache)) :
    Sound env inp c cache ∧ choices.map Choice.candidates = c.touched ∧ ∃ answer,
      Answers c cache (landed choices) answer ∧
        (answer = ∅ ∨ ∃ additions, Answers c cache (alone c) additions ∧ answer ⊆ additions) := by
  have hall : ∀ b ∈ c.touched, b ∈ c.touched := fun _ hb => hb
  unfold decideComponent at h
  split at h
  · rename_i block htouched
    obtain ⟨⟨⟨name, found⟩, next⟩, hchoose, hreturn⟩ := Except.bind_eq_ok.1 h
    obtain ⟨rfl, rfl⟩ := Prod.mk.inj (Except.ok.inj hreturn)
    have hb : block ∈ c.touched := by rw [htouched]; exact List.mem_singleton_self _
    obtain ⟨order, horder, hA⟩ := mem_candidateOrder hp.prepared (hp.touched block hb)
    obtain ⟨hs, -, answer, hanswer, hcontained⟩ :=
      choose_spec (hp.carried Derived.empty hb) horder hA (Sound.empty c) hchoose
    refine ⟨hs, htouched.symm, answer, hanswer, hcontained.imp_right ?_⟩
    rintro ⟨additions, hadditions, hsubset⟩
    refine ⟨additions, ?_, hsubset⟩
    rw [alone, htouched]
    exact hadditions
  · obtain ⟨⟨choices', next⟩, heach, h⟩ := Except.bind_eq_ok.1 h
    obtain ⟨⟨union, second⟩, hunion, h⟩ := Except.bind_eq_ok.1 h
    obtain ⟨⟨additions, last⟩, hadditions, hreturn⟩ := Except.bind_eq_ok.1 h
    obtain ⟨hchoices, rfl⟩ := Prod.mk.inj (Except.ok.inj hreturn)
    obtain ⟨hs, hmap⟩ := chooseEach_spec hp hall (Sound.empty c) heach
    have hmem : ∀ choice ∈ choices', choice.candidates ∈ c.touched := fun choice hc =>
      hmap ▸ List.mem_map.2 ⟨choice, hc, rfl⟩
    have hlanded : Derived inp (c.todays.merge (Completion.landed choices')) := by
      refine hp.todays.merge (hp.landed fun choice hchoice => ?_)
      obtain ⟨choice', hc, rfl⟩ := List.mem_map.1 hchoice
      exact hmem choice' hc
    have halone : Derived inp (c.todays.merge (alone c)) := by
      refine hp.todays.merge (hp.landed fun choice hchoice => ?_)
      obtain ⟨b, hb, rfl⟩ := List.mem_map.1 hchoice
      exact hb
    obtain ⟨hs', he, hansweru⟩ := violations_spec hs hlanded hunion
    obtain ⟨hs'', he', hanswera⟩ := violations_spec hs' halone hadditions
    by_cases hsubset : union ⊆ additions
    · rw [if_pos hsubset] at hchoices
      subst hchoices
      exact ⟨hs'', hmap, union, hansweru.extends he', .inr ⟨additions, hanswera, hsubset⟩⟩
    · -- every block falls back to its additions, which is what `alone` lands
      rw [if_neg hsubset] at hchoices
      subst hchoices
      refine ⟨hs'', by rw [List.map_map, ← hmap]; rfl, additions, ?_, .inr ⟨additions, hanswera, Finset.Subset.refl _⟩⟩
      have hsame : Completion.landed (choices'.map fun choice => { choice with landed := CandidateName.A }) = alone c := by
        rw [Completion.landed, alone, ← hmap, List.map_map, List.map_map]
        rfl
      rw [hsame]
      exact hanswera

end

theorem components_spec {p : Prepared} (h : prepare env inp = .ok p) : ∀ {starts done : List BlockKey}
    {cs : List Component}, components env inp p starts done = .ok cs → ∀ c ∈ cs, Prepares env inp p c
  | [], _, cs, hcs, c, hc => by
    obtain rfl := Except.ok.inj hcs
    cases hc
  | start :: rest, done, cs, hcs, c, hc => by
    rw [components] at hcs
    split at hcs
    · exact components_spec h hcs c hc
    · obtain ⟨first, hfirst, hcs⟩ := Except.bind_eq_ok.1 hcs
      obtain ⟨others, hothers, hreturn⟩ := Except.bind_eq_ok.1 hcs
      obtain rfl := Except.ok.inj hreturn
      rcases List.mem_cons.1 hc with rfl | hc
      · obtain ⟨retired, -, hreturn⟩ := Except.bind_eq_ok.1 hfirst
        obtain rfl := Except.ok.inj hreturn
        exact ⟨h, fun b hb => (List.mem_filter.1 hb).1, (derived_todays (prepare_spec h).2.2).filter _⟩
      · exact components_spec h hothers c hc

/-- A decided component lands nothing worse than its additions alone: by the answers the planner remembers, and by
simulation when every retained id has a revision. -/
structure NoWorse (env : Env) (inp : Inputs) (d : Decided) : Prop where
  answered : ∃ answer, violations env inp d.component d.cache (landed d.choices) = .ok (answer, d.cache) ∧
    ∀ additions cache, violations env inp d.component d.cache (alone d.component) = .ok (additions, cache) →
      answer ⊆ additions
  simulated : (∀ id ∈ inp.current.keys, id ∈ inp.physical.keys) →
    ∃ answer, simulate env inp d.component (landed d.choices) = .ok answer ∧
      ∀ additions, simulate env inp d.component (alone d.component) = .ok additions → answer ⊆ additions

theorem decideAll_spec {p : Prepared} (h : prepare env inp = .ok p) {run : List Decided}
    (hrun : decideAll env inp p = .ok run) {d : Decided} (hd : d ∈ run) :
    Prepares env inp p d.component ∧ decideComponent env inp d.component = .ok (d.choices, d.cache) := by
  obtain ⟨cs, hcs, hrun⟩ := Except.bind_eq_ok.1 hrun
  obtain ⟨c, hc, hdecided⟩ := (Except.mem_of_mapM hrun d).1 hd
  obtain ⟨⟨choices, cache⟩, hdecide, hreturn⟩ := Except.bind_eq_ok.1 hdecided
  obtain rfl := Except.ok.inj hreturn
  exact ⟨components_spec h hcs c hc, hdecide⟩

theorem decided_noWorse {p : Prepared} (h : prepare env inp = .ok p) {run : List Decided}
    (hrun : decideAll env inp p = .ok run) {d : Decided} (hd : d ∈ run) : NoWorse env inp d := by
  obtain ⟨hp, hdecide⟩ := decideAll_spec h hrun hd
  obtain ⟨hs, hmap, answer, hanswer, hcontained⟩ := decideComponent_spec hp hdecide
  have hlanded : Derived inp (d.component.todays.merge (landed d.choices)) := by
    refine hp.todays.merge (hp.landed fun choice hchoice => ?_)
    obtain ⟨choice', hc, rfl⟩ := List.mem_map.1 hchoice
    exact hmap ▸ List.mem_map.2 ⟨choice', hc, rfl⟩
  have halone : Derived inp (d.component.todays.merge (alone d.component)) := by
    refine hp.todays.merge (hp.landed fun choice hchoice => ?_)
    obtain ⟨b, hb, rfl⟩ := List.mem_map.1 hchoice
    exact hb
  refine ⟨⟨answer, violations_of_answers hanswer, fun additions cache hadditions => ?_⟩, fun hphysical =>
    ⟨answer, hs.answers hphysical hlanded hanswer, fun additions hadditions => ?_⟩⟩
  · rcases hcontained with rfl | ⟨known, hknown, hsubset⟩
    · exact Finset.empty_subset _
    · obtain ⟨rfl, -⟩ := Prod.mk.inj (Except.ok.inj ((violations_of_answers hknown).symm.trans hadditions))
      exact hsubset
  · rcases hcontained with rfl | ⟨known, hknown, hsubset⟩
    · exact Finset.empty_subset _
    · obtain rfl := Except.ok.inj ((hs.answers hphysical halone hknown).symm.trans hadditions)
      exact hsubset

/-! ## The plan -/

theorem targetsOf_mem {p : Prepared} (h : prepare env inp = .ok p) {run : List Decided}
    (hrun : decideAll env inp p = .ok run) {id : String} {r : Record} (hr : (targetsOf run).get? id = some r) :
    ∃ b ∈ p.blocks, ∃ name, (b.of name).get? id = some r := by
  have hfold : ∀ (choices : List (Candidates × CandidateName)) (out : Dict String Record),
      (choices.foldl (fun out q => out.merge (q.1.of q.2)) out).get? id = some r →
      out.get? id = some r ∨ ∃ choice ∈ choices, (choice.1.of choice.2).get? id = some r := by
    intro choices
    induction choices with
    | nil => intro out h; exact .inl h
    | cons choice rest ih =>
      intro out h
      rcases ih _ h with h | ⟨c, hc, hget⟩
      · rcases Dict.mem_merge h with h | h
        · exact .inr ⟨choice, List.mem_cons_self .., h⟩
        · exact .inl h
      · exact .inr ⟨c, List.mem_cons_of_mem _ hc, hget⟩
  have hruns : ∀ (run : List Decided) (out : Dict String Record),
      (run.foldl (fun out d => out.merge (landed d.choices)) out).get? id = some r →
      out.get? id = some r ∨ ∃ d ∈ run, (landed d.choices).get? id = some r := by
    intro run
    induction run with
    | nil => intro out h; exact .inl h
    | cons d rest ih =>
      intro out h
      rcases ih _ h with h | ⟨e, he, hget⟩
      · rcases Dict.mem_merge h with h | h
        · exact .inr ⟨d, List.mem_cons_self .., h⟩
        · exact .inl h
      · exact .inr ⟨e, List.mem_cons_of_mem _ he, hget⟩
  obtain ⟨id', -, hpair⟩ := List.mem_filterMap.1 (Dict.mem_of_get?_ofList hr)
  obtain ⟨r', hget, hpair⟩ := Option.map_eq_some_iff.1 hpair
  obtain ⟨rfl, rfl⟩ := Prod.mk.inj hpair
  obtain ⟨d, hd, hget⟩ := (hruns run _ hget).resolve_left fun hnone => nomatch hnone
  obtain ⟨choice, hchoice, hget⟩ := (hfold _ _ hget).resolve_left fun hnone => nomatch hnone
  obtain ⟨hp, hdecide⟩ := decideAll_spec h hrun hd
  obtain ⟨-, hmap, -⟩ := decideComponent_spec hp hdecide
  obtain ⟨choice', hc, rfl⟩ := List.mem_map.1 hchoice
  refine ⟨choice'.candidates, hp.touched _ (hmap ▸ List.mem_map.2 ⟨choice', hc, rfl⟩), choice'.landed, hget⟩

theorem target_handled {p : Prepared} (h : prepare env inp = .ok p) {run : List Decided}
    (hrun : decideAll env inp p = .ok run) {id : String} {r : Record} (hr : (targetsOf run).get? id = some r) :
    id ∈ handledIds env inp p.own ∧
      (fiveHour r = true → ∃ block ∈ p.own.decided, r.block env = some block) := by
  obtain ⟨b, hb, name, hget⟩ := targetsOf_mem h hrun hr
  obtain ⟨hhandled, -, s, hs, hrewrites⟩ := landed_rewrites h hb hget
  exact ⟨hhandled, handled_block hhandled hs hrewrites⟩

/-- **Completion owns what it writes and never makes history worse than its additions.** No input reaches the error
for ids that today's path would write too: every target is handled, and a close or a milestone among them lies in a
decided block. What each component lands violates nothing that the required additions of its blocks alone would not. -/
theorem completion_owns_its_targets (env : Env) (inp : Inputs) :
    (∀ ids, planCompletionFiveHour env inp ≠ .error (.outsideOwned ids)) ∧
      ∀ plan, planCompletionFiveHour env inp = .ok plan →
        ∃ p run, prepare env inp = .ok p ∧ decideAll env inp p = .ok run ∧
          plan = ⟨targetsOf run, handledIds env inp p.own, decisionsOf env run⟩ ∧
          (∀ id r, plan.targets.get? id = some r → id ∈ plan.handled ∧
            (fiveHour r = true → ∃ block ∈ p.own.decided, r.block env = some block)) ∧
          ∀ d ∈ run, NoWorse env inp d := by
  unfold planCompletionFiveHour
  split
  · refine ⟨fun _ h => ?_, fun _ h => ?_⟩ <;> cases h
  · cases hp : prepare env inp with
    | error e => refine ⟨fun _ h => ?_, fun _ h => ?_⟩ <;> cases h
    | ok p =>
      dsimp only
      cases hrun : decideAll env inp p with
      | error e => refine ⟨fun _ h => ?_, fun _ h => ?_⟩ <;> cases h
      | ok run =>
        have hnil : (targetsOf run).keys.filter (· ∉ handledIds env inp p.own) = [] := by
          refine List.filter_eq_nil_iff.2 fun id hid => ?_
          obtain ⟨r, hr⟩ := Dict.mem_keys.1 hid
          simpa using (target_handled hp hrun hr).1
        simp only [hnil, List.isEmpty_nil, if_true]
        refine ⟨fun ids => by simp, fun plan hplan => ?_⟩
        obtain rfl := Except.ok.inj hplan
        exact ⟨p, run, rfl, hrun, rfl, fun id r hr => target_handled hp hrun hr, fun d hd => decided_noWorse hp hrun hd⟩

end

def workedEnv : Env where
  toEnv := FiveHour.workedEnv
  str := fun v => match v with | .str s => s | _ => ""
  dumps := FiveHour.workedEnv.canonical
  compact := FiveHour.workedEnv.canonical
  instant := fun _ => none
  int? := fun _ => none
  minus := fun a b => match a, b with | .num m, .num n => .num (m - n) | _, _ => .null
  repr := fun _ => ""

def workedRecord (id : String) (payload : Json.Fields) : Record :=
  ⟨[("at", .str "t"), ("id", .str id), ("payload", .obj payload)], payload,
    show ["at", "id", "payload"].Pairwise (· < ·) by decide, .inl rfl⟩

def workedClose (reading total : Int) : Record :=
  workedRecord "c" [("final_five_hour_percent", .num reading), ("is_closed", .num 1), ("kind", FiveHour.CLOSE),
    ("total_cost_usd", .num total)]

def workedMilestone (id : String) (threshold cost : Int) : Record :=
  workedRecord id [("block_cost_usd", .num cost), ("kind", FiveHour.MILESTONE), ("marginal_cost_usd", .num cost),
    ("percent_threshold", .num threshold)]

def workedInputs : Inputs where
  current := .ofList [("c", workedClose 5 10), ("m", workedMilestone "m" 1 10)]
  withGap := .ofList [("c", workedClose 6 12), ("m", workedMilestone "m" 1 10), ("n", workedMilestone "n" 2 12)]
  withoutGap := .ofList [("c", workedClose 5 12), ("m", workedMilestone "m" 1 10)]
  acted := ["c", "n"]
  physical := .ofList [("c", 0), ("m", 0)]
  selection := ⟨[], .ofList [("c", ⟨"c", 0, .active, "", none, none, none⟩), ("m", ⟨"m", 0, .active, "", none, none, none⟩)],
    ∅, [], [], []⟩
  lineage := match FiveHour.workedLineage with
    | .ok lineage => lineage
    | .error _ => .empty ∅
  retirements := []

theorem completion_owns_its_targets_worked :
    ∃ plan, planCompletionFiveHour workedEnv workedInputs = .ok plan ∧ plan.targets.keys = ["c", "n"] ∧
      ∀ id ∈ plan.targets.keys, id ∈ plan.handled := by
  have hrun : (planCompletionFiveHour workedEnv workedInputs).returns (fun plan => plan.targets.keys = ["c", "n"]) = true := by
    decide +kernel
  obtain ⟨plan, hplan, hkeys⟩ := Except.returns_iff.1 hrun
  obtain ⟨p, run, -, -, -, htargets, -⟩ := (completion_owns_its_targets workedEnv workedInputs).2 plan hplan
  refine ⟨plan, hplan, of_decide_eq_true hkeys, fun id hid => ?_⟩
  obtain ⟨r, hr⟩ := Dict.mem_keys.1 hid
  exact (htargets id r hr).1

end Cctally.Completion
