import Cctally.AccountingCacheSound

/-!
# Runs of captures

Whatever is recorded, pruned, forced, saved and put back between the calls, each call
returns the sorted full load of its range, its delta leads there from the population that
its base token names, and a token names one population.
-/

namespace Cctally.Accounting

def Replaced {E : Type} (base out in_ entries : List E) : Prop :=
  ∃ kept, base.Perm (kept ++ out) ∧ entries.Perm (kept ++ in_)

theorem replaced_self {E : Type} (entries : List E) : Replaced entries [] [] entries :=
  ⟨entries, by rw [List.append_nil], by rw [List.append_nil]⟩

section
variable {X T V E K I : Type} {c : Callbacks X T V E K I}

theorem mem_pairs {l : List E} {i : I} {e : E} :
    (i, e) ∈ l.map (fun e => (c.identityOf e, e)) ↔ e ∈ l ∧ c.identityOf e = i := by
  rw [List.mem_map]
  constructor
  · rintro ⟨e', he', heq⟩
    obtain ⟨hid, rfl⟩ := Prod.mk.inj heq
    exact ⟨he', hid⟩
  · rintro ⟨he, rfl⟩
    exact ⟨e, he, rfl⟩

theorem nodup_pairs {l : List E} (h : (l.map c.identityOf).Nodup) :
    ((l.map fun e => (c.identityOf e, e)).map Prod.fst).Nodup := by
  rwa [List.map_map]

variable [DecidableEq E] [DecidableEq I]

theorem mem_changed {these those : List E} (hthese : (these.map c.identityOf).Nodup)
    (hthose : (those.map c.identityOf).Nodup) {e : E} : e ∈ changed c these those ↔ e ∈ these ∧ e ∉ those := by
  simp only [changed]
  rw [List.mem_map]
  constructor
  · rintro ⟨⟨i, e'⟩, hmem, rfl⟩
    obtain ⟨hentry, hother⟩ := List.mem_filter.1 hmem
    obtain ⟨he, rfl⟩ := mem_pairs.1 ((Dict.perm_ofList (nodup_pairs hthese)).mem_iff.1 hentry)
    refine ⟨he, fun hthose' => of_decide_eq_true hother ?_⟩
    exact (Dict.get?_ofList_eq_some (nodup_pairs hthose)).2 (mem_pairs.2 ⟨hthose', rfl⟩)
  · rintro ⟨he, hnot⟩
    refine ⟨(c.identityOf e, e), List.mem_filter.2 ⟨?_, decide_eq_true fun hother => hnot ?_⟩, rfl⟩
    · exact (Dict.perm_ofList (nodup_pairs hthese)).mem_iff.2 (mem_pairs.2 ⟨he, rfl⟩)
    · exact (mem_pairs.1 ((Dict.get?_ofList_eq_some (nodup_pairs hthose)).1 hother)).1

theorem nodup_changed {these those : List E} (hthese : (these.map c.identityOf).Nodup) :
    (changed c these those).Nodup := by
  simp only [changed]
  refine List.Nodup.of_map c.identityOf ?_
  have hkeys : ∀ p ∈ (Dict.ofList (these.map fun e => (c.identityOf e, e))).entries,
      (c.identityOf ∘ Prod.snd) p = p.1 := fun p hp =>
    (mem_pairs.1 ((Dict.perm_ofList (nodup_pairs hthese)).mem_iff.1 hp)).2
  rw [List.map_map, List.map_congr_left fun p hp => hkeys p (List.mem_filter.1 hp).1]
  exact (Dict.ofList _).nodup.sublist (List.filter_sublist.map _)

theorem replaced_changed {base new : List E} {paths : List Key} (hbase : (base.map c.identityOf).Nodup)
    (hnew : (new.map c.identityOf).Nodup) (hpaths : ∀ e ∈ new, c.pathOf e ∈ paths) :
    Replaced base (changed c (base.filter fun e => decide (c.pathOf e ∈ paths)) new)
      (changed c new (base.filter fun e => decide (c.pathOf e ∈ paths)))
      ((base.filter fun e => decide (c.pathOf e ∉ paths)) ++ new) := by
  have hprior : ((base.filter fun e => decide (c.pathOf e ∈ paths)).map c.identityOf).Nodup :=
    hbase.sublist (List.filter_sublist.map _)
  have hout : ∀ e, e ∈ changed c (base.filter fun e => decide (c.pathOf e ∈ paths)) new ↔
      (e ∈ base ∧ c.pathOf e ∈ paths) ∧ e ∉ new := fun e => by
    rw [mem_changed hprior hnew, List.mem_filter, decide_eq_true_eq]
  have hin : ∀ e, e ∈ changed c new (base.filter fun e => decide (c.pathOf e ∈ paths)) ↔
      e ∈ new ∧ ¬ (e ∈ base ∧ c.pathOf e ∈ paths) := fun e => by
    rw [mem_changed hnew hprior, List.mem_filter, decide_eq_true_eq]
  have hnodup := List.Nodup.of_map _ hbase
  -- what is kept is all but what changed
  refine ⟨base.filter fun e => decide (e ∉ changed c (base.filter fun e => decide (c.pathOf e ∈ paths)) new), ?_, ?_⟩
  · refine (List.perm_ext_iff_of_nodup hnodup ?_).2 fun e => ?_
    · refine (hnodup.filter _).append (nodup_changed hprior) fun e he hmem => ?_
      exact of_decide_eq_true (List.mem_filter.1 he).2 hmem
    · rw [List.mem_append, List.mem_filter, decide_eq_true_eq, hout]
      tauto
  · refine (List.perm_ext_iff_of_nodup ?_ ?_).2 fun e => ?_
    · refine (hnodup.filter _).append (List.Nodup.of_map _ hnew) fun e he hmem => ?_
      exact of_decide_eq_true (List.mem_filter.1 he).2 (hpaths e hmem)
    · refine (hnodup.filter _).append (nodup_changed hnew) fun e he hmem => ?_
      obtain ⟨hebase, hkept⟩ := List.mem_filter.1 he
      obtain ⟨henew, hnot⟩ := (hin e).1 hmem
      exact hnot ⟨hebase, hpaths e henew⟩
    · have hpath := hpaths e
      rw [List.mem_append, List.mem_append, List.mem_filter, List.mem_filter, decide_eq_true_eq, decide_eq_true_eq,
        hout, hin]
      tauto

end

section
variable {X T V E K I : Type} [LinearOrder T] {c : Callbacks X T V E K I} {s : Store T V}
  {p : Process X T E} {q : Request X T}

theorem nodup_loadPaths (c : Callbacks X T V E K I) (s : Store T V) (extra : X) (start end_ : T) (paths : List Key) :
    ((loadPaths c s extra start end_ paths).map c.identityOf).Nodup := by
  rw [loadPaths_eq]
  exact (nodup_loadAll c s extra start end_).sublist (List.filter_sublist.map _)

theorem pathOf_loadPaths {extra : X} {start end_ : T} {paths : List Key} {e : E}
    (he : e ∈ loadPaths c s extra start end_ paths) : c.pathOf e ∈ paths := by
  rw [loadPaths_eq] at he
  exact of_decide_eq_true (List.mem_filter.1 he).2

variable [LinearOrder K]

structure Built (c : Callbacks X T V E K I) (s : Store T V) (p : Process X T E) (q : Request X T) (p' : Process X T E)
    (r : Result X T E) : Prop where
  entries : r.entries = sortEntries c (loadAll c s q.extra q.start q.end_)
  state : ∃ st, p'.state = some st ∧ st.entries = r.entries ∧ st.token = r.token ∧ Holds c s st
  token : (r.token = p.nextToken ∧ p'.nextToken = p.nextToken + 1) ∨
    (p'.nextToken = p.nextToken ∧ ∃ st, p.state = some st ∧ st.entries = r.entries ∧ st.token = r.token)
  warm : r.cold = false → ∃ st, p.state = some st ∧ r.baseToken = some st.token ∧
    Replaced st.entries r.changedOld r.changedNew r.entries
  loads : q.loadFails = true → ∃ st, p.state = some st ∧ st.entries = r.entries

variable [DecidableEq X]

/-- The ledger that a call reads from a state it could keep has not lost a part of a sequence. -/
def Whole (s : Store T V) (p : Process X T E) (q : Request X T) : Prop :=
  ∀ st current, retained s p q = some (st, current) → q.changesFail = false → ¬ Severed s st

theorem not_severed {st : State X T E} {current : Nat} {paths : List Key} (hwhole : Whole s p q)
    (h : dirty s p q = some (st, current, paths)) : ¬ Severed s st := by
  obtain ⟨hretained, hwarm⟩ := warm_of_dirty h
  cases hfail : q.changesFail with
  | false => exact hwhole st current hretained hfail
  | true =>
    -- a read that fails is not made warm, so the state is at the last sequence
    obtain ⟨fromLedger, _, hmarked, _, _⟩ := hwarm.dirty
    rintro ⟨m, hm, hseq, _, _⟩
    have hle := s.seq_le m (List.mem_append_left _ hm)
    rw [marked, if_pos (by omega), if_pos hfail] at hmarked
    cases hmarked

variable [DecidableEq E] [DecidableEq I]

theorem build_cases (hheld : ∀ st, p.state = some st → Holds c s st) (hwhole : Whole s p q) :
    build c s p q = (p, none) ∨ ∃ p' r, build c s p q = (p', some r) ∧ Built c s p q p' r := by
  rw [build]
  split
  next => exact .inl rfl
  next =>
    split
    next =>
      split
      next => exact .inl rfl
      next hloads =>
        refine .inr ⟨_, _, rfl, rfl, ⟨_, rfl, rfl, rfl, holds_of_load ?_ rfl⟩, .inl ⟨rfl, rfl⟩, nofun, fun hfails =>
          absurd hfails hloads⟩
        simp only [currentSeq]
        split
        next => exact Nat.zero_le _
        next => exact le_refl _
    next st current hdirty =>
      obtain ⟨_, hwarm⟩ := warm_of_dirty hdirty
      have hst := hheld st hwarm.state
      have hstill := hwarm.still hst (not_severed hwhole hdirty)
      refine .inr ⟨_, _, rfl, hstill, ⟨_, rfl, rfl, rfl, holds_of_load ?_ ?_⟩, ?_, fun _ =>
        ⟨st, hwarm.state, rfl, replaced_self _⟩, fun _ => ⟨st, hwarm.state, rfl⟩⟩
      · exact le_of_eq hwarm.current
      · simp only [hwarm.extra, hwarm.start]
        exact hstill
      · by_cases hseq : current = st.seq
        · rw [if_pos hseq]
          exact .inr ⟨if_pos hseq, st, hwarm.state, rfl, rfl⟩
        · exact .inl ⟨if_neg hseq, if_neg hseq⟩
    next st current paths _ hdirty =>
      split
      next => exact .inl rfl
      next hloads =>
        obtain ⟨_, hwarm⟩ := warm_of_dirty hdirty
        have hst := hheld st hwarm.state
        have hperm := hwarm.replaced hst (not_severed hwhole hdirty)
        have hload := sortEntries_congr (nodup_loadAll c s _ _ _) hperm
        refine .inr ⟨_, _, rfl, hload, ⟨_, rfl, rfl, rfl, holds_of_load ?_ ?_⟩, .inl ⟨rfl, rfl⟩, fun _ =>
          ⟨st, hwarm.state, rfl, ?_⟩, fun hfails => absurd hfails hloads⟩
        · exact le_of_eq hwarm.current
        · simp only [hwarm.extra, hwarm.start]
          exact hload
        · obtain ⟨kept, hbase, hnew⟩ := replaced_changed hst.nodup (nodup_loadPaths c s q.extra q.start q.end_ paths)
            fun _ => pathOf_loadPaths
          exact ⟨kept, hbase, (perm_sortEntries _).trans hnew⟩

end

/-! ## Runs -/

section
variable {X T V E K I : Type} [LinearOrder T] [LinearOrder K] {c : Callbacks X T V E K I}

def World.results (w : World X T V E) : List (Result X T E) := w.calls.filterMap (·.result)

def World.Keeps (w : World X T V E) (st : State X T E) : Prop := w.process.state = some st ∨ some st ∈ w.checkpoints

structure Call.Good (c : Callbacks X T V E K I) (results : List (Result X T E)) (call : Call X T V E) : Prop where
  raised : call.result = none → call.after = call.before
  entries : ∀ r, call.result = some r →
    r.entries = sortEntries c (loadAll c call.store call.request.extra call.request.start call.request.end_)
  loads : call.request.loadFails = true → ∀ r, call.result = some r →
    ∃ st, call.before.state = some st ∧ st.entries = r.entries
  warm : ∀ r, call.result = some r → r.cold = false →
    ∃ r' ∈ results, r.baseToken = some r'.token ∧ Replaced r'.entries r.changedOld r.changedNew r.entries

theorem Call.Good.mono {results results' : List (Result X T E)} {call : Call X T V E} (h : call.Good c results)
    (hsub : ∀ r ∈ results, r ∈ results') : call.Good c results' := by
  refine ⟨h.raised, h.entries, h.loads, fun r hr hcold => ?_⟩
  obtain ⟨r', hmem, hrest⟩ := h.warm r hr hcold
  exact ⟨r', hsub r' hmem, hrest⟩

structure World.Inv (c : Callbacks X T V E K I) (w : World X T V E) : Prop where
  held : ∀ st, w.Keeps st → Holds c w.store st
  named : ∀ st, w.Keeps st → ∃ r ∈ w.results, r.entries = st.entries ∧ r.token = st.token
  fresh : ∀ r ∈ w.results, r.token < w.process.nextToken
  tokens : ∀ r ∈ w.results, ∀ r' ∈ w.results, r.token = r'.token → r.entries = r'.entries
  calls : ∀ call ∈ w.calls, call.Good c w.results

theorem inv_start : World.Inv c (World.start : World X T V E) := by
  have hkeeps : ∀ st, ¬ (World.start : World X T V E).Keeps st := by
    rintro st (hst | hst) <;> cases hst
  have hresults : ∀ r, r ∉ (World.start : World X T V E).results := fun _ => List.not_mem_nil
  exact ⟨fun st hst => absurd hst (hkeeps st), fun st hst => absurd hst (hkeeps st),
    fun r hr => absurd hr (hresults r), fun r hr => absurd hr (hresults r), fun call hcall => absurd hcall List.not_mem_nil⟩

theorem World.Inv.of_kept {w w' : World X T V E} (h : w.Inv c) (hcalls : w'.calls = w.calls)
    (htoken : w'.process.nextToken = w.process.nextToken) (hkeeps : ∀ st, w'.Keeps st →
      Holds c w'.store st ∧ ∃ st', w.Keeps st' ∧ st'.entries = st.entries ∧ st'.token = st.token) : w'.Inv c := by
  have hresults : w'.results = w.results := by rw [World.results, hcalls, World.results]
  refine ⟨fun st hst => (hkeeps st hst).1, fun st hst => ?_, ?_, ?_, ?_⟩
  · obtain ⟨_, st', hst', hentries, htok⟩ := hkeeps st hst
    obtain ⟨r, hr, hrentries, hrtok⟩ := h.named st' hst'
    exact ⟨r, hresults ▸ hr, hrentries.trans hentries, hrtok.trans htok⟩
  · rw [hresults, htoken]
    exact h.fresh
  · rw [hresults]
    exact h.tokens
  · rw [hresults, hcalls]
    exact h.calls

variable [DecidableEq X] [DecidableEq E] [DecidableEq I]

theorem World.Inv.capture {w : World X T V E} (h : w.Inv c) (q : Request X T) (hwhole : Whole w.store w.process q) :
    World.Inv c { w with
      process := (build c w.store w.process q).1
      calls := ⟨w.store, q, w.process, (build c w.store w.process q).1, (build c w.store w.process q).2⟩ :: w.calls } := by
  rcases build_cases (fun st hst => h.held st (.inl hst)) hwhole with heq | ⟨p', r, heq, hbuilt⟩
  · rw [heq]
    refine ⟨h.held, h.named, h.fresh, h.tokens, fun call hcall => ?_⟩
    rcases List.mem_cons.1 hcall with rfl | hcall
    · exact ⟨fun _ => rfl, nofun, nofun, nofun⟩
    · exact h.calls call hcall
  · rw [heq]
    obtain ⟨st, hstate, hentries, htoken, hholds⟩ := hbuilt.state
    -- the new result's token is fresh, or that of the state, which an earlier result names
    have hsame : ∀ r' ∈ w.results, r'.token = r.token → r'.entries = r.entries := fun r' hr' htok => by
      rcases hbuilt.token with ⟨hnew, _⟩ | ⟨_, st₀, hst₀, hentries₀, htoken₀⟩
      · have hlt := h.fresh r' hr'
        omega
      · obtain ⟨r₀, hr₀, hr₀entries, hr₀token⟩ := h.named st₀ (.inl hst₀)
        rw [← hentries₀, ← hr₀entries]
        exact h.tokens r' hr' r₀ hr₀ (by rw [htok, hr₀token, htoken₀])
    refine ⟨fun st' hst' => ?_, fun st' hst' => ?_, fun r' hr' => ?_, fun r₁ hr₁ r₂ hr₂ htok => ?_, fun call hcall => ?_⟩
    · rcases hst' with hst' | hst'
      · obtain rfl := Option.some.inj (hstate.symm.trans hst')
        exact hholds
      · exact h.held st' (.inr hst')
    · rcases hst' with hst' | hst'
      · obtain rfl := Option.some.inj (hstate.symm.trans hst')
        exact ⟨r, List.mem_cons_self, hentries.symm, htoken.symm⟩
      · obtain ⟨r', hr', hrest⟩ := h.named st' (.inr hst')
        exact ⟨r', List.mem_cons_of_mem _ hr', hrest⟩
    · have hle : w.process.nextToken ≤ p'.nextToken ∧ r.token < p'.nextToken := by
        rcases hbuilt.token with ⟨hnew, hnext⟩ | ⟨hnext, st₀, hst₀, _, htoken₀⟩
        · omega
        · obtain ⟨r₀, hr₀, _, hr₀token⟩ := h.named st₀ (.inl hst₀)
          have hlt := h.fresh r₀ hr₀
          omega
      rcases List.mem_cons.1 hr' with rfl | hr'
      · exact hle.2
      · exact Nat.lt_of_lt_of_le (h.fresh r' hr') hle.1
    · rcases List.mem_cons.1 hr₁ with rfl | hmem₁ <;> rcases List.mem_cons.1 hr₂ with rfl | hmem₂
      · rfl
      · exact (hsame r₂ hmem₂ htok.symm).symm
      · exact hsame r₁ hmem₁ htok
      · exact h.tokens r₁ hmem₁ r₂ hmem₂ htok
    · rcases List.mem_cons.1 hcall with rfl | hcall
      · refine ⟨nofun, fun r' hr' => ?_, fun hfails r' hr' => ?_, fun r' hr' hcold => ?_⟩
        · obtain rfl := Option.some.inj hr'
          exact hbuilt.entries
        · obtain rfl := Option.some.inj hr'
          exact hbuilt.loads hfails
        · obtain rfl := Option.some.inj hr'
          obtain ⟨st₀, hst₀, hbase, hreplaced⟩ := hbuilt.warm hcold
          obtain ⟨r₀, hr₀, hr₀entries, hr₀token⟩ := h.named st₀ (.inl hst₀)
          refine ⟨r₀, List.mem_cons_of_mem _ hr₀, ?_, ?_⟩
          · rw [hbase, hr₀token]
          · rw [hr₀entries]
            exact hreplaced
      · exact (h.calls call hcall).mono fun r' hr' => List.mem_cons_of_mem _ hr'

variable [DecidableEq V]

def WholeRun (c : Callbacks X T V E K I) (w : World X T V E) : List (Event X T V E) → Prop
  | [] => True
  | event :: events =>
    (match event with
      | .capture q => Whole w.store w.process q
      | _ => True) ∧ WholeRun c (w.step c event) events

theorem World.Inv.step {w : World X T V E} (h : w.Inv c) {event : Event X T V E} {events : List (Event X T V E)}
    (hwhole : WholeRun c w (event :: events)) : (w.step c event).Inv c := by
  cases event with
  | statement statement =>
    exact h.of_kept rfl rfl fun st hst => ⟨(h.held st hst).run statement, st, hst, rfl, rfl⟩
  | prune retainSequences maxRows =>
    exact h.of_kept rfl rfl fun st hst => ⟨(h.held st hst).prune retainSequences maxRows, st, hst, rfl, rfl⟩
  | capture q => exact h.capture q hwhole.1
  | force select =>
    refine h.of_kept rfl rfl fun st hst => ?_
    rcases hst with hst | hst
    · obtain ⟨st', hst', rfl⟩ := Option.map_eq_some_iff.1 hst
      have hholds := h.held st' (.inl hst')
      exact ⟨⟨hholds.seq_le, hholds.sorted, hholds.nodup, hholds.entries⟩, st', .inl hst', rfl, rfl⟩
    · exact ⟨h.held st (.inr hst), st, .inr hst, rfl, rfl⟩
  | checkpoint =>
    refine h.of_kept rfl rfl fun st hst => ?_
    have hkeeps : w.Keeps st := by
      rcases hst with hst | hst
      · exact .inl hst
      · rcases List.mem_append.1 hst with hst | hst
        · exact .inr hst
        · exact .inl (List.mem_singleton.1 hst).symm
    exact ⟨h.held st hkeeps, st, hkeeps, rfl, rfl⟩
  | restore index =>
    rw [World.step]
    split
    next => exact h
    next checkpoint hindex =>
      refine h.of_kept rfl rfl fun st hst => ?_
      have hkeeps : w.Keeps st := by
        rcases hst with hst | hst
        · exact .inr (hst ▸ List.mem_of_getElem? hindex)
        · exact .inr hst
      exact ⟨h.held st hkeeps, st, hkeeps, rfl, rfl⟩
  | reset =>
    refine h.of_kept rfl rfl fun st hst => ?_
    rcases hst with hst | hst
    · cases hst
    · exact ⟨h.held st (.inr hst), st, .inr hst, rfl, rfl⟩

theorem World.Inv.run {w : World X T V E} (h : w.Inv c) {events : List (Event X T V E)} (hwhole : WholeRun c w events) :
    (w.run c events).Inv c := by
  induction events generalizing w with
  | nil => exact h
  | cons event events ih => exact ih (h.step hwhole) hwhole.2

structure World.Sound (c : Callbacks X T V E K I) (w : World X T V E) : Prop where
  entries : ∀ call ∈ w.calls, ∀ r, call.result = some r →
    r.entries = sortEntries c (loadAll c call.store call.request.extra call.request.start call.request.end_)
  warm : ∀ call ∈ w.calls, ∀ r, call.result = some r → r.cold = false → ∃ token, r.baseToken = some token ∧
    (∃ r' ∈ w.results, r'.token = token) ∧
      ∀ r' ∈ w.results, r'.token = token → Replaced r'.entries r.changedOld r.changedNew r.entries
  tokens : ∀ r ∈ w.results, ∀ r' ∈ w.results, r.token = r'.token → r.entries = r'.entries
  raised : ∀ call ∈ w.calls, call.result = none → call.after = call.before
  loads : ∀ call ∈ w.calls, call.request.loadFails = true → ∀ r, call.result = some r →
    ∃ st, call.before.state = some st ∧ st.entries = r.entries

/-- **Where no call reads a severed ledger, the population is the full load.** -/
theorem captures_sound (c : Callbacks X T V E K I) (events : List (Event X T V E))
    (hwhole : WholeRun c World.start events) : (World.start.run c events).Sound c := by
  have h := inv_start.run hwhole
  refine ⟨fun call hcall => (h.calls call hcall).entries, fun call hcall r hr hcold => ?_, h.tokens,
    fun call hcall => (h.calls call hcall).raised, fun call hcall => (h.calls call hcall).loads⟩
  obtain ⟨r₀, hr₀, hbase, hreplaced⟩ := (h.calls call hcall).warm r hr hcold
  refine ⟨r₀.token, hbase, ⟨r₀, hr₀, rfl⟩, fun r' hr' htoken => ?_⟩
  rw [h.tokens r' hr' r₀ hr₀ htoken]
  exact hreplaced

end

/-! ## Cuts -/

section
variable {T V : Type}

def Store.Uncut (s : Store T V) : Prop := ∀ m ∈ s.pruned, ∀ m' ∈ s.log, m.mutationSeq < m'.mutationSeq

theorem Store.uncut_empty : (Store.empty : Store T V).Uncut := fun _ hm => absurd hm List.not_mem_nil

theorem Store.Uncut.recorded {s s' : Store T V} (h : s.Uncut) (hs : Recorded s s') : s'.Uncut := by
  obtain ⟨keys, hfull, _⟩ := hs.marks
  rw [Store.full, Store.full, hs.pruned, List.append_assoc, List.append_cancel_left_eq] at hfull
  intro m hm m' hm'
  rw [hs.pruned] at hm
  rw [hfull] at hm'
  rcases List.mem_append.1 hm' with hm' | hm'
  · exact h m hm m' hm'
  · obtain ⟨_, _, rfl⟩ := List.mem_map.1 hm'
    exact Nat.lt_succ_of_le (s.seq_le m (List.mem_append_left _ hm))

theorem Store.Uncut.run [DecidableEq T] [DecidableEq V] {s : Store T V} (h : s.Uncut) (statement : Statement T V) :
    (s.run statement).Uncut := by
  rcases run_recorded s statement with heq | hrecorded
  · rw [heq]
    exact h
  · exact h.recorded hrecorded

theorem cut_at (cutoff : Nat) : ∀ {log : List Marker}, (log.Pairwise fun m m' => m.mutationSeq ≤ m'.mutationSeq) →
    (∀ m ∈ log.take (log.filter fun m => m.mutationSeq ≤ cutoff).length, m.mutationSeq ≤ cutoff) ∧
      ∀ m ∈ log.drop (log.filter fun m => m.mutationSeq ≤ cutoff).length, cutoff < m.mutationSeq
  | [], _ => ⟨nofun, nofun⟩
  | m :: log, h => by
    obtain ⟨hfirst, hrest⟩ := List.pairwise_cons.1 h
    by_cases hm : m.mutationSeq ≤ cutoff
    · obtain ⟨htake, hdrop⟩ := cut_at cutoff hrest
      rw [List.filter_cons, if_pos (decide_eq_true hm), List.length_cons, List.take_succ_cons, List.drop_succ_cons]
      exact ⟨List.forall_mem_cons.2 ⟨hm, htake⟩, hdrop⟩
    · have hnone : (m :: log).filter (fun m => m.mutationSeq ≤ cutoff) = [] := by
        refine List.filter_eq_nil_iff.2 fun m' hm' hle => ?_
        rw [decide_eq_true_eq] at hle
        rcases List.mem_cons.1 hm' with rfl | hm'
        · exact hm hle
        · exact hm (le_trans (hfirst m' hm') hle)
      rw [hnone, List.length_nil, List.take_zero, List.drop_zero]
      refine ⟨nofun, fun m' hm' => ?_⟩
      rcases List.mem_cons.1 hm' with rfl | hm'
      · exact not_le.1 hm
      · exact lt_of_lt_of_le (not_le.1 hm) (hfirst m' hm')

theorem Store.Uncut.prune {s : Store T V} (h : s.Uncut) (retainSequences : Nat) : (s.prune retainSequences none).Uncut := by
  rw [Store.prune]
  split
  next => exact h
  next =>
    split
    next => exact h
    next cutoff _ =>
      obtain ⟨htake, hdrop⟩ := cut_at cutoff (List.pairwise_append.1 s.sorted).2.1
      intro m hm m' hm'
      rcases List.mem_append.1 hm with hm | hm
      · exact h m hm m' (List.mem_of_mem_drop hm')
      · exact lt_of_le_of_lt (htake m hm) (hdrop m' hm')

theorem Store.Uncut.not_severed {X E : Type} {s : Store T V} (h : s.Uncut) (st : State X T E) : ¬ Severed s st := by
  rintro ⟨m, hm, hseq, ⟨m', hm', hseq'⟩, _⟩
  have hlt := h m hm m' hm'
  omega

end

section
variable {X T V E K I : Type} [LinearOrder T] [LinearOrder K] [DecidableEq X] [DecidableEq E] [DecidableEq I]
  [DecidableEq V]

theorem wholeRun_of_unbounded (c : Callbacks X T V E K I) {w : World X T V E} (huncut : w.store.Uncut)
    {events : List (Event X T V E)} (h : ∀ retainSequences maxRows, .prune retainSequences maxRows ∈ events → maxRows = none) :
    WholeRun c w events := by
  induction events generalizing w with
  | nil => exact trivial
  | cons event events ih =>
    have hrest : ∀ retainSequences maxRows, .prune retainSequences maxRows ∈ events → maxRows = none :=
      fun retainSequences maxRows hmem => h retainSequences maxRows (List.mem_cons_of_mem _ hmem)
    cases event with
    | statement statement => exact ⟨trivial, ih (huncut.run statement) hrest⟩
    | prune retainSequences maxRows =>
      obtain rfl := h retainSequences maxRows List.mem_cons_self
      exact ⟨trivial, ih (huncut.prune retainSequences) hrest⟩
    | capture q => exact ⟨fun st _ _ _ => huncut.not_severed st, ih huncut hrest⟩
    | force select => exact ⟨trivial, ih huncut hrest⟩
    | checkpoint => exact ⟨trivial, ih huncut hrest⟩
    | restore index =>
      refine ⟨trivial, ih ?_ hrest⟩
      rw [World.step]
      split
      next => exact huncut
      next => exact huncut
    | reset => exact ⟨trivial, ih huncut hrest⟩

end

def plainCallbacks : Callbacks Unit Nat Nat (Row Nat Nat) (Nat ×ₗ Nat) Nat where
  render := fun _ r => r
  pathOf := (·.key)
  accountOf := fun _ => "account"
  orderKey := fun r => toLex (r.timestamp, r.id)
  identityOf := (·.id)
  path_render := fun _ _ => rfl
  identity_render := fun _ _ _ h => h
  identity_order := fun _ _ h => (Prod.mk.inj h).2

def plainRequest : Request Unit Nat :=
  { start := 0
    end_ := 10
    extra := ()
    database := some "cache.db"
    attributionRevision := none
    noLedger := false
    changesFail := false
    revealFails := false
    loadFails := false }

/-- A row moves between two paths under one sequence, between two calls. -/
def movingRun (maxRows : Option Nat) : List (Event Unit Nat Nat (Row Nat Nat)) :=
  let old : Key := toLex ("root", ⟨"a.jsonl", by decide⟩)
  let new : Key := toLex ("root", ⟨"b.jsonl", by decide⟩)
  [.statement (.insert ⟨1, old, 1, 10⟩), .capture plainRequest, .statement (.update 1 ⟨1, new, 1, 10⟩),
    .statement (.insert ⟨2, new, 2, 20⟩), .prune 1 maxRows, .capture plainRequest]

theorem captures_sound_moving :
    ((World.start.run plainCallbacks (movingRun none)).results.map fun r => r.entries.map (·.id)) = [[1, 2], [1]] ∧
      (World.start.run plainCallbacks (movingRun none)).Sound plainCallbacks :=
  ⟨by decide +kernel, captures_sound plainCallbacks (movingRun none)
    (wholeRun_of_unbounded plainCallbacks Store.uncut_empty (by simp +contextual [movingRun]))⟩

theorem severed_keeps_stale : ¬ (World.start.run plainCallbacks (movingRun (some 2))).Sound plainCallbacks := by
  have hstale : ∃ call ∈ (World.start.run plainCallbacks (movingRun (some 2))).calls, ∃ r ∈ call.result,
      r.entries ≠ sortEntries plainCallbacks
        (loadAll plainCallbacks call.store call.request.extra call.request.start call.request.end_) := by
    decide +kernel
  obtain ⟨call, hcall, r, hr, hne⟩ := hstale
  exact fun h => hne (h.entries call hcall r hr)

end Cctally.Accounting
