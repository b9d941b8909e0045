import Cctally.Activity

/-!
# The activity instant never moves backwards

The instants a cache remembers bound from below what an arrival that finds the
main transcript returns, and they bound from above what it has returned. An
arrival without the lock must not return an instant at all.
-/

namespace Cctally.Activity

theorem mem_instant {scan : Scan} {i : Instant} : scan.instant = some i ↔ scan.status = .known i := by
  unfold Scan.instant
  cases scan.status <;> simp

theorem latest_mem {l : List Instant} {i : Instant} (h : latestOrNone l = some i) : i ∈ l := List.argmax_mem h

theorem le_latest {l : List Instant} {i j : Instant} (h : latestOrNone l = some i) (hj : j ∈ l) :
    instantOrder j ≤ instantOrder i := List.le_of_mem_argmax hj h

theorem key_le_of_order {i j : Instant} (h : instantOrder i ≤ instantOrder j) : instantKey i ≤ instantKey j := by
  obtain hlt | heq := Prod.Lex.le_iff.1 h
  · exact hlt.le
  · exact heq.1.le

section
variable (pathDigest : String)

def memory (cache : Cache) : List Instant :=
  (forget pathDigest cache).observedInstant.toList ++ knownInstants (forget pathDigest cache)

end

def Remembers (l : List Instant) (i : Instant) : Prop := ∃ j ∈ l, instantOrder i ≤ instantOrder j

theorem remembers_latest {l l' : List Instant} {i : Instant} (h : Remembers l i) (hl : ∀ j, latestOrNone l = some j → j ∈ l') :
    Remembers l' i := by
  obtain ⟨j, hj, hle⟩ := h
  cases hlatest : latestOrNone l with
  | none =>
    rw [latestOrNone, List.argmax_eq_none] at hlatest
    rw [hlatest] at hj
    cases hj
  | some k => exact ⟨k, hl k hlatest, hle.trans (le_latest hlatest hj)⟩

theorem mem_knownInstants {cache : Cache} {i : Instant} :
    i ∈ knownInstants cache ↔ (∃ r, cache.main = some r ∧ r.scan.status = .known i) ∨
      ∃ name r, cache.subagents.get? name = some r ∧ r.scan.status = .known i := by
  rw [knownInstants, List.mem_filterMap]
  simp only [List.mem_append, Option.mem_toList, Dict.mem_values, mem_instant]
  constructor
  · rintro ⟨r, hr | ⟨name, hr⟩, hi⟩
    · exact .inl ⟨r, hr, hi⟩
    · exact .inr ⟨name, r, hr, hi⟩
  · rintro (⟨r, hr, hi⟩ | ⟨name, r, hr, hi⟩)
    · exact ⟨r, .inl hr, hi⟩
    · exact ⟨r, .inr ⟨name, hr⟩, hi⟩

theorem examine_spec (opened : Opened) (cached : Option Record) :
    (∃ r, (examine opened cached).1 = some r ∧ r.scan = (examine opened cached).2) ∨
      ((examine opened cached).1 = none ∧ (∃ reason, (examine opened cached).2.status = .unknown reason) ∧
        ∃ reason, opened = .failed reason) := by
  unfold examine
  cases opened with
  | failed reason => exact .inr ⟨rfl, ⟨reason, rfl⟩, reason, rfl⟩
  | regular key scanRegion =>
    left
    cases cached with
    | none => exact ⟨_, rfl, rfl⟩
    | some c =>
      dsimp only
      split
      · exact ⟨_, rfl, rfl⟩
      · split
        · exact ⟨_, rfl, rfl⟩
        · split
          · exact ⟨_, rfl, rfl⟩
          · split
            · exact ⟨_, rfl, rfl⟩
            · exact ⟨_, rfl, rfl⟩

theorem captureMain_spec (arrival : Arrival) (cached : Option Record) :
    (∃ r, (captureMain arrival cached).1 = some r ∧ r.scan = (captureMain arrival cached).2) ∨
      ((captureMain arrival cached).1 = none ∧ (∃ reason, (captureMain arrival cached).2.status = .unknown reason) ∧
        (∃ reason, arrival.mainOpened = .failed reason) ∧ ∀ c, cached = some c → arrival.mainStat ≠ .ok c.key) := by
  have hexamined : (∀ c, cached = some c → arrival.mainStat ≠ .ok c.key) →
      captureMain arrival cached = examine arrival.mainOpened cached := by
    intro hne
    unfold captureMain
    split
    · rename_i c key hstat
      refine if_neg fun (heq : key = c.key) => hne c rfl ?_
      rw [hstat, heq]
    · rfl
  by_cases hhit : ∃ c, cached = some c ∧ arrival.mainStat = .ok c.key
  · obtain ⟨c, rfl, hstat⟩ := hhit
    left
    refine ⟨c, ?_, ?_⟩
    · simp [captureMain, hstat]
    · simp [captureMain, hstat]
  · push Not at hhit
    rw [hexamined hhit]
    exact (examine_spec arrival.mainOpened cached).imp_right fun ⟨hnone, hunknown, hfailed⟩ =>
      ⟨hnone, hunknown, hfailed, hhit⟩

def Cached (p : Progress) : Prop :=
  ∀ name key scan i, p.results.get? name = some (key, scan) → scan.status = .known i →
    ∃ r, p.subagents.get? name = some r ∧ r.scan = scan

section
variable {arrival : Arrival} {p : Progress}

theorem Cached.set_both (h : Cached p) {name : String} {key : Option FileKey} {r : Record} {scan : Scan}
    (hscan : r.scan = scan) :
    Cached { p with subagents := p.subagents.set name r, results := p.results.set name (key, scan) } := by
  intro n k s i hget hs
  dsimp only at hget ⊢
  rw [Dict.get?_set] at hget ⊢
  split at hget
  · rename_i hn
    cases hget
    exact ⟨r, by rw [if_pos hn], hscan⟩
  · rename_i hn
    rw [if_neg hn]
    exact h n k s i hget hs

theorem Cached.set_unknown (h : Cached p) {name : String} {key : Option FileKey} {scan : Scan} {subagents : Dict String Record}
    (hscan : ∀ i, scan.status ≠ .known i) (hsub : ∀ n, name ≠ n → subagents.get? n = p.subagents.get? n) :
    Cached { p with subagents := subagents, results := p.results.set name (key, scan) } := by
  intro n k s i hget hs
  dsimp only at hget ⊢
  rw [Dict.get?_set] at hget
  split at hget
  · cases hget
    exact absurd hs (hscan i)
  · rename_i hn
    rw [hsub n hn]
    exact h n k s i hget hs

theorem get?_erase_ne (subagents : Dict String Record) {name n : String} (h : name ≠ n) :
    (subagents.erase name).get? n = subagents.get? n := by rw [Dict.get?_erase, if_neg h]

theorem Cached.classify (h : Cached p) (name : String) : Cached (classify arrival p name) := by
  unfold Activity.classify
  split
  · exact h.set_unknown nofun fun n hn => get?_erase_ne _ hn
  · split
    · exact h
    · rename_i cached hcached
      split
      · intro n k s i hget hs
        dsimp only at hget ⊢
        rw [Dict.get?_set] at hget
        split at hget
        · rename_i hn
          cases hget
          exact ⟨cached, hn ▸ hcached, rfl⟩
        · exact h n k s i hget hs
      · split
        · exact h.set_both rfl
        · exact h

theorem Cached.examineOne {q : Progress × Option String} (h : Cached q.1) (name : String) :
    Cached (examineOne arrival q name).1 := by
  unfold Activity.examineOne
  obtain ⟨r, hr, hscan⟩ | ⟨hnone, ⟨reason, hunknown⟩, -⟩ := examine_spec (arrival.opened name) (q.1.subagents.get? name)
  · dsimp only
    rw [hr]
    exact h.set_both hscan
  · dsimp only
    rw [hnone]
    refine h.set_unknown (fun i hi => ?_) fun n hn => get?_erase_ne _ hn
    split at hi
    · cases hi
    · rw [hunknown] at hi
      cases hi

theorem Cached.leave (h : Cached p) (name : String) : Cached (leave p name) :=
  h.set_unknown nofun fun _ _ => rfl

theorem Cached.foldl {α β : Type} (state : α → Progress) (f : α → β → α) (hf : ∀ a b, Cached (state a) → Cached (state (f a b))) :
    ∀ (l : List β) (a : α), Cached (state a) → Cached (state (l.foldl f a))
  | [], _, h => h
  | b :: l, a, h => Cached.foldl state f hf l (f a b) (hf a b h)

theorem cached_subagents (arrival : Arrival) (subagents : Dict String Record) (cursor : Option String) (names : List String) :
    Cached (captureSubagents arrival subagents cursor names).1 := by
  have hempty : Cached ⟨subagents, Dict.empty, []⟩ := fun _ _ _ _ hget => nomatch hget
  have hclassified := Cached.foldl id (classify arrival) (fun _ name h => h.classify name) names _ hempty
  unfold captureSubagents
  dsimp only
  apply Cached.foldl id leave fun _ name h => h.leave name
  exact Cached.foldl Prod.fst (examineOne arrival) (fun _ name h => h.examineOne name) _ _ hclassified

end

section
variable {digest : List Entry → Bool → Bool → String} {pathDigest : String} {cache : Cache} {valid : Bool}
  {arrival : Arrival}

def MainFound (pathDigest : String) (cache : Cache) (arrival : Arrival) : Prop :=
  (∃ key scanRegion, arrival.mainOpened = .regular key scanRegion) ∨
    ∃ c, (forget pathDigest cache).main = some c ∧ arrival.mainStat = .ok c.key

theorem forget_self (h : cache.mainPathDigest = some pathDigest) : forget pathDigest cache = cache :=
  if_neg (not_not.2 h)

theorem capture_cache (digest : List Entry → Bool → Bool → String) (pathDigest : String) (cache : Cache) (valid : Bool)
    (arrival : Arrival) :
    (capture digest pathDigest cache valid arrival).2.observedInstant = latestOrNone (memory pathDigest cache) ∧
      (capture digest pathDigest cache valid arrival).2.main = (captureMain arrival (forget pathDigest cache).main).1 ∧
      (capture digest pathDigest cache valid arrival).2.mainPathDigest =
        (captureMain arrival (forget pathDigest cache).main).1.map fun _ => pathDigest := by
  unfold capture
  dsimp only
  split
  · exact ⟨rfl, rfl, rfl⟩
  · exact ⟨rfl, rfl, rfl⟩

theorem verdict_known {resolved covered : Bool} {unknown : Option UnknownReason} {latest : Option Instant} {i : Instant}
    (h : verdict resolved unknown covered latest = .known i) :
    resolved = true ∧ unknown = none ∧ covered = true ∧ latest = some i := by
  unfold verdict at h
  cases resolved <;> cases unknown <;> cases covered <;> cases latest <;> simp at h
  exact ⟨rfl, rfl, rfl, congrArg some h⟩

theorem capture_evidence {i : Instant} (h : (capture digest pathDigest cache valid arrival).1.evidence = .known i) :
    (∀ reason, (captureMain arrival (forget pathDigest cache).main).2.status ≠ .unknown reason) ∧
      ∃ p, Cached p ∧ (capture digest pathDigest cache valid arrival).2.subagents = p.subagents ∧
        latestOrNone ((captureMain arrival (forget pathDigest cache).main).2.instant.toList ++
          p.results.values.filterMap (fun r => r.2.instant) ++
          (latestOrNone (memory pathDigest cache)).toList) = some i := by
  unfold capture at h ⊢
  dsimp only at h ⊢
  split at h
  · cases h
  · rename_i hmain
    exact ⟨hmain, _, cached_subagents arrival _ _ _, rfl, (verdict_known h).2.2.2⟩

theorem memory_captured {r : Record} (hr : (captureMain arrival (forget pathDigest cache).main).1 = some r) :
    memory pathDigest (capture digest pathDigest cache valid arrival).2 =
      (latestOrNone (memory pathDigest cache)).toList ++ knownInstants (capture digest pathDigest cache valid arrival).2 := by
  obtain ⟨hobserved, -, hdigest⟩ := capture_cache digest pathDigest cache valid arrival
  rw [hr, Option.map_some] at hdigest
  rw [memory, forget_self hdigest, hobserved]

theorem captureMain_found (h : MainFound pathDigest cache arrival) :
    ∃ r, (captureMain arrival (forget pathDigest cache).main).1 = some r := by
  obtain ⟨r, hr, -⟩ | ⟨-, -, ⟨reason, hfailed⟩, hmiss⟩ := captureMain_spec arrival (forget pathDigest cache).main
  · exact ⟨r, hr⟩
  · obtain ⟨key, scanRegion, hopened⟩ | ⟨c, hc, hstat⟩ := h
    · rw [hopened] at hfailed
      cases hfailed
    · exact absurd hstat (hmiss c hc)

theorem capture_remembers (h : MainFound pathDigest cache arrival) {i : Instant}
    (hi : Remembers (memory pathDigest cache) i) :
    Remembers (memory pathDigest (capture digest pathDigest cache valid arrival).2) i := by
  obtain ⟨r, hr⟩ := captureMain_found h
  rw [memory_captured hr]
  exact remembers_latest hi fun j hj => List.mem_append_left _ (hj ▸ Option.mem_toList.2 rfl)

theorem capture_known {i : Instant} (h : (capture digest pathDigest cache valid arrival).1.evidence = .known i) :
    (∀ j, Remembers (memory pathDigest cache) j → instantOrder j ≤ instantOrder i) ∧
      Remembers (memory pathDigest (capture digest pathDigest cache valid arrival).2) i := by
  obtain ⟨hmain, p, hcached, hsubagents, hlatest⟩ := capture_evidence h
  constructor
  · intro j hj
    obtain ⟨k, hk, hle⟩ : Remembers (latestOrNone (memory pathDigest cache)).toList j :=
      remembers_latest hj fun k hk => Option.mem_toList.2 hk
    exact hle.trans (le_latest hlatest (List.mem_append_right _ hk))
  · obtain ⟨r, hr, hscan⟩ | ⟨-, ⟨reason, hunknown⟩, -⟩ := captureMain_spec arrival (forget pathDigest cache).main
    · obtain ⟨-, hrecord, -⟩ := capture_cache digest pathDigest cache valid arrival
      rw [memory_captured hr]
      refine ⟨i, ?_, le_rfl⟩
      have hmem := latest_mem hlatest
      rw [List.mem_append, List.mem_append] at hmem
      obtain (hinstant | hresult) | hobserved := hmem
      · rw [Option.mem_toList, mem_instant, ← hscan] at hinstant
        exact List.mem_append_right _ (mem_knownInstants.2 (.inl ⟨r, hrecord.trans hr, hinstant⟩))
      · obtain ⟨⟨key, scan⟩, hresult, hinstant⟩ := List.mem_filterMap.1 hresult
        obtain ⟨name, hget⟩ := Dict.mem_values.1 hresult
        obtain ⟨r', hr', hscan'⟩ := hcached name key scan i hget (mem_instant.1 hinstant)
        refine List.mem_append_right _ (mem_knownInstants.2 (.inr ⟨name, r', hsubagents ▸ hr', ?_⟩))
        rw [hscan']
        exact mem_instant.1 hinstant
      · exact List.mem_append_left _ hobserved
    · exact absurd hunknown (hmain reason)

end

end Cctally.Activity
