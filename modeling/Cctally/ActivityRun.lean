import Cctally.ActivityMonotone

/-!
# Runs of arrivals

An arrival that takes the lock keeps what was remembered when it finds the main
transcript. An arrival without the lock starts from an empty cache, so it cannot
cover more subagent files than one arrival examines.
-/

namespace Cctally.Activity

/-! ## A cold capture over many files -/

section
variable (arrival : Arrival)

def stats (name : String) : Bool :=
  match arrival.stat name with
  | .ok _ => true
  | .error _ => false

def Refused (results : Dict String (Option FileKey × Scan)) (name : String) : Prop :=
  ∃ key reason linesEnd, results.get? name = some (key, ⟨.unknown reason, linesEnd⟩)

variable {arrival}

theorem classify_cold (arrival : Arrival) {p : Progress} (h : p.subagents = Dict.empty) (name : String) :
    (classify arrival p name).subagents = Dict.empty ∧
      (classify arrival p name).work = p.work ++ (if stats arrival name then [name] else []) ∧
      (∀ n, Refused p.results n → Refused (classify arrival p name).results n) ∧
      (stats arrival name = false → Refused (classify arrival p name).results name) := by
  unfold classify stats
  cases hstat : arrival.stat name with
  | error reason =>
    dsimp only
    rw [h]
    refine ⟨rfl, (List.append_nil _).symm, fun n hn => ?_, fun _ => ?_⟩
    · unfold Refused
      rw [Dict.get?_set]
      split
      · exact ⟨_, _, _, rfl⟩
      · exact hn
    · exact ⟨_, _, _, Dict.get?_set_self _ _ _⟩
  | ok key =>
    dsimp only
    rw [h, Dict.get?_empty]
    exact ⟨rfl, rfl, fun _ hn => hn, fun h => Bool.noConfusion h⟩

theorem foldl_classify_cold (arrival : Arrival) : ∀ (names : List String) (p : Progress), p.subagents = Dict.empty →
    (names.foldl (classify arrival) p).work = p.work ++ names.filter (stats arrival) ∧
      ∀ n, (n ∈ names ∧ stats arrival n = false) ∨ Refused p.results n →
        Refused (names.foldl (classify arrival) p).results n
  | [], p, _ => ⟨(List.append_nil _).symm, fun n hn => hn.resolve_left fun h => nomatch h.1⟩
  | name :: names, p, h => by
    obtain ⟨hsub, hwork, hrefused, hself⟩ := classify_cold arrival h name
    obtain ⟨hwork', hrefused'⟩ := foldl_classify_cold arrival names (classify arrival p name) hsub
    rw [List.foldl_cons]
    constructor
    · rw [hwork', hwork, List.append_assoc, List.filter_cons]
      split
      · rfl
      · rfl
    · intro n hn
      apply hrefused'
      obtain ⟨hmem, hstats⟩ | hn := hn
      · obtain rfl | hmem := List.mem_cons.1 hmem
        · exact .inr (hself hstats)
        · exact .inl ⟨hmem, hstats⟩
      · exact .inr (hrefused n hn)

theorem Refused.set_ne {results : Dict String (Option FileKey × Scan)} {n name : String} {r : Option FileKey × Scan}
    (h : Refused results n) (hne : name ≠ n) : Refused (results.set name r) n := by
  unfold Refused
  rw [Dict.get?_set_ne _ _ hne]
  exact h

theorem refused_examined {n : String} : ∀ (work : List String) (q : Progress × Option String), n ∉ work →
    Refused q.1.results n → Refused (work.foldl (examineOne arrival) q).1.results n
  | [], _, _, h => h
  | name :: work, q, hn, h => by
    rw [List.foldl_cons]
    apply refused_examined work _ fun hmem => hn (List.mem_cons_of_mem _ hmem)
    have hne : name ≠ n := fun heq => hn (heq ▸ List.mem_cons_self ..)
    unfold examineOne
    dsimp only
    split
    · exact h.set_ne hne
    · exact h.set_ne hne

theorem refused_left {n : String} : ∀ (work : List String) (p : Progress), n ∉ work → Refused p.results n →
    Refused (work.foldl leave p).results n
  | [], _, _, h => h
  | name :: work, p, hn, h => by
    rw [List.foldl_cons]
    apply refused_left work _ fun hmem => hn (List.mem_cons_of_mem _ hmem)
    exact h.set_ne fun heq => hn (heq ▸ List.mem_cons_self ..)

theorem unexamined_left : ∀ (work : List String) (p : Progress), work ≠ [] →
    ∃ n key scan, (work.foldl leave p).results.get? n = some (key, scan) ∧ scan.status = .unexamined
  | [], _, hne => absurd rfl hne
  | [name], _, _ => ⟨name, none, ⟨.unexamined, none⟩, Dict.get?_set_self _ _ _, rfl⟩
  | name :: next :: work, p, _ => unexamined_left (next :: work) (leave p name) (List.cons_ne_nil _ _)

theorem cold_uncovered (arrival : Arrival) {names : List String} (h : arrivalFileBudget < names.length) :
    (∃ n ∈ names, Refused (captureSubagents arrival Dict.empty none names).1.results n) ∨
      ∃ n key scan, (captureSubagents arrival Dict.empty none names).1.results.get? n = some (key, scan) ∧
        scan.status = .unexamined := by
  obtain ⟨hwork, hrefused⟩ := foldl_classify_cold arrival names ⟨Dict.empty, Dict.empty, []⟩ rfl
  unfold captureSubagents rotate
  dsimp only
  rw [hwork, List.nil_append]
  by_cases hall : ∃ n ∈ names, stats arrival n = false
  · obtain ⟨n, hn, hstats⟩ := hall
    refine .inl ⟨n, hn, ?_⟩
    have hout : n ∉ names.filter (stats arrival) := fun hmem => by
      rw [List.mem_filter, hstats] at hmem
      exact Bool.false_ne_true hmem.2
    apply refused_left _ _ fun hmem => hout (List.mem_of_mem_drop hmem)
    apply refused_examined _ _ fun hmem => hout (List.mem_of_mem_take hmem)
    exact hrefused n (.inl ⟨hn, hstats⟩)
  · push Not at hall
    have hfull : names.filter (stats arrival) = names :=
      List.filter_eq_self.2 fun n hn => by simpa using hall n hn
    rw [hfull]
    right
    apply unexamined_left
    intro hnil
    have hlength := congrArg List.length hnil
    rw [List.length_drop, List.length_nil] at hlength
    omega

end

section
variable {digest : List Entry → Bool → Bool → String} {pathDigest : String} {cache : Cache} {arrival : Arrival}

theorem firstUnknown_of_refused {results : Dict String (Option FileKey × Scan)} {names : List String} {n : String}
    (hn : n ∈ names) (h : Refused results n) : firstUnknown results names ≠ none := by
  intro hnone
  rw [firstUnknown, List.findSome?_eq_none_iff] at hnone
  obtain ⟨key, reason, linesEnd, hget⟩ := h
  have hat := hnone n hn
  rw [hget] at hat
  cases hat

theorem cold_unknown (h : arrivalFileBudget < (listSubagents arrival.directory).1.length) {i : Instant} :
    (capture digest pathDigest .empty true arrival).1.evidence ≠ .known i := by
  have hforget : foldObserved (forget pathDigest .empty) = .empty := by
    unfold forget
    split
    · rfl
    · rfl
  intro hknown
  unfold capture at hknown
  rw [hforget] at hknown
  dsimp only at hknown
  split at hknown
  · cases hknown
  · have hkept : ∀ complete : Bool, (if complete = true then (Cache.empty.subagents.filter fun name _ =>
        (listSubagents arrival.directory).1.contains name) else Cache.empty.subagents) = Dict.empty := by
      intro complete
      cases complete
      · rfl
      · rfl
    obtain ⟨-, hresolved, hcovered, -⟩ := verdict_known hknown
    rw [hkept] at hresolved hcovered
    obtain ⟨n, hn, hrefused⟩ | ⟨n, key, scan, hget, hscan⟩ := cold_uncovered arrival h
    · exact firstUnknown_of_refused hn hrefused hresolved
    · have hcount : 0 < ((captureSubagents arrival Dict.empty none
          (listSubagents arrival.directory).1).1.results.values.countP fun r => r.2.status = .unexamined) := by
        rw [List.countP_pos_iff]
        exact ⟨(key, scan), Dict.mem_values.2 ⟨n, hget⟩, by simpa using hscan⟩
      simp only [Bool.and_true, Bool.not_eq_true', decide_eq_false_iff_not] at hcovered
      apply hcovered
      have hcursor : Cache.empty.cursor = none := rfl
      rw [hcursor]
      omega

end

/-! ## The whole run -/

def Evidence.instant : Evidence → Option Instant
  | .known instant => some instant
  | .unknown _ => none

def NoEarlier (w w' : ActivityWitness) : Prop :=
  ∀ i ∈ w.evidence.instant, ∀ j ∈ w'.evidence.instant, instantKey i ≤ instantKey j

instance : DecidableRel NoEarlier := fun w w' =>
  inferInstanceAs (Decidable (∀ i ∈ w.evidence.instant, ∀ j ∈ w'.evidence.instant, instantKey i ≤ instantKey j))

section
variable (digest : List Entry → Bool → Bool → String) (pathDigest : String)

/-- The arrival takes the lock and finds the main transcript, if anything is remembered; or it does not take the lock,
and lists more subagent files than it may examine. -/
def Steady (cache : Cache) (arrival : Arrival) : Prop :=
  if arrival.locked then MainFound pathDigest cache arrival ∨ memory pathDigest cache = []
  else arrivalFileBudget < (listSubagents arrival.directory).1.length

def SteadyRun : Cache → List Arrival → Prop
  | _, [] => True
  | cache, arrival :: arrivals =>
    Steady pathDigest cache arrival ∧ SteadyRun (captureLocked digest pathDigest cache arrival).2 arrivals

variable {digest pathDigest}

theorem evidence_instant {w : ActivityWitness} {i : Instant} (h : i ∈ w.evidence.instant) : w.evidence = .known i := by
  cases hw : w.evidence with
  | known j =>
    rw [hw] at h
    cases h
    rfl
  | unknown reason =>
    rw [hw] at h
    cases h

theorem steady_step (digest : List Entry → Bool → Bool → String) {cache : Cache} {arrival : Arrival} (h : Steady pathDigest cache arrival) :
    (∀ i, Remembers (memory pathDigest cache) i →
        Remembers (memory pathDigest (captureLocked digest pathDigest cache arrival).2) i) ∧
      ∀ j, (captureLocked digest pathDigest cache arrival).1.evidence = .known j →
        (∀ i, Remembers (memory pathDigest cache) i → instantOrder i ≤ instantOrder j) ∧
          Remembers (memory pathDigest (captureLocked digest pathDigest cache arrival).2) j := by
  unfold Steady at h
  unfold captureLocked
  split
  · rename_i hlocked
    rw [if_pos hlocked] at h
    refine ⟨fun i hi => ?_, fun j hj => capture_known hj⟩
    obtain hfound | hnothing := h
    · exact capture_remembers hfound hi
    · rw [hnothing] at hi
      obtain ⟨j, hj, -⟩ := hi
      cases hj
  · rename_i hlocked
    rw [if_neg hlocked] at h
    exact ⟨fun i hi => hi, fun j hj => absurd hj (cold_unknown h)⟩

theorem remembered_le : ∀ (arrivals : List Arrival) (cache : Cache), SteadyRun digest pathDigest cache arrivals →
    ∀ w ∈ witnesses digest pathDigest cache arrivals, ∀ j, w.evidence = .known j →
      ∀ i, Remembers (memory pathDigest cache) i → instantOrder i ≤ instantOrder j
  | [], _, _, _, hw => nomatch hw
  | arrival :: arrivals, cache, h, w, hw => by
    obtain ⟨hkeeps, hreturns⟩ := steady_step digest h.1
    intro j hj i hi
    rw [witnesses] at hw
    obtain rfl | hw := List.mem_cons.1 hw
    · exact (hreturns j hj).1 i hi
    · exact remembered_le arrivals _ h.2 w hw j hj i (hkeeps i hi)

end

def at_ (seconds : Int) : Instant := ⟨seconds, [], Nat.zero_le _⟩

def fileKey (inode : Nat) : FileKey := ⟨1, inode, 100, inode⟩

def holding (inode : Nat) (seconds : Int) : Opened := .regular (fileKey inode) fun _ _ => ⟨.known (at_ seconds), some 100⟩

def mainOnly (inode : Nat) (seconds : Int) : Arrival where
  locked := true
  mainStat := .ok (fileKey inode)
  mainOpened := holding inode seconds
  directory := .absent
  stat _ := .error .missing
  opened _ := .failed .missing

def mainGone : Arrival :=
  { mainOnly 1 100 with
    mainStat := .error .missing
    mainOpened := .failed .missing }

def oneSubagent : Arrival :=
  { mainOnly 1 50 with
    directory := .entries ["agent-a.jsonl"]
    stat := fun _ => .ok (fileKey 2)
    opened := fun _ => holding 2 100 }

def plainDigest (_ : List Entry) (_ _ : Bool) : String := ""

end Cctally.Activity
