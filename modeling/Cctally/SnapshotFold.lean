import Cctally.Snapshots

/-!
# Folding snapshots and their retirements in any order

Whatever order the events come in, a row ends as its acceptance settled by the axes that
some list retires.
-/

namespace Cctally.Snapshots

def Ordered (events : List Event) : Prop :=
  events.Pairwise fun a b => ∀ k, (b.accepts k).isSome → a.retiresFiveHour k = false ∧ a.retiresWeekly k = false

def Unique (events : List Event) : Prop :=
  events.Pairwise fun a b => ∀ k, (a.accepts k).isSome → (b.accepts k).isSome → False

def accepted (events : List Event) (k : String) : Option Snapshot :=
  (events.findSome? fun e => e.accepts k).bind insertRow

section
variable (k : String)

theorem get?_fold_retired : ∀ (events : List Event) (table : Table), (∀ e ∈ events, e.accepts k = none) →
    (fold events table).get? k = settle (events.any fun e => e.retiresFiveHour k) (events.any fun e => e.retiresWeekly k) (table.get? k)
  | [], _, _ => rfl
  | e :: events, table, h => by
    have hone : (applyEvt table e).get? k = settle (e.retiresFiveHour k) (e.retiresWeekly k) (table.get? k) := by
      rw [get?_applyEvt, h e List.mem_cons_self, Option.bind_none, Option.or_none]
    rw [fold, List.foldl_cons, ← fold, get?_fold_retired events _ fun a ha => h a (List.mem_cons_of_mem _ ha), hone,
      settle_settle, List.any_cons, List.any_cons, Bool.or_comm, Bool.or_comm (e.retiresWeekly k)]

theorem findSome?_accepts_eq_none {events : List Event} (h : ∀ e ∈ events, e.accepts k = none) :
    events.findSome? (fun e => e.accepts k) = none := List.findSome?_eq_none_iff.2 h

/-- **A fold settles every row** by the axes the events retire, from what was there or was accepted. -/
theorem get?_fold : ∀ (events : List Event) (table : Table), Ordered events → Unique events →
    (fold events table).get? k = settle (events.any fun e => e.retiresFiveHour k) (events.any fun e => e.retiresWeekly k)
      ((table.get? k).or (accepted events k))
  | [], table, _, _ => by
    rw [accepted, List.findSome?_nil, Option.bind_none, Option.or_none]
    rfl
  | e :: events, table, hord, huniq => by
    obtain ⟨hfirst, hord⟩ := List.pairwise_cons.1 hord
    obtain ⟨honly, huniq⟩ := List.pairwise_cons.1 huniq
    by_cases hnamed : e.retiresFiveHour k = false ∧ e.retiresWeekly k = false
    · cases hacc : e.accepts k with
      | none =>
        have hone : (applyEvt table e).get? k = table.get? k := by
          rw [get?_applyEvt, hacc, hnamed.1, hnamed.2, Option.bind_none, Option.or_none]
          rfl
        have hrow : accepted (e :: events) k = accepted events k := by
          rw [accepted, List.findSome?_cons, hacc]
          rfl
        rw [fold, List.foldl_cons, ← fold, get?_fold events _ hord huniq, hone, hrow, List.any_cons, List.any_cons, hnamed.1,
          hnamed.2, Bool.false_or, Bool.false_or]
      | some cols =>
        have hlater : ∀ a ∈ events, a.accepts k = none := by
          intro a ha
          cases hak : a.accepts k with
          | none => rfl
          | some _ => exact (honly a ha k (by rw [hacc]; rfl) (by rw [hak]; rfl)).elim
        have hone : (applyEvt table e).get? k = (table.get? k).or (insertRow cols) := by
          rw [get?_applyEvt, hacc, hnamed.1, hnamed.2]
          rfl
        have hrow : accepted (e :: events) k = insertRow cols := by
          rw [accepted, List.findSome?_cons, hacc]
          rfl
        rw [fold, List.foldl_cons, ← fold, get?_fold_retired k events _ hlater, hone, hrow, List.any_cons, List.any_cons, hnamed.1,
          hnamed.2, Bool.false_or, Bool.false_or]
    · -- named already, so accepted by nothing after
      have hlater : ∀ a ∈ events, a.accepts k = none := by
        intro a ha
        cases hak : a.accepts k with
        | none => rfl
        | some _ => exact absurd (hfirst a ha k (by rw [hak]; rfl)) hnamed
      have hself : e.accepts k = none := by
        cases e with
        | snapshotAccept id cols => exact absurd ⟨rfl, rfl⟩ hnamed
        | _ => rfl
      exact (get?_fold_retired k (e :: events) table fun a ha => by
        rcases List.mem_cons.1 ha with rfl | ha
        · exact hself
        · exact hlater a ha).trans (by
        rw [accepted, List.findSome?_cons, hself, findSome?_accepts_eq_none k hlater, Option.bind_none, Option.or_none])

end

theorem Unique.eq {events : List Event} (h : Unique events) {k : String} {a b : Event} (ha : a ∈ events) (hb : b ∈ events)
    (hak : (a.accepts k).isSome) (hbk : (b.accepts k).isSome) : a.accepts k = b.accepts k := by
  induction events with
  | nil => cases ha
  | cons e events ih =>
    obtain ⟨honly, hrest⟩ := List.pairwise_cons.1 h
    rcases List.mem_cons.1 ha with hae | ha'
    · rcases List.mem_cons.1 hb with hbe | hb'
      · rw [hae, hbe]
      · exact (honly b hb' k (hae ▸ hak) hbk).elim
    · rcases List.mem_cons.1 hb with hbe | hb'
      · exact (honly a ha' k (hbe ▸ hbk) hak).elim
      · exact ih hrest ha' hb'

theorem Unique.perm {events events' : List Event} (h : Unique events) (hp : events.Perm events') : Unique events' :=
  (hp.pairwise_iff fun hab k hb ha => hab k ha hb).1 h

theorem accepted_perm {events events' : List Event} (h : Unique events) (hp : events.Perm events') (k : String) :
    accepted events' k = accepted events k := by
  unfold accepted
  cases hfind : events'.findSome? (fun e => e.accepts k) with
  | none =>
    rw [List.findSome?_eq_none_iff] at hfind
    rw [findSome?_accepts_eq_none k fun e he => hfind e (hp.mem_iff.1 he)]
  | some cols =>
    obtain ⟨e, he, hcols⟩ := List.exists_of_findSome?_eq_some hfind
    cases hfind' : events.findSome? (fun e => e.accepts k) with
    | none =>
      rw [List.findSome?_eq_none_iff] at hfind'
      rw [hfind' e (hp.mem_iff.2 he)] at hcols
      cases hcols
    | some cols' =>
      obtain ⟨e', he', hcols'⟩ := List.exists_of_findSome?_eq_some hfind'
      have heq := h.eq (hp.mem_iff.2 he) he' (by rw [hcols]; rfl) (by rw [hcols']; rfl)
      rw [hcols, hcols'] at heq
      rw [Option.some.inj heq]

theorem any_perm {events events' : List Event} (hp : events.Perm events') (p : Event → Bool) : events'.any p = events.any p :=
  (hp.any_eq).symm

/-! ## Folding a suffix again -/

theorem any_suffix_of_accepted {pre suf : List Event} (hord : Ordered (pre ++ suf)) {k : String}
    (hacc : accepted suf k ≠ none) :
    (pre ++ suf).any (fun e => e.retiresFiveHour k) = suf.any (fun e => e.retiresFiveHour k) ∧
      (pre ++ suf).any (fun e => e.retiresWeekly k) = suf.any (fun e => e.retiresWeekly k) := by
  obtain ⟨cols, hfind⟩ : ∃ cols, suf.findSome? (fun e => e.accepts k) = some cols := by
    refine Option.ne_none_iff_exists'.1 fun hnone => hacc ?_
    rw [accepted, hnone]
    rfl
  obtain ⟨e, he, hcols⟩ := List.exists_of_findSome?_eq_some hfind
  have hcross := (List.pairwise_append.1 hord).2.2
  have hpre : ∀ a ∈ pre, a.retiresFiveHour k = false ∧ a.retiresWeekly k = false := fun a ha =>
    hcross a ha e he k (by rw [hcols]; rfl)
  have hfive : pre.any (fun e => e.retiresFiveHour k) = false := List.any_eq_false.2 fun a ha => by simp [(hpre a ha).1]
  have hweekly : pre.any (fun e => e.retiresWeekly k) = false := List.any_eq_false.2 fun a ha => by simp [(hpre a ha).2]
  rw [List.any_append, List.any_append, hfive, hweekly]
  exact ⟨rfl, rfl⟩

theorem fold_suffix {pre suf : List Event} {table : Table} (hord : Ordered (pre ++ suf)) (huniq : Unique (pre ++ suf))
    (hfresh : ∀ k, accepted (pre ++ suf) k ≠ none → table.get? k = none) (k : String) :
    (fold suf (fold (pre ++ suf) table)).get? k = (fold (pre ++ suf) table).get? k := by
  have hord' := (List.pairwise_append.1 hord).2.1
  have huniq' := (List.pairwise_append.1 huniq).2.1
  have hfive : (suf.any (fun e => e.retiresFiveHour k) || (pre ++ suf).any (fun e => e.retiresFiveHour k)) =
      (pre ++ suf).any (fun e => e.retiresFiveHour k) := by
    rw [List.any_append]
    cases pre.any (fun e => e.retiresFiveHour k) <;> cases suf.any (fun e => e.retiresFiveHour k) <;> rfl
  have hweekly : (suf.any (fun e => e.retiresWeekly k) || (pre ++ suf).any (fun e => e.retiresWeekly k)) =
      (pre ++ suf).any (fun e => e.retiresWeekly k) := by
    rw [List.any_append]
    cases pre.any (fun e => e.retiresWeekly k) <;> cases suf.any (fun e => e.retiresWeekly k) <;> rfl
  rw [get?_fold k suf _ hord' huniq']
  have hclosed := get?_fold k (pre ++ suf) table hord huniq
  cases hrow : (fold (pre ++ suf) table).get? k with
  | some s =>
    rw [Option.some_or, ← hrow, hclosed, settle_settle, hfive, hweekly]
  | none =>
    rw [Option.none_or]
    cases hacc : accepted suf k with
    | none => exact settle_none _ _
    | some s =>
      have hne : accepted suf k ≠ none := by rw [hacc]; nofun
      obtain ⟨hf, hw⟩ := any_suffix_of_accepted hord hne
      have hall : accepted (pre ++ suf) k = some s := by
        have hswap : accepted (suf ++ pre) k = some s := by
          obtain ⟨cols, hfind⟩ : ∃ cols, suf.findSome? (fun e => e.accepts k) = some cols := by
            refine Option.ne_none_iff_exists'.1 fun hnone => hne ?_
            rw [accepted, hnone]
            rfl
          rw [accepted, hfind] at hacc
          rw [accepted, List.findSome?_append, hfind]
          exact hacc
        rw [← hswap]
        exact accepted_perm (huniq.perm List.perm_append_comm) List.perm_append_comm k
      have hbase : table.get? k = none := hfresh k (by rw [hall]; nofun)
      rw [hrow, hbase, Option.none_or, hall, hf, hw] at hclosed
      exact hclosed.symm

def keepsEvidence (fiveHour weekly : Bool) (s : Snapshot) : Bool :=
  (!weekly && s.unheld) || (!fiveHour && s.fiveHourEvidence)

theorem settle_survives (s : Snapshot) {fiveHour weekly : Bool} (h : (fiveHour || weekly) = true) :
    (settle fiveHour weekly (some s)).isSome = keepsEvidence fiveHour weekly s := by
  cases fiveHour <;> cases weekly <;> cases hu : s.unheld <;> cases he : s.fiveHourEvidence <;>
    simp_all [settle, weeklyOf, fiveHourOf, keepsEvidence]

/-- **The order of the folds does not matter**: the rows are the same in every order that accepts a snapshot before
retiring it, a suffix folded again changes nothing, and a row survives its retirements with what they leave it. -/
theorem fold_settles (events : List Event) (table : Table) (hord : Ordered events) (huniq : Unique events)
    (hfresh : ∀ k, accepted events k ≠ none → table.get? k = none) :
    (∀ events', events.Perm events' → Ordered events' → ∀ k, (fold events' table).get? k = (fold events table).get? k) ∧
    (∀ suf, suf <:+ events → ∀ k, (fold suf (fold events table)).get? k = (fold events table).get? k) ∧
    ∀ k s, (table.get? k).or (accepted events k) = some s →
      (((events.any fun e => e.retiresFiveHour k) || events.any fun e => e.retiresWeekly k) = true →
        ((fold events table).get? k).isSome =
          keepsEvidence (events.any fun e => e.retiresFiveHour k) (events.any fun e => e.retiresWeekly k) s) ∧
      ((events.any fun e => e.retiresFiveHour k) = true → s.unheld = true → (events.any fun e => e.retiresWeekly k) = false →
        (fold events table).get? k = some s.clearFiveHour) ∧
      ((events.any fun e => e.retiresWeekly k) = true → (events.any fun e => e.retiresFiveHour k) = false →
        ∀ s', (fold events table).get? k = some s' → s' = s.hold) ∧
      ((events.any fun e => e.retiresFiveHour k) = true → (events.any fun e => e.retiresWeekly k) = true →
        (fold events table).get? k = none) := by
  refine ⟨fun events' hp hord' k => ?_, fun suf hsuf k => ?_, fun k s hs => ?_⟩
  · rw [get?_fold k events' table hord' (huniq.perm hp), get?_fold k events table hord huniq, accepted_perm huniq hp,
      any_perm hp, any_perm hp]
  · obtain ⟨pre, rfl⟩ := hsuf
    exact fold_suffix hord huniq hfresh k
  · rw [get?_fold k events table hord huniq, hs]
    refine ⟨settle_survives s, fun hf hu hw => ?_, fun hw hf s' hs' => ?_, fun hf hw => ?_⟩
    · rw [hf, hw]
      simp [settle, fiveHourOf, hu]
    · rw [hf, hw] at hs'
      simp only [settle, weeklyOf, Bool.false_eq_true, if_false, if_true, Option.bind_some] at hs'
      split at hs'
      · exact (Option.some.inj hs').symm
      · cases hs'
    · rw [hf, hw]
      cases hu : s.unheld <;> cases he : s.fiveHourEvidence <;> simp [settle, weeklyOf, fiveHourOf, he]

def readingCols : Cols := .ofList
  [(.capturedAtUtc, .text "2025-10-01T00:00:00Z"), (.weekStartDate, .text "2025-09-29"), (.weekEndDate, .text "2025-10-06"),
   (.weeklyPercent, .int 40), (.payloadJson, .text "\x7b\x7d"), (.fiveHourPercent, .int 12),
   (.fiveHourResetsAt, .text "2025-10-01T05:00:00Z"), (.fiveHourWindowKey, .int 7)]

def creditedRun : List Event :=
  [.snapshotAccept "sa:1" readingCols, .snapshotAccept "sa:2" readingCols, .fiveHourCredit ⟨SNAPSHOTS, ["sa:1", "sa:2"]⟩,
   .weekReset ⟨SNAPSHOTS, ["sa:2"]⟩]

theorem fold_settles_credited :
    (fold [.weekReset ⟨SNAPSHOTS, ["sa:2"]⟩] (fold creditedRun .empty)).get? "sa:1" =
      (fold creditedRun .empty).get? "sa:1" := by
  have hord : Ordered creditedRun := by
    simp [Ordered, creditedRun, Event.accepts, Event.retiresFiveHour, Event.retiresWeekly]
  have huniq : Unique creditedRun := by
    simp [Unique, creditedRun, Event.accepts]
  exact (fold_settles creditedRun .empty hord huniq fun _ _ => rfl).2.1 _ ⟨creditedRun.take 3, rfl⟩ "sa:1"

end Cctally.Snapshots
