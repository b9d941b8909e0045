import Cctally.PacingAccrual
import Mathlib.Tactic.NormNum

/-!
# Runs of the pacer

A run starts from a record without charges and makes its visits in the order of
time. An operation is admitted from an allowance that is not negative at the visit,
is charged there, and is booked in the hour it starts. The ledger then stays within
its allowance as long as the visits of the counted operations are no further apart
than the whole minutes of the window.
-/

namespace Cctally.Pacing

open Json (field Fields)
open WriteBudget TokenBucket

structure Operation where
  visit : Int
  started : Int
  reservation : Int
  deriving DecidableEq

structure Pacer where
  stored : Json
  visitAt : Int
  state : PacingState
  done : List Operation

section
variable (env : Env)

def Fresh : Json → Prop
  | .obj d => field d "policy_version" = .null ∨ parseLedger env.clock (field d "ledger") = []
  | _ => True

def Pacer.load (p : Pacer) (now : Int) : Pacer := { p with visitAt := now, state := fromRecord env p.stored now }

/-- `none` where the operation is gated or its record cannot be stored. -/
def Pacer.operate (p : Pacer) (reservation started : Int) : Option Pacer :=
  if p.state.available p.visitAt < 0 then none
  else
    let charged := p.state.charge env reservation p.visitAt started
    ((charged.toRecord env).bind (serializeReclaimRecord env)).map fun stored =>
      ⟨stored, p.visitAt, charged, p.done ++ [⟨p.visitAt, started, reservation⟩]⟩

/-- The states of all runs. An operation loads the record again or goes on with what the visit
loaded; it starts no earlier than its visit and no later than the next one. -/
inductive Reached : Pacer → Prop
  | start {stored : Json} {now : Int} : Fresh env stored → InYears now →
      Reached ⟨stored, now, fromRecord env stored now, []⟩
  | visit {p : Pacer} {now : Int} : Reached p → p.visitAt ≤ now → InYears now → (∀ o ∈ p.done, o.started ≤ now) →
      Reached (p.load env now)
  | reload {p : Pacer} : Reached p → Reached (p.load env p.visitAt)
  | operate {p p' : Pacer} {reservation started : Int} : Reached p → 0 < reservation → p.visitAt ≤ started →
      InYears started → p.operate env reservation started = some p' → Reached p'

end

def spend (o : Operation) : Spend Int ℚ := ⟨o.visit, o.reservation⟩

def booking (o : Operation) : Int × Int := (hourFloor o.started, o.reservation)

/-- The balance was last accrued at `since`, or later; the ledger accounts for `booked`. -/
structure Sound (env : Env) (s : PacingState) (visit : Int) (done : List Operation) (since : Int)
    (bs : List LedgerBucket) (booked : List (Int × Int)) : Prop where
  since_le_visit : since ≤ visit
  since_le_asOf : since ≤ s.asOf
  asOf_le : s.asOf ≤ MAX_INSTANT
  capped : s.balanceBytes ≤ MAINTENANCE_CREDIT_BYTES
  covered : Covered grant (MAINTENANCE_CREDIT_BYTES : ℚ) (INT64_MIN : ℚ) s.balanceBytes since (done.map spend)
  ledger : s.ledger = serializeLedger env.clock bs
  wellFormed : WellFormed bs
  short : bs.length ≤ LEDGER_KEEP
  books : Books INT64_MAX bs booked
  sub : booked.Sublist (done.map booking)

variable {env : Env}

theorem sound_freshState {now : Int} (hn : InYears now) (legacy : Fields) :
    Sound env (freshState now legacy) now [] now [] [] where
  since_le_visit := le_refl _
  since_le_asOf := le_refl _
  asOf_le := hn.2
  capped := le_refl _
  covered := covered_nil _ _
  ledger := rfl
  wellFormed := wellFormed_nil
  short := Nat.zero_le _
  books := books_nil _
  sub := .slnil

theorem loadBalance_asOf_le (d : Fields) {now : Int} (hn : InYears now) : (loadBalance env d now).2 ≤ MAX_INSTANT := by
  unfold loadBalance
  split
  · rename_i hp
    exact parseUtc_le hp
  · exact hn.2

theorem sound_fresh {stored : Json} (hf : Fresh env stored) {now : Int} (hn : InYears now) :
    ∃ since, Sound env (fromRecord env stored now) now [] since [] [] := by
  unfold fromRecord
  split
  · rename_i d
    dsimp only
    split
    · exact ⟨now, sound_freshState hn _⟩
    · rename_i hp
      have hl : parseLedger env.clock (field d "ledger") = [] := hf.resolve_left hp
      refine ⟨min now (loadBalance env d now).2, ?_⟩
      exact
        { since_le_visit := min_le_left _ _
          since_le_asOf := min_le_right _ _
          asOf_le := loadBalance_asOf_le d hn
          capped := min_le_right _ _
          covered := covered_nil _ _
          ledger := by rw [hl]
          wellFormed := wellFormed_nil
          short := Nat.zero_le _
          books := books_nil _
          sub := .slnil }
  · exact ⟨now, sound_freshState hn _⟩

theorem booking_nonneg {done : List Operation} (hpos : ∀ o ∈ done, 0 < o.reservation) {booked : List (Int × Int)}
    (hs : booked.Sublist (done.map booking)) : ∀ p ∈ booked, 0 ≤ p.2 := by
  intro p hp
  obtain ⟨o, ho, rfl⟩ := List.mem_map.1 (hs.subset hp)
  exact (hpos o ho).le

section
variable {s : PacingState} {visit : Int} {done : List Operation} {since : Int} {bs : List LedgerBucket}
variable {booked : List (Int × Int)}

theorem Sound.available (h : Sound env s visit done since bs booked) :
    Covered grant (MAINTENANCE_CREDIT_BYTES : ℚ) (INT64_MIN : ℚ) (s.available visit) visit (done.map spend) :=
  h.covered.wait h.since_le_visit (available_le_grant s h.since_le_asOf h.since_le_visit)

/-- **A charge keeps the state sound.** -/
theorem Sound.charge (h : Sound env s visit done since bs booked) (hv : InYears visit) {reservation started : Int}
    (hr : 0 < reservation) (hst : InYears started) :
    ∃ bs' booked', Sound env (s.charge env reservation visit started) visit
      (done ++ [⟨visit, started, reservation⟩]) visit bs' booked' := by
  refine ⟨_, _,
    { since_le_visit := le_refl _
      since_le_asOf := le_max_left _ _
      asOf_le := max_le hv.2 h.asOf_le
      capped := ?_
      covered := ?_
      ledger := ?_
      wellFormed := wellFormed_bookCharge h.wellFormed ⟨hourFloor_inYears hst, hourFloor_mod started⟩ hr.le
      short := length_bookCharge _ _ _
      books := h.books.book h.wellFormed (by decide) hr.le
      sub := ?_ }⟩
  · have := available_le s visit
    simp only [PacingState.charge]; omega
  · have hc : ((s.available visit : Int) : ℚ) ≤ (MAINTENANCE_CREDIT_BYTES : ℚ) := by
      exact_mod_cast available_le s visit
    have hr0 : (0 : ℚ) ≤ (reservation : ℚ) := by exact_mod_cast hr.le
    have := h.available.spend hc hr0
    simpa [PacingState.charge, spend] using this
  · simp only [PacingState.charge]
    rw [h.ledger, ledgerAdd_eq env.clock h.wellFormed _ hr.le]
  · rw [List.map_append]
    exact List.filter_sublist.trans (h.sub.append (List.Sublist.refl _))

/-- **What was stored is loaded as a sound state.** -/
theorem Sound.stored (h : Sound env s visit done since bs booked) (hy : InYears s.asOf) {record : Fields}
    {stored : Json} (hr : s.toRecord env = some record) (hs : serializeReclaimRecord env record = some stored) :
    storedLedger stored = .arr (serializeLedger env.clock (bs.map clampBucket)) ∧
      ∀ {now}, visit ≤ now → Sound env (fromRecord env stored now) now done since (bs.map clampBucket) booked := by
  obtain ⟨d, c, rfl, hc, hpolicy, hbalance, hasOf, hledger⟩ := stored_fields hr hs hy h.ledger h.wellFormed h.short
  have hcy := ceilSecond_inYears hy hc
  refine ⟨hledger, fun {now} hn => ?_⟩
  have hload : loadBalance env d now = (max INT64_MIN (min INT64_MAX s.balanceBytes), c) := by
    simp only [loadBalance, hbalance, hasOf, intOrNone, parseUtc_isoZ hcy (ceilSecond_whole hc)]
  have hbal : (fromRecord env (.obj d) now).balanceBytes = max INT64_MIN s.balanceBytes := by
    have := h.capped
    simp only [fromRecord, hpolicy, hload]
    unfold INT64_MIN INT64_MAX MAINTENANCE_CREDIT_BYTES MiB at *
    omega
  have hat : (fromRecord env (.obj d) now).asOf = c := by simp only [fromRecord, hpolicy, hload]
  have hwf := wellFormed_clamp h.wellFormed
  exact
    { since_le_visit := h.since_le_visit.trans hn
      since_le_asOf := by rw [hat]; exact h.since_le_asOf.trans (ceilSecond_le hc)
      asOf_le := by rw [hat]; exact hcy.2
      capped := by
        have := h.capped
        rw [hbal]
        unfold INT64_MIN MAINTENANCE_CREDIT_BYTES MiB at *
        omega
      covered := by
        apply h.covered.clamp
        rw [hbal, max_comm]
        push_cast
        exact le_refl _
      ledger := by
        simp only [fromRecord, hpolicy, hledger, parseLedger_serializeLedger env.clock hwf]
      wellFormed := hwf
      short := by rw [List.length_map]; exact h.short
      books := books_clamp h.books h.wellFormed
      sub := h.sub }

end

/-! ## Runs -/

def total (l : List Operation) : Int := (l.map Operation.reservation).sum

theorem spent_map (l : List Operation) : spent (l.map spend) = (total l : ℚ) := by
  induction l with
  | nil => simp [spent, total]
  | cons o l ih =>
    simp only [spent, total, List.map_cons, List.sum_cons, Int.cast_add] at *
    rw [ih]; rfl

/-- What was charged from one operation up to the next but one within a day and an hour was
covered by the credit and the rate. -/
def Funded (done : List Operation) : Prop :=
  ∀ pre o mid o' post, done = pre ++ o :: mid ++ o' :: post → o'.visit - o.visit ≤ SPAN →
    (total (o :: mid) : ℚ) ≤ MAINTENANCE_CREDIT_BYTES + exact (o'.visit - o.visit)

theorem Funded.snoc {done : List Operation} (h : Funded done) {new : Operation} {level : Int} (hl : 0 ≤ level)
    (hc : Covered grant (MAINTENANCE_CREDIT_BYTES : ℚ) (INT64_MIN : ℚ) level new.visit (done.map spend)) :
    Funded (done ++ [new]) := by
  intro pre o mid o' post he hs
  rcases List.eq_nil_or_concat post with rfl | ⟨post, last, rfl⟩
  · obtain ⟨hd, ho⟩ := List.append_inj' he rfl
    obtain rfl : new = o' := by simpa using ho
    have hle : o.visit ≤ new.visit := by
      apply hc.before (spend o)
      rw [hd]; simp
    have hgrant : grant.between o.visit new.visit = exact (new.visit - o.visit) := if_pos hs
    have hsuffix : (spend o :: mid.map spend) <:+ done.map spend := ⟨pre.map spend, by rw [hd]; simp⟩
    have hdeep : (INT64_MIN : ℚ) + grant.between (spend o).time new.visit < 0 := by
      have hmono := exact_mono hs
      have hspan : exact SPAN = 6291456000 := by
        norm_num [exact, SPAN, MINUTE, SECOND, MAINTENANCE_RATE_BYTES_PER_MINUTE, MiB]
      rw [show (spend o).time = o.visit from rfl, hgrant]
      norm_num [INT64_MIN] at *
      linarith
    have hl : (0 : ℚ) ≤ level := by exact_mod_cast hl
    have := hc.spent_le hl hsuffix hdeep
    rwa [← List.map_cons, spent_map, show (spend o).time = o.visit from rfl, hgrant] at this
  · have hd : done = pre ++ o :: mid ++ o' :: post := by
      have : done ++ [new] = (pre ++ o :: mid ++ o' :: post) ++ [last] := by simpa using he
      exact (List.append_inj' this rfl).1
    exact h pre o mid o' post hd hs

structure Inv (env : Env) (p : Pacer) : Prop where
  clock : InYears p.visitAt
  held : ∃ since bs booked, Sound env p.state p.visitAt p.done since bs booked
  atRest : ∀ {now}, p.visitAt ≤ now → InYears now →
    ∃ since bs booked, Sound env (fromRecord env p.stored now) now p.done since bs booked
  ledger : p.done ≠ [] → ∃ bs booked, storedLedger p.stored = .arr (serializeLedger env.clock bs) ∧ WellFormed bs ∧
    (∀ b ∈ bs, b.charged ≤ INT64_MAX) ∧ Books INT64_MAX bs booked ∧ booked.Sublist (p.done.map booking)
  funded : Funded p.done
  positive : ∀ o ∈ p.done, 0 < o.reservation

theorem inv_start {stored : Json} {now : Int} (hf : Fresh env stored) (hn : InYears now) :
    Inv env ⟨stored, now, fromRecord env stored now, []⟩ where
  clock := hn
  held := by
    obtain ⟨since, h⟩ := sound_fresh hf hn
    exact ⟨since, _, _, h⟩
  atRest := by
    intro later _ hy
    obtain ⟨since, h⟩ := sound_fresh hf hy
    exact ⟨since, _, _, h⟩
  ledger h := absurd rfl h
  funded pre o mid o' post h := by simp at h
  positive := by simp

theorem Inv.visit {p : Pacer} (h : Inv env p) {now : Int} (hn : p.visitAt ≤ now) (hy : InYears now) :
    Inv env (p.load env now) where
  clock := hy
  held := h.atRest hn hy
  atRest hl hy := h.atRest (hn.trans hl) hy
  ledger := h.ledger
  funded := h.funded
  positive := h.positive

theorem operate_some {p p' : Pacer} {reservation started : Int} (h : p.operate env reservation started = some p') :
    0 ≤ p.state.available p.visitAt ∧ ∃ record stored,
      (p.state.charge env reservation p.visitAt started).toRecord env = some record ∧
      serializeReclaimRecord env record = some stored ∧
      p' = ⟨stored, p.visitAt, p.state.charge env reservation p.visitAt started,
        p.done ++ [⟨p.visitAt, started, reservation⟩]⟩ := by
  unfold Pacer.operate at h
  split at h
  · cases h
  · rename_i ha
    obtain ⟨stored, hb, rfl⟩ := Option.map_eq_some_iff.1 h
    obtain ⟨record, hrec, hs⟩ := Option.bind_eq_some_iff.1 hb
    exact ⟨not_lt.1 ha, record, stored, hrec, hs, rfl⟩

theorem operate_keeps {p p' : Pacer} {reservation started : Int} (h : p.operate env reservation started = some p') :
    p'.visitAt = p.visitAt ∧ p'.done = p.done ++ [⟨p.visitAt, started, reservation⟩] := by
  obtain ⟨-, -, -, -, -, rfl⟩ := operate_some h
  exact ⟨rfl, rfl⟩

theorem Inv.operate {p p' : Pacer} (h : Inv env p) {reservation started : Int} (hr : 0 < reservation)
    (hst : InYears started) (ho : p.operate env reservation started = some p') : Inv env p' := by
  obtain ⟨ha, record, stored, hrec, hs, rfl⟩ := operate_some ho
  obtain ⟨since, bs, booked, hsound⟩ := h.held
  obtain ⟨bs', booked', hcharge⟩ := hsound.charge h.clock hr hst
  have hyears : InYears (p.state.charge env reservation p.visitAt started).asOf :=
    ⟨h.clock.1.trans (le_max_left _ _), hcharge.asOf_le⟩
  obtain ⟨hledger, hload⟩ := hcharge.stored hyears hrec hs
  refine ⟨h.clock, ⟨_, _, _, hcharge⟩, fun hn _ => ⟨_, _, _, hload hn⟩, fun _ => ?_, ?_, ?_⟩
  · refine ⟨_, booked', hledger, wellFormed_clamp hcharge.wellFormed, fun b hb => ?_,
      books_clamp hcharge.books hcharge.wellFormed, hcharge.sub⟩
    obtain ⟨b', -, rfl⟩ := List.mem_map.1 hb
    unfold clampBucket INT64_MAX
    dsimp only; omega
  · exact h.funded.snoc ha hsound.available
  · intro o ho
    rcases List.mem_append.1 ho with ho | ho
    · exact h.positive o ho
    · rw [List.mem_singleton.1 ho]; exact hr

theorem Reached.inv {p : Pacer} (h : Reached env p) : Inv env p := by
  induction h with
  | start hf hn => exact inv_start hf hn
  | visit _ hn hy _ ih => exact ih.visit hn hy
  | reload _ ih => exact ih.visit (le_refl _) ih.clock
  | operate _ hr _ hst ho ih => exact ih.operate hr hst ho

/-! ## The statistic -/

/-- The operation is counted at `now`: the hour it started in is one of the window's. -/
def Counted (now : Int) (o : Operation) : Prop :=
  hourFloor now - 24 * HOUR ≤ hourFloor o.started ∧ hourFloor o.started ≤ hourFloor now

def WithinMinutes (now : Int) (done : List Operation) : Prop :=
  ∀ o ∈ done, ∀ o' ∈ done, Counted now o → Counted now o' →
    o'.visit - o.visit ≤ (1440 + (now - hourFloor now) / MINUTE) * MINUTE

theorem total_sublist {l l' : List Operation} (hs : l.Sublist l') (h : ∀ o ∈ l', 0 < o.reservation) :
    total l ≤ total l' := by
  apply (hs.map Operation.reservation).sum_le_sum
  intro x hx
  obtain ⟨o, ho, rfl⟩ := List.mem_map.1 hx
  exact (h o ho).le

theorem between_of_sublist {done mid : List Operation} {o last : Operation} (h : (o :: mid ++ [last]).Sublist done) :
    ∃ pre all post, done = pre ++ o :: all ++ last :: post ∧ mid.Sublist all := by
  obtain ⟨r₁, r₂, rfl, ho, hrest⟩ := List.cons_sublist_iff.1 h
  obtain ⟨pre, skipped, rfl⟩ := List.append_of_mem ho
  obtain ⟨q₁, q₂, rfl, hmid, hlast⟩ := List.append_sublist_iff.1 hrest
  obtain ⟨skipped', post, rfl⟩ := List.append_of_mem (List.singleton_sublist.1 hlast)
  refine ⟨pre, skipped ++ q₁ ++ skipped', post, by simp, ?_⟩
  exact hmid.trans ((List.sublist_append_right _ _).trans (List.sublist_append_left _ _))

/-- **All but the last counted charge** fit the credit and the rate over the window. -/
theorem total_counted_le {done counted : List Operation} {last : Operation} (minutes : Int) (hf : Funded done)
    (hpos : ∀ o ∈ done, 0 < o.reservation) (hs : (counted ++ [last]).Sublist done) (h0 : 0 ≤ minutes)
    (hspan : minutes * MINUTE ≤ SPAN) (hw : ∀ o ∈ counted, last.visit - o.visit ≤ minutes * MINUTE) :
    total counted ≤ MAINTENANCE_RATE_BYTES_PER_MINUTE * (minutes + 1) := by
  cases counted with
  | nil =>
    simp only [total, List.map_nil, List.sum_nil]
    unfold MAINTENANCE_RATE_BYTES_PER_MINUTE MiB
    omega
  | cons o mid =>
    obtain ⟨pre, all, post, hd, hsub⟩ := between_of_sublist hs
    have hle := hw o List.mem_cons_self
    have hfund := hf pre o all last post hd (hle.trans hspan)
    have hall : total (o :: mid) ≤ total (o :: all) := by
      apply total_sublist (hsub.cons_cons o)
      intro x hx
      apply hpos
      rw [hd]
      exact List.mem_append_left _ (List.mem_append_right _ hx)
    have hrate : exact (minutes * MINUTE) = MAINTENANCE_RATE_BYTES_PER_MINUTE * minutes := by
      unfold exact MINUTE SECOND; push_cast; ring
    have hq : (total (o :: all) : ℚ) ≤ ((MAINTENANCE_RATE_BYTES_PER_MINUTE * (minutes + 1) : Int) : ℚ) := by
      calc (total (o :: all) : ℚ) ≤ MAINTENANCE_CREDIT_BYTES + exact (last.visit - o.visit) := hfund
        _ ≤ MAINTENANCE_CREDIT_BYTES + exact (minutes * MINUTE) := by
          apply add_le_add_right (exact_mono hle)
        _ = ((MAINTENANCE_RATE_BYTES_PER_MINUTE * (minutes + 1) : Int) : ℚ) := by
          rw [hrate]; unfold MAINTENANCE_CREDIT_BYTES MAINTENANCE_RATE_BYTES_PER_MINUTE; push_cast; ring
    exact hall.trans (by exact_mod_cast hq)

theorem minutes_of_hour (now : Int) :
    0 ≤ (now - hourFloor now) / MINUTE ∧ (now - hourFloor now) / MINUTE < 60 ∧
      (now - hourFloor now) / MINUTE ≤ ⌊totalSeconds (now - hourFloor now) / 60⌋ := by
  have hlt : 0 ≤ now - hourFloor now ∧ now - hourFloor now < HOUR := by
    unfold hourFloor HOUR MINUTE SECOND; omega
  refine ⟨?_, ?_, minutes_le hlt.1 hlt.2⟩
  · unfold MINUTE SECOND; omega
  · unfold HOUR MINUTE SECOND at *; omega

theorem allowance_le (ck : Clock) (raw : Json) (now : Int) :
    MAINTENANCE_RATE_BYTES_PER_MINUTE * (1440 + (now - hourFloor now) / MINUTE + 1) +
        (maintenanceStatistic ck raw now).largestChargeBytes ≤
      (maintenanceStatistic ck raw now).allowanceBytes := by
  have := (minutes_of_hour now).2.2
  simp only [maintenanceStatistic]
  unfold MAINTENANCE_RATE_BYTES_PER_MINUTE MiB
  omega

/-- **The pacer stays within its allowance** while the visits of the counted operations are no
further apart than the whole minutes of the window. -/
theorem stays_within_allowance {p : Pacer} (h : Reached env p) (hne : p.done ≠ []) (now : Int)
    (hw : WithinMinutes now p.done) :
    (maintenanceStatistic env.clock (storedLedger p.stored) now).verdict = .ok := by
  obtain ⟨bs, booked, hl, hwf, hcap, hbooks, hsub⟩ := h.inv.ledger hne
  have hpos := h.inv.positive
  let q : Int → Prop := fun hour => hourFloor now - 24 * HOUR ≤ hour ∧ hour ≤ hourFloor now
  have hcharged := hbooks.sum_le hwf hcap (by decide) (booking_nonneg hpos hsub) q
  obtain ⟨counted, hcounted, hmap⟩ := List.sublist_map_iff.1 (List.filter_sublist.trans hsub :
    (booked.filter fun p => q p.1).Sublist (p.done.map booking))
  have hin : ∀ o ∈ counted, Counted now o := by
    intro o ho
    have : booking o ∈ booked.filter fun p => q p.1 := by rw [hmap]; exact List.mem_map_of_mem ho
    have hq : q (booking o).1 := of_decide_eq_true (List.mem_filter.1 this).2
    exact hq
  have hallow := allowance_le env.clock (storedLedger p.stored) now
  have hminutes := minutes_of_hour now
  have hlargest : 0 ≤ (maintenanceStatistic env.clock (storedLedger p.stored) now).largestChargeBytes := by
    apply largestCharge_nonneg
    rw [hl, parseLedger_serializeLedger env.clock hwf]
    intro b hb
    exact (hwf.nonneg b (List.mem_filter.1 hb).1).2
  have hbytes : (maintenanceStatistic env.clock (storedLedger p.stored) now).chargedBytes ≤
      (maintenanceStatistic env.clock (storedLedger p.stored) now).allowanceBytes := by
    have hsum : (maintenanceStatistic env.clock (storedLedger p.stored) now).chargedBytes ≤
        ((counted.map booking).map fun p => min p.2 INT64_MAX).sum := by
      rw [← hmap]
      simp only [maintenanceStatistic]
      rw [hl, parseLedger_serializeLedger env.clock hwf]
      exact hcharged
    rcases List.eq_nil_or_concat counted with rfl | ⟨init, last, rfl⟩
    · simp only [List.map_nil, List.sum_nil] at hsum
      unfold MAINTENANCE_RATE_BYTES_PER_MINUTE MiB at hallow
      omega
    · have hlast : min last.reservation INT64_MAX ≤
          (maintenanceStatistic env.clock (storedLedger p.stored) now).largestChargeBytes := by
        have hmem : booking last ∈ booked.filter fun p => q p.1 := by rw [hmap]; simp
        have := hbooks.le_largest q (List.mem_filter.1 hmem).1 (by simpa using (List.mem_filter.1 hmem).2)
        simp only [maintenanceStatistic]
        rw [hl, parseLedger_serializeLedger env.clock hwf]
        exact this
      have htotal := total_counted_le (1440 + (now - hourFloor now) / MINUTE) h.inv.funded hpos
        (by simpa using hcounted) (by omega) (by unfold SPAN MINUTE SECOND at *; omega) fun o ho => by
          have ho' : o ∈ init.concat last := by simp [ho]
          have hlast' : last ∈ init.concat last := by simp
          exact hw o (hcounted.subset ho') last (hcounted.subset hlast') (hin o ho') (hin last hlast')
      have hinit : ((init.map booking).map fun p => min p.2 INT64_MAX).sum ≤ total init := by
        rw [List.map_map]
        apply List.sum_le_sum
        intro o _
        exact min_le_left _ _
      have hsplit : (((init.concat last).map booking).map fun p => min p.2 INT64_MAX).sum =
          ((init.map booking).map fun p => min p.2 INT64_MAX).sum + min last.reservation INT64_MAX := by
        simp [booking]
      omega
  exact if_neg (not_lt.2 hbytes)

/-! ## A worked run -/

mutual

def textLength : Json → Nat
  | .null => 4
  | .bool b => if b then 4 else 5
  | .num n => (toString n).length
  | .float r => r.length
  | .str s => s.length + 2
  | .arr items => itemsLength items + 2
  | .obj fields => fieldsLength fields + 2

def itemsLength : List Json → Nat
  | [] => 0
  | [v] => textLength v
  | v :: w :: rest => textLength v + 2 + itemsLength (w :: rest)

def fieldsLength : List (String × Json) → Nat
  | [] => 0
  | [(k, v)] => k.length + 4 + textLength v
  | (k, v) :: w :: rest => k.length + 4 + textLength v + 2 + fieldsLength (w :: rest)

end

def workedStart : Int := 1767225600 * SECOND

def workedTexts : List (Int × String) :=
  [(workedStart, "2026-01-01T00:00:00Z"), (workedStart + 24 * HOUR, "2026-01-02T00:00:00Z"),
    (workedStart + 24 * HOUR + 30 * SECOND, "2026-01-02T00:00:30Z")]

theorem find_workedTexts {n : Int} {s : String} (h : Dict.find n workedTexts = some s) :
    Dict.find s (workedTexts.map Prod.swap) = some n := by
  have hkeys : (workedTexts.map Prod.fst).Nodup := by decide
  have hmem := (Dict.find_eq_some hkeys).1 h
  simp only [workedTexts, List.mem_cons, Prod.mk.injEq, List.not_mem_nil, or_false] at hmem
  rcases hmem with ⟨rfl, rfl⟩ | ⟨rfl, rfl⟩ | ⟨rfl, rfl⟩ <;> decide

def tally (n : Int) : String := String.ofList (List.replicate n.natAbs (if 0 ≤ n then '+' else '-'))

def readTally (s : String) : Option Int :=
  if s = tally s.length then some s.length else if s = tally (-s.length) then some (-s.length) else none

theorem tally_injective {n m : Int} (h : tally n = tally m) : n = m := by
  have h := String.ofList_injective h
  rw [List.replicate_inj] at h
  obtain ⟨hlen, hzero | hsign⟩ := h
  · omega
  · split at hsign <;> split at hsign
    · omega
    · exact absurd hsign (by decide)
    · exact absurd hsign (by decide)
    · omega

theorem readTally_tally (n : Int) : readTally (tally n) = some n := by
  have hl : (tally n).length = n.natAbs := by simp [tally]
  unfold readTally
  rw [hl]
  split
  · rename_i h
    rw [← tally_injective h]
  · rename_i h
    rcases Int.natAbs_eq n with hn | hn
    · exact absurd (congrArg tally hn) h
    · rw [← hn, if_pos rfl]

theorem find_tally (n : Int) : Dict.find (tally n) (workedTexts.map Prod.swap) = none := by
  rw [Dict.find_eq_none]
  intro hmem
  have htwo : ∀ s ∈ (workedTexts.map Prod.swap).map Prod.fst, '2' ∈ s.toList := by decide
  have := htwo _ hmem
  rw [tally, String.toList_ofList, List.mem_replicate] at this
  split at this <;> simp at this

def workedRead (s : String) : Option Parsed :=
  match Dict.find s (workedTexts.map Prod.swap) with
  | some t => some (.aware t)
  | none => (readTally s).bind fun t => if t ≤ MAX_INSTANT then some (.aware t) else none

theorem workedRead_back (t : Int) (ht : InYears t) :
    workedRead ((Dict.find (t - t % SECOND) workedTexts).getD (tally (t - t % SECOND))) = some (.aware (t - t % SECOND)) := by
  unfold workedRead
  cases h : Dict.find (t - t % SECOND) workedTexts with
  | some s => rw [Option.getD_some, find_workedTexts h]
  | none =>
    have hle : t - t % SECOND ≤ MAX_INSTANT := by
      have := ht.2
      unfold SECOND WriteBudget.MAX_INSTANT at *; omega
    rw [Option.getD_none, find_tally, readTally_tally]
    exact if_pos hle

theorem workedRead_aware (s : String) (t : Int) (h : workedRead s = some (.aware t)) : t ≤ MAX_INSTANT := by
  unfold workedRead at h
  split at h
  · rename_i t' ht
    have hle : ∀ p ∈ workedTexts.map Prod.swap, p.2 ≤ MAX_INSTANT := by decide
    obtain rfl : t' = t := by simpa using h
    exact hle _ ((Dict.find_eq_some (by decide)).1 ht)
  · obtain ⟨t', -, ht⟩ := Option.bind_eq_some_iff.1 h
    split at ht
    · obtain rfl : t' = t := by simpa using ht
      assumption
    · cases ht

theorem workedRead_naive (s : String) (t : Int) (h : workedRead s = some (.naive t)) : t ≤ MAX_INSTANT := by
  unfold workedRead at h
  split at h
  · cases h
  · obtain ⟨t', -, ht⟩ := Option.bind_eq_some_iff.1 h
    split at ht <;> cases ht

def workedClock : Clock :=
  ⟨fun t => (Dict.find (t - t % SECOND) workedTexts).getD (tally (t - t % SECOND)), workedRead, workedRead_back,
    workedRead_aware, workedRead_naive⟩

def workedEnv : Env := ⟨workedClock, textLength⟩

def workedBegin : Pacer := ⟨.null, workedStart, fromRecord workedEnv .null workedStart, []⟩

def workedVisit : Int := workedStart + 24 * HOUR + 30 * SECOND

def workedRun : Option Pacer := do
  let p ← workedBegin.operate workedEnv MAINTENANCE_CREDIT_BYTES workedStart
  let p ← p.operate workedEnv 6041894912 workedStart
  (p.load workedEnv workedVisit).operate workedEnv 6041894912 workedVisit

theorem workedRun_map : workedRun.map Pacer.done = some [⟨workedStart, workedStart, MAINTENANCE_CREDIT_BYTES⟩,
    ⟨workedStart, workedStart, 6041894912⟩, ⟨workedVisit, workedVisit, 6041894912⟩] := by
  decide +kernel

theorem workedRun_some : ∃ p, workedRun = some p :=
  Option.isSome_iff_exists.1 (by rw [← Option.isSome_map, workedRun_map]; rfl)

theorem workedRun_done {p : Pacer} (h : workedRun = some p) :
    p.done = [⟨workedStart, workedStart, MAINTENANCE_CREDIT_BYTES⟩, ⟨workedStart, workedStart, 6041894912⟩,
      ⟨workedVisit, workedVisit, 6041894912⟩] := by
  have hd := workedRun_map
  rw [h] at hd
  exact Option.some.inj hd

theorem workedRun_reached {p : Pacer} (h : workedRun = some p) : Reached workedEnv p := by
  obtain ⟨p₁, h₁, h⟩ := Option.bind_eq_some_iff.1 h
  obtain ⟨p₂, h₂, h₃⟩ := Option.bind_eq_some_iff.1 h
  obtain ⟨hv₁, hd₁⟩ := operate_keeps h₁
  obtain ⟨hv₂, hd₂⟩ := operate_keeps h₂
  have hstart : Reached workedEnv workedBegin := .start trivial (by decide)
  have hr₁ : Reached workedEnv p₁ := hstart.operate (by decide) (by decide) (by decide) h₁
  have hr₂ : Reached workedEnv p₂ := hr₁.operate (by decide) hv₁.le (by decide) h₂
  have hr₃ : Reached workedEnv (p₂.load workedEnv workedVisit) := by
    apply hr₂.visit
    · rw [hv₂, hv₁]; decide
    · decide
    · rw [hd₂, hd₁, hv₁]; decide
  have hvisit : InYears workedVisit := by decide
  exact hr₃.operate (by decide) (le_refl _) hvisit h₃

theorem stays_within_allowance_worked :
    ∃ p, workedRun = some p ∧ (maintenanceStatistic workedEnv.clock (storedLedger p.stored)
      (workedStart + 24 * HOUR + 60 * SECOND)).verdict = .ok := by
  obtain ⟨p, hp⟩ := workedRun_some
  have hd := workedRun_done hp
  refine ⟨p, hp, stays_within_allowance (workedRun_reached hp) (by rw [hd]; exact List.cons_ne_nil _ _) _ ?_⟩
  have hw : ∀ o ∈ p.done, ∀ o' ∈ p.done, o'.visit - o.visit ≤
      (1440 + (workedStart + 24 * HOUR + 60 * SECOND - hourFloor (workedStart + 24 * HOUR + 60 * SECOND)) / MINUTE) *
        MINUTE := by
    rw [hd]; decide
  exact fun o ho o' ho' _ _ => hw o ho o' ho'

/-- **Half a minute is lost to the whole minutes**: the charges exceed the allowance right after
the last operation, each of which was admitted. -/
theorem lost_half_minute : ¬ ∀ (env : Env) (p : Pacer), Reached env p → p.done ≠ [] →
    ∀ now, (∀ o ∈ p.done.getLast?, o.started ≤ now) →
      (maintenanceStatistic env.clock (storedLedger p.stored) now).verdict = .ok := by
  intro hall
  obtain ⟨p, hp⟩ := workedRun_some
  have hd := workedRun_done hp
  have hok := hall workedEnv p (workedRun_reached hp) (by rw [hd]; exact List.cons_ne_nil _ _) workedVisit (by
    rw [hd]; decide)
  have hover : workedRun.map (fun p => (maintenanceStatistic workedEnv.clock (storedLedger p.stored) workedVisit).verdict) =
      some .over := by decide +kernel
  rw [hp, Option.map_some, hok] at hover
  exact absurd hover (by decide)

end Cctally.Pacing
