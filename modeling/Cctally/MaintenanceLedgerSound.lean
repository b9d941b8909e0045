import Cctally.MaintenanceLedger
import Mathlib.Data.List.MinMax

/-!
# What the ledger holds

A ledger the code itself wrote reads back as it was. A charge goes into one
bucket; every other bucket stays as it is or is dropped.
-/

namespace Cctally.WriteBudget

open Json (field fieldD)

structure WellFormed (bs : List LedgerBucket) : Prop where
  ascending : bs.Pairwise fun a b => a.hour < b.hour
  onHour : ∀ b ∈ bs, InYears b.hour ∧ b.hour % HOUR = 0
  nonneg : ∀ b ∈ bs, 0 ≤ b.charged ∧ 0 ≤ b.largest

theorem wellFormed_nil : WellFormed [] := ⟨.nil, by simp, by simp⟩

theorem WellFormed.sublist {bs bs' : List LedgerBucket} (h : WellFormed bs) (hs : bs'.Sublist bs) : WellFormed bs' :=
  ⟨h.ascending.sublist hs, fun b hb => h.onHour b (hs.subset hb), fun b hb => h.nonneg b (hs.subset hb)⟩

theorem WellFormed.nodup {bs : List LedgerBucket} (h : WellFormed bs) : (bs.map LedgerBucket.hour).Nodup := by
  rw [List.Nodup, List.pairwise_map]
  exact h.ascending.imp fun hlt => hlt.ne

theorem hourFloor_mod (t : Int) : hourFloor t % HOUR = 0 := by
  unfold hourFloor HOUR MINUTE SECOND; omega

theorem hourFloor_of_mod {t : Int} (h : t % HOUR = 0) : hourFloor t = t := by
  rw [hourFloor, h, sub_zero]

theorem hourFloor_inYears {t : Int} (h : InYears t) : InYears (hourFloor t) := by
  unfold InYears hourFloor MIN_INSTANT MAX_INSTANT HOUR MINUTE SECOND at *
  omega

theorem second_of_hour {t : Int} (h : t % HOUR = 0) : t % SECOND = 0 := by
  unfold HOUR MINUTE SECOND at *; omega

theorem perm_sortBuckets (bs : List LedgerBucket) : (sortBuckets bs).Perm bs := List.perm_insertionSort _ bs

theorem sortBuckets_of_ascending {bs : List LedgerBucket} (h : bs.Pairwise fun a b => a.hour < b.hour) :
    sortBuckets bs = bs :=
  List.Pairwise.insertionSort_eq (h.imp le_of_lt)

theorem ascending_sortBuckets {bs : List LedgerBucket} (h : (bs.map LedgerBucket.hour).Nodup) :
    (sortBuckets bs).Pairwise fun a b => a.hour < b.hour := by
  have : Std.Total fun a b : LedgerBucket => a.hour ≤ b.hour := ⟨fun a b => le_total a.hour b.hour⟩
  have : IsTrans LedgerBucket fun a b => a.hour ≤ b.hour := ⟨fun a b c => le_trans⟩
  have hle : (sortBuckets bs).Pairwise fun a b => a.hour ≤ b.hour := List.pairwise_insertionSort _ bs
  have hne : (sortBuckets bs).Pairwise fun a b => a.hour ≠ b.hour := by
    rw [← List.pairwise_map (f := LedgerBucket.hour) (R := (· ≠ ·))]
    exact ((perm_sortBuckets bs).map _).nodup_iff.2 h
  exact hle.imp₂ (fun _ _ => lt_of_le_of_ne) hne

section
variable (ck : Clock)

theorem field_serializeBucket (b : LedgerBucket) :
    ∃ d, serializeBucket ck b = .obj d ∧ field d "hour" = .str (isoZ ck b.hour) ∧
      field d "charged" = .num b.charged ∧ fieldD d "largest" (field d "charged") = .num b.largest := by
  refine ⟨_, rfl, ?_, ?_, ?_⟩
  · rw [Json.field_sortFields (by simp)]; rfl
  · rw [Json.field_sortFields (by simp)]; rfl
  · rw [fieldD, Json.find_sortFields (by simp)]; rfl

theorem readEntry_serializeBucket {b : LedgerBucket} (hh : InYears b.hour ∧ b.hour % HOUR = 0)
    (hn : 0 ≤ b.charged ∧ 0 ≤ b.largest) {buckets : Dict Int LedgerBucket} (hb : buckets.get? b.hour = none) :
    readEntry ck buckets (serializeBucket ck b) = buckets.set b.hour b := by
  obtain ⟨d, hd, hhour, hcharged, hlargest⟩ := field_serializeBucket ck b
  have hparse : parseHour ck (.str (isoZ ck b.hour)) = some b.hour := by
    simp only [parseHour, isoZ, ck.reads_back _ hh.1, second_of_hour hh.2, sub_zero, hourFloor_of_mod hh.2]
  rw [hd, readEntry, hlargest, hhour, hparse, hcharged]
  simp only [hb]
  rw [if_neg (by omega)]

theorem foldl_readEntry {bs : List LedgerBucket} (h : WellFormed bs) (buckets : Dict Int LedgerBucket)
    (hb : ∀ b ∈ bs, buckets.get? b.hour = none) :
    (serializeLedger ck bs).foldl (readEntry ck) buckets =
      (bs.map fun b => (b.hour, b)).foldl (fun d p => d.set p.1 p.2) buckets := by
  induction bs generalizing buckets with
  | nil => rfl
  | cons b bs ih =>
    have hbs : WellFormed bs := h.sublist (List.sublist_cons_self b bs)
    have hread := readEntry_serializeBucket ck (h.onHour b List.mem_cons_self) (h.nonneg b List.mem_cons_self)
      (hb b List.mem_cons_self)
    simp only [serializeLedger, List.map_cons, List.foldl_cons] at *
    rw [hread]
    apply ih hbs
    intro c hc
    have hlt := (List.pairwise_cons.1 h.ascending).1 c hc
    rw [Dict.get?_set_ne _ _ hlt.ne]
    exact hb c (List.mem_cons_of_mem _ hc)

/-- **A ledger that was written reads back as it was.** -/
theorem parseLedger_serializeLedger {bs : List LedgerBucket} (h : WellFormed bs) :
    parseLedger ck (.arr (serializeLedger ck bs)) = bs := by
  have hkeys : ((bs.map fun b => (b.hour, b)).map Prod.fst).Nodup := by
    rw [List.map_map]; exact h.nodup
  rw [parseLedger, foldl_readEntry ck h _ (fun b _ => Dict.get?_empty _)]
  have hperm : (Dict.ofList (bs.map fun b => (b.hour, b))).values.Perm bs := by
    have := (Dict.perm_ofList hkeys).map Prod.snd
    rwa [List.map_map, show (Prod.snd ∘ fun b : LedgerBucket => (b.hour, b)) = id from rfl, List.map_id] at this
  have hnodup := (hperm.map LedgerBucket.hour).nodup_iff.2 h.nodup
  calc sortBuckets (Dict.ofList (bs.map fun b => (b.hour, b))).values
      = sortBuckets bs := insertionSort_congr LedgerBucket.hour hnodup hperm
    _ = bs := sortBuckets_of_ascending h.ascending

end

/-- The bucket of `hour` with a charge added. -/
def charged (bs : List LedgerBucket) (hour charge : Int) : LedgerBucket :=
  match (Dict.ofList (bs.map fun b => (b.hour, b))).get? hour with
  | some prior => ⟨hour, prior.charged + charge, max prior.largest charge⟩
  | none => ⟨hour, charge, max 0 charge⟩

def bookCharge (bs : List LedgerBucket) (hour charge : Int) : List LedgerBucket :=
  lastBuckets (sortBuckets (((Dict.ofList (bs.map fun b => (b.hour, b))).set hour (charged bs hour charge)).values.filter
    fun b => hour - (LEDGER_BUCKETS - 1) * HOUR ≤ b.hour))

def ByHour (d : Dict Int LedgerBucket) : Prop := ∀ k b, d.get? k = some b → b.hour = k

theorem ByHour.nodup {d : Dict Int LedgerBucket} (h : ByHour d) : (d.values.map LedgerBucket.hour).Nodup := by
  have hkeys : d.values.map LedgerBucket.hour = d.keys := by
    rw [Dict.values, Dict.keys, List.map_map]
    apply List.map_congr_left
    rintro ⟨k, b⟩ hp
    exact h k b (Dict.get?_eq_some.2 hp)
  rw [hkeys]
  exact d.nodup

theorem mem_ofList {bs : List LedgerBucket} {k : Int} {b : LedgerBucket}
    (h : (Dict.ofList (bs.map fun b => (b.hour, b))).get? k = some b) : b ∈ bs ∧ b.hour = k := by
  obtain ⟨b', hb, he⟩ := List.mem_map.1 (Dict.mem_of_get?_ofList h)
  obtain ⟨rfl, rfl⟩ := Prod.mk.inj he
  exact ⟨hb, rfl⟩

theorem charged_hour (bs : List LedgerBucket) (hour charge : Int) : (charged bs hour charge).hour = hour := by
  unfold charged; split <;> rfl

theorem charged_cases (bs : List LedgerBucket) (hour charge : Int) :
    (∃ prior ∈ bs, prior.hour = hour ∧
      charged bs hour charge = ⟨hour, prior.charged + charge, max prior.largest charge⟩) ∨
    (∀ b ∈ bs, b.hour ≠ hour) ∧ charged bs hour charge = ⟨hour, charge, max 0 charge⟩ := by
  unfold charged
  cases hg : (Dict.ofList (bs.map fun b => (b.hour, b))).get? hour with
  | some prior => exact .inl ⟨prior, (mem_ofList hg).1, (mem_ofList hg).2, rfl⟩
  | none =>
    refine .inr ⟨fun b hb he => ?_, rfl⟩
    apply Dict.get?_eq_none.1 hg
    rw [Dict.mem_keys_ofList, List.map_map]
    exact List.mem_map.2 ⟨b, hb, he⟩

theorem byHour_set (bs : List LedgerBucket) (hour charge : Int) :
    ByHour ((Dict.ofList (bs.map fun b => (b.hour, b))).set hour (charged bs hour charge)) := by
  intro k b h
  rw [Dict.get?_set] at h
  split at h
  · rename_i hk
    rw [← Option.some.inj h, charged_hour, hk]
  · exact (mem_ofList h).2

theorem lastBuckets_sublist (bs : List LedgerBucket) : (lastBuckets bs).Sublist bs := List.drop_sublist _ bs

theorem mem_bookCharge {bs : List LedgerBucket} {hour charge : Int} {b : LedgerBucket}
    (h : b ∈ bookCharge bs hour charge) :
    b = charged bs hour charge ∨ b ∈ bs ∧ b.hour ≠ hour := by
  have h := (perm_sortBuckets _).mem_iff.1 ((lastBuckets_sublist _).subset h)
  obtain ⟨k, hk⟩ := Dict.mem_values.1 (List.mem_filter.1 h).1
  rw [Dict.get?_set] at hk
  split at hk
  · exact .inl (Option.some.inj hk).symm
  · rename_i hne
    obtain ⟨hb, rfl⟩ := mem_ofList hk
    exact .inr ⟨hb, Ne.symm hne⟩

theorem wellFormed_bookCharge {bs : List LedgerBucket} (h : WellFormed bs) {hour charge : Int}
    (hh : InYears hour ∧ hour % HOUR = 0) (hc : 0 ≤ charge) : WellFormed (bookCharge bs hour charge) where
  ascending := by
    apply List.Pairwise.sublist (lastBuckets_sublist _)
    apply ascending_sortBuckets
    exact List.Sublist.nodup (List.filter_sublist.map _) (byHour_set bs hour charge).nodup
  onHour b hb := by
    rcases mem_bookCharge hb with rfl | ⟨hb, -⟩
    · rwa [charged_hour]
    · exact h.onHour b hb
  nonneg b hb := by
    rcases mem_bookCharge hb with rfl | ⟨hb, -⟩
    · rcases charged_cases bs hour charge with ⟨prior, hp, -, he⟩ | ⟨-, he⟩
      · have := h.nonneg prior hp
        rw [he]; dsimp only; omega
      · rw [he]; dsimp only; omega
    · exact h.nonneg b hb

theorem length_bookCharge (bs : List LedgerBucket) (hour charge : Int) :
    (bookCharge bs hour charge).length ≤ LEDGER_BUCKETS := by
  unfold bookCharge lastBuckets
  rw [List.length_drop]
  omega

theorem ledgerAdd_eq (ck : Clock) {bs : List LedgerBucket} (h : WellFormed bs) (atUtc : Int) {charge : Int}
    (hc : 0 ≤ charge) :
    ledgerAdd ck (serializeLedger ck bs) atUtc charge = serializeLedger ck (bookCharge bs (hourFloor atUtc) charge) := by
  rw [ledgerAdd, parseLedger_serializeLedger ck h, max_eq_right hc]
  rfl

/-- What a ledger whose counts are cut off at `cap` can still show of some charges: their hour
and their bytes. -/
def bookedAt (cap : Int) (booked : List (Int × Int)) (hour : Int) : Int :=
  ((booked.filter fun p => p.1 = hour).map fun p => min p.2 cap).sum

/-- Every bucket is made up of the charges booked in its hour, and each of these is no more
than the largest of its bucket. -/
structure Books (cap : Int) (bs : List LedgerBucket) (booked : List (Int × Int)) : Prop where
  charged : ∀ b ∈ bs, min b.charged cap ≤ bookedAt cap booked b.hour
  largest : ∀ p ∈ booked, ∃ b ∈ bs, b.hour = p.1 ∧ min p.2 cap ≤ min b.largest cap

variable {cap : Int} {bs : List LedgerBucket} {booked : List (Int × Int)}

theorem books_nil (cap : Int) : Books cap [] [] := ⟨by simp, by simp⟩

theorem bookedAt_append (booked booked' : List (Int × Int)) (hour : Int) :
    bookedAt cap (booked ++ booked') hour = bookedAt cap booked hour + bookedAt cap booked' hour := by
  simp [bookedAt]

theorem bookedAt_filter (q : Int → Prop) [DecidablePred q] (booked : List (Int × Int)) {hour : Int} (h : q hour) :
    bookedAt cap (booked.filter fun p => q p.1) hour = bookedAt cap booked hour := by
  unfold bookedAt
  rw [List.filter_filter]
  congr 2
  apply List.filter_congr
  intro p _
  by_cases hp : p.1 = hour
  · simp [hp, h]
  · simp [hp]

/-- **Booking a charge**: the charges of dropped hours are forgotten with their buckets. -/
theorem Books.book (h : Books cap bs booked) (hw : WellFormed bs) {hour charge : Int} (hcap : 0 ≤ cap)
    (hc : 0 ≤ charge) :
    Books cap (bookCharge bs hour charge)
      ((booked ++ [(hour, charge)]).filter fun p => p.1 ∈ (bookCharge bs hour charge).map LedgerBucket.hour) where
  charged b hb := by
    have hmem : b.hour ∈ (bookCharge bs hour charge).map LedgerBucket.hour := List.mem_map.2 ⟨b, hb, rfl⟩
    rw [bookedAt_filter (· ∈ (bookCharge bs hour charge).map LedgerBucket.hour) _ hmem, bookedAt_append]
    rcases mem_bookCharge hb with rfl | ⟨hold, hne⟩
    · rw [charged_hour]
      have hnew : bookedAt cap [(hour, charge)] hour = min charge cap := by simp [bookedAt]
      rw [hnew]
      rcases charged_cases bs hour charge with ⟨prior, hp, rfl, he⟩ | ⟨hnone, he⟩
      · have hprior := h.charged prior hp
        have := (hw.nonneg prior hp).1
        rw [he]; dsimp only; omega
      · have hzero : 0 ≤ bookedAt cap booked hour := by
          apply List.sum_nonneg
          intro x hx
          obtain ⟨p, hp, rfl⟩ := List.mem_map.1 hx
          obtain ⟨b, hb, he, -⟩ := h.largest p (List.mem_filter.1 hp).1
          have := (List.mem_filter.1 hp).2
          simp only [decide_eq_true_eq] at this
          exact absurd (he.trans this) (hnone b hb)
        rw [he]; dsimp only; omega
    · have hother : bookedAt cap [(hour, charge)] b.hour = 0 := by simp [bookedAt, Ne.symm hne]
      rw [hother, add_zero]
      exact h.charged b hold
  largest p hp := by
    obtain ⟨hp, hmem⟩ := List.mem_filter.1 hp
    obtain ⟨b, hb, hbp⟩ := List.mem_map.1 (by simpa using hmem)
    refine ⟨b, hb, hbp, ?_⟩
    rcases mem_bookCharge hb with rfl | ⟨hold, hne⟩
    · rw [charged_hour] at hbp
      rcases List.mem_append.1 hp with hp | hp
      · obtain ⟨b', hb', he', hle⟩ := h.largest p hp
        rcases charged_cases bs hour charge with ⟨prior, hprior, hph, he⟩ | ⟨hnone, -⟩
        · have hsame : b' = prior := List.inj_on_of_nodup_map hw.nodup hb' hprior (by omega)
          subst hsame
          rw [he]; dsimp only; omega
        · exact absurd (he'.trans hbp.symm) (hnone b' hb')
      · obtain rfl := List.mem_singleton.1 hp
        rcases charged_cases bs hour charge with ⟨prior, -, -, he⟩ | ⟨-, he⟩
        · rw [he]; dsimp only; omega
        · rw [he]; dsimp only; omega
    · rcases List.mem_append.1 hp with hp | hp
      · obtain ⟨b', hb', he', hle⟩ := h.largest p hp
        have hsame : b' = b := List.inj_on_of_nodup_map hw.nodup hb' hold (by omega)
        rwa [hsame] at hle
      · obtain rfl := List.mem_singleton.1 hp
        exact absurd hbp hne

/-! ## The window -/

theorem sum_bookedAt (cap : Int) (booked : List (Int × Int)) : ∀ {hours : List Int}, hours.Nodup →
    (hours.map (bookedAt cap booked)).sum = ((booked.filter fun p => p.1 ∈ hours).map fun p => min p.2 cap).sum
  | [], _ => by simp
  | hour :: hours, hn => by
    rw [List.nodup_cons] at hn
    rw [List.map_cons, List.sum_cons, sum_bookedAt cap booked hn.2]
    unfold bookedAt
    induction booked with
    | nil => rfl
    | cons p booked ih =>
      simp only [List.filter_cons, List.mem_cons, decide_eq_true_eq]
      by_cases hp : p.1 = hour
      · have hnot : p.1 ∉ hours := hp ▸ hn.1
        simp only [List.mem_cons] at ih
        simp only [hp, hn.1, if_true, true_or, List.map_cons, List.sum_cons, if_false]
        rw [← ih]; omega
      · simp only [List.mem_cons] at ih
        by_cases hm : p.1 ∈ hours
        · simp only [hp, hm, if_true, or_true, List.map_cons, List.sum_cons, if_false]
          rw [← ih]; omega
        · simp only [hp, hm, if_false, or_false]
          exact ih

theorem Books.sum_le (h : Books cap bs booked) (hw : WellFormed bs) (hcap : ∀ b ∈ bs, b.charged ≤ cap) (h0 : 0 ≤ cap)
    (hbooked : ∀ p ∈ booked, 0 ≤ p.2) (q : Int → Prop) [DecidablePred q] :
    ((bs.filter fun b => q b.hour).map LedgerBucket.charged).sum ≤
      ((booked.filter fun p => q p.1).map fun p => min p.2 cap).sum := by
  have hsub : (bs.filter fun b => q b.hour).Sublist bs := List.filter_sublist
  have hnodup := (hw.sublist hsub).nodup
  calc ((bs.filter fun b => q b.hour).map LedgerBucket.charged).sum
      ≤ ((bs.filter fun b => q b.hour).map fun b => bookedAt cap booked b.hour).sum := by
        apply List.sum_le_sum
        intro b hb
        have hle := h.charged b (hsub.subset hb)
        rwa [min_eq_left (hcap b (hsub.subset hb))] at hle
    _ = (((bs.filter fun b => q b.hour).map LedgerBucket.hour).map (bookedAt cap booked)).sum := by
        rw [List.map_map]; rfl
    _ = ((booked.filter fun p => p.1 ∈ (bs.filter fun b => q b.hour).map LedgerBucket.hour).map
          fun p => min p.2 cap).sum := sum_bookedAt cap booked hnodup
    _ ≤ ((booked.filter fun p => q p.1).map fun p => min p.2 cap).sum := by
        apply List.Sublist.sum_le_sum
        · apply List.Sublist.map
          apply List.monotone_filter_right
          intro p hp
          obtain ⟨b, hb, he⟩ := List.mem_map.1 (of_decide_eq_true hp)
          rw [← he]
          exact (List.mem_filter.1 hb).2
        · intro x hx
          obtain ⟨p, hp, rfl⟩ := List.mem_map.1 hx
          exact le_min (hbooked p (List.mem_filter.1 hp).1) h0

theorem le_largestCharge {inside : List LedgerBucket} {b : LedgerBucket} (hb : b ∈ inside) :
    b.largest ≤ largestCharge inside := by
  unfold largestCharge
  cases hm : (inside.map LedgerBucket.largest).max? with
  | none =>
    rw [List.max?_eq_none_iff, List.map_eq_nil_iff] at hm
    rw [hm] at hb
    nomatch hb
  | some m => exact (List.max?_eq_some_iff.1 hm).2 _ (List.mem_map_of_mem hb)

theorem largestCharge_nonneg {inside : List LedgerBucket} (h : ∀ b ∈ inside, 0 ≤ b.largest) :
    0 ≤ largestCharge inside := by
  unfold largestCharge
  cases hm : (inside.map LedgerBucket.largest).max? with
  | none => rfl
  | some m =>
    obtain ⟨b, hb, rfl⟩ := List.mem_map.1 (List.max?_mem hm)
    exact h b hb

theorem Books.le_largest (h : Books cap bs booked) (q : Int → Prop) [DecidablePred q] {p : Int × Int}
    (hp : p ∈ booked) (hq : q p.1) : min p.2 cap ≤ largestCharge (bs.filter fun b => q b.hour) := by
  obtain ⟨b, hb, he, hle⟩ := h.largest p hp
  have hin : b ∈ bs.filter fun b => q b.hour := List.mem_filter.2 ⟨hb, by simpa [he] using hq⟩
  exact hle.trans ((min_le_left _ _).trans (le_largestCharge hin))

theorem minutes_le {us : Int} (h0 : 0 ≤ us) (h : us < HOUR) : us / MINUTE ≤ ⌊totalSeconds us / 60⌋ := by
  rw [Int.le_floor, totalSeconds, le_div_iff₀ (by norm_num)]
  obtain ⟨k, hk⟩ := Int.eq_ofNat_of_zero_le (show 0 ≤ us / MINUTE by unfold MINUTE SECOND; omega)
  have hk60 : k < 60 := by unfold HOUR MINUTE SECOND at *; omega
  have hq : ((us / MINUTE : Int) : ℚ) = (k : ℚ) := by rw [hk]; rfl
  rw [hq]
  rcases eq_or_ne (us % MINUTE) 0 with hr | hr
  · have hus : (us : ℚ) / 1000000 = ((k * 60 : ℕ) : ℚ) := by
      have : us = k * 60000000 := by unfold MINUTE SECOND at *; omega
      rw [this]; push_cast; ring
    rw [hus, Doubles.round_natCast (by omega)]
    push_cast
    exact le_refl _
  · have hlo : (k : ℚ) * 60 + 1 / 1000000 ≤ us / 1000000 := by
      have : (k : Int) * 60000000 + 1 ≤ us := by unfold MINUTE SECOND at *; omega
      have : (k : ℚ) * 60000000 + 1 ≤ us := by exact_mod_cast this
      linarith
    have hhi : (us : ℚ) / 1000000 ≤ 3600 := by
      have : us ≤ 3600000000 := by unfold HOUR MINUTE SECOND at h; omega
      have : (us : ℚ) ≤ 3600000000 := by exact_mod_cast this
      linarith
    have hround := Doubles.le_round (q := us / 1000000) (by positivity)
    linarith

end Cctally.WriteBudget
