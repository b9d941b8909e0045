import Cctally.Pacing
import Cctally.TokenBucket
import Cctally.MaintenanceLedgerSound

/-!
# Accrual and the stored record

Over a day and an hour the doubles never accrue a byte more than the rate, and over
any longer time they are off by three roundings. What a charge stores reads back
with an instant that is no earlier and with counts cut off at 64 bits.
-/

namespace Cctally.Pacing

open Json (field Fields)
open WriteBudget TokenBucket

def SPAN : Int := 1500 * MINUTE

def exact (us : Int) : ℚ := MAINTENANCE_RATE_BYTES_PER_MINUTE * us / (60 * 1000000)

def SLACK : ℚ := (1 + 1 / 2 ^ 53) ^ 3

def allowed (us : Int) : ℚ := if us ≤ SPAN then exact us else exact us * SLACK

theorem one_le_slack : 1 ≤ SLACK := by norm_num [SLACK]

theorem rate_pos : (0 : ℚ) < (MAINTENANCE_RATE_BYTES_PER_MINUTE : ℚ) := by
  norm_num [MAINTENANCE_RATE_BYTES_PER_MINUTE, MiB]

theorem exact_nonneg {us : Int} (h : 0 ≤ us) : 0 ≤ exact us := by
  have : (0 : ℚ) ≤ us := by exact_mod_cast h
  have := rate_pos
  unfold exact; positivity

theorem exact_add (a b : Int) : exact (a + b) = exact a + exact b := by
  unfold exact; push_cast; ring

theorem exact_mono {a b : Int} (h : a ≤ b) : exact a ≤ exact b := by
  have := exact_add a (b - a)
  rw [add_sub_cancel] at this
  rw [this]
  exact le_add_of_nonneg_right (exact_nonneg (by omega))

theorem exact_le_allowed {us : Int} (h : 0 ≤ us) : exact us ≤ allowed us := by
  unfold allowed
  split
  · exact le_refl _
  · exact le_mul_of_one_le_right (exact_nonneg h) one_le_slack

theorem allowed_le {us : Int} (h : 0 ≤ us) : allowed us ≤ exact us * SLACK := by
  unfold allowed
  split
  · exact le_mul_of_one_le_right (exact_nonneg h) one_le_slack
  · exact le_refl _

theorem allowed_add_le {a b : Int} (ha : 0 ≤ a) (hb : 0 ≤ b) : allowed a + allowed b ≤ allowed (a + b) := by
  by_cases hs : a + b ≤ SPAN
  · rw [allowed, allowed, allowed, if_pos (by omega), if_pos (by omega), if_pos hs, exact_add]
  · calc allowed a + allowed b ≤ exact a * SLACK + exact b * SLACK := add_le_add (allowed_le ha) (allowed_le hb)
      _ = exact (a + b) * SLACK := by rw [exact_add, add_mul]
      _ = allowed (a + b) := by rw [allowed, if_neg hs]

theorem allowed_nonneg {us : Int} (h : 0 ≤ us) : 0 ≤ allowed us := (exact_nonneg h).trans (exact_le_allowed h)

theorem allowed_mono {a b : Int} (ha : 0 ≤ a) (h : a ≤ b) : allowed a ≤ allowed b := by
  have := allowed_add_le ha (show 0 ≤ b - a by omega)
  rw [add_sub_cancel] at this
  exact (le_add_of_nonneg_right (allowed_nonneg (by omega))).trans this

def grant : Grant Int ℚ where
  between a b := allowed (b - a)
  nonneg h := allowed_nonneg (by omega)
  add_le {a b c} hab hbc := by
    have := allowed_add_le (show 0 ≤ b - a by omega) (show 0 ≤ c - b by omega)
    rwa [sub_add_sub_cancel'] at this

theorem totalSeconds_nonneg {us : Int} (h : 0 ≤ us) : 0 ≤ totalSeconds us := by
  apply Doubles.round_nonneg
  have : (0 : ℚ) ≤ us := by exact_mod_cast h
  positivity

theorem accrued_nonpos {us : Int} (h : us ≤ 0) : accrued us = 0 := by
  have hround : totalSeconds us ≤ 0 := by
    apply Doubles.round_nonpos
    have : (us : ℚ) ≤ 0 := by exact_mod_cast h
    exact div_nonpos_of_nonpos_of_nonneg this (by norm_num)
  simp [accrued, max_eq_left hround, trunc]

theorem accrued_value_le {us : Int} (h : 0 ≤ us) :
    Doubles.round (Doubles.round (MAINTENANCE_RATE_BYTES_PER_MINUTE * totalSeconds us) / 60) ≤ exact us * SLACK := by
  have hus : (0 : ℚ) ≤ us := by exact_mod_cast h
  have hrate := rate_pos
  have hsec : totalSeconds us ≤ us / 1000000 * (1 + 1 / 2 ^ 53) := Doubles.round_le (by positivity)
  have hsec0 := totalSeconds_nonneg h
  have hmul : Doubles.round (MAINTENANCE_RATE_BYTES_PER_MINUTE * totalSeconds us) ≤
      MAINTENANCE_RATE_BYTES_PER_MINUTE * totalSeconds us * (1 + 1 / 2 ^ 53) := Doubles.round_le (by positivity)
  have hmul0 : 0 ≤ Doubles.round (MAINTENANCE_RATE_BYTES_PER_MINUTE * totalSeconds us) :=
    Doubles.round_nonneg (by positivity)
  calc Doubles.round (Doubles.round (MAINTENANCE_RATE_BYTES_PER_MINUTE * totalSeconds us) / 60)
      ≤ Doubles.round (MAINTENANCE_RATE_BYTES_PER_MINUTE * totalSeconds us) / 60 * (1 + 1 / 2 ^ 53) :=
        Doubles.round_le (by positivity)
    _ ≤ MAINTENANCE_RATE_BYTES_PER_MINUTE * totalSeconds us * (1 + 1 / 2 ^ 53) / 60 * (1 + 1 / 2 ^ 53) := by
        gcongr
    _ ≤ MAINTENANCE_RATE_BYTES_PER_MINUTE * (us / 1000000 * (1 + 1 / 2 ^ 53)) * (1 + 1 / 2 ^ 53) / 60 *
          (1 + 1 / 2 ^ 53) := by
        gcongr
    _ = exact us * SLACK := by unfold exact SLACK; ring

theorem accrued_eq_floor {us : Int} (h : 0 ≤ us) :
    accrued us = ⌊Doubles.round (Doubles.round (MAINTENANCE_RATE_BYTES_PER_MINUTE * totalSeconds us) / 60)⌋ := by
  have hsec0 := totalSeconds_nonneg h
  have hrate := rate_pos
  have hmul0 := Doubles.round_nonneg (mul_nonneg hrate.le hsec0)
  have h0 := Doubles.round_nonneg (div_nonneg hmul0 (show (0 : ℚ) ≤ 60 by norm_num))
  simp only [accrued, max_eq_right hsec0, trunc, if_pos h0]

theorem le_exact_of_le_slack {n us : Int} (h0 : 0 ≤ us) (hs : us ≤ SPAN) (hn : (n : ℚ) ≤ exact us * SLACK) :
    (n : ℚ) ≤ exact us := by
  by_contra hlt
  rw [not_le] at hlt
  have hus : (us : ℚ) ≤ 90000000000 := by
    have : us ≤ 90000000000 := by unfold SPAN MINUTE SECOND at hs; omega
    exact_mod_cast this
  have hex : exact us * 234375 = 16384 * us := by
    unfold exact MAINTENANCE_RATE_BYTES_PER_MINUTE MiB; push_cast; ring
  have hint : 16384 * us + 1 ≤ n * 234375 := by
    have : (16384 * us : ℚ) < n * 234375 := by rw [← hex]; linarith
    have : 16384 * us < n * 234375 := by exact_mod_cast this
    omega
  have hint : (16384 * us + 1 : ℚ) ≤ n * 234375 := by exact_mod_cast hint
  have hslack : SLACK ≤ 1 + 4 / 2 ^ 53 := by norm_num [SLACK]
  have hexact := exact_nonneg h0
  have : exact us * SLACK ≤ exact us * (1 + 4 / 2 ^ 53) := mul_le_mul_of_nonneg_left hslack hexact
  linarith

/-- **The doubles never accrue more than the clock allows.** -/
theorem accrued_le {us : Int} (h : 0 ≤ us) : (accrued us : ℚ) ≤ allowed us := by
  have hv := accrued_value_le h
  have hfloor : (accrued us : ℚ) ≤ exact us * SLACK := by
    rw [accrued_eq_floor h]
    exact (Int.floor_le _).trans hv
  unfold allowed
  split
  · rename_i hs
    exact le_exact_of_le_slack h hs hfloor
  · exact hfloor

theorem available_le (s : PacingState) (now : Int) : s.available now ≤ MAINTENANCE_CREDIT_BYTES := min_le_left _ _

theorem available_le_grant (s : PacingState) {since now : Int} (hs : since ≤ s.asOf) (hn : since ≤ now) :
    (s.available now : ℚ) ≤ s.balanceBytes + grant.between since now := by
  have hle : (s.available now : ℚ) ≤ s.balanceBytes + accrued (now - s.asOf) := by
    exact_mod_cast min_le_right _ _
  refine hle.trans (add_le_add_right ?_ _)
  by_cases hback : now - s.asOf ≤ 0
  · rw [accrued_nonpos hback, Int.cast_zero]
    exact grant.nonneg hn
  · exact (accrued_le (by omega)).trans (allowed_mono (by omega) (by omega))

/-! ## What a charge stores -/

theorem ceilSecond_le {t c : Int} (h : ceilSecond t = some c) : t ≤ c := by
  unfold ceilSecond at h
  split at h
  · exact (Option.some.inj h).le
  · split at h
    · rw [← Option.some.inj h]; unfold SECOND; omega
    · cases h

theorem ceilSecond_whole {t c : Int} (h : ceilSecond t = some c) : c % SECOND = 0 := by
  unfold ceilSecond at h
  split at h
  · rw [← Option.some.inj h]; assumption
  · split at h
    · rw [← Option.some.inj h]; unfold SECOND; omega
    · cases h

theorem ceilSecond_inYears {t c : Int} (ht : InYears t) (h : ceilSecond t = some c) : InYears c := by
  refine ⟨ht.1.trans (ceilSecond_le h), ?_⟩
  unfold ceilSecond at h
  split at h
  · rw [← Option.some.inj h]; exact ht.2
  · split at h
    · rw [← Option.some.inj h]; assumption
    · cases h

variable {env : Env}

theorem parseUtc_isoZ {t : Int} (ht : InYears t) (hs : t % SECOND = 0) :
    parseUtc env (.str (isoZ env.clock t)) = some t := by
  simp only [parseUtc, isoZ, env.clock.reads_back t ht, hs, sub_zero]

theorem parseUtc_le {value : Json} {t : Int} (h : parseUtc env value = some t) : t ≤ MAX_INSTANT := by
  unfold parseUtc at h
  split at h
  · split at h
    · rename_i ht; rw [← Option.some.inj h]; exact env.clock.reads_aware _ _ ht
    · rename_i ht; rw [← Option.some.inj h]; exact env.clock.reads_naive _ _ ht
    · cases h
  · cases h

theorem boundedInstant_isoZ {t : Int} (ht : InYears t) (hs : t % SECOND = 0) :
    boundedInstant env (.str (isoZ env.clock t)) true = .str (isoZ env.clock t) := by
  simp only [boundedInstant, parseUtc_isoZ ht hs, Option.bind_some, if_true, ceilSecond, if_pos hs, if_pos ht]

theorem clampBucket_hour (b : LedgerBucket) : (clampBucket b).hour = b.hour := rfl

theorem wellFormed_clamp {bs : List LedgerBucket} (h : WellFormed bs) : WellFormed (bs.map clampBucket) where
  ascending := List.pairwise_map.2 h.ascending
  onHour b hb := by
    obtain ⟨b, hm, rfl⟩ := List.mem_map.1 hb
    exact h.onHour b hm
  nonneg b hb := by
    obtain ⟨b, -, rfl⟩ := List.mem_map.1 hb
    exact ⟨le_max_left _ _, le_max_left _ _⟩

theorem books_clamp {bs : List LedgerBucket} {booked : List (Int × Int)} (h : Books INT64_MAX bs booked)
    (hw : WellFormed bs) : Books INT64_MAX (bs.map clampBucket) booked where
  charged b hb := by
    obtain ⟨b, hm, rfl⟩ := List.mem_map.1 hb
    have hle := h.charged b hm
    have := (hw.nonneg b hm).1
    rw [clampBucket_hour]
    unfold clampBucket INT64_MAX at *
    dsimp only; omega
  largest p hp := by
    obtain ⟨b, hb, he, hle⟩ := h.largest p hp
    refine ⟨clampBucket b, List.mem_map_of_mem hb, he, ?_⟩
    have := (hw.nonneg b hb).2
    unfold clampBucket INT64_MAX at *
    dsimp only; omega

theorem boundedLedger_serialize {bs : List LedgerBucket} (h : WellFormed bs) (hl : bs.length ≤ LEDGER_KEEP) :
    boundedLedger env (.arr (serializeLedger env.clock bs)) = .arr (serializeLedger env.clock (bs.map clampBucket)) := by
  have hdrop : bs.length - LEDGER_KEEP = 0 := by omega
  simp only [boundedLedger, parseLedger_serializeLedger env.clock h, hdrop, List.drop_zero]

def storedLedger : Json → Json
  | .obj d => field d "ledger"
  | _ => .null

/-- **What a stored record reads back as.** -/
theorem stored_fields {s : PacingState} {record : Fields} {stored : Json} {bs : List LedgerBucket}
    (hr : s.toRecord env = some record) (hs : serializeReclaimRecord env record = some stored)
    (hy : InYears s.asOf) (hl : s.ledger = serializeLedger env.clock bs) (hw : WellFormed bs)
    (hn : bs.length ≤ LEDGER_KEEP) :
    ∃ d c, stored = .obj d ∧ ceilSecond s.asOf = some c ∧ field d "policy_version" = .num 1 ∧
      field d "balance_bytes" = .num (max INT64_MIN (min INT64_MAX s.balanceBytes)) ∧
      field d "as_of" = .str (isoZ env.clock c) ∧
      field d "ledger" = .arr (serializeLedger env.clock (bs.map clampBucket)) := by
  obtain ⟨asOf, ha, hr⟩ := Option.bind_eq_some_iff.1 hr
  obtain ⟨next, hnext, hr⟩ := Option.bind_eq_some_iff.1 hr
  obtain ⟨c, hc, rfl⟩ := Option.map_eq_some_iff.1 ha
  have hcs := ceilSecond_whole hc
  have hcy := ceilSecond_inYears hy hc
  have hrec := Option.some.inj hr
  have hpolicy : Dict.find "policy_version" record = some (.num 1) := by
    rw [← hrec]; simp [Json.find_setField, RETENTION_POLICY_VERSION]
  have hbalance : Dict.find "balance_bytes" record = some (.num s.balanceBytes) := by
    rw [← hrec]; simp [Json.find_setField]
  have hasOf : Dict.find "as_of" record = some (.str (isoZ env.clock c)) := by
    rw [← hrec]; simp [Json.find_setField]
  have hledger : Dict.find "ledger" record = some (.arr s.ledger) := by
    rw [← hrec]; simp [Json.find_setField]
  unfold serializeReclaimRecord at hs
  dsimp only at hs
  split at hs
  · cases hs
  refine ⟨boundedRecord env record, c, (Option.some.inj hs).symm, hc, ?_, ?_, ?_, ?_⟩
  · simp [field, boundedRecord, find_keep, hpolicy, clampInt, POLICY_VERSION_MAX]
  · simp [field, boundedRecord, find_keep, hbalance, clampInt]
  · simp [field, boundedRecord, find_keep, hasOf, boundedInstant_isoZ hcy hcs]
  · simp [field, boundedRecord, find_keep, hledger, hl, boundedLedger_serialize hw hn]

end Cctally.Pacing
