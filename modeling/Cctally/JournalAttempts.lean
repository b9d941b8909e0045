import Cctally.JournalAtomic

/-!
# Attempts at writing a batch

A writer that crashes leaves a prefix of the batch in the journal, and a retry
writes it again from the start. Whatever stands between, the first-seen records
of the batch are then in manifest order, and one whole copy completes it.
-/

namespace Cctally

open Json (field)

section
variable {rt : Runtime} {b family at_ : String} {cores : List ActionCore}

theorem makeCorrectionBatch_eq_ok {actions : List Json} {B : List Json}
    (h : makeCorrectionBatch rt b family at_ actions = .ok B) :
    ∃ cores, actions.mapM readAction = .ok cores ∧ B = batchRecords rt b family at_ cores := by
  unfold makeCorrectionBatch at h
  obtain ⟨b', hb, h⟩ := Except.bind_eq_ok.mp h
  obtain ⟨family', hf, h⟩ := Except.bind_eq_ok.mp h
  obtain ⟨at', ha, h⟩ := Except.bind_eq_ok.mp h
  obtain ⟨cores, hc, h⟩ := Except.bind_eq_ok.mp h
  cases (nonEmptyStr_eq_ok.mp hb).1
  cases (nonEmptyStr_eq_ok.mp hf).1
  cases (nonEmptyStr_eq_ok.mp ha).1
  exact ⟨cores, hc, Except.pure_eq_ok.mp h⟩

theorem batchRecords_action {k : Nat} {core : ActionCore} (h : cores[k]? = some core) :
    (batchRecords rt b family at_ cores)[k + 1]? = some (correctionRecord b core k) := by
  obtain ⟨hk, rfl⟩ := List.getElem?_eq_some_iff.mp h
  simp [batchRecords, List.getElem?_append, hk]

theorem batchRecords_commit :
    (batchRecords rt b family at_ cores)[cores.length + 1]? = some (batchMarker rt b family at_ cores .commit) := by
  simp [batchRecords]

theorem batchRecords_cases {j : Nat} {e : Json} (h : (batchRecords rt b family at_ cores)[j]? = some e) :
    (j = 0 ∧ e = batchMarker rt b family at_ cores .begin) ∨
    (∃ k core, j = k + 1 ∧ cores[k]? = some core ∧ e = correctionRecord b core k) ∨
    (j = cores.length + 1 ∧ e = batchMarker rt b family at_ cores .commit) := by
  cases j with
  | zero => exact Or.inl ⟨rfl, (Option.some.inj h).symm⟩
  | succ k =>
    by_cases hk : k < cores.length
    · have hc := List.getElem?_eq_getElem hk
      rw [batchRecords_action hc] at h
      exact Or.inr (Or.inl ⟨k, cores[k], rfl, hc, (Option.some.inj h).symm⟩)
    · by_cases he : k = cores.length
      · subst he
        rw [batchRecords_commit] at h
        exact Or.inr (Or.inr ⟨rfl, (Option.some.inj h).symm⟩)
      · have : (batchRecords rt b family at_ cores)[k + 1]? = none := by
          refine List.getElem?_eq_none ?_
          simp [batchRecords]
          omega
        rw [this] at h
        cases h

theorem nodup_markerFields (ph : Phase) :
    ((markerFields rt b family at_ cores ++ [("phase", Json.str ph.text)]).map Prod.fst).Nodup := by
  simp [markerFields, writerStamps]

theorem nodup_correctionFields (core : ActionCore) (k : Nat) : ((correctionFields b core k).map Prod.fst).Nodup := by
  simp [correctionFields, writerStamps]

theorem text_inj {a a' : ActionType} (h : a.text = a'.text) : a = a' := by
  cases a <;> cases a' <;> first | rfl | simp [ActionType.text] at h

theorem phase_text_inj {ph ph' : Phase} (h : ph.text = ph'.text) : ph = ph' := by
  cases ph <;> cases ph' <;> first | rfl | simp [Phase.text] at h

theorem payloadJson_inj {core core' : ActionCore} (h : core.payloadJson = core'.payloadJson) :
    core.payload = core'.payload := by
  rw [payloadJson_eq, payloadJson_eq] at h
  cases hp : core.payload with
  | none =>
    cases hp' : core'.payload with
    | none => rfl
    | some fields => simp [hp, hp'] at h
  | some fields =>
    cases hp' : core'.payload with
    | none => simp [hp, hp'] at h
    | some fields' => simpa [hp, hp'] using h

variable (rt b family at_ cores) in
def batchCore : MarkerCore :=
  ⟨some cores.length, some (sha256Canonical rt (.arr (cores.map correctionActionCore)))⟩

variable (rt b family at_ cores) in
def batchIdentity : String := sha256Canonical rt (Json.dict (markerFields rt b family at_ cores))

theorem without_phase (ph : Phase) :
    Json.without (markerFields rt b family at_ cores ++ [("phase", Json.str ph.text)]) ["phase"] =
      markerFields rt b family at_ cores := by
  simp [Json.without, markerFields, writerStamps]

theorem read_batchMarker {ph : Phase} {n : Nat} {r : Reading}
    (h : readEntry rt (batchMarker rt b family at_ cores ph) n = .ok r) :
    r = .marker b ph (batchCore rt cores) (sha256Canonical rt (batchMarker rt b family at_ cores ph))
      (batchIdentity rt b family at_ cores) := by
  have hfield := fun key => Json.field_sortFields (@nodup_markerFields rt b family at_ cores ph) key
  have ht : field (Json.sortFields (markerFields rt b family at_ cores ++ [("phase", Json.str ph.text)])) "t" =
      .str "correction_batch" := by
    rw [hfield]
    simp [field, Dict.find, markerFields]
  have hobj : batchMarker rt b family at_ cores ph =
      .obj (Json.sortFields (markerFields rt b family at_ cores ++ [("phase", Json.str ph.text)])) := rfl
  rw [hobj] at h ⊢
  simp only [readEntry, ht] at h
  obtain ⟨⟨b', ph', core⟩, hm, h⟩ := Except.bind_eq_ok.mp h
  rw [Except.pure_eq_ok.mp h]
  obtain ⟨hid, hph, ⟨count, hcount, hcore⟩, text, htext, hhash⟩ := validateBatchMarker_inv hm
  rw [hfield] at hid hph hcount htext
  simp [field, Dict.find, markerFields, writerStamps] at hid hph hcount htext
  have hcore' : core = batchCore rt cores := by
    cases core
    simp only at hcore hhash
    have hcount' : cores.length = count := by omega
    rw [hcore, hhash, ← htext, ← hcount']
    rfl
  rw [← hid, ← phase_text_inj hph, hcore', Json.without_sortFields (nodup_markerFields ph), without_phase]
  rfl

theorem read_correctionRecord {core : ActionCore} {k n : Nat} {r : Reading}
    (h : readEntry rt (correctionRecord b core k) n = .ok r) :
    r = .action ⟨core, b, k⟩ (sha256Canonical rt (correctionRecord b core k)) := by
  have hfield := fun key => Json.field_sortFields (@nodup_correctionFields b core k) key
  have ht : field (Json.sortFields (correctionFields b core k)) "t" = .str "correction" := by
    rw [hfield]
    simp [field, Dict.find, correctionFields]
  have hobj : correctionRecord b core k = .obj (Json.sortFields (correctionFields b core k)) := rfl
  rw [hobj] at h ⊢
  simp only [readEntry, ht] at h
  obtain ⟨c, hc, h⟩ := Except.bind_eq_ok.mp h
  rw [Except.pure_eq_ok.mp h]
  obtain ⟨hbatch, hseq, hact, hid, hrev, hat, hpay⟩ := validateCorrectionRecord_inv hc
  rw [hfield] at hbatch hseq hact hid hrev hat hpay
  simp [field, Dict.find, correctionFields] at hbatch hseq hact hid hrev hat hpay
  obtain ⟨⟨action, id, rev, at_, payload⟩, batch, seq⟩ := c
  obtain ⟨action', id', rev', at', payload'⟩ := core
  have hpay' := payloadJson_inj hpay
  simp only at hbatch hseq hact hid hrev hat hpay'
  have hseq' : k = seq := by omega
  have hrev' : rev' = rev := by omega
  rw [hbatch, ← text_inj hact, hid, hat, hpay', hseq', hrev']

end

/-! ## Order of the first-seen records -/

theorem attempt_split {α : Type} {B : List α} {e : α} : ∀ {chunks : List (List α)} {l₁ l₂ : List α},
    (∀ c ∈ chunks, c <+: B) → chunks.flatten = l₁ ++ e :: l₂ →
      ∃ j : Nat, B[j]? = some e ∧ ∀ i < j, ∀ e', B[i]? = some e' → e' ∈ l₁
  | [], l₁, l₂, _, h => by
    have := congrArg List.length h
    simp at this
  | c :: chunks, l₁, l₂, hp, h => by
    have hp' : ∀ d ∈ chunks, d <+: B := fun d hd => hp d (List.mem_cons_of_mem _ hd)
    rw [List.flatten_cons, List.append_eq_append_iff] at h
    rcases h with ⟨a', rfl, h⟩ | ⟨c', hc, h⟩
    · obtain ⟨j, hj, hbefore⟩ := attempt_split hp' h
      exact ⟨j, hj, fun i hi e' he' => List.mem_append_right _ (hbefore i hi e' he')⟩
    · cases c' with
      | nil =>
        obtain ⟨j, hj, hbefore⟩ := @attempt_split _ _ _ chunks [] l₂ hp' h.symm
        exact ⟨j, hj, fun i hi e' he' => absurd (hbefore i hi e' he') (List.not_mem_nil)⟩
      | cons x c' =>
        obtain ⟨rfl, -⟩ := List.cons_eq_cons.mp h
        obtain ⟨rest, hB⟩ := hp c (List.mem_cons_self ..)
        rw [hc, List.append_assoc, List.cons_append] at hB
        refine ⟨l₁.length, ?_, fun i hi e' he' => ?_⟩
        · rw [← hB, List.getElem?_append_right (Nat.le_refl _), Nat.sub_self]
          rfl
        · rw [← hB, List.getElem?_append_left hi] at he'
          exact List.mem_of_getElem? he'

section
variable {rt : Runtime} {b family at_ : String} {cores : List ActionCore} {records : List Json}
  {chunks : List (List Json)}

/-- The records naming `b` are prefixes of its batch, one of them whole. -/
structure Attempts (rt : Runtime) (b family at_ : String) (cores : List ActionCore) (records : List Json)
    (chunks : List (List Json)) : Prop where
  named : records.filter (fun e => namedBatch e = some b) = chunks.flatten
  prefixes : ∀ c ∈ chunks, c <+: batchRecords rt b family at_ cores
  whole : batchRecords rt b family at_ cores ∈ chunks

variable (h : Attempts rt b family at_ cores records chunks)
include h

theorem Attempts.before {n : Nat} {e : Json} (hn : records[n]? = some e) (he : namedBatch e = some b) :
    ∃ j : Nat, (batchRecords rt b family at_ cores)[j]? = some e ∧
      ∀ i < j, ∀ e', (batchRecords rt b family at_ cores)[i]? = some e' → ∃ m < n, records[m]? = some e' := by
  obtain ⟨hlt, rfl⟩ := List.getElem?_eq_some_iff.mp hn
  have hsplit : records = records.take n ++ records[n] :: records.drop (n + 1) := by
    rw [List.getElem_cons_drop, List.take_append_drop]
  have hnamed := h.named
  rw [hsplit, List.filter_append, List.filter_cons_of_pos (by simpa using he)] at hnamed
  obtain ⟨j, hj, hbefore⟩ := attempt_split h.prefixes hnamed.symm
  refine ⟨j, hj, fun i hi e' he' => ?_⟩
  obtain ⟨m, hm⟩ := List.mem_iff_getElem?.mp (List.mem_of_mem_filter (hbefore i hi e' he'))
  rw [List.getElem?_take] at hm
  split at hm
  · rename_i hmn
    exact ⟨m, hmn, hm⟩
  · cases hm

theorem Attempts.present {j : Nat} {e : Json} (he : (batchRecords rt b family at_ cores)[j]? = some e) :
    ∃ n : Nat, records[n]? = some e := by
  have hmem : e ∈ chunks.flatten := List.mem_flatten.mpr ⟨_, h.whole, List.mem_of_getElem? he⟩
  rw [← h.named] at hmem
  exact List.mem_iff_getElem?.mp (List.mem_of_mem_filter hmem)

section
variable {rs : List Reading} (hrs : readEntries rt records 0 = .ok rs)
include hrs

theorem Attempts.reading {n : Nat} {r : Reading} (hn : rs[n]? = some r) (hb : r.batch? = some b) :
    ∃ (j : Nat) (e : Json), (batchRecords rt b family at_ cores)[j]? = some e ∧ records[n]? = some e ∧ readEntry rt e n = .ok r ∧
      ∀ i < j, ∀ e', (batchRecords rt b family at_ cores)[i]? = some e' → ∃ m < n, records[m]? = some e' := by
  obtain ⟨e, he, hread⟩ := (readEntries_getElem_iff hrs).mp hn
  obtain ⟨j, hj, hbefore⟩ := h.before he ((readEntry_batch? hread).symm.trans hb)
  exact ⟨j, e, hj, he, hread, hbefore⟩

omit h in
theorem reading_of_marker {n : Nat} {ph : Phase} (hn : records[n]? = some (batchMarker rt b family at_ cores ph)) :
    rs[n]? = some (.marker b ph (batchCore rt cores) (sha256Canonical rt (batchMarker rt b family at_ cores ph))
      (batchIdentity rt b family at_ cores)) := by
  obtain ⟨r, hr, hread⟩ := readEntries_getElem hrs hn
  rw [hr, read_batchMarker hread]

omit h in
theorem reading_of_correction {n k : Nat} {core : ActionCore} (hn : records[n]? = some (correctionRecord b core k)) :
    rs[n]? = some (.action ⟨core, b, k⟩ (sha256Canonical rt (correctionRecord b core k))) := by
  obtain ⟨r, hr, hread⟩ := readEntries_getElem hrs hn
  rw [hr, read_correctionRecord hread]

theorem Attempts.marker_reading {n : Nat} {ph : Phase} {core : MarkerCore} {digest identity : String}
    (hn : rs[n]? = some (.marker b ph core digest identity)) :
    core = batchCore rt cores ∧ digest = sha256Canonical rt (batchMarker rt b family at_ cores ph) ∧
      identity = batchIdentity rt b family at_ cores ∧ records[n]? = some (batchMarker rt b family at_ cores ph) ∧
      (ph = .commit → ∀ i e', i < cores.length + 1 → (batchRecords rt b family at_ cores)[i]? = some e' →
        ∃ m < n, records[m]? = some e') := by
  obtain ⟨j, e, hj, he, hread, hbefore⟩ := h.reading hrs hn rfl
  rcases batchRecords_cases hj with ⟨rfl, rfl⟩ | ⟨k, c, rfl, -, rfl⟩ | ⟨rfl, rfl⟩
  · cases read_batchMarker hread
    exact ⟨rfl, rfl, rfl, he, fun hph => by cases hph⟩
  · cases read_correctionRecord hread
  · cases read_batchMarker hread
    exact ⟨rfl, rfl, rfl, he, fun _ i e' hi he' => hbefore i hi e' he'⟩

theorem Attempts.action_reading {n : Nat} {c : Correction} {digest : String} (hn : rs[n]? = some (.action c digest))
    (hb : c.batch = b) :
    ∃ core, cores[c.seq]? = some core ∧ c = ⟨core, b, c.seq⟩ ∧
      digest = sha256Canonical rt (correctionRecord b core c.seq) ∧
      records[n]? = some (correctionRecord b core c.seq) ∧
      ∀ i e', i < c.seq + 1 → (batchRecords rt b family at_ cores)[i]? = some e' → ∃ m < n, records[m]? = some e' := by
  obtain ⟨j, e, hj, he, hread, hbefore⟩ := h.reading hrs hn (congrArg some hb)
  rcases batchRecords_cases hj with ⟨rfl, rfl⟩ | ⟨k, core, rfl, hk, rfl⟩ | ⟨rfl, rfl⟩
  · cases read_batchMarker hread
  · cases read_correctionRecord hread
    exact ⟨core, hk, rfl, rfl, he, fun i e' hi he' => hbefore i hi e' he'⟩
  · cases read_batchMarker hread

/-! ## The batch completes -/

theorem Attempts.exists_marker (ph : Phase) : ∃ m, (phaseOne rt rs).marker b ph = some m := by
  have hrec : ∃ j : Nat, (batchRecords rt b family at_ cores)[j]? = some (batchMarker rt b family at_ cores ph) := by
    cases ph with
    | begin => exact ⟨0, rfl⟩
    | commit => exact ⟨_, batchRecords_commit⟩
  obtain ⟨j, hj⟩ := hrec
  obtain ⟨n, hn⟩ := h.present hj
  have hr := reading_of_marker hrs hn
  rw [phaseOne_marker]
  cases hm : firstMarker b ph 0 rs with
  | some m => exact ⟨m, rfl⟩
  | none =>
    have hd : (phaseOne rt rs).digestAt b (.inl ph) = none := by
      rw [SelectorFold.digestAt, phaseOne_marker, hm]
      rfl
    rw [phaseOne_digestAt, List.findSome?_eq_none_iff] at hd
    have := hd _ (List.mem_of_getElem? hr)
    simp [Reading.digestAt] at this

theorem Attempts.marker {ph : Phase} {m : Marker} (hm : (phaseOne rt rs).marker b ph = some m) :
    m.core = batchCore rt cores ∧ m.identity = batchIdentity rt b family at_ cores ∧
      (∀ n : Nat, records[n]? = some (batchMarker rt b family at_ cores ph) → m.sequence ≤ n) ∧
      (ph = .commit → ∀ i e', i < cores.length + 1 → (batchRecords rt b family at_ cores)[i]? = some e' →
        ∃ n < m.sequence, records[n]? = some e') := by
  obtain ⟨hr, hfirst⟩ := phaseOne_marker_eq_some.mp hm
  obtain ⟨hcore, -, hid, -, hbefore⟩ := h.marker_reading hrs hr
  refine ⟨hcore, hid, fun n hn => ?_, hbefore⟩
  by_contra hlt
  exact hfirst n (Nat.not_le.mp hlt) _ _ _ (reading_of_marker hrs hn)

theorem Attempts.action {k : Nat} {a : BatchAction} (ha : (phaseOne rt rs).action b k = some a) :
    ∃ core, cores[k]? = some core ∧ a.normalized = some ⟨core, b, k⟩ ∧
      records[a.sequence]? = some (correctionRecord b core k) ∧
      (∀ n : Nat, records[n]? = some (correctionRecord b core k) → a.sequence ≤ n) ∧
      ∀ i e', i < k + 1 → (batchRecords rt b family at_ cores)[i]? = some e' →
        ∃ n < a.sequence, records[n]? = some e' := by
  obtain ⟨c, hc, hb, rfl, hr, hfirst⟩ := phaseOne_action_eq_some.mp ha
  obtain ⟨core, hcore, hce, -, hrec, hbefore⟩ := h.action_reading hrs hr hb
  refine ⟨core, hcore, by rw [hc, ← hce], hrec, fun n hn => ?_, hbefore⟩
  by_contra hlt
  have hact : Reading.actionAt rs n ⟨core, b, c.seq⟩ := ⟨_, reading_of_correction hrs hn⟩
  exact hfirst.2 n (Nat.not_le.mp hlt) _ hact ⟨hb.symm, rfl⟩

theorem Attempts.exists_action {k : Nat} (hk : k < cores.length) : ∃ a, (phaseOne rt rs).action b k = some a := by
  obtain ⟨n, hn⟩ := h.present (batchRecords_action (List.getElem?_eq_getElem hk))
  have hr := reading_of_correction hrs hn
  rw [phaseOne_action]
  cases ha : firstAction b k 0 rs with
  | some a => exact ⟨a, rfl⟩
  | none =>
    have hd : (phaseOne rt rs).digestAt b (.inr k) = none := by
      rw [SelectorFold.digestAt, phaseOne_action, ha]
      rfl
    rw [phaseOne_digestAt, List.findSome?_eq_none_iff] at hd
    have := hd _ (List.mem_of_getElem? hr)
    simp [Reading.digestAt] at this

theorem Attempts.untainted : b ∉ (phaseOne rt rs).taintedBatches := by
  intro ht
  obtain ⟨p, r, hr, r', hr', d, d', hd, hd', hne⟩ := (phaseOne_tainted rs).mp ht
  have hdigest : ∀ {r : Reading} {d : String}, r ∈ rs → r.digestAt b p = some d →
      (∃ ph, p = .inl ph ∧ d = sha256Canonical rt (batchMarker rt b family at_ cores ph)) ∨
      ∃ k core, p = .inr k ∧ cores[k]? = some core ∧ d = sha256Canonical rt (correctionRecord b core k) := by
    intro r d hr hd
    obtain ⟨n, hn⟩ := List.mem_iff_getElem?.mp hr
    cases r with
    | marker b' ph core digest identity =>
      simp only [Reading.digestAt, Option.ite_none_right_eq_some, Option.some.injEq] at hd
      obtain ⟨⟨rfl, rfl⟩, rfl⟩ := hd
      exact Or.inl ⟨ph, rfl, (h.marker_reading hrs hn).2.1⟩
    | action c digest =>
      simp only [Reading.digestAt, Option.ite_none_right_eq_some, Option.some.injEq] at hd
      obtain ⟨⟨hb, rfl⟩, rfl⟩ := hd
      obtain ⟨core, hcore, -, hdig, -⟩ := h.action_reading hrs hn hb
      exact Or.inr ⟨c.seq, core, rfl, hcore, hdig⟩
    | _ => cases hd
  rcases hdigest hr hd with ⟨ph, rfl, rfl⟩ | ⟨k, core, rfl, hk, rfl⟩
  · rcases hdigest hr' hd' with ⟨ph', hp, rfl⟩ | ⟨k', core', hp, -, -⟩
    · cases hp; exact hne rfl
    · cases hp
  · rcases hdigest hr' hd' with ⟨ph', hp, -⟩ | ⟨k', core', hp, hk', rfl⟩
    · cases hp
    · cases hp
      cases hk.symm.trans hk'
      exact hne rfl

theorem Attempts.retained : ∃ g : Nat → BatchAction,
    (∀ k core, cores[k]? = some core → (g k).normalized = some ⟨core, b, k⟩ ∧
      records[(g k).sequence]? = some (correctionRecord b core k) ∧
      ∀ n : Nat, records[n]? = some (correctionRecord b core k) → (g k).sequence ≤ n) ∧
    orderedActions ((phaseOne rt rs).actions.sub b) cores.length = (List.range cores.length).map g := by
  let g : Nat → BatchAction := fun k => ((phaseOne rt rs).action b k).getD ⟨none, "", 0⟩
  have hg : ∀ k < cores.length, (phaseOne rt rs).action b k = some (g k) := by
    intro k hk
    obtain ⟨a, ha⟩ := h.exists_action hrs hk
    simp only [g, ha, Option.getD_some]
  refine ⟨g, fun k core hcore => ?_, ?_⟩
  · obtain ⟨core', hcore', hn, hrec, hfirst, -⟩ := h.action hrs (hg k (List.getElem?_eq_some_iff.mp hcore).1)
    cases hcore.symm.trans hcore'
    exact ⟨hn, hrec, hfirst⟩
  · unfold orderedActions
    rw [← List.filterMap_eq_map]
    exact List.filterMap_congr fun k hk => hg k (List.mem_range.mp hk)

omit h hrs in
theorem mapM_range {β : Type} {g : Nat → BatchAction} {f : BatchAction → Py β} {out : Nat → ActionCore → β}
    (hf : ∀ k core, cores[k]? = some core → f (g k) = .ok (out k core)) :
    ((List.range cores.length).map g).mapM f = .ok (cores.mapIdx out) := by
  rw [Except.mapM_eq_ok, List.forall₂_iff_get]
  refine ⟨by simp, fun i h₁ h₂ => ?_⟩
  simp only [List.length_mapIdx] at h₂
  simp only [List.get_eq_getElem, List.getElem_map, List.getElem_range, List.getElem_mapIdx]
  exact hf i _ (List.getElem?_eq_getElem h₂)

theorem Attempts.complete : ∃ bg cm, Complete rt (phaseOne rt rs) b bg cm cores.length := by
  obtain ⟨bg, hbg⟩ := h.exists_marker hrs .begin
  obtain ⟨cm, hcm⟩ := h.exists_marker hrs .commit
  obtain ⟨hbcore, hbid, hbfirst, -⟩ := h.marker hrs hbg
  obtain ⟨hccore, hcid, -, hcbefore⟩ := h.marker hrs hcm
  have hcbefore := hcbefore rfl
  have hordered : ∀ a ∈ orderedActions ((phaseOne rt rs).actions.sub b) cores.length,
      bg.sequence < a.sequence ∧ a.sequence < cm.sequence := by
    intro a ha
    obtain ⟨k, hk, ha⟩ := mem_orderedActions.mp ha
    obtain ⟨core, hcore, -, -, hfirst, hbefore⟩ := h.action hrs ha
    obtain ⟨m, hm, hmrec⟩ := hbefore 0 _ (Nat.succ_pos k) rfl
    obtain ⟨n, hn, hnrec⟩ := hcbefore (k + 1) _ (by omega) (batchRecords_action hcore)
    exact ⟨lt_of_le_of_lt (hbfirst m hmrec) hm, lt_of_le_of_lt (hfirst n hnrec) hn⟩
  refine ⟨bg, cm, hbg, hcm, h.untainted hrs, by rw [hbcore]; rfl, hbid.trans hcid.symm, ?_, ?_, ?_, hordered, ?_⟩
  · obtain ⟨m, hm, hmrec⟩ := hcbefore 0 _ (Nat.succ_pos _) rfl
    exact lt_of_le_of_lt (hbfirst m hmrec) hm
  · rw [← sortedSet_range cores.length]
    refine sortedSet_congr fun k => ?_
    rw [Dict.mem_keys, List.mem_range]
    refine ⟨fun ha => ?_, fun hk => h.exists_action hrs hk⟩
    obtain ⟨a, ha⟩ := ha
    obtain ⟨core, hcore, -⟩ := h.action hrs (show (phaseOne rt rs).action b k = some a from ha)
    exact (List.getElem?_eq_some_iff.mp hcore).1
  · rw [List.pairwise_map, orderedActions, List.pairwise_filterMap]
    refine List.Pairwise.imp ?_ List.pairwise_lt_range
    intro k k' hlt a ha a' ha'
    obtain ⟨core, hcore, -, -, hfirst, -⟩ := h.action hrs (show (phaseOne rt rs).action b k = some a from ha)
    obtain ⟨core', -, -, -, -, hbefore⟩ := h.action hrs (show (phaseOne rt rs).action b k' = some a' from ha')
    obtain ⟨n, hn, hnrec⟩ := hbefore (k + 1) _ (by omega) (batchRecords_action hcore)
    exact le_of_lt (lt_of_le_of_lt (hfirst n hnrec) hn)
  · obtain ⟨g, hg, hlist⟩ := h.retained hrs
    refine ⟨cores.mapIdx fun k core => ⟨core, b, k⟩, ?_, ?_⟩
    · rw [hlist]
      refine mapM_range fun k core hcore => ?_
      rw [readCore, (hg k core hcore).1]
      rfl
    · have hcores : (cores.mapIdx fun k core => (⟨core, b, k⟩ : Correction)).map
          (fun c => correctionActionCore c.core) = cores.map correctionActionCore := by
        refine List.ext_getElem? fun i => ?_
        simp [Function.comp_def]
      rw [hbcore, hcores]
      rfl

end

end

section
variable {rt : Runtime}

theorem addAll_violations : ∀ {log : TaintLog} {t : Taints}, (∀ v ∈ t.violations.values, v.batchId ∈ t.batches) →
    ∀ v ∈ (t.addAll rt log).violations.values, v.batchId ∈ (t.addAll rt log).batches
  | [], _, h => h
  | entry :: log, t, h => by
    refine addAll_violations (t := t.add rt entry) fun v hv => ?_
    rcases Dict.mem_values_set hv with rfl | hv
    · exact Finset.mem_insert_self ..
    · exact Finset.mem_insert_of_mem (h v hv)

theorem violations_tainted {rs : List Reading} {ids : List String} {fold : SelectorFold}
    (hR : Resolved rt (phaseOne rt rs) ids fold) : ∀ v ∈ fold.violations.values, v.batchId ∈ fold.taintedBatches := by
  have hphase := @taints_applyAll rt rs .empty 0
  have h₀ : ∀ v ∈ SelectorFold.empty.taints.violations.values, v.batchId ∈ SelectorFold.empty.taints.batches := by
    intro v hv
    cases hv
  have h₁ : ∀ v ∈ (phaseOne rt rs).taints.violations.values, v.batchId ∈ (phaseOne rt rs).taints.batches := by
    rw [phaseOne, hphase]
    exact addAll_violations h₀
  have h₂ := @addAll_violations rt (ids.flatMap ((phaseOne rt rs).log rt)) _ h₁
  rw [← hR.taints] at h₂
  exact h₂

theorem acknowledged_violations {fold : SelectorFold} {evidence : List PrefixEvidence} {acknowledged : Acknowledged}
    (h : acknowledge rt fold evidence = .ok acknowledged) :
    ∀ a ∈ acknowledged.values, a.violation ∈ fold.violations.values := by
  unfold acknowledge at h
  simp only at h
  rw [Except.ite_throw_eq_ok] at h
  refine Except.foldlM_keeps (p := fun acks : Acknowledged => ∀ a ∈ acks.values, a.violation ∈ fold.violations.values)
    ?_ ?_ h.2
  · intro acks item acks' hacks hitem
    unfold acknowledgeOne at hitem
    simp only at hitem
    rw [Except.ite_throw_eq_ok] at hitem
    refine Except.foldlM_keeps (p := fun acks : Acknowledged => ∀ a ∈ acks.values,
      a.violation ∈ fold.violations.values) ?_ hacks hitem.2
    intro acks ref acks' hacks href a ha
    unfold acknowledgeRef at href
    split at href
    · simp at href
    · rename_i violation hv
      rw [Except.ite_throw_eq_ok, Except.ite_throw_eq_ok, Except.pure_eq_ok] at href
      obtain ⟨-, -, rfl⟩ := href
      obtain ⟨k, hk⟩ := Dict.mem_values.mp ha
      rw [Dict.get?_setdefault, Option.or_eq_some_iff] at hk
      rcases hk with hk | ⟨-, hk⟩
      · exact hacks a (Dict.mem_values.mpr ⟨k, hk⟩)
      · simp only [Option.ite_none_right_eq_some, Option.some.injEq] at hk
        rw [← hk.2]
        obtain ⟨w, hw, he⟩ := List.mem_map.mp (Dict.mem_of_get?_ofList hv)
        obtain ⟨-, rfl⟩ := Prod.mk.inj he
        exact hw
  · intro a ha
    cases ha

end

/-! ## Atomicity -/

section
variable {rt : Runtime} {records : List Json} {evidence : List PrefixEvidence} {sel : EffectiveSelection}
  {fold : SelectorFold}

theorem filter_candidates {rs : List Reading} (hrs : readEntries rt records 0 = .ok rs) {ids : List String}
    (hn : ids.Nodup) (hR : Resolved rt (phaseOne rt rs) ids fold) {b : String} (hb : b ∈ ids)
    (hc : (phaseOne rt rs).completes rt b = true) :
    fold.candidates.filter (fun c => c.batchId = some b) = (phaseOne rt rs).gives rt b := by
  have hevts : (rs.filterMap Reading.candidate?).filter (fun c => decide (c.batchId = some b)) = [] := by
    refine List.filter_eq_nil_iff.mpr fun c hc => ?_
    rw [(sequence_ge_of_evts hrs c hc).1]
    simp
  have hgives : ∀ d ∈ ids.filter ((phaseOne rt rs).completes rt),
      ((phaseOne rt rs).gives rt d).filter (fun c => decide (c.batchId = some b)) =
        if d = b then (phaseOne rt rs).gives rt b else [] := by
    intro d hd
    obtain ⟨hd, hdc⟩ := List.mem_filter.mp hd
    have hbatch := mem_gives_batchId (hR.given d hd hdc)
    by_cases hdb : d = b
    · subst hdb
      rw [if_pos rfl]
      exact List.filter_eq_self.mpr fun c hc => by simp [hbatch c hc]
    · rw [if_neg hdb]
      exact List.filter_eq_nil_iff.mpr fun c hc => by simp [hbatch c hc, hdb]
  rw [hR.candidates, phaseOne_candidates, List.filter_append, hevts, List.nil_append, List.filter_flatMap,
    List.flatMap_congr hgives]
  -- one of the batches taken is `b`
  have hmem : b ∈ ids.filter ((phaseOne rt rs).completes rt) := List.mem_filter.mpr ⟨hb, hc⟩
  have hnd := hn.filter ((phaseOne rt rs).completes rt)
  generalize ids.filter ((phaseOne rt rs).completes rt) = l at hmem hnd
  induction l with
  | nil => cases hmem
  | cons d l ih =>
    rw [List.nodup_cons] at hnd
    rw [List.flatMap_cons]
    by_cases hdb : d = b
    · subst hdb
      have hrest : l.flatMap (fun d' => if d' = d then (phaseOne rt rs).gives rt d else []) = [] :=
        List.flatMap_eq_nil_iff.mpr fun d' hd' => if_neg fun (he : d' = d) => hnd.1 (he ▸ hd')
      rw [if_pos rfl, hrest, List.append_nil]
    · rw [if_neg hdb, List.nil_append]
      exact ih ((List.mem_cons.mp hmem).resolve_left (Ne.symm hdb)) hnd.2

/-- **Correction batches are all or nothing.** -/
theorem batch_atomic (h : resolveEffectiveEvents rt records evidence = .ok (sel, fold)) :
    (∀ {placeholder : Json}, placeholder.isObj = false → ∀ evidence' : List PrefixEvidence,
      ((∀ e ∈ records, isProtocolResolution e = false) →
        ∃ sel' fold', resolveEffectiveEvents rt (records.map (mask sel.completedBatches placeholder)) evidence' =
            .ok (sel', fold') ∧
          sel'.active = sel.active ∧ sel'.byId = sel.byId ∧ sel'.conflicts = sel.conflicts ∧
          sel'.completedBatches = sel.completedBatches) ∧
      ((∃ e ∈ records, isProtocolResolution e = true) →
        ∃ msg, resolveEffectiveEvents rt (records.map (mask sel.completedBatches placeholder)) evidence' =
          .error (.protocol msg))) ∧
    ∀ {b family at_ : String} {actions B : List Json} {crashed retries : List (List Json)},
      makeCorrectionBatch rt b family at_ actions = .ok B →
      (∀ c ∈ crashed, c <+: B ∧ c ≠ B) → (∀ c ∈ retries, c <+: B) →
      records.filter (fun e => namedBatch e = some b) = (crashed ++ [B] ++ retries).flatten →
      b ∈ sel.completedBatches ∧ (∀ v ∈ sel.protocolViolations, v.batchId ≠ b) ∧
      (∀ a ∈ sel.acknowledgedProtocolViolations, a.violation.batchId ≠ b) ∧
      ∃ cores, actions.mapM readAction = .ok cores ∧ ∃ pos : Nat → Nat,
        (∀ k < cores.length, records[pos k]? = B[k + 1]? ∧ ∀ m < pos k, records[m]? ≠ B[k + 1]?) ∧
        fold.candidates.filter (fun c => c.batchId = some b) =
          cores.mapIdx fun k core => candidateFromCorrection rt ⟨core, b, k⟩ (pos k) := by
  refine ⟨fun hp evidence' => masked_selection hp h evidence', ?_⟩
  intro b family at_ actions B crashed retries hB hcrashed hretries hnamed
  obtain ⟨hfold, acknowledged, hack, rfl⟩ := resolveEffectiveEvents_eq_ok.mp h
  obtain ⟨rs, hrs, hR⟩ := accumulate_resolved hfold
  obtain ⟨cores, hcores, rfl⟩ := makeCorrectionBatch_eq_ok hB
  have hatt : Attempts rt b family at_ cores records (crashed ++ [batchRecords rt b family at_ cores] ++ retries) := by
    refine ⟨hnamed, fun c hc => ?_, by simp⟩
    rcases List.mem_append.mp hc with hc | hc
    · rcases List.mem_append.mp hc with hc | hc
      · exact (hcrashed c hc).1
      · rw [List.mem_singleton.mp hc]
    · exact hretries c hc
  obtain ⟨bg, cm, hcomplete⟩ := hatt.complete hrs
  have hcompletes := hcomplete.completes
  have hb : b ∈ fold.completed := (hR.mem_completed (phaseOne_completed rs)).mpr hcompletes
  have hids : b ∈ sortedSet (phaseOne rt rs).batchIds := mem_sortedSet.mpr (marker_mem_batchIds hcomplete.begin_)
  have hnt : ∀ v ∈ fold.violations.values, v.batchId ≠ b := by
    rintro v hv rfl
    rcases hR.mem_tainted.mp (violations_tainted hR v hv) with ht | hl
    · exact hcomplete.untainted ht
    · exact hl (log_of_ok hcomplete.batchViolations)
  obtain ⟨g, hg, hlist⟩ := hatt.retained hrs
  refine ⟨hb, ?_, ?_, cores, hcores, fun k => (g k).sequence, fun k hk => ?_, ?_⟩
  · intro v hv
    rw [SelectorFold.select, List.mem_insertionSort] at hv
    exact hnt v (List.mem_of_mem_filter hv)
  · intro a ha
    rw [SelectorFold.select, List.mem_insertionSort] at ha
    exact hnt _ (acknowledged_violations hack a ha)
  · obtain ⟨-, hrec, hfirst⟩ := hg k _ (List.getElem?_eq_getElem hk)
    rw [batchRecords_action (List.getElem?_eq_getElem hk)]
    exact ⟨hrec, fun m hm he => absurd (hfirst m he) (Nat.not_le.mpr hm)⟩
  · rw [filter_candidates hrs (nodup_sortedSet _) hR hids hcompletes]
    have hgiven := hR.given b hids hcompletes
    rw [hcomplete.actionCount_eq] at hgiven
    unfold SelectorFold.batchCandidates at hgiven
    rw [hlist, mapM_range fun k core hcore => ?_] at hgiven
    · exact (Except.ok.inj hgiven).symm
    · rw [readCore, (hg k core hcore).1]
      rfl

end

/-- A crashed attempt at `A`, a commit of `B` alone, then `A` whole. -/
def retriedJournal : List Json :=
  (workedBatch "A" "x" 1).take 2 ++ (workedBatch "B" "y" 1).drop 2 ++ workedBatch "A" "x" 1

theorem workedBatch_ok :
    makeCorrectionBatch workedRuntime "A" "family" "t" [workedAction "x" 1] = .ok (workedBatch "A" "x" 1) ∧
      (workedBatch "A" "x" 1).length = 3 := by
  obtain ⟨B, hB, hlen⟩ := Except.returns_iff.mp
    (show (makeCorrectionBatch workedRuntime "A" "family" "t" [workedAction "x" 1]).returns
      (fun B => B.length == 3) = true by decide)
  have hworked : workedBatch "A" "x" 1 = B := by rw [workedBatch, hB]; rfl
  exact ⟨by rw [hworked, hB], by rw [hworked]; exact beq_iff_eq.mp hlen⟩

theorem batch_atomic_retried :
    ∃ sel fold, resolveEffectiveEvents workedRuntime retriedJournal [] = .ok (sel, fold) ∧
      (∃ sel' fold', resolveEffectiveEvents workedRuntime
          (retriedJournal.map (mask sel.completedBatches .null)) [] = .ok (sel', fold') ∧
        sel'.active = sel.active ∧ sel'.completedBatches = sel.completedBatches) ∧
      "A" ∈ sel.completedBatches ∧ ∀ v ∈ sel.protocolViolations, v.batchId ≠ "A" := by
  obtain ⟨⟨sel, fold⟩, h, -⟩ := Except.returns_iff.mp
    (show (resolveEffectiveEvents workedRuntime retriedJournal []).returns (fun _ => true) = true by decide +kernel)
  obtain ⟨hmask, hbatch⟩ := batch_atomic h
  have hno : ∀ e ∈ retriedJournal, isProtocolResolution e = false := by decide +kernel
  obtain ⟨sel', fold', hs, ha, -, -, hc⟩ := (@hmask .null rfl []).1 hno
  have hnamed : retriedJournal.filter (fun e => namedBatch e = some "A") =
      ([(workedBatch "A" "x" 1).take 2] ++ [workedBatch "A" "x" 1] ++ []).flatten := rfl
  have hcrashed : ∀ c ∈ [(workedBatch "A" "x" 1).take 2], c <+: workedBatch "A" "x" 1 ∧ c ≠ workedBatch "A" "x" 1 := by
    intro c hmem
    rw [List.mem_singleton.mp hmem]
    refine ⟨List.take_prefix _ _, fun he => ?_⟩
    have := congrArg List.length he
    rw [List.length_take, workedBatch_ok.2] at this
    cases this
  obtain ⟨hb, hv, -⟩ := hbatch workedBatch_ok.1 hcrashed (by simp) hnamed
  exact ⟨sel, fold, h, ⟨sel', fold', hs, ha, hc⟩, hb, hv⟩

def commitOnly : List Json := (workedBatch "A" "x" 1).drop 2

def acknowledgedJournal : List Json :=
  commitOnly ++ ((commitOnly.head?.map fun commit =>
    (makeProtocolResolution workedRuntime "t" [⟨"A", .commitWithoutBegin 0 (sha256Canonical workedRuntime commit)⟩]
      ("segment", 0) (sha256Canonical workedRuntime .null)).toOption.toList).getD [])

def acknowledgedEvidence : List PrefixEvidence := [⟨("segment", 0), sha256Canonical workedRuntime .null⟩]

/-- The pass returns, and without the tainted batch the acknowledgement is of an
unknown violation. -/
theorem masked_pass_raises :
    ∃ sel fold, resolveEffectiveEvents workedRuntime acknowledgedJournal acknowledgedEvidence = .ok (sel, fold) ∧
      ∀ evidence, ∃ msg, resolveEffectiveEvents workedRuntime
        (acknowledgedJournal.map (mask sel.completedBatches .null)) evidence = .error (.protocol msg) := by
  obtain ⟨⟨sel, fold⟩, h, -⟩ := Except.returns_iff.mp
    (show (resolveEffectiveEvents workedRuntime acknowledgedJournal acknowledgedEvidence).returns (fun _ => true) =
      true by decide +kernel)
  have hop : ∃ e ∈ acknowledgedJournal, isProtocolResolution e = true := by decide +kernel
  exact ⟨sel, fold, h, fun evidence => (masked_selection rfl h evidence).2 hop⟩

end Cctally
