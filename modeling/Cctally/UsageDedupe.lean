import Cctally.Except
import Cctally.UsageEntries
import Cctally.Election
import Mathlib.Data.Finset.Card
import Mathlib.Data.Finset.Dedup
import Mathlib.Order.Bounds.Basic

/-!
# One entry for each key

The map keeps, under the text of a key, the entry no other entry under that
text beats, whatever order the files and their lines are read in. Two keys may
print as one text, since an id may hold a colon: the map keeps one entry for
each key exactly when no two keys in range do.
-/

namespace Cctally.UsageEntries

open Json (field fieldD)

/-- Each of the four billed fields is an integer, `null` or missing. -/
def IntegerCounts (usage : Json.Fields) : Prop :=
  ∀ key ∈ ["input_tokens", "output_tokens", "cache_creation_input_tokens", "cache_read_input_tokens"],
    field usage key = .null ∨ ∃ n, field usage key = .num n

def count (usage : Json.Fields) (key : String) : Int :=
  match field usage key with
  | .num n => n
  | _ => 0

def tokenTotal (entry : UsageEntry) : Int :=
  count entry.usage "input_tokens" + count entry.usage "output_tokens" +
    count entry.usage "cache_creation_input_tokens" + count entry.usage "cache_read_input_tokens"

def standing (entry : UsageEntry) : Nat := if hasSpeed entry then 0 else 1

section
variable {env : Env}

theorem tokens_eq {usage : Json.Fields} {key : String} (h : field usage key = .null ∨ ∃ n, field usage key = .num n) :
    tokens env usage key = .ok (count usage key) := by
  have hzero : ∀ n : Int, (if (Json.num n).truthy then int env (.num n) else .ok 0) = Except.ok n := by
    intro n
    by_cases hn : n = 0
    · subst hn; rfl
    · rw [if_pos (by simp [Json.truthy, hn])]; rfl
  rw [tokens, count, fieldD]
  unfold field at h ⊢
  cases hf : Dict.find key usage with
  | none => exact hzero 0
  | some v =>
    rw [hf] at h
    simp only [Option.getD_some] at h ⊢
    rcases h with rfl | ⟨n, rfl⟩
    · rfl
    · exact hzero n

theorem entryTokenTotal_eq {entry : UsageEntry} (h : IntegerCounts entry.usage) :
    entryTokenTotal env entry = .ok (tokenTotal entry) := by
  simp only [IntegerCounts, List.forall_mem_cons] at h
  obtain ⟨h1, h2, h3, h4, -⟩ := h
  rw [entryTokenTotal, tokens_eq h1, tokens_eq h2, tokens_eq h3, tokens_eq h4]
  rfl

theorem standing_lt {c p : UsageEntry} : standing c < standing p ↔ hasSpeed c = true ∧ hasSpeed p = false := by
  cases hc : hasSpeed c <;> cases hp : hasSpeed p <;> simp [standing, hc, hp]

theorem shouldReplace_eq {c p : UsageEntry} (hc : IntegerCounts c.usage) (hp : IntegerCounts p.usage) :
    shouldReplace env c p = .ok (decide (Winner.Beats tokenTotal standing c p)) := by
  rw [shouldReplace, entryTokenTotal_eq hc, entryTokenTotal_eq hp]
  show (if tokenTotal c ≠ tokenTotal p then Except.ok (decide (tokenTotal c > tokenTotal p))
    else Except.ok (hasSpeed c && !hasSpeed p)) = _
  by_cases h : tokenTotal c = tokenTotal p
  · rw [if_neg (not_not.mpr h)]
    refine congrArg Except.ok ?_
    rw [Bool.eq_iff_iff, decide_eq_true_eq]
    simp [Winner.Beats, h, standing_lt]
  · rw [if_pos h]
    refine congrArg Except.ok ?_
    rw [decide_eq_decide]
    simp [Winner.Beats, h]

end

abbrev Key := String × String

def Key.text (k : Key) : String := k.1 ++ ":" ++ k.2

def keyOf : Parsed → Option Key
  | (_, some msgId, some reqId) => some (msgId, reqId)
  | _ => none

def keys (ps : List Parsed) : List Key := ps.filterMap keyOf

def entriesOf (ps : List Parsed) (k : Key) : Set UsageEntry := {e | ∃ p ∈ ps, keyOf p = some k ∧ p.1 = e}

def unkeyed (ps : List Parsed) : List UsageEntry := (ps.filter fun p => (keyOf p).isNone).map Prod.fst

def under (ps : List Parsed) (text : String) : List UsageEntry :=
  (ps.filter fun p => (keyOf p).map Key.text = some text).map Prod.fst

/-- Each key has an entry of its own, of the greatest total of its entries and with a speed
when one of that total has one; the entries without a key are there once each. -/
structure Deduplicated (ps : List Parsed) (kept : Kept) : Prop where
  greatest : ∀ k ∈ keys ps, ∃ e, kept.dedupeMap.get? k.text = some e ∧
    IsGreatest (tokenTotal '' entriesOf ps k) (tokenTotal e) ∧
    (hasSpeed e = true ↔ ∃ c ∈ entriesOf ps k, tokenTotal c = tokenTotal e ∧ hasSpeed c = true)
  single : kept.dedupeMap.entries.length = (keys ps).dedup.length
  unkeyed : kept.noKey.Perm (unkeyed ps)

def KeysApart (ps : List Parsed) : Prop := ∀ k ∈ keys ps, ∀ k' ∈ keys ps, k.text = k'.text → k = k'

def summary (kept : Kept) : List (String × Int × Bool) :=
  kept.dedupeMap.entries.map fun p => (p.1, tokenTotal p.2, hasSpeed p.2)

theorem mem_under {ps : List Parsed} {text : String} {e : UsageEntry} :
    e ∈ under ps text ↔ ∃ k, k.text = text ∧ e ∈ entriesOf ps k := by
  simp only [under, entriesOf, List.mem_map, List.mem_filter, decide_eq_true_eq, Option.map_eq_some_iff,
    Set.mem_ofPred_eq]
  constructor
  · rintro ⟨p, ⟨hp, k, hk, ht⟩, rfl⟩; exact ⟨k, ht, p, hp, hk, rfl⟩
  · rintro ⟨k, ht, p, hp, hk, rfl⟩; exact ⟨p, ⟨hp, k, hk, ht⟩, rfl⟩

theorem mem_keys_iff {ps : List Parsed} {k : Key} : k ∈ keys ps ↔ ∃ e, e ∈ entriesOf ps k := by
  simp only [keys, entriesOf, List.mem_filterMap, Set.mem_ofPred_eq]
  constructor
  · rintro ⟨p, hp, hk⟩; exact ⟨p.1, p, hp, hk, rfl⟩
  · rintro ⟨_, p, hp, hk, -⟩; exact ⟨p, hp, hk⟩

theorem KeysApart.mem_under {ps : List Parsed} (h : KeysApart ps) {k : Key} (hk : k ∈ keys ps) {e : UsageEntry} :
    e ∈ under ps k.text ↔ e ∈ entriesOf ps k := by
  rw [UsageEntries.mem_under]
  constructor
  · rintro ⟨k', ht, he⟩
    rwa [← h k' (mem_keys_iff.mpr ⟨e, he⟩) k hk ht]
  · exact fun he => ⟨k, rfl, he⟩

def Counted (kept : Kept) : Prop := ∀ t e, kept.dedupeMap.get? t = some e → IntegerCounts e.usage

structure Adds (kept : Kept) (p : Parsed) (kept' : Kept) : Prop where
  held : ∀ t, kept'.dedupeMap.get? t =
    if (keyOf p).map Key.text = some t then Winner.champion tokenTotal standing (kept.dedupeMap.get? t) p.1
    else kept.dedupeMap.get? t
  noKey : kept'.noKey = kept.noKey ++ unkeyed [p]

theorem Adds.counted {kept kept' : Kept} {p : Parsed} (h : Adds kept p kept') (hk : Counted kept)
    (hp : IntegerCounts p.1.usage) : Counted kept' := by
  intro t e he
  rw [h.held] at he
  split at he
  · cases hold : kept.dedupeMap.get? t with
    | none => rw [hold] at he; cases he; exact hp
    | some old =>
      rw [hold, Winner.champion] at he
      split at he
      · cases he; exact hp
      · cases he; exact hk t _ hold
  · exact hk t e he

theorem adds_keyed {kept : Kept} {entry e : UsageEntry} {k : Key}
    (h : Winner.champion tokenTotal standing (kept.dedupeMap.get? k.text) entry = some e) :
    Adds kept (entry, some k.1, some k.2) { kept with dedupeMap := kept.dedupeMap.set k.text e } := by
  refine ⟨fun t => ?_, (List.append_nil _).symm⟩
  rw [Dict.get?_set]
  simp only [keyOf, Option.map_some, Option.some.injEq]
  split
  · rename_i ht; rw [← ht]; exact h.symm
  · rfl

theorem adds_same {kept : Kept} {entry e : UsageEntry} {k : Key} (he : kept.dedupeMap.get? k.text = some e)
    (h : Winner.champion tokenTotal standing (kept.dedupeMap.get? k.text) entry = some e) :
    Adds kept (entry, some k.1, some k.2) kept := by
  refine ⟨fun t => ?_, (List.append_nil _).symm⟩
  simp only [keyOf, Option.map_some, Option.some.injEq]
  split
  · rename_i ht; rw [← ht, h, he]
  · rfl

theorem adds_unkeyed {kept : Kept} {p : Parsed} (h : keyOf p = none) :
    Adds kept p { kept with noKey := kept.noKey ++ [p.1] } := by
  refine ⟨fun t => ?_, ?_⟩
  · rw [h]; rfl
  · simp [unkeyed, h]

section
variable {env : Env}

theorem add_ok {kept : Kept} (hk : Counted kept) {p : Parsed} (hp : IntegerCounts p.1.usage) :
    ∃ kept', kept.add env p = .ok kept' ∧ Adds kept p kept' := by
  obtain ⟨entry, msgId, reqId⟩ := p
  cases msgId with
  | none => exact ⟨_, rfl, adds_unkeyed rfl⟩
  | some msgId =>
    cases reqId with
    | none => exact ⟨_, rfl, adds_unkeyed rfl⟩
    | some reqId =>
      have htext : msgId ++ ":" ++ reqId = Key.text (msgId, reqId) := rfl
      simp only [Kept.add, htext]
      cases hold : kept.dedupeMap.get? (Key.text (msgId, reqId)) with
      | none => exact ⟨_, rfl, adds_keyed (k := (msgId, reqId)) (by rw [hold]; rfl)⟩
      | some existing =>
        simp only [shouldReplace_eq hp (hk _ _ hold), Except.ok_bind, decide_eq_true_eq]
        split
        · rename_i hb
          exact ⟨_, rfl, adds_keyed (k := (msgId, reqId)) (by rw [hold, Winner.champion, if_pos hb])⟩
        · rename_i hb
          exact ⟨_, rfl, adds_same (k := (msgId, reqId)) hold (by rw [hold, Winner.champion, if_neg hb])⟩

theorem under_cons (p : Parsed) (ps : List Parsed) (t : String) :
    under (p :: ps) t = if (keyOf p).map Key.text = some t then p.1 :: under ps t else under ps t := by
  by_cases h : (keyOf p).map Key.text = some t <;> simp [under, h]

theorem unkeyed_cons (p : Parsed) (ps : List Parsed) : unkeyed (p :: ps) = unkeyed [p] ++ unkeyed ps := by
  by_cases h : keyOf p = none <;> simp [unkeyed, h]

theorem run_ok : ∀ (ps : List Parsed) {kept : Kept}, Counted kept → (∀ p ∈ ps, IntegerCounts p.1.usage) →
    ∃ kept', ps.foldlM (Kept.add env) kept = .ok kept' ∧
      (∀ t, kept'.dedupeMap.get? t =
        (under ps t).foldl (Winner.champion tokenTotal standing) (kept.dedupeMap.get? t)) ∧
      kept'.noKey = kept.noKey ++ unkeyed ps
  | [], kept, _, _ => ⟨kept, rfl, fun _ => rfl, (List.append_nil _).symm⟩
  | p :: ps, kept, hk, hps => by
    have hp := hps p (List.mem_cons_self ..)
    obtain ⟨kept₁, h₁, hadds⟩ := @add_ok env _ hk _ hp
    obtain ⟨kept₂, h₂, hheld, hno⟩ := run_ok ps (hadds.counted hk hp) fun q hq => hps q (List.mem_cons_of_mem _ hq)
    refine ⟨kept₂, Except.foldlM_cons.mpr ⟨kept₁, h₁, h₂⟩, fun t => ?_, ?_⟩
    · rw [hheld, hadds.held, under_cons]
      split <;> rfl
    · rw [hno, hadds.noKey, unkeyed_cons p ps, List.append_assoc]

end

/-! ## Elected entries -/

/-- What the map holds once all of `ps` has been added, in some order. -/
structure Elected (ps : List Parsed) (kept : Kept) : Prop where
  winner : ∀ t e, kept.dedupeMap.get? t = some e → Winner.IsWinner tokenTotal standing {c | c ∈ under ps t} e
  absent : ∀ t, kept.dedupeMap.get? t = none ↔ under ps t = []
  noKey : kept.noKey.Perm (unkeyed ps)

theorem elected_of_run {ps : List Parsed} {kept : Kept}
    (hheld : ∀ t, kept.dedupeMap.get? t = (under ps t).foldl (Winner.champion tokenTotal standing) none)
    (hno : kept.noKey = unkeyed ps) : Elected ps kept := by
  refine ⟨fun t e he => ?_, fun t => ?_, hno ▸ .refl _⟩
  · rcases @Winner.foldl_champion_none _ _ _ _ _ tokenTotal standing (under ps t) with ⟨-, hnone⟩ | ⟨w, hw, hwin⟩
    · rw [hheld, hnone] at he; cases he
    · rw [hheld, hw] at he; cases he; exact hwin
  · rcases @Winner.foldl_champion_none _ _ _ _ _ tokenTotal standing (under ps t) with ⟨hnil, hnone⟩ | ⟨w, hw, hwin⟩
    · rw [hheld, hnone]; simp [hnil]
    · rw [hheld, hw]
      constructor
      · intro h; cases h
      · intro h
        have hmem := hwin.1
        rw [h] at hmem
        cases hmem

theorem Elected.perm {ps ps' : List Parsed} {kept : Kept} (h : Elected ps kept) (hp : ps.Perm ps') :
    Elected ps' kept := by
  have hunder : ∀ t, (under ps t).Perm (under ps' t) := fun t => (hp.filter _).map _
  refine ⟨fun t e he => ?_, fun t => ?_, h.noKey.trans ((hp.filter _).map _)⟩
  · have hset : {c | c ∈ under ps' t} = {c | c ∈ under ps t} := by
      ext c; exact (hunder t).mem_iff.symm
    rw [hset]
    exact h.winner t e he
  · rw [h.absent]
    exact ⟨fun hnil => List.nil_perm.mp (hnil ▸ hunder t), fun hnil => List.perm_nil.mp (hnil ▸ hunder t)⟩

theorem hasSpeed_eq {c e : UsageEntry} (h : standing c = standing e) : hasSpeed c = hasSpeed e := by
  cases hc : hasSpeed c <;> cases he : hasSpeed e <;> simp [standing, hc, he] at h ⊢

section
variable {ps : List Parsed} {kept : Kept}

theorem Elected.mem_keys (h : Elected ps kept) {t : String} :
    t ∈ kept.dedupeMap.keys ↔ t ∈ (keys ps).map Key.text := by
  rw [← not_iff_not, ← Dict.get?_eq_none, h.absent, List.eq_nil_iff_forall_not_mem]
  simp only [mem_under, List.mem_map, mem_keys_iff]
  constructor
  · rintro hno ⟨k, ⟨e, he⟩, ht⟩; exact hno e ⟨k, ht, he⟩
  · rintro hno e ⟨k, ht, he⟩; exact hno ⟨k, ⟨e, he⟩, ht⟩

theorem Elected.length (h : Elected ps kept) :
    kept.dedupeMap.entries.length = ((keys ps).toFinset.image Key.text).card := by
  have hset : kept.dedupeMap.keys.toFinset = (keys ps).toFinset.image Key.text := by
    ext t
    rw [List.mem_toFinset, h.mem_keys, Finset.mem_image]
    simp only [List.mem_map, List.mem_toFinset]
  have hnodup : kept.dedupeMap.keys.Nodup := kept.dedupeMap.nodup
  rw [← hset, List.toFinset_card_of_nodup hnodup, Dict.keys, List.length_map]

theorem Elected.greatest (h : Elected ps kept) (hapart : KeysApart ps) {k : Key} (hk : k ∈ keys ps) :
    ∃ e, kept.dedupeMap.get? k.text = some e ∧ IsGreatest (tokenTotal '' entriesOf ps k) (tokenTotal e) ∧
      (hasSpeed e = true ↔ ∃ c ∈ entriesOf ps k, tokenTotal c = tokenTotal e ∧ hasSpeed c = true) := by
  have hin := h.mem_keys.mpr (List.mem_map_of_mem hk)
  obtain ⟨e, he⟩ := Dict.mem_keys.mp hin
  have hwin := h.winner _ _ he
  have hset : {c | c ∈ under ps k.text} = entriesOf ps k := by
    ext c; exact hapart.mem_under hk
  rw [hset] at hwin
  refine ⟨e, he, ⟨⟨e, hwin.1, rfl⟩, ?_⟩, fun hs => ⟨e, hwin.1, rfl, hs⟩, ?_⟩
  · rintro _ ⟨c, hc, rfl⟩
    exact hwin.rev_le hc
  · rintro ⟨c, hc, htotal, hs⟩
    have hle := hwin.pos_le hc htotal
    rw [← hs]
    refine hasSpeed_eq (le_antisymm hle ?_)
    simp [standing, hs]

theorem Elected.deduplicated_iff (h : Elected ps kept) : Deduplicated ps kept ↔ KeysApart ps := by
  have hcard : (keys ps).dedup.length = (keys ps).toFinset.card := (List.card_toFinset _).symm
  constructor
  · intro hd
    have hinj := Finset.card_image_iff.mp ((h.length.symm.trans hd.single).trans hcard)
    intro k hk k' hk' ht
    exact hinj (by simpa using hk) (by simpa using hk') ht
  · intro hapart
    refine ⟨fun k hk => h.greatest hapart hk, ?_, h.noKey⟩
    rw [h.length, hcard, Finset.card_image_iff]
    intro k hk k' hk' ht
    exact hapart k (by simpa using hk) k' (by simpa using hk') ht

theorem Elected.summary_perm {kept' : Kept} (h : Elected ps kept) (h' : Elected ps kept') :
    (summary kept).Perm (summary kept') := by
  show (kept.dedupeMap.mapValues fun e => (tokenTotal e, hasSpeed e)).entries.Perm
    (kept'.dedupeMap.mapValues fun e => (tokenTotal e, hasSpeed e)).entries
  refine Dict.perm_of_get? fun t => ?_
  rw [Dict.get?_mapValues, Dict.get?_mapValues]
  cases he : kept.dedupeMap.get? t with
  | none => rw [(h'.absent t).mpr ((h.absent t).mp he)]
  | some e =>
    cases he' : kept'.dedupeMap.get? t with
    | none =>
      rw [(h.absent t).mpr ((h'.absent t).mp he')] at he
      cases he
    | some e' =>
      have hw := h.winner t e he
      have hw' := h'.winner t e' he'
      have htotal : tokenTotal e = tokenTotal e' := le_antisymm (hw'.rev_le hw.1) (hw.rev_le hw'.1)
      have hspeed : hasSpeed e = hasSpeed e' :=
        hasSpeed_eq (le_antisymm (hw.pos_le hw'.1 htotal.symm) (hw'.pos_le hw.1 htotal))
      simp only [Option.map_some, htotal, hspeed]

end

/-! ## Files in any order -/

section
variable (env : Env) (rangeStart rangeEnd : Int)

def entryOfLine (path line : String) : Option Parsed :=
  match readLine env rangeStart rangeEnd path line with
  | .ok parsed => parsed
  | .error _ => none

def inRange (files : List SourceFile) : List Parsed :=
  files.flatMap fun f => f.lines.filterMap (entryOfLine env rangeStart rangeEnd f.path)

def Reordered (files files' : List SourceFile) : Prop :=
  ∃ l : List SourceFile, l.Perm files' ∧
    List.Forall₂ (fun f g => f.path = g.path ∧ f.lines.Perm g.lines) files l

def OrderIndependent (files : List SourceFile) : Prop :=
  (∀ files', Reordered files' files → ∃ kept, collectEntries env rangeStart rangeEnd files' = .ok kept ∧
    Deduplicated (inRange env rangeStart rangeEnd files) kept) ∧
  ∀ files₁ files₂ kept₁ kept₂, Reordered files₁ files → Reordered files₂ files →
    collectEntries env rangeStart rangeEnd files₁ = .ok kept₁ →
    collectEntries env rangeStart rangeEnd files₂ = .ok kept₂ → (summary kept₁).Perm (summary kept₂)

def Readable (files : List SourceFile) : Prop :=
  ∀ f ∈ files, ∀ line ∈ f.lines, ∃ p, readLine env rangeStart rangeEnd f.path line = .ok p

variable {env rangeStart rangeEnd}

theorem Reordered.refl (files : List SourceFile) : Reordered files files :=
  ⟨files, .refl _, List.forall₂_same.mpr fun _ _ => ⟨rfl, .refl _⟩⟩

theorem Reordered.inRange_perm {files files' : List SourceFile} (h : Reordered files files') :
    (inRange env rangeStart rangeEnd files).Perm (inRange env rangeStart rangeEnd files') := by
  obtain ⟨l, hl, hall⟩ := h
  refine List.Perm.trans ?_ (hl.flatMap_right _)
  clear hl
  induction hall with
  | nil => exact .refl _
  | cons hfg _ ih =>
    obtain ⟨hpath, hlines⟩ := hfg
    simp only [inRange, List.flatMap_cons, hpath]
    exact (hlines.filterMap _).append ih

theorem Reordered.readable {files files' : List SourceFile} (h : Reordered files files')
    (hr : Readable env rangeStart rangeEnd files') : Readable env rangeStart rangeEnd files := by
  obtain ⟨l, hl, hall⟩ := h
  intro f hf line hline
  have hg : ∃ g ∈ l, f.path = g.path ∧ f.lines.Perm g.lines := by
    clear hl
    induction hall with
    | nil => cases hf
    | cons hfg _ ih =>
      rcases List.mem_cons.mp hf with rfl | hf
      · exact ⟨_, List.mem_cons_self .., hfg⟩
      · obtain ⟨g, hg, hfg⟩ := ih hf
        exact ⟨g, List.mem_cons_of_mem _ hg, hfg⟩
  obtain ⟨g, hg, hpath, hlines⟩ := hg
  rw [hpath]
  exact hr g (hl.mem_iff.mp hg) line (hlines.mem_iff.mp hline)

theorem foldlM_line {path : String} : ∀ {lines : List String},
    (∀ line ∈ lines, ∃ p, readLine env rangeStart rangeEnd path line = .ok p) → ∀ kept : Kept,
    lines.foldlM (Kept.line env rangeStart rangeEnd path) kept =
      (lines.filterMap (entryOfLine env rangeStart rangeEnd path)).foldlM (Kept.add env) kept
  | [], _, _ => rfl
  | line :: lines, h, kept => by
    obtain ⟨p, hp⟩ := h line (List.mem_cons_self ..)
    have ih := foldlM_line fun l hl => h l (List.mem_cons_of_mem _ hl)
    have hentry : entryOfLine env rangeStart rangeEnd path line = p := by rw [entryOfLine, hp]
    rw [List.foldlM_cons, Kept.line, hp]
    cases p with
    | none =>
      rw [List.filterMap_cons_none hentry]
      exact ih kept
    | some p =>
      rw [List.filterMap_cons_some hentry, List.foldlM_cons]
      show kept.add env p >>= _ = _
      cases kept.add env p with
      | error _ => rfl
      | ok kept => exact ih kept

theorem foldlM_files : ∀ {files : List SourceFile}, Readable env rangeStart rangeEnd files → ∀ kept : Kept,
    files.foldlM (parseUsageEntries env rangeStart rangeEnd) kept =
      (inRange env rangeStart rangeEnd files).foldlM (Kept.add env) kept
  | [], _, _ => rfl
  | file :: files, h, kept => by
    have ih := foldlM_files fun f hf => h f (List.mem_cons_of_mem _ hf)
    rw [inRange, List.flatMap_cons, List.foldlM_append, List.foldlM_cons, parseUsageEntries,
      foldlM_line (h file (List.mem_cons_self ..))]
    exact bind_congr ih

theorem readable_of_foldlM_line {path : String} : ∀ {lines : List String} {kept kept' : Kept},
    lines.foldlM (Kept.line env rangeStart rangeEnd path) kept = .ok kept' →
    ∀ line ∈ lines, ∃ p, readLine env rangeStart rangeEnd path line = .ok p
  | [], _, _, _, _, hl => by cases hl
  | line :: lines, kept, kept', h, l, hl => by
    obtain ⟨kept₁, h₁, h₂⟩ := Except.foldlM_cons.mp h
    rcases List.mem_cons.mp hl with rfl | hl
    · obtain ⟨p, hp, -⟩ := Except.bind_eq_ok.mp h₁
      exact ⟨p, hp⟩
    · exact readable_of_foldlM_line h₂ l hl

theorem readable_of_foldlM : ∀ {files : List SourceFile} {kept kept' : Kept},
    files.foldlM (parseUsageEntries env rangeStart rangeEnd) kept = .ok kept' → Readable env rangeStart rangeEnd files
  | [], _, _, _, _, hf => by cases hf
  | file :: files, kept, kept', h, f, hf => by
    obtain ⟨kept₁, h₁, h₂⟩ := Except.foldlM_cons.mp h
    rcases List.mem_cons.mp hf with rfl | hf
    · exact readable_of_foldlM_line h₁
    · exact readable_of_foldlM h₂ f hf

theorem elected_of_reordered {files files' : List SourceFile}
    (hcounts : ∀ p ∈ inRange env rangeStart rangeEnd files, IntegerCounts p.1.usage)
    (hread : Readable env rangeStart rangeEnd files) (h : Reordered files' files) :
    ∃ kept, collectEntries env rangeStart rangeEnd files' = .ok kept ∧
      Elected (inRange env rangeStart rangeEnd files) kept := by
  have hperm : (inRange env rangeStart rangeEnd files').Perm (inRange env rangeStart rangeEnd files) :=
    h.inRange_perm
  have hempty : Counted Kept.empty := fun t e he => by cases he
  obtain ⟨kept, hrun, hheld, hno⟩ := @run_ok env _ _ hempty fun p hp => hcounts p (hperm.mem_iff.mp hp)
  refine ⟨kept, ?_, (elected_of_run hheld hno).perm hperm⟩
  rw [collectEntries, foldlM_files (h.readable hread)]
  exact hrun

/-- **The result is independent of the order, with one entry for each key, exactly when no two
keys in range print as one text.** -/
theorem collectEntries_iff (env : Env) (rangeStart rangeEnd : Int) (files : List SourceFile)
    (hcounts : ∀ p ∈ inRange env rangeStart rangeEnd files, IntegerCounts p.1.usage)
    (hrun : ∃ kept, collectEntries env rangeStart rangeEnd files = .ok kept) :
    OrderIndependent env rangeStart rangeEnd files ↔ KeysApart (inRange env rangeStart rangeEnd files) := by
  obtain ⟨kept, hkept⟩ := hrun
  have hread := readable_of_foldlM hkept
  constructor
  · intro h
    obtain ⟨kept', hrun', hd⟩ := h.1 files (.refl files)
    obtain ⟨kept'', hrun'', he⟩ := elected_of_reordered hcounts hread (.refl files)
    rw [hrun'] at hrun''
    cases hrun''
    exact he.deduplicated_iff.mp hd
  · intro hapart
    refine ⟨fun files' h => ?_, fun files₁ files₂ kept₁ kept₂ h₁ h₂ hrun₁ hrun₂ => ?_⟩
    · obtain ⟨kept', hrun', he⟩ := elected_of_reordered hcounts hread h
      exact ⟨kept', hrun', he.deduplicated_iff.mpr hapart⟩
    · obtain ⟨k₁, hk₁, he₁⟩ := elected_of_reordered hcounts hread h₁
      obtain ⟨k₂, hk₂, he₂⟩ := elected_of_reordered hcounts hread h₂
      rw [hrun₁] at hk₁
      rw [hrun₂] at hk₂
      cases hk₁
      cases hk₂
      exact he₁.summary_perm he₂

end

def lineOf (msgId reqId tokens : String) : String :=
  "\x7b\"type\":\"assistant\",\"timestamp\":\"2026-01-01T00:00:00Z\",\"message\":\x7b\"id\":\"" ++ msgId ++
    "\",\"model\":\"opus\",\"usage\":\x7b\"input_tokens\":" ++ tokens ++ "\x7d\x7d,\"requestId\":\"" ++ reqId ++
    "\"\x7d"

def lineJson (msgId reqId : String) (tokens : Int) : Json :=
  .obj [("message", .obj [("id", .str msgId), ("model", .str "opus"), ("usage", .obj [("input_tokens", .num tokens)])]),
    ("requestId", .str reqId), ("timestamp", .str "2026-01-01T00:00:00Z"), ("type", .str "assistant")]

def lineEnv : Env where
  strip s := s
  loads s :=
    if s = lineOf "a:b" "c" "1" then .ok (lineJson "a:b" "c" 1)
    else if s = lineOf "a" "b:c" "2" then .ok (lineJson "a" "b:c" 2)
    else if s = lineOf "a" "b" "3" then .ok (lineJson "a" "b" 3)
    else .error .jsonDecode
  fromisoformat s := if s = "2026-01-01T00:00:00+00:00" then some 1767225600000000 else none
  intOfFloat _ := .error .value
  intOfText _ := .error .value
  float _ := .error .type

def lineEntry (path : String) (tokens : Int) : UsageEntry :=
  ⟨1767225600000000, "opus", [("input_tokens", .num tokens)], none, path⟩

theorem inRange_apart : inRange lineEnv 0 1800000000000000
    [⟨"one.jsonl", [lineOf "a" "b:c" "2"]⟩, ⟨"two.jsonl", [lineOf "a" "b" "3"]⟩] =
      [(lineEntry "one.jsonl" 2, some "a", some "b:c"), (lineEntry "two.jsonl" 3, some "a", some "b")] := by
  rfl

theorem collectEntries_iff_apart : OrderIndependent lineEnv 0 1800000000000000
    [⟨"one.jsonl", [lineOf "a" "b:c" "2"]⟩, ⟨"two.jsonl", [lineOf "a" "b" "3"]⟩] := by
  refine (collectEntries_iff lineEnv 0 1800000000000000 _ ?_ ⟨_, rfl⟩).mpr ?_
  · rw [inRange_apart]
    simp only [List.forall_mem_cons, lineEntry, IntegerCounts]
    simp [field, Dict.find]
  · rw [inRange_apart]
    simp [KeysApart, keys, keyOf, Key.text]

/-- An id with a colon: of two keys that print as `a:b:c` one loses its entry. -/
theorem collectEntries_collides : ¬ OrderIndependent lineEnv 0 1800000000000000
    [⟨"one.jsonl", [lineOf "a:b" "c" "1", lineOf "a" "b:c" "2"]⟩] := by
  rintro ⟨h, -⟩
  obtain ⟨kept, hrun, hd⟩ := h _ (.refl _)
  have hkept : kept = ⟨⟨[("a:b:c", lineEntry "one.jsonl" 2)], by decide⟩, []⟩ := (Except.ok.inj hrun).symm
  have hsingle := hd.single
  have hkeys : keys (inRange lineEnv 0 1800000000000000
      [⟨"one.jsonl", [lineOf "a:b" "c" "1", lineOf "a" "b:c" "2"]⟩]) = [("a:b", "c"), ("a", "b:c")] := rfl
  rw [hkept, hkeys] at hsingle
  exact absurd hsingle (by decide)

end Cctally.UsageEntries
