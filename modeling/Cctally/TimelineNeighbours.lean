import Cctally.Dict
import Mathlib

/-!
# The timeline neighbours of a record

Two seeks around a record stop early. The one before it stops when no instant this
early can end later than the latest found; the one after it stops past the earliest
instant found. What they name are the neighbours over the whole timeline. What they
collect on the way holds further instants, which nothing reads.
-/

namespace Cctally.Timeline

def MAX_PRECISION_US : Int := 1000000

/-- A coalesced instant: where it begins and how long it is, in the order that `sorted` puts it. -/
abbrev Key := Int ×ₗ Int

instance lawfulKey : LawfulBEq Key := inferInstance

def Key.lo (k : Key) : Int := (ofLex k).1
def Key.precision (k : Key) : Int := (ofLex k).2
def Key.hi (k : Key) : Int := k.lo + k.precision

structure Row where
  lo : Int
  precision : Int
  positive : 0 < precision
  bounded : precision ≤ MAX_PRECISION_US
  accountKey : Option String
  journalSegment : String
  journalOffset : Int
  deriving DecidableEq

def Row.key (r : Row) : Key := toLex (r.lo, r.precision)
def Row.hi (r : Row) : Int := r.lo + r.precision

@[simp] theorem key_lo (r : Row) : r.key.lo = r.lo := rfl
@[simp] theorem key_hi (r : Row) : r.key.hi = r.hi := rfl

theorem Row.lo_lt_hi (r : Row) : r.lo < r.hi := lt_add_of_pos_right _ r.positive
theorem Row.hi_le (r : Row) : r.hi ≤ r.lo + MAX_PRECISION_US := add_le_add_right r.bounded _

abbrev Evidence := Int × String × Int

def Row.evidence (r : Row) : Evidence := (r.lo, r.journalSegment, r.journalOffset)

structure Interval where
  lo : Int
  hi : Int
  lt : lo < hi

inductive Relation
  | before
  | after
  | overlapping
  deriving DecidableEq

def relation (obs rec_ : Int × Int) : Relation :=
  if obs.2 ≤ rec_.1 then .before else if rec_.2 ≤ obs.1 then .after else .overlapping

structure Instant where
  loUs : Int
  precisionUs : Int
  accounts : Finset (Option String)
  deriving DecidableEq

def Instant.ambiguous (i : Instant) : Bool := i.accounts.card ≠ 1

structure Neighbours where
  before : Option Instant
  overlapping : List Instant
  after : Option Instant
  deriving DecidableEq

/-! ## The seeks -/

structure Group where
  accounts : Finset (Option String)
  evidence : List Evidence

def add (groups : Dict Key Group) (r : Row) : Dict Key Group :=
  let entry := (groups.get? r.key).getD ⟨∅, []⟩
  groups.set r.key ⟨insert r.accountKey entry.accounts, entry.evidence ++ [r.evidence]⟩

/-- `(hi, lo)`, what the latest instant before the record is the greatest of. -/
def Key.ending (k : Key) : Int ×ₗ Int := toLex (k.hi, k.lo)

def later (rec_ : Interval) (best : Option Key) (r : Row) : Option Key :=
  if r.hi ≤ rec_.lo ∧ ∀ b ∈ best, b.ending < r.key.ending then some r.key else best

def earlier (rec_ : Interval) (after : Option Key) (r : Row) : Option Key :=
  if rec_.hi ≤ r.lo ∧ ∀ a ∈ after, r.key < a then some r.key else after

def seek (stops : Option Key → Row → Bool) (next : Option Key → Row → Option Key) :
    List Row → Dict Key Group × Option Key → Dict Key Group × Option Key
  | [], found => found
  | r :: rows, found =>
    if stops found.2 r then found else seek stops next rows (add found.1 r, next found.2 r)

def stopsBefore (best : Option Key) (r : Row) : Bool := decide (∃ b ∈ best, r.lo + MAX_PRECISION_US < b.hi)

def stopsAfter (after : Option Key) (r : Row) : Bool := decide (∃ a ∈ after, a.lo < r.lo)

structure Queries (rows : List Row) (rec_ : Interval) where
  desc : List Row
  asc : List Row
  desc_perm : desc.Perm (rows.filter fun r => r.lo < rec_.lo)
  asc_perm : asc.Perm (rows.filter fun r => ¬ r.lo < rec_.lo)
  desc_sorted : desc.Pairwise fun r r' => r'.lo ≤ r.lo
  asc_sorted : asc.Pairwise fun r r' => r.lo ≤ r'.lo

section
variable {rows : List Row} {rec_ : Interval}

def instant (groups : Dict Key Group) (k : Key) : Option Instant :=
  (groups.get? k).map fun g => ⟨k.lo, k.precision, g.accounts⟩

def neighboursWithEvidence (q : Queries rows rec_) : Neighbours × Dict Key (List Evidence) :=
  let found := seek stopsBefore (later rec_) q.desc (Dict.empty, none)
  let best := found.2
  let found := seek stopsAfter (earlier rec_) q.asc (found.1, none)
  let groups := found.1
  (⟨best.bind (instant groups),
      ((sortedSet groups.keys).filter fun k => relation (k.lo, k.hi) (rec_.lo, rec_.hi) = .overlapping).filterMap
        (instant groups),
      found.2.bind (instant groups)⟩,
    groups.mapValues (·.evidence))

/-- `[neighbours.before, *neighbours.overlapping, neighbours.after]`, without `None`. -/
def Neighbours.named (n : Neighbours) : List Instant := n.before.toList ++ n.overlapping ++ n.after.toList

def Instant.key (i : Instant) : Key := toLex (i.loUs, i.precisionUs)

def supporting (evidence : Dict Key (List Evidence)) (n : Neighbours) : List Evidence :=
  n.named.flatMap fun i => (evidence.get? i.key).getD []

end

inductive Basis
  | agreement
  | fallback
  deriving DecidableEq

structure Decision where
  accountKey : Option String
  basis : Basis
  reason : Option String
  usedClosingCapture : Bool
  deriving DecidableEq

structure ClosingCapture where
  accountKey : Option String
  atUs : Int

def fallback (ingestAccount : Option String) (reason : String) : Decision := ⟨ingestAccount, .fallback, some reason, false⟩

theorem existsUnique_of_card {accounts : Finset (Option String)} (h : accounts.card = 1) :
    ∃! a, a ∈ accounts ∧ True := by
  obtain ⟨a, rfl⟩ := Finset.card_eq_one.1 h
  exact ⟨a, ⟨Finset.mem_singleton_self a, trivial⟩, fun b hb => Finset.mem_singleton.1 hb.1⟩

/-- `decide`; an interval is the reason where the record has none. -/
def decide_ (interval : Except String Interval) (neighbours : Option Neighbours) (clockCutoffUs : Int)
    (closingCapture : Option ClosingCapture) (ingestAccount : Option String) : Decision :=
  match interval with
  | .error reason => fallback ingestAccount reason
  | .ok interval =>
    if clockCutoffUs < interval.hi then fallback ingestAccount "clock_order"
    else
      match neighbours with
      | none => fallback ingestAccount "pre_timeline"
      | some n =>
        match n.before with
        | none => fallback ingestAccount "pre_timeline"
        | some before =>
          let captured : Option Instant := closingCapture.map fun c => ⟨c.atUs, 1, {c.accountKey}⟩
          let after := n.after.or captured
          let usedCapture := n.after.isNone && captured.isSome
          if before.ambiguous || n.overlapping.any (·.ambiguous) || after.any (·.ambiguous) then
            fallback ingestAccount "ambiguous_instant"
          else
            match after with
            | none => fallback ingestAccount "open_tail"
            | some after =>
              let accounts := n.overlapping.foldl (fun s i => s ∪ i.accounts) (before.accounts ∪ after.accounts)
              if h : accounts.card = 1 then
                ⟨Finset.choose (fun _ => True) accounts (existsUnique_of_card h), .agreement, none, usedCapture⟩
              else fallback ingestAccount "switch_window"

def instantOf (rows : List Row) (k : Key) : Instant :=
  ⟨k.lo, k.precision, ((rows.filter fun r => r.key = k).map (·.accountKey)).toFinset⟩

noncomputable def wholeTimeline (rows : List Row) (rec_ : Interval) : Neighbours :=
  let keys := rows.map Row.key
  ⟨((keys.filter fun k => k.hi ≤ rec_.lo).argmax Key.ending).map (instantOf rows),
    ((sortedSet keys).filter fun k => relation (k.lo, k.hi) (rec_.lo, rec_.hi) = .overlapping).map (instantOf rows),
    ((keys.filter fun k => rec_.hi ≤ k.lo).argmin id).map (instantOf rows)⟩

/-! ## Greatest under an injective key -/

section
variable {α β : Type*} [LinearOrder β] {f : α → β}

theorem argmax_eq_of_le (hf : Function.Injective f) {l : List α} {m : α} (hm : m ∈ l) (hmax : ∀ a ∈ l, f a ≤ f m) :
    l.argmax f = some m := by
  cases hl : l.argmax f with
  | none =>
    rw [List.argmax_eq_none.1 hl] at hm
    cases hm
  | some x =>
    have hx := List.argmax_mem hl
    rw [hf (le_antisymm (List.le_of_mem_argmax hm hl) (hmax x hx))]

theorem argmax_congr (hf : Function.Injective f) {l l' : List α} (hsub : ∀ a ∈ l, a ∈ l')
    (hbelow : ∀ a ∈ l', a ∈ l ∨ ∃ b ∈ l.argmax f, f a < f b) : l'.argmax f = l.argmax f := by
  cases hl : l.argmax f with
  | none =>
    rw [List.argmax_eq_none] at hl ⊢
    subst hl
    refine List.eq_nil_iff_forall_not_mem.2 fun a ha => ?_
    obtain h | ⟨b, hb, -⟩ := hbelow a ha
    · cases h
    · cases hb
  | some m =>
    refine argmax_eq_of_le hf (hsub m (List.argmax_mem hl)) fun a ha => ?_
    obtain h | ⟨b, hb, hlt⟩ := hbelow a ha
    · exact List.le_of_mem_argmax h hl
    · rw [hl] at hb
      cases hb
      exact hlt.le

theorem argmin_congr (hf : Function.Injective f) {l l' : List α} (hsub : ∀ a ∈ l, a ∈ l')
    (habove : ∀ a ∈ l', a ∈ l ∨ ∃ b ∈ l.argmin f, f b < f a) : l'.argmin f = l.argmin f :=
  argmax_congr (f := fun a => OrderDual.toDual (f a)) (fun _ _ h => hf h) hsub habove

end

theorem ending_injective : Function.Injective Key.ending := by
  intro k k' h
  have h := Prod.mk.inj (congrArg ofLex h)
  have hlo : k.lo = k'.lo := h.2
  have hhi : k.hi = k'.hi := h.1
  unfold Key.hi at hhi
  exact congrArg toLex (Prod.ext hlo (by rw [hlo] at hhi; exact (add_left_cancel hhi)))

theorem foldl_later (rec_ : Interval) (rows : List Row) :
    rows.foldl (later rec_) none = ((rows.map Row.key).filter fun k => k.hi ≤ rec_.lo).argmax Key.ending := by
  induction rows using List.reverseRecOn with
  | nil => rfl
  | append_singleton rows r ih =>
    rw [List.foldl_append, List.foldl_cons, List.foldl_nil, ih, List.map_append, List.map_singleton, List.filter_append, later]
    by_cases hr : r.hi ≤ rec_.lo
    · have hone : ([r.key].filter fun k => k.hi ≤ rec_.lo) = [r.key] := by simpa using hr
      rw [hone, List.argmax_concat]
      cases ((rows.map Row.key).filter fun k => k.hi ≤ rec_.lo).argmax Key.ending with
      | none => simp [hr]
      | some b => simp [hr]
    · have hnone : ([r.key].filter fun k => k.hi ≤ rec_.lo) = [] := by simpa using hr
      rw [hnone, List.append_nil, if_neg fun h => hr h.1]

theorem foldl_earlier (rec_ : Interval) (rows : List Row) :
    rows.foldl (earlier rec_) none = ((rows.map Row.key).filter fun k => rec_.hi ≤ k.lo).argmin id := by
  induction rows using List.reverseRecOn with
  | nil => rfl
  | append_singleton rows r ih =>
    rw [List.foldl_append, List.foldl_cons, List.foldl_nil, ih, List.map_append, List.map_singleton, List.filter_append, earlier]
    by_cases hr : rec_.hi ≤ r.lo
    · have hone : ([r.key].filter fun k => rec_.hi ≤ k.lo) = [r.key] := by simpa using hr
      rw [hone, List.argmin_concat]
      cases ((rows.map Row.key).filter fun k => rec_.hi ≤ k.lo).argmin id with
      | none => simp [hr]
      | some b => simp [hr]
    · have hnone : ([r.key].filter fun k => rec_.hi ≤ k.lo) = [] := by simpa using hr
      rw [hnone, List.append_nil, if_neg fun h => hr h.1]

theorem seek_visits (stops : Option Key → Row → Bool) (next : Option Key → Row → Option Key) :
    ∀ (rows : List Row) (found : Dict Key Group × Option Key), ∃ visited rest, rows = visited ++ rest ∧
      seek stops next rows found = (visited.foldl add found.1, visited.foldl next found.2) ∧
      ∀ r ∈ rest.head?, stops (visited.foldl next found.2) r = true := by
  intro rows
  induction rows with
  | nil => exact fun found => ⟨[], [], rfl, rfl, fun r hr => by cases hr⟩
  | cons r rows ih =>
    intro found
    unfold seek
    by_cases hstop : stops found.2 r = true
    · rw [if_pos hstop]
      refine ⟨[], r :: rows, rfl, rfl, fun r' hr' => ?_⟩
      cases hr'
      exact hstop
    · obtain ⟨visited, rest, hrows, hseek, hrest⟩ := ih (add found.1 r, next found.2 r)
      rw [if_neg hstop, hseek]
      exact ⟨r :: visited, rest, by rw [hrows, List.cons_append], rfl, hrest⟩

def rowsOf (rows : List Row) (k : Key) : List Row := rows.filter fun r => r.key = k

def groupOf (rows : List Row) (k : Key) : Group :=
  ⟨((rowsOf rows k).map (·.accountKey)).toFinset, (rowsOf rows k).map Row.evidence⟩

theorem getD_foldl_add (rows : List Row) (k : Key) :
    ((rows.foldl add Dict.empty).get? k).getD ⟨∅, []⟩ = groupOf rows k := by
  induction rows using List.reverseRecOn with
  | nil => rfl
  | append_singleton rows r ih =>
    rw [List.foldl_append, List.foldl_cons, List.foldl_nil, add, Dict.get?_set, groupOf, rowsOf, List.filter_append]
    by_cases hk : r.key = k
    · subst hk
      rw [if_pos rfl, Option.getD_some, ih, List.filter_cons_of_pos (by simp), List.filter_nil, List.map_append,
        List.map_append, List.toFinset_append, groupOf, rowsOf]
      simp
    · rw [if_neg hk, ih, List.filter_cons_of_neg (by simpa using hk), List.filter_nil, List.append_nil]
      rfl

theorem mem_keys_foldl_add (rows : List Row) (k : Key) : k ∈ (rows.foldl add Dict.empty).keys ↔ k ∈ rows.map Row.key := by
  induction rows using List.reverseRecOn with
  | nil => rfl
  | append_singleton rows r ih =>
    rw [List.foldl_append, List.foldl_cons, List.foldl_nil, add, Dict.mem_keys_set, ih, List.map_append, List.mem_append,
      List.map_singleton, List.mem_singleton, or_comm]

theorem get?_foldl_add {rows : List Row} {k : Key} (h : k ∈ rows.map Row.key) :
    (rows.foldl add Dict.empty).get? k = some (groupOf rows k) := by
  obtain ⟨g, hg⟩ := Dict.mem_keys.1 ((mem_keys_foldl_add rows k).2 h)
  have hget := getD_foldl_add rows k
  rw [hg, Option.getD_some] at hget
  rw [hg, hget]

/-! ## The seeks visit every row that matters -/

section
variable {rows : List Row} {rec_ : Interval}

structure Visits (rows : List Row) (rec_ : Interval) (best after : Option Key) (visited : List Row) : Prop where
  sub : ∀ r ∈ visited, r ∈ rows
  best_eq : best = ((visited.map Row.key).filter fun k => k.hi ≤ rec_.lo).argmax Key.ending
  after_eq : after = ((visited.map Row.key).filter fun k => rec_.hi ≤ k.lo).argmin id
  passed : ∃ rest, rows.Perm (visited ++ rest) ∧ ∀ r ∈ rest,
    (r.lo < rec_.lo ∧ ∃ b ∈ best, r.hi < b.hi) ∨ (rec_.lo ≤ r.lo ∧ ∃ a ∈ after, a.lo < r.lo)

theorem rest_sorted {l visited rest : List Row} {R : Row → Row → Prop} (hrefl : ∀ r, R r r) (hl : l.Pairwise R)
    (heq : l = visited ++ rest) {r : Row} (hr : r ∈ rest) : ∃ first ∈ rest.head?, R first r := by
  subst heq
  cases rest with
  | nil => cases hr
  | cons first rest =>
    refine ⟨first, rfl, ?_⟩
    obtain rfl | hr := List.mem_cons.1 hr
    · exact hrefl r
    · exact (List.pairwise_cons.1 (List.pairwise_append.1 hl).2.1).1 r hr

theorem visits (q : Queries rows rec_) : ∃ visited best after, Visits rows rec_ best after visited ∧
    neighboursWithEvidence q =
      (⟨best.bind (instant (visited.foldl add Dict.empty)),
          ((sortedSet (visited.foldl add Dict.empty).keys).filter fun k =>
            relation (k.lo, k.hi) (rec_.lo, rec_.hi) = .overlapping).filterMap (instant (visited.foldl add Dict.empty)),
          after.bind (instant (visited.foldl add Dict.empty))⟩,
        (visited.foldl add Dict.empty).mapValues (·.evidence)) := by
  obtain ⟨v, rest, hdesc, hseek, hstop⟩ := seek_visits stopsBefore (later rec_) q.desc (Dict.empty, none)
  obtain ⟨v', rest', hasc, hseek', hstop'⟩ :=
    seek_visits stopsAfter (earlier rec_) q.asc (v.foldl add Dict.empty, none)
  have hlow : ∀ r ∈ q.desc, r ∈ rows ∧ r.lo < rec_.lo := by
    intro r hr
    have hr := List.mem_filter.1 (q.desc_perm.mem_iff.1 hr)
    exact ⟨hr.1, of_decide_eq_true hr.2⟩
  have hhigh : ∀ r ∈ q.asc, r ∈ rows ∧ rec_.lo ≤ r.lo := by
    intro r hr
    have hr := List.mem_filter.1 (q.asc_perm.mem_iff.1 hr)
    exact ⟨hr.1, not_lt.1 (of_decide_eq_true hr.2)⟩
  refine ⟨v ++ v', v.foldl (later rec_) none, v'.foldl (earlier rec_) none, ⟨?_, ?_, ?_, rest ++ rest', ?_, ?_⟩, ?_⟩
  · intro r hr
    obtain hr | hr := List.mem_append.1 hr
    · exact (hlow r (hdesc ▸ List.mem_append_left _ hr)).1
    · exact (hhigh r (hasc ▸ List.mem_append_left _ hr)).1
  · have hnone : ((v'.map Row.key).filter fun k => k.hi ≤ rec_.lo) = [] := by
      refine List.filter_eq_nil_iff.2 fun k hk => ?_
      obtain ⟨r, hr, rfl⟩ := List.mem_map.1 hk
      rw [decide_eq_true_eq, key_hi, not_le]
      exact (hhigh r (hasc ▸ List.mem_append_left _ hr)).2.trans_lt r.lo_lt_hi
    rw [foldl_later, List.map_append, List.filter_append, hnone, List.append_nil]
  · have hnone : ((v.map Row.key).filter fun k => rec_.hi ≤ k.lo) = [] := by
      refine List.filter_eq_nil_iff.2 fun k hk => ?_
      obtain ⟨r, hr, rfl⟩ := List.mem_map.1 hk
      rw [decide_eq_true_eq, key_lo, not_le]
      exact (hlow r (hdesc ▸ List.mem_append_left _ hr)).2.trans rec_.lt
    rw [foldl_earlier, List.map_append, List.filter_append, hnone, List.nil_append]
  · have hperm : (q.desc ++ q.asc).Perm rows := by
      refine (q.desc_perm.append q.asc_perm).trans ?_
      have hnot : (fun r : Row => decide (¬ r.lo < rec_.lo)) = fun r => !decide (r.lo < rec_.lo) := by
        funext r
        exact decide_not
      rw [hnot]
      exact List.filter_append_perm _ _
    refine hperm.symm.trans ?_
    rw [hdesc, hasc, List.append_assoc, List.append_assoc]
    exact (List.perm_append_comm_assoc rest v' rest').append_left v
  · intro r hr
    obtain hr | hr := List.mem_append.1 hr
    · obtain ⟨first, hfirst, hle⟩ := rest_sorted (fun r => le_refl r.lo) q.desc_sorted hdesc hr
      obtain ⟨b, hb, hbound⟩ := of_decide_eq_true (hstop first hfirst)
      have := r.hi_le
      exact .inl ⟨(hlow r (hdesc ▸ List.mem_append_right _ hr)).2, b, hb, by omega⟩
    · obtain ⟨first, hfirst, hle⟩ := rest_sorted (fun r => le_refl r.lo) q.asc_sorted hasc hr
      obtain ⟨a, ha, hbound⟩ := of_decide_eq_true (hstop' first hfirst)
      exact .inr ⟨(hhigh r (hasc ▸ List.mem_append_right _ hr)).2, a, ha, by omega⟩
  · unfold neighboursWithEvidence
    simp only [hseek, hseek', List.foldl_append]

def Matters (rec_ : Interval) (best after : Option Key) (k : Key) : Prop :=
  k ∈ best ∨ k ∈ after ∨ rec_.lo < k.hi ∧ k.lo < rec_.hi

variable {best after : Option Key} {visited : List Row}

theorem Visits.best_le (h : Visits rows rec_ best after visited) {b : Key} (hb : b ∈ best) : b.hi ≤ rec_.lo := by
  rw [h.best_eq] at hb
  exact of_decide_eq_true (List.mem_filter.1 (List.argmax_mem hb)).2

theorem Visits.le_after (h : Visits rows rec_ best after visited) {a : Key} (ha : a ∈ after) : rec_.hi ≤ a.lo := by
  rw [h.after_eq] at ha
  exact of_decide_eq_true (List.mem_filter.1 (List.argmin_mem ha)).2

theorem Visits.perm_rowsOf (h : Visits rows rec_ best after visited) {k : Key} (hk : Matters rec_ best after k) :
    (rowsOf visited k).Perm (rowsOf rows k) := by
  obtain ⟨rest, hperm, hrest⟩ := h.passed
  have hnone : rowsOf rest k = [] := by
    refine List.filter_eq_nil_iff.2 fun r hr hkey => ?_
    obtain rfl := of_decide_eq_true hkey
    have hlt := rec_.lt
    have hpos := r.lo_lt_hi
    rw [Matters, key_lo, key_hi] at hk
    obtain ⟨hlow, b, hb, hbelow⟩ | ⟨hhigh, a, ha, habove⟩ := hrest r hr
    · have hle := h.best_le hb
      obtain hk | hk | hk := hk
      · rw [Option.mem_unique hb hk, key_hi] at hbelow
        omega
      · have := h.le_after hk
        rw [key_lo] at this
        omega
      · omega
    · have hle := h.le_after ha
      obtain hk | hk | hk := hk
      · have := h.best_le hk
        rw [key_hi] at this
        omega
      · rw [Option.mem_unique ha hk, key_lo] at habove
        omega
      · omega
  have hfilter := hperm.filter fun r => decide (r.key = k)
  rw [List.filter_append] at hfilter
  change (rowsOf rows k).Perm (rowsOf visited k ++ rowsOf rest k) at hfilter
  rw [hnone, List.append_nil] at hfilter
  exact hfilter.symm

theorem Visits.mem_keys (h : Visits rows rec_ best after visited) {k : Key} (hk : Matters rec_ best after k) :
    k ∈ visited.map Row.key ↔ k ∈ rows.map Row.key := by
  have hrow : ∀ l : List Row, k ∈ l.map Row.key ↔ ∃ r, r ∈ rowsOf l k := by
    intro l
    simp only [rowsOf, List.mem_map, List.mem_filter, decide_eq_true_eq]
  rw [hrow, hrow]
  exact exists_congr fun r => (h.perm_rowsOf hk).mem_iff

theorem Visits.instant_eq (h : Visits rows rec_ best after visited) {k : Key} (hk : Matters rec_ best after k)
    (hmem : k ∈ rows.map Row.key) : instant (visited.foldl add Dict.empty) k = some (instantOf rows k) := by
  rw [instant, get?_foldl_add ((h.mem_keys hk).2 hmem), Option.map_some, instantOf, groupOf]
  refine congrArg (fun s => some (Instant.mk k.lo k.precision s)) ?_
  exact List.toFinset_eq_of_perm _ _ ((h.perm_rowsOf hk).map _)

theorem Visits.best_whole (h : Visits rows rec_ best after visited) :
    ((rows.map Row.key).filter fun k => k.hi ≤ rec_.lo).argmax Key.ending = best := by
  rw [h.best_eq]
  refine argmax_congr ending_injective (fun k hk => ?_) fun k hk => ?_
  · obtain ⟨hmem, hle⟩ := List.mem_filter.1 hk
    obtain ⟨r, hr, rfl⟩ := List.mem_map.1 hmem
    exact List.mem_filter.2 ⟨List.mem_map_of_mem (h.sub r hr), hle⟩
  · obtain ⟨hmem, hle⟩ := List.mem_filter.1 hk
    obtain ⟨r, hr, rfl⟩ := List.mem_map.1 hmem
    obtain ⟨rest, hperm, hrest⟩ := h.passed
    obtain hr | hr := List.mem_append.1 (hperm.mem_iff.1 hr)
    · exact .inl (List.mem_filter.2 ⟨List.mem_map_of_mem hr, hle⟩)
    · right
      rw [← h.best_eq]
      obtain ⟨-, b, hb, hlt⟩ | ⟨hhigh, -⟩ := hrest r hr
      · exact ⟨b, hb, Prod.Lex.toLex_lt_toLex.2 (.inl hlt)⟩
      · have hle := of_decide_eq_true hle
        have := r.lo_lt_hi
        rw [key_hi] at hle
        omega

theorem Visits.after_whole (h : Visits rows rec_ best after visited) :
    ((rows.map Row.key).filter fun k => rec_.hi ≤ k.lo).argmin id = after := by
  rw [h.after_eq]
  refine argmin_congr Function.injective_id (fun k hk => ?_) fun k hk => ?_
  · obtain ⟨hmem, hle⟩ := List.mem_filter.1 hk
    obtain ⟨r, hr, rfl⟩ := List.mem_map.1 hmem
    exact List.mem_filter.2 ⟨List.mem_map_of_mem (h.sub r hr), hle⟩
  · obtain ⟨hmem, hle⟩ := List.mem_filter.1 hk
    obtain ⟨r, hr, rfl⟩ := List.mem_map.1 hmem
    obtain ⟨rest, hperm, hrest⟩ := h.passed
    obtain hr | hr := List.mem_append.1 (hperm.mem_iff.1 hr)
    · exact .inl (List.mem_filter.2 ⟨List.mem_map_of_mem hr, hle⟩)
    · right
      rw [← h.after_eq]
      obtain ⟨hlow, -⟩ | ⟨-, a, ha, hlt⟩ := hrest r hr
      · have hle := of_decide_eq_true hle
        have := rec_.lt
        rw [key_lo] at hle
        omega
      · exact ⟨a, ha, Prod.Lex.toLex_lt_toLex.2 (.inl hlt)⟩

theorem Visits.best_mem (h : Visits rows rec_ best after visited) {b : Key} (hb : b ∈ best) : b ∈ rows.map Row.key := by
  rw [← h.best_whole] at hb
  exact (List.mem_filter.1 (List.argmax_mem hb)).1

theorem Visits.after_mem (h : Visits rows rec_ best after visited) {a : Key} (ha : a ∈ after) : a ∈ rows.map Row.key := by
  rw [← h.after_whole] at ha
  exact (List.mem_filter.1 (List.argmin_mem ha)).1

theorem overlapping_iff {k : Key} : relation (k.lo, k.hi) (rec_.lo, rec_.hi) = .overlapping ↔ rec_.lo < k.hi ∧ k.lo < rec_.hi := by
  unfold relation
  split_ifs with hbefore hafter
  · simp [not_lt.2 hbefore]
  · simp [not_lt.2 hafter]
  · simp [not_le.1 hbefore, not_le.1 hafter]

theorem filter_sortedSet (p : Key → Bool) (l : List Key) : (sortedSet l).filter p = sortedSet (l.filter p) := by
  refine List.Perm.eq_of_pairwise (fun a b _ _ => le_antisymm) ((pairwise_sortedSet l).filter p)
    (pairwise_sortedSet _) ?_
  refine (List.perm_ext_iff_of_nodup ((nodup_sortedSet l).filter p) (nodup_sortedSet _)).2 fun k => ?_
  rw [List.mem_filter, mem_sortedSet, mem_sortedSet, List.mem_filter]

theorem Visits.overlapping_whole (h : Visits rows rec_ best after visited) :
    ((sortedSet (visited.foldl add Dict.empty).keys).filter fun k =>
        relation (k.lo, k.hi) (rec_.lo, rec_.hi) = .overlapping) =
      (sortedSet (rows.map Row.key)).filter fun k => relation (k.lo, k.hi) (rec_.lo, rec_.hi) = .overlapping := by
  rw [filter_sortedSet, filter_sortedSet]
  refine sortedSet_congr fun k => ?_
  rw [List.mem_filter, List.mem_filter, mem_keys_foldl_add, decide_eq_true_eq]
  refine and_congr_left fun hover => ?_
  exact h.mem_keys (.inr (.inr (overlapping_iff.1 hover)))

theorem Visits.neighbours_eq (h : Visits rows rec_ best after visited) :
    (⟨best.bind (instant (visited.foldl add Dict.empty)),
      ((sortedSet (visited.foldl add Dict.empty).keys).filter fun k =>
        relation (k.lo, k.hi) (rec_.lo, rec_.hi) = .overlapping).filterMap (instant (visited.foldl add Dict.empty)),
      after.bind (instant (visited.foldl add Dict.empty))⟩ : Neighbours) = wholeTimeline rows rec_ := by
  rw [wholeTimeline, h.best_whole, h.after_whole, h.overlapping_whole]
  have hbest : best.bind (instant (visited.foldl add Dict.empty)) = best.map (instantOf rows) := by
    cases hb : best with
    | none => rfl
    | some b => exact h.instant_eq (.inl hb) (h.best_mem hb)
  have hafter : after.bind (instant (visited.foldl add Dict.empty)) = after.map (instantOf rows) := by
    cases ha : after with
    | none => rfl
    | some a => exact h.instant_eq (.inr (.inl ha)) (h.after_mem ha)
  rw [hbest, hafter]
  refine congrArg (fun o => Neighbours.mk _ o _) ?_
  refine (List.filterMap_congr (g := some ∘ instantOf rows) fun k hk => ?_).trans (congrFun List.filterMap_eq_map _)
  obtain ⟨hmem, hover⟩ := List.mem_filter.1 hk
  exact h.instant_eq (.inr (.inr (overlapping_iff.1 (of_decide_eq_true hover)))) (mem_sortedSet.1 hmem)

theorem Visits.named_matters (h : Visits rows rec_ best after visited) {i : Instant}
    (hi : i ∈ (wholeTimeline rows rec_).named) : Matters rec_ best after i.key ∧ i.key ∈ rows.map Row.key := by
  rw [wholeTimeline, h.best_whole, h.after_whole, Neighbours.named] at hi
  obtain hi | hi := List.mem_append.1 hi
  · obtain hi | hi := List.mem_append.1 hi
    · obtain ⟨b, hb, rfl⟩ := Option.map_eq_some_iff.1 (Option.mem_toList.1 hi)
      exact ⟨.inl hb, h.best_mem hb⟩
    · obtain ⟨k, hk, rfl⟩ := List.mem_map.1 hi
      obtain ⟨hmem, hover⟩ := List.mem_filter.1 hk
      exact ⟨.inr (.inr (overlapping_iff.1 (of_decide_eq_true hover))), mem_sortedSet.1 hmem⟩
  · obtain ⟨a, ha, rfl⟩ := Option.map_eq_some_iff.1 (Option.mem_toList.1 hi)
    exact ⟨.inr (.inl ha), h.after_mem ha⟩

end

/-- **The two seeks find the neighbours over the whole timeline**, each with all its accounts; what they collect of
each is all of its rows, which is what an agreement is journalled with; and the decision is that on the whole. -/
theorem neighboursWithEvidence_whole (rows : List Row) (rec_ : Interval) (q : Queries rows rec_) :
    (neighboursWithEvidence q).1 = wholeTimeline rows rec_ ∧
      (∀ i ∈ (wholeTimeline rows rec_).named, ∃ es, (neighboursWithEvidence q).2.get? i.key = some es ∧
        es.Perm ((rowsOf rows i.key).map Row.evidence)) ∧
      (supporting (neighboursWithEvidence q).2 (neighboursWithEvidence q).1).Perm
        ((wholeTimeline rows rec_).named.flatMap fun i => (rowsOf rows i.key).map Row.evidence) ∧
      ∀ interval clockCutoffUs closingCapture ingestAccount,
        decide_ interval (some (neighboursWithEvidence q).1) clockCutoffUs closingCapture ingestAccount =
          decide_ interval (some (wholeTimeline rows rec_)) clockCutoffUs closingCapture ingestAccount := by
  obtain ⟨visited, best, after, h, hq⟩ := visits q
  have hfound : (neighboursWithEvidence q).1 = wholeTimeline rows rec_ := by
    rw [hq]
    exact h.neighbours_eq
  have hevidence : ∀ i ∈ (wholeTimeline rows rec_).named, ∃ es, (neighboursWithEvidence q).2.get? i.key = some es ∧
      es.Perm ((rowsOf rows i.key).map Row.evidence) := by
    intro i hi
    obtain ⟨hmatters, hmem⟩ := h.named_matters hi
    refine ⟨_, ?_, (h.perm_rowsOf hmatters).map Row.evidence⟩
    rw [hq, Dict.get?_mapValues, get?_foldl_add ((h.mem_keys hmatters).2 hmem)]
    rfl
  refine ⟨hfound, hevidence, ?_, fun _ _ _ _ => by rw [hfound]⟩
  rw [hfound, supporting]
  refine List.Perm.flatMap_left _ fun i hi => ?_
  obtain ⟨es, hget, hperm⟩ := hevidence i hi
  rw [hget]
  exact hperm

def workedRow (lo : Int) : Row := ⟨lo, 1, by decide, by decide, none, "observations-2026-01.jsonl", 0⟩

def workedQueries : Queries [workedRow 5, workedRow 0] ⟨10, 11, by decide⟩ :=
  ⟨[workedRow 5, workedRow 0], [], by decide, by decide, by decide, by decide⟩

theorem evidence_beyond_named :
    ¬ ∀ k ∈ (neighboursWithEvidence workedQueries).2.keys,
      k ∈ (neighboursWithEvidence workedQueries).1.named.map Instant.key := by
  decide +kernel

end Cctally.Timeline
