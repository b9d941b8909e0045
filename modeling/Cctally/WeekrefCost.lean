import Cctally.GroupARollover
import Mathlib

/-!
# Cached costs of closed weeks

A closed week is summed once and served until a reconcile drops it: the reset signature
moved, the table went back, or a changed row reaches the week. Writers commit at any
moment, also between the signature of a tick, its reconcile and its sums.
-/

namespace Cctally.WeekrefCost

open GroupA (Store Edit Row Entry LastSeen maxId changedMinTimestamp changedMinTimestamp_le)

variable {E V X : Type*}

/-- `_weekref_key`: both boundaries as instants. -/
structure Week where
  start : Int
  end_ : Int
  deriving DecidableEq

def Week.contains (week : Week) (r : Row E) : Bool :=
  decide (week.start ≤ r.entry.timestamp ∧ r.entry.timestamp ≤ week.end_)

/-- The sum over the entries of the inclusive range, in the order of the table. -/
def rangeCost (cost : List (Entry E) → V) (week : Week) (rows : List (Row E)) : V :=
  cost ((rows.filter week.contains).map (·.entry))

structure Signature (X : Type*) where
  maxEntryId : Nat
  maxMutationSeq : Nat
  resetSig : X

def Signature.seen (sig : Signature X) : LastSeen X := ⟨sig.maxEntryId, sig.maxMutationSeq, sig.resetSig⟩

structure Proc (V X : Type*) where
  cache : Dict Week V
  lastSeen : Option (LastSeen X)

def cachedWeekrefCost (week : Week) (now : Int) (compute : V) (p : Proc V X) : V × Proc V X :=
  if now < week.end_ then (compute, p)
  else
    match p.cache.get? week with
    | some hit => (hit, p)
    | none => (compute, { p with cache := p.cache.set week compute })

def evict (rows : List (Row E)) (lastSeenSeq : Nat) (cache : Dict Week V) : Dict Week V :=
  match changedMinTimestamp rows lastSeenSeq with
  | none => cache
  | some wm => cache.filter fun week _ => !decide (wm ≤ week.end_)

/-- `rows` is the table as the watermark query finds it. -/
def reconcileWeekrefCache [DecidableEq X] (rows : List (Row E)) (sig : Signature X) (p : Proc V X) : Proc V X :=
  match p.lastSeen with
  | none => { p with lastSeen := some sig.seen }
  | some ls =>
    if sig.resetSig ≠ ls.extra ∨ sig.maxEntryId < ls.maxId ∨ sig.maxMutationSeq < ls.maxSeq then
      ⟨Dict.empty, some sig.seen⟩
    else if ls.maxSeq < sig.maxMutationSeq then ⟨evict rows ls.maxSeq p.cache, some sig.seen⟩
    else p

/-- A tick reads its signature, reconciles with it, and then serves weeks. -/
inductive Phase (X : Type*) where
  | idle
  | signed (sig : Signature X) (moment : Nat)
  | reconciled (moment : Nat)

structure Served (V : Type*) where
  week : Week
  value : V
  signedAt : Nat
  servedAt : Nat

structure World (E V X : Type*) where
  earlier : List (Store E)
  store : Store E
  resetSig : X
  proc : Proc V X
  phase : Phase X
  served : List (Served V)

def World.start (store : Store E) (resetSig : X) : World E V X :=
  ⟨[], store, resetSig, ⟨Dict.empty, none⟩, .idle, []⟩

namespace World

def moment (w : World E V X) : Nat := w.earlier.length

def table (w : World E V X) (moment : Nat) : Option (Store E) := (w.earlier ++ [w.store])[moment]?

def signature (w : World E V X) : Signature X := ⟨maxId w.store.rows, w.store.mutationSeq, w.resetSig⟩

end World

inductive Event (E X : Type*) where
  | commit (edits : List (Edit E))
  | reset (resetSig : X)
  | sign
  | reconcile
  | serve (week : Week) (now : Int)

variable [DecidableEq X] (cost : List (Entry E) → V)

def step (w : World E V X) : Event E X → World E V X
  | .commit edits => { w with earlier := w.earlier ++ [w.store], store := edits.foldl Store.edit w.store }
  | .reset resetSig => { w with resetSig }
  | .sign => { w with phase := .signed w.signature w.moment }
  | .reconcile =>
    match w.phase with
    | .signed sig moment =>
      { w with proc := reconcileWeekrefCache w.store.rows sig w.proc, phase := .reconciled moment }
    | _ => w
  | .serve week now =>
    match w.phase with
    | .reconciled moment =>
      let out := cachedWeekrefCost week now (rangeCost cost week w.store.rows) w.proc
      { w with proc := out.2, served := w.served ++ [⟨week, out.1, moment, w.moment⟩] }
    | _ => w

def run (w : World E V X) (events : List (Event E X)) : World E V X := events.foldl (step cost) w

/-! ## What a cached cost is worth -/

variable {cost}

/-- The cost of the table, unless a row changed since the sequence reaches the week. -/
def Evictable (cost : List (Entry E) → V) (seq : Nat) (rows : List (Row E)) (week : Week) (v : V) : Prop :=
  v = rangeCost cost week rows ∨ ∃ r ∈ rows, seq < r.mutationSeq ∧ r.mutationMinTs ≤ week.end_

theorem rangeCost_map {week : Week} {rows : List (Row E)} {f : Row E → Row E}
    (h : ∀ r ∈ rows, f r = r ∨ week.contains (f r) = false ∧ week.contains r = false) :
    rangeCost cost week (rows.map f) = rangeCost cost week rows := by
  have hfilter : (rows.map f).filter week.contains = rows.filter week.contains := by
    induction rows with
    | nil => rfl
    | cons r rows ih =>
      have ih := ih fun r' hr' => h r' (List.mem_cons_of_mem _ hr')
      rw [List.map_cons, List.filter_cons, List.filter_cons, ih]
      rcases h r (List.mem_cons_self ..) with heq | ⟨hnew, hold⟩
      · rw [heq]
      · rw [hnew, hold]
        rfl
  rw [rangeCost, hfilter, rangeCost]

theorem Evictable.insert {seq : Nat} {s : Store E} (hseq : seq ≤ s.mutationSeq) {week : Week} {v : V}
    (h : Evictable cost seq s.rows week v) (skip : Nat) (entry : Entry E) :
    Evictable cost seq (s.insert skip entry).rows week v := by
  have hrows : (s.insert skip entry).rows = s.rows ++ [GroupA.inserted s skip entry] := rfl
  rcases h with rfl | ⟨r, hr, hnew, hmin⟩
  · by_cases hin : week.contains (GroupA.inserted s skip entry) = true
    · refine .inr ⟨GroupA.inserted s skip entry, by rw [hrows]; simp, Nat.lt_succ_of_le hseq, ?_⟩
      exact (of_decide_eq_true hin).2
    · refine .inl ?_
      rw [rangeCost, rangeCost, hrows, List.filter_append, List.filter_cons_of_neg hin, List.filter_nil,
        List.append_nil]
  · exact .inr ⟨r, by rw [hrows]; exact List.mem_append_left _ hr, hnew, hmin⟩

theorem Evictable.rewrite {seq : Nat} {s : Store E} (hseq : seq ≤ s.mutationSeq) {week : Week} {v : V}
    (h : Evictable cost seq s.rows week v) (id : Nat) (entry : Entry E) :
    Evictable cost seq (s.rewrite id entry).rows week v := by
  have hmem : ∀ r ∈ s.rows, GroupA.rewritten s id entry r ∈ (s.rewrite id entry).rows := fun r hr =>
    List.mem_map_of_mem hr
  have hstamp : ∀ r : Row E, r.id = id → seq < (GroupA.rewritten s id entry r).mutationSeq ∧
      (GroupA.rewritten s id entry r).mutationMinTs = min r.mutationMinTs entry.timestamp := fun r hid => by
    rw [GroupA.rewritten, if_pos hid]
    exact ⟨Nat.lt_succ_of_le hseq, rfl⟩
  rcases h with rfl | ⟨r, hr, hnew, hmin⟩
  · by_cases htouch : ∃ r ∈ s.rows, r.id = id ∧
        (week.contains r = true ∨ week.contains (GroupA.rewritten s id entry r) = true)
    · -- the row keeps its earliest event time, which is not behind the week's end
      obtain ⟨r, hr, hid, hin⟩ := htouch
      obtain ⟨hlt, hmin⟩ := hstamp r hid
      refine .inr ⟨_, hmem r hr, hlt, ?_⟩
      rw [hmin]
      rcases hin with hin | hin
      · exact (min_le_left _ _).trans ((s.minTs_le r hr).trans (of_decide_eq_true hin).2)
      · rw [GroupA.rewritten, if_pos hid] at hin
        exact (min_le_right _ _).trans (of_decide_eq_true hin).2
    · refine .inl (rangeCost_map fun r hr => ?_).symm
      by_cases hid : r.id = id
      · refine .inr ⟨?_, ?_⟩
        · exact Bool.eq_false_iff.mpr fun hin => htouch ⟨r, hr, hid, .inr hin⟩
        · exact Bool.eq_false_iff.mpr fun hin => htouch ⟨r, hr, hid, .inl hin⟩
      · exact .inl (by rw [GroupA.rewritten, if_neg hid])
  · by_cases hid : r.id = id
    · obtain ⟨hlt, hmin'⟩ := hstamp r hid
      exact .inr ⟨_, hmem r hr, hlt, hmin' ▸ (min_le_left _ _).trans hmin⟩
    · have hsame : GroupA.rewritten s id entry r = r := by rw [GroupA.rewritten, if_neg hid]
      exact .inr ⟨r, hsame ▸ hmem r hr, hnew, hmin⟩

theorem Evictable.commit {seq : Nat} {week : Week} {v : V} : ∀ (edits : List (Edit E)) {s : Store E},
    seq ≤ s.mutationSeq → Evictable cost seq s.rows week v →
    seq ≤ (edits.foldl Store.edit s).mutationSeq ∧ Evictable cost seq (edits.foldl Store.edit s).rows week v
  | [], _, hseq, h => ⟨hseq, h⟩
  | edit :: edits, s, hseq, h => by
    have hseq' : seq ≤ (s.edit edit).mutationSeq := by
      cases edit with
      | insert skip entry => exact Nat.le_succ_of_le hseq
      | rewrite id entry => exact Nat.le_succ_of_le hseq
    have h' : Evictable cost seq (s.edit edit).rows week v := by
      cases edit with
      | insert skip entry => exact h.insert hseq skip entry
      | rewrite id entry => exact h.rewrite hseq id entry
    rw [List.foldl_cons]
    exact Evictable.commit edits hseq' h'

theorem mutationSeq_commit : ∀ (edits : List (Edit E)) (s : Store E),
    s.mutationSeq ≤ (edits.foldl Store.edit s).mutationSeq
  | [], s => le_refl _
  | edit :: edits, s => by
    have hstep : s.mutationSeq ≤ (s.edit edit).mutationSeq := by
      cases edit with
      | insert skip entry => exact Nat.le_succ _
      | rewrite id entry => exact Nat.le_succ _
    exact hstep.trans (mutationSeq_commit edits (s.edit edit))

theorem Evictable.eq_of_evict {seq : Nat} {rows : List (Row E)} {cache : Dict Week V} {week : Week} {v : V}
    (h : Evictable cost seq rows week v) (hget : (evict rows seq cache).get? week = some v) :
    v = rangeCost cost week rows := by
  rcases h with h | ⟨r, hr, hseq, hmin⟩
  · exact h
  · obtain ⟨wm, hwm, hle⟩ := changedMinTimestamp_le hr hseq
    rw [evict, hwm] at hget
    have hkept := (Dict.get?_filter_eq_some.mp hget).2
    simp only [Bool.not_eq_true', decide_eq_false_iff_not, not_le] at hkept
    exact absurd (hle.trans hmin) (not_le.mpr hkept)

theorem get?_of_evict {rows : List (Row E)} {seq : Nat} {cache : Dict Week V} {week : Week} {v : V}
    (h : (evict rows seq cache).get? week = some v) : cache.get? week = some v := by
  rw [evict] at h
  split at h
  · exact h
  · exact (Dict.get?_filter_eq_some.mp h).1

/-! ## Every tick -/

omit [DecidableEq X] in
theorem World.table_commit {w w' : World E V X} (hearlier : w'.earlier = w.earlier ++ [w.store]) {i : Nat}
    (h : i ≤ w.moment) : w'.table i = w.table i := by
  have hlt : i < (w.earlier ++ [w.store]).length := by
    rw [List.length_append, List.length_singleton]
    exact Nat.lt_succ_of_le h
  rw [World.table, hearlier, List.getElem?_append_left hlt, World.table]

omit [DecidableEq X] in
theorem World.table_moment (w : World E V X) : w.table w.moment = some w.store := by
  rw [World.table, World.moment, List.getElem?_append_right (le_refl _), Nat.sub_self]
  rfl

def CostBetween (cost : List (Entry E) → V) (w : World E V X) (week : Week) (v : V) (lo hi : Nat) : Prop :=
  ∃ i, lo ≤ i ∧ i ≤ hi ∧ ∃ t, w.table i = some t ∧ v = rangeCost cost week t.rows

def PhaseOk (cost : List (Entry E) → V) (w : World E V X) : Prop :=
  match w.phase with
  | .idle => True
  | .signed sig moment => moment ≤ w.moment ∧ ∃ t, w.table moment = some t ∧
      sig.maxMutationSeq = t.mutationSeq ∧ t.mutationSeq ≤ w.store.mutationSeq ∧
      ∀ ls, w.proc.lastSeen = some ls → ∀ week v, w.proc.cache.get? week = some v →
        Evictable cost ls.maxSeq t.rows week v
  | .reconciled moment => moment ≤ w.moment ∧ (∃ ls, w.proc.lastSeen = some ls) ∧ ∀ week v,
      w.proc.cache.get? week = some v → CostBetween cost w week v moment w.moment

structure Inv (cost : List (Entry E) → V) (w : World E V X) : Prop where
  cold : w.proc.lastSeen = none → ∀ week, w.proc.cache.get? week = none
  seq_le : ∀ ls, w.proc.lastSeen = some ls → ls.maxSeq ≤ w.store.mutationSeq
  cached : ∀ ls, w.proc.lastSeen = some ls → ∀ week v, w.proc.cache.get? week = some v →
    Evictable cost ls.maxSeq w.store.rows week v
  phase : PhaseOk cost w
  served : ∀ s ∈ w.served, s.servedAt ≤ w.moment ∧ CostBetween cost w s.week s.value s.signedAt s.servedAt

omit [DecidableEq X] in
theorem inv_start (store : Store E) (resetSig : X) : Inv cost (World.start store resetSig : World E V X) where
  cold _ _ := rfl
  seq_le ls h := by cases h
  cached ls h := by cases h
  phase := trivial
  served s hs := absurd hs List.not_mem_nil

omit [DecidableEq X] in
theorem CostBetween.mono {w w' : World E V X} {week : Week} {v : V} {lo hi hi' : Nat}
    (h : CostBetween cost w week v lo hi) (htable : ∀ i ≤ hi, w'.table i = w.table i) (hle : hi ≤ hi') :
    CostBetween cost w' week v lo hi' := by
  obtain ⟨i, hlo, hhi, t, ht, hv⟩ := h
  exact ⟨i, hlo, hhi.trans hle, t, (htable i hhi).trans ht, hv⟩

theorem inv_commit {w : World E V X} (h : Inv cost w) (edits : List (Edit E)) :
    Inv cost (step cost w (.commit edits)) := by
  have htable : ∀ i ≤ w.moment, (step cost w (.commit edits)).table i = w.table i := fun i hi =>
    World.table_commit rfl hi
  have hmoment : w.moment ≤ (step cost w (.commit edits)).moment := by
    simp [World.moment, step]
  have hseq := mutationSeq_commit edits w.store
  refine ⟨h.cold, fun ls hls => (h.seq_le ls hls).trans hseq, fun ls hls week v hget => ?_, ?_, fun s hs => ?_⟩
  · exact (Evictable.commit edits (h.seq_le ls hls) (h.cached ls hls week v hget)).2
  · have hphase := h.phase
    simp only [PhaseOk, step] at hphase ⊢
    split at hphase
    next => exact trivial
    next sig moment _ =>
      obtain ⟨hle, t, ht, hsig, hstore, hcached⟩ := hphase
      exact ⟨hle.trans hmoment, t, (htable moment hle).trans ht, hsig, hstore.trans hseq, hcached⟩
    next moment _ =>
      obtain ⟨hle, hseen, hcached⟩ := hphase
      exact ⟨hle.trans hmoment, hseen, fun week v hget => (hcached week v hget).mono htable hmoment⟩
  · obtain ⟨hle, hcost⟩ := h.served s hs
    exact ⟨hle.trans hmoment, hcost.mono (fun i hi => htable i (hi.trans hle)) (le_refl _)⟩

theorem inv_sign {w : World E V X} (h : Inv cost w) : Inv cost (step cost w .sign) :=
  ⟨h.cold, h.seq_le, h.cached, ⟨le_refl _, w.store, w.table_moment, rfl, le_refl _, h.cached⟩, h.served⟩

omit [DecidableEq X] in
theorem CostBetween.now (w : World E V X) {week : Week} {lo : Nat} (h : lo ≤ w.moment) :
    CostBetween cost w week (rangeCost cost week w.store.rows) lo w.moment :=
  ⟨w.moment, h, le_refl _, w.store, w.table_moment, rfl⟩

theorem inv_reset {w : World E V X} (h : Inv cost w) (resetSig : X) : Inv cost (step cost w (.reset resetSig)) :=
  ⟨h.cold, h.seq_le, h.cached, h.phase, h.served⟩

theorem reconcile_cases (rows : List (Row E)) (sig : Signature X) (p : Proc V X) :
    (p.lastSeen = none ∧ reconcileWeekrefCache rows sig p = { p with lastSeen := some sig.seen }) ∨
    (∃ ls, p.lastSeen = some ls ∧ reconcileWeekrefCache rows sig p = ⟨Dict.empty, some sig.seen⟩) ∨
    (∃ ls, p.lastSeen = some ls ∧
      reconcileWeekrefCache rows sig p = ⟨evict rows ls.maxSeq p.cache, some sig.seen⟩) ∨
    (∃ ls, p.lastSeen = some ls ∧ sig.maxMutationSeq = ls.maxSeq ∧ reconcileWeekrefCache rows sig p = p) := by
  cases hseen : p.lastSeen with
  | none => exact .inl ⟨rfl, by rw [reconcileWeekrefCache, hseen]⟩
  | some ls =>
    refine .inr ?_
    by_cases hclear : sig.resetSig ≠ ls.extra ∨ sig.maxEntryId < ls.maxId ∨ sig.maxMutationSeq < ls.maxSeq
    · exact .inl ⟨ls, rfl, by simp only [reconcileWeekrefCache, hseen, if_pos hclear]⟩
    · by_cases hmoved : ls.maxSeq < sig.maxMutationSeq
      · exact .inr (.inl ⟨ls, rfl, by simp only [reconcileWeekrefCache, hseen, if_neg hclear, if_pos hmoved]⟩)
      · refine .inr (.inr ⟨ls, rfl, ?_, by simp only [reconcileWeekrefCache, hseen, if_neg hclear, if_neg hmoved]⟩)
        have hback : ¬ sig.maxMutationSeq < ls.maxSeq := fun hlt => hclear (.inr (.inr hlt))
        omega

omit [DecidableEq X] in
theorem inv_of_current {w : World E V X} (h : Inv cost w) {sig : Signature X} {cache : Dict Week V} {moment : Nat}
    (hle : moment ≤ w.moment) (hseq : sig.maxMutationSeq ≤ w.store.mutationSeq)
    (hcurrent : ∀ week v, cache.get? week = some v → v = rangeCost cost week w.store.rows) :
    Inv cost { w with proc := ⟨cache, some sig.seen⟩, phase := .reconciled moment } where
  cold hno := absurd hno (Option.some_ne_none _)
  seq_le ls hls := by
    cases hls
    exact hseq
  cached ls _ week v hget := .inl (hcurrent week v hget)
  phase := by
    refine ⟨hle, ⟨_, rfl⟩, fun week v hget => ?_⟩
    rw [hcurrent week v hget]
    exact CostBetween.now w hle
  served := h.served

theorem inv_reconcile {w : World E V X} (h : Inv cost w) : Inv cost (step cost w .reconcile) := by
  have hphase := h.phase
  cases hw : w.phase with
  | idle => simpa only [step, hw] using h
  | reconciled moment => simpa only [step, hw] using h
  | signed sig moment =>
    simp only [PhaseOk, hw] at hphase
    obtain ⟨hle, t, ht, hsig, hstore, hsigned⟩ := hphase
    have hstep : step cost w .reconcile =
        { w with proc := reconcileWeekrefCache w.store.rows sig w.proc, phase := .reconciled moment } := by
      simp only [step, hw]
    have hseq : sig.maxMutationSeq ≤ w.store.mutationSeq := hsig ▸ hstore
    rw [hstep]
    rcases reconcile_cases w.store.rows sig w.proc with ⟨hseen, heq⟩ | ⟨ls, hseen, heq⟩ | ⟨ls, hseen, heq⟩ |
      ⟨ls, hseen, hsame, heq⟩
    · rw [heq]
      refine inv_of_current h hle hseq fun week v hget => ?_
      cases (h.cold hseen week).symm.trans hget
    · rw [heq]
      refine inv_of_current h hle hseq fun week v hget => ?_
      cases hget
    · rw [heq]
      refine inv_of_current h hle hseq fun week v hget => ?_
      exact (h.cached ls hseen week v (get?_of_evict hget)).eq_of_evict hget
    · -- no row of the signed table is newer than the sequence, so the cache is worth that table
      have hworth : ∀ week v, w.proc.cache.get? week = some v → v = rangeCost cost week t.rows := by
        intro week v hget
        rcases hsigned ls hseen week v hget with hv | ⟨r, hr, hnew, _⟩
        · exact hv
        · have hseq := t.seq_le r hr
          omega
      rw [heq]
      refine ⟨h.cold, h.seq_le, h.cached, ⟨hle, ⟨ls, hseen⟩, fun week v hget => ?_⟩, h.served⟩
      exact ⟨moment, le_refl _, hle, t, ht, hworth week v hget⟩

omit [DecidableEq X] in
theorem serve_cases (week : Week) (now : Int) (compute : V) (p : Proc V X) :
    (cachedWeekrefCost week now compute p = (compute, p)) ∨
    (∃ hit, p.cache.get? week = some hit ∧ cachedWeekrefCost week now compute p = (hit, p)) ∨
    cachedWeekrefCost week now compute p = (compute, { p with cache := p.cache.set week compute }) := by
  by_cases hopen : now < week.end_
  · exact .inl (by rw [cachedWeekrefCost, if_pos hopen])
  · cases hget : p.cache.get? week with
    | some hit => exact .inr (.inl ⟨hit, rfl, by rw [cachedWeekrefCost, if_neg hopen, hget]⟩)
    | none => exact .inr (.inr (by rw [cachedWeekrefCost, if_neg hopen, hget]))

omit [DecidableEq X] in
theorem inv_of_served {w : World E V X} (h : Inv cost w) {week : Week} {v : V} {moment : Nat}
    (hv : CostBetween cost w week v moment w.moment) :
    Inv cost { w with served := w.served ++ [⟨week, v, moment, w.moment⟩] } where
  cold := h.cold
  seq_le := h.seq_le
  cached := h.cached
  phase := h.phase
  served s hs := by
    rcases List.mem_append.1 hs with hs | hs
    · exact h.served s hs
    · obtain rfl := List.mem_singleton.1 hs
      exact ⟨le_refl _, hv⟩

omit [DecidableEq X] in
theorem inv_of_cached {w : World E V X} (h : Inv cost w) {moment : Nat} (hw : w.phase = .reconciled moment)
    (week : Week) :
    Inv cost { w with proc.cache := w.proc.cache.set week (rangeCost cost week w.store.rows) } := by
  have hphase := h.phase
  simp only [PhaseOk, hw] at hphase
  obtain ⟨hle, ⟨ls, hseen⟩, hcached⟩ := hphase
  have hget : ∀ week' v, (w.proc.cache.set week (rangeCost cost week w.store.rows)).get? week' = some v →
      v = rangeCost cost week' w.store.rows ∨ w.proc.cache.get? week' = some v := fun week' v h' => by
    by_cases hweek : week = week'
    · subst hweek
      rw [Dict.get?_set_self] at h'
      exact .inl (Option.some.inj h').symm
    · rw [Dict.get?_set_ne _ _ hweek] at h'
      exact .inr h'
  refine ⟨fun hno => ?_, h.seq_le, fun ls' hls' week' v h' => ?_, ?_, h.served⟩
  · cases hseen.symm.trans hno
  · rcases hget week' v h' with hv | hold
    · exact .inl hv
    · exact h.cached ls' hls' week' v hold
  · simp only [PhaseOk, hw]
    refine ⟨hle, ⟨ls, hseen⟩, fun week' v h' => ?_⟩
    rcases hget week' v h' with rfl | hold
    · exact CostBetween.now w hle
    · exact hcached week' v hold

omit [DecidableEq X] in
theorem PhaseOk.served {w : World E V X} (h : PhaseOk cost w) {moment : Nat} (hw : w.phase = .reconciled moment) :
    moment ≤ w.moment ∧
      ∀ week v, w.proc.cache.get? week = some v → CostBetween cost w week v moment w.moment := by
  simp only [PhaseOk, hw] at h
  exact ⟨h.1, h.2.2⟩

theorem inv_serve {w : World E V X} (h : Inv cost w) (week : Week) (now : Int) :
    Inv cost (step cost w (.serve week now)) := by
  cases hw : w.phase with
  | idle => simpa only [step, hw] using h
  | signed sig moment => simpa only [step, hw] using h
  | reconciled moment =>
    obtain ⟨hle, hcached⟩ := h.phase.served hw
    have hstep : step cost w (.serve week now) =
        let out := cachedWeekrefCost week now (rangeCost cost week w.store.rows) w.proc
        { w with proc := out.2, served := w.served ++ [⟨week, out.1, moment, w.moment⟩] } := by
      simp only [step, hw]
    rw [hstep]
    rcases serve_cases week now (rangeCost cost week w.store.rows) w.proc with heq | ⟨hit, hget, heq⟩ | heq
    · rw [heq]
      exact inv_of_served h (CostBetween.now w hle)
    · rw [heq]
      exact inv_of_served h (hcached week hit hget)
    · rw [heq]
      exact inv_of_served (inv_of_cached h hw week) (CostBetween.now w hle)

theorem inv_step {w : World E V X} (h : Inv cost w) (event : Event E X) : Inv cost (step cost w event) := by
  cases event with
  | commit edits => exact inv_commit h edits
  | reset resetSig => exact inv_reset h resetSig
  | sign => exact inv_sign h
  | reconcile => exact inv_reconcile h
  | serve week now => exact inv_serve h week now

theorem inv_run (events : List (Event E X)) {w : World E V X} (h : Inv cost w) : Inv cost (run cost w events) := by
  induction events generalizing w with
  | nil => exact h
  | cons event events ih => exact ih (inv_step h event)

/-- **A tick never serves a week older than its signature**: each value is the cost of a table at or after it. -/
theorem served_since_signature (cost : List (Entry E) → V) (store : Store E) (resetSig : X)
    (events : List (Event E X)) {s : Served V}
    (hs : s ∈ (run cost (World.start store resetSig) events).served) :
    ∃ i, s.signedAt ≤ i ∧ i ≤ s.servedAt ∧ ∃ t,
      (run cost (World.start store resetSig) events).table i = some t ∧ s.value = rangeCost cost s.week t.rows :=
  ((inv_run events (inv_start store resetSig)).served s hs).2

def emptyStore : Store Unit := ⟨[], 0, List.nodup_nil, fun _ h => absurd h List.not_mem_nil,
  fun _ h => absurd h List.not_mem_nil⟩

def lateEntry : List (Event Unit Nat) :=
  [.sign, .reconcile, .serve ⟨0, 10⟩ 20, .sign, .commit [.insert 0 ⟨10, "m", ()⟩], .reconcile, .serve ⟨0, 10⟩ 20,
    .sign, .reconcile, .serve ⟨0, 10⟩ 20]

theorem served_since_signature_late :
    ∃ i, 1 ≤ i ∧ i ≤ 1 ∧ ∃ t, (run List.length (World.start emptyStore 7) lateEntry).table i = some t ∧
      1 = rangeCost List.length ⟨0, 10⟩ t.rows :=
  served_since_signature List.length emptyStore 7 lateEntry (s := ⟨⟨0, 10⟩, 1, 1, 1⟩)
    (List.mem_of_getElem? (i := 2) rfl)

end Cctally.WeekrefCost
