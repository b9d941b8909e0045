import Cctally.SessionCache

/-!
# Sessions aggregated again

A warm call replaces the sessions that a changed entry resolves to now. It is right when
every session whose entries are not what they were is one of these.
-/

namespace Cctally.SessionCache

open GroupA (Entry Row Store Edit maxId rewritten inserted)

section
variable {U V X : Type} (usageOf : List (Entry (Usage U)) → V)

def fresh (db : Db U) : Dict String (Session V) :=
  (Dict.collect db.rowKey (·.entry) db.live).mapEntries fun key entries => ⟨key, usageOf entries⟩

def Keyed (d : Dict String (Session V)) : Prop := ∀ key s, d.get? key = some s → s.sessionId = key

theorem keyed_fresh (db : Db U) : Keyed (fresh usageOf db) := fun key s h => by
  rw [fresh, Dict.get?_mapEntries, Option.map_eq_some_iff] at h
  obtain ⟨_, _, rfl⟩ := h
  rfl

theorem aggregateSessions_eq (db : Db U) : aggregateSessions usageOf db = (fresh usageOf db).values := by
  rw [aggregateSessions, Dict.values, fresh, Dict.mapEntries, List.map_map]
  rfl

theorem mem_keys_live {db : Db U} {key : String} : key ∈ db.live.map db.rowKey ↔ db.sessionEntries key ≠ [] := by
  rw [Db.sessionEntries, Ne, List.map_eq_nil_iff, List.filter_eq_nil_iff, List.mem_map]
  push Not
  refine exists_congr fun r => and_congr_right fun _ => ?_
  rw [decide_eq_true_eq]

theorem get?_fresh (db : Db U) (key : String) :
    (fresh usageOf db).get? key =
      if db.sessionEntries key = [] then none else some ⟨key, usageOf (db.sessionEntries key)⟩ := by
  rw [fresh, Dict.get?_mapEntries, Dict.get?_collect]
  by_cases hkey : db.sessionEntries key = []
  · rw [if_pos hkey, if_neg fun hmem => mem_keys_live.1 hmem hkey]
    rfl
  · rw [if_neg hkey, if_pos (mem_keys_live.2 hkey)]
    rfl

variable {usageOf}

theorem fresh_congr {db db' : Db U} {key : String} (h : db.sessionEntries key = db'.sessionEntries key) :
    (fresh usageOf db).get? key = (fresh usageOf db').get? key := by
  rw [get?_fresh, get?_fresh, h]

theorem putAll_values {d : Dict String (Session V)} (h : Keyed d) (store : Dict String (Session V)) :
    putAll store d.values = store.merge d := by
  have hall : ∀ (l : List (String × Session V)) (store : Dict String (Session V)), (∀ p ∈ l, p.2.sessionId = p.1) →
      (l.map Prod.snd).foldl (fun store s => store.set s.sessionId s) store =
        l.foldl (fun store p => store.set p.1 p.2) store := by
    intro l
    induction l with
    | nil => exact fun _ _ => rfl
    | cons p l ih =>
      intro store hl
      rw [List.map_cons, List.foldl_cons, List.foldl_cons, hl p List.mem_cons_self]
      exact ih _ fun q hq => hl q (List.mem_cons_of_mem _ hq)
  exact hall d.entries store fun p hp => h p.1 p.2 (Dict.get?_eq_some.2 hp)

theorem reaggregate_eq (db : Db U) (affected : List String) :
    reaggregate usageOf db affected = ((fresh usageOf db).filter fun key _ => key ∈ affected).values := by
  rw [reaggregate, aggregateSessions_eq, Dict.values, Dict.values, Dict.filter, List.filter_map]
  refine congrArg _ (List.filter_congr fun p hp => ?_)
  rw [Function.comp_apply, keyed_fresh usageOf db p.1 p.2 (Dict.get?_eq_some.2 hp)]

theorem keyed_filter {d : Dict String (Session V)} (h : Keyed d) (p : String → Session V → Bool) : Keyed (d.filter p) :=
  fun key s hs => h key s (Dict.get?_filter_eq_some.1 hs).1

theorem get?_reaggregated (store : Dict String (Session V)) (db : Db U) (affected : List String) (key : String) :
    (putAll store (reaggregate usageOf db affected)).get? key =
      if key ∈ affected then ((fresh usageOf db).get? key).or (store.get? key) else store.get? key := by
  rw [reaggregate_eq, putAll_values (keyed_filter (keyed_fresh usageOf db) _), Dict.get?_merge]
  by_cases hkey : key ∈ affected
  · rw [if_pos hkey]
    have hsame : ((fresh usageOf db).filter fun key _ => decide (key ∈ affected)).get? key = (fresh usageOf db).get? key := by
      refine Option.ext fun s => ?_
      rw [Dict.get?_filter_eq_some, decide_eq_true_eq]
      exact ⟨And.left, fun hs => ⟨hs, hkey⟩⟩
    rw [hsame]
  · rw [if_neg hkey]
    have hnone : ((fresh usageOf db).filter fun key _ => decide (key ∈ affected)).get? key = none := by
      refine Option.eq_none_iff_forall_not_mem.2 fun s hs => hkey ?_
      exact of_decide_eq_true (Dict.get?_filter_eq_some.1 hs).2
    rw [hnone, Option.none_or]

theorem mem_affected {db : Db U} {seq : Nat} {key : String} :
    key ∈ db.affectedSessionKeys seq ↔ ∃ r ∈ db.live, seq < r.mutationSeq ∧ db.rowKey r = key := by
  rw [Db.affectedSessionKeys, List.mem_eraseDups, List.mem_map]
  refine exists_congr fun r => ?_
  rw [List.mem_filter, decide_eq_true_eq, and_assoc]

theorem entries_of_affected {db : Db U} {seq : Nat} {key : String} (h : key ∈ db.affectedSessionKeys seq) :
    db.sessionEntries key ≠ [] := by
  obtain ⟨r, hr, _, hkey⟩ := mem_affected.1 h
  exact mem_keys_live.1 (List.mem_map.2 ⟨r, hr, hkey⟩)

theorem affected_of_le {db : Db U} {seq : Nat} (h : db.entries.mutationSeq ≤ seq) : db.affectedSessionKeys seq = [] := by
  refine List.eq_nil_iff_forall_not_mem.2 fun key hkey => ?_
  obtain ⟨r, hr, hlt, _⟩ := mem_affected.1 hkey
  have hle := db.entries.seq_le r (List.mem_filter.1 hr).1
  omega

variable [DecidableEq X]

theorem call_store {w : World U V X} {extra : X}
    (h : ∀ last, warm w.cache w.db extra = some last → ∀ key,
      key ∈ w.db.affectedSessionKeys last.maxSeq ∨ w.cache.store.get? key = (fresh usageOf w.db).get? key) (key : String) :
    (w.call usageOf extra).2.store.get? key = (fresh usageOf w.db).get? key := by
  simp only [World.call, buildCachedSessions]
  cases hwarm : warm w.cache w.db extra with
  | none =>
    simp only
    rw [aggregateSessions_eq, putAll_values (keyed_fresh usageOf w.db), Dict.get?_merge, Dict.get?_empty, Option.or_none]
  | some last =>
    simp only
    by_cases hwork : last.maxSeq < w.db.entries.mutationSeq ∧ w.db.affectedSessionKeys last.maxSeq ≠ []
    · rw [if_pos hwork, get?_reaggregated]
      by_cases hkey : key ∈ w.db.affectedSessionKeys last.maxSeq
      · rw [if_pos hkey, get?_fresh, if_neg (entries_of_affected hkey), Option.some_or]
      · rw [if_neg hkey]
        exact (h last hwarm key).resolve_left hkey
    · rw [if_neg hwork]
      have hnone : w.db.affectedSessionKeys last.maxSeq = [] := by
        by_cases hlt : last.maxSeq < w.db.entries.mutationSeq
        · exact not_not.1 fun hne => hwork ⟨hlt, hne⟩
        · exact affected_of_le (not_lt.1 hlt)
      refine (h last hwarm key).resolve_left fun hkey => ?_
      rw [hnone] at hkey
      cases hkey

structure Exact (usageOf : List (Entry (Usage U)) → V) (db : Db U) (sessions : List (Session V)) : Prop where
  nodup : (sessions.map (·.sessionId)).Nodup
  mem : ∀ s, s ∈ sessions ↔ db.sessionEntries s.sessionId ≠ [] ∧ s.usage = usageOf (db.sessionEntries s.sessionId)

theorem exact_values {db : Db U} {store : Dict String (Session V)}
    (h : ∀ key, store.get? key = (fresh usageOf db).get? key) : Exact usageOf db store.values := by
  have hkeyed : Keyed store := fun key s hs => keyed_fresh usageOf db key s (h key ▸ hs)
  refine ⟨?_, fun s => ?_⟩
  · have hids : store.values.map (·.sessionId) = store.keys := by
      rw [Dict.values, Dict.keys, List.map_map]
      exact List.map_congr_left fun p hp => hkeyed p.1 p.2 (Dict.get?_eq_some.2 hp)
    rw [hids]
    exact store.nodup
  · rw [Dict.mem_values]
    refine ⟨fun hstored => ?_, fun hfresh => ⟨s.sessionId, ?_⟩⟩
    · obtain ⟨key, hs⟩ := hstored
      obtain rfl := hkeyed key s hs
      rw [h, get?_fresh] at hs
      split at hs
      next => cases hs
      next hne => exact ⟨hne, congrArg Session.usage (Option.some.inj hs).symm⟩
    · rw [h, get?_fresh, if_neg hfresh.1, ← hfresh.2]

def Covered (w : World U V X) (extra : X) : Prop :=
  ∀ last seen, warm w.cache w.db extra = some last → w.calls.head? = some seen → ∀ key,
    w.db.sessionEntries key ≠ seen.1.sessionEntries key → key ∈ w.db.affectedSessionKeys last.maxSeq

def CoveredRun (usageOf : List (Entry (Usage U)) → V) (w : World U V X) : List (Event U X) → Prop
  | [] => True
  | e :: events => (∀ extra, e = .tick extra → Covered w extra) ∧ CoveredRun usageOf (w.step usageOf e) events

structure Right (usageOf : List (Entry (Usage U)) → V) (w : World U V X) : Prop where
  calls : ∀ c ∈ w.calls, Exact usageOf c.1 c.2
  store : w.cache.lastSeen ≠ none → ∃ seen, w.calls.head? = some seen ∧
    ∀ key, w.cache.store.get? key = (fresh usageOf seen.1).get? key

theorem right_step {w : World U V X} (h : Right usageOf w) {e : Event U X}
    (hcovered : ∀ extra, e = .tick extra → Covered w extra) : Right usageOf (w.step usageOf e) := by
  cases e with
  | edit edit => exact ⟨h.calls, h.store⟩
  | file path sessionId stamped => exact ⟨h.calls, h.store⟩
  | tick extra =>
    have hstore : ∀ key, (w.call usageOf extra).2.store.get? key = (fresh usageOf w.db).get? key := by
      refine call_store fun last hwarm key => ?_
      have hseen : w.cache.lastSeen ≠ none := fun hnone => by
        rw [warm, hnone] at hwarm
        cases hwarm
      obtain ⟨seen, hhead, hkept⟩ := h.store hseen
      by_cases hkey : w.db.sessionEntries key = seen.1.sessionEntries key
      · exact .inr ((hkept key).trans (fresh_congr hkey.symm))
      · exact .inl (hcovered extra rfl last seen hwarm hhead key hkey)
    have hexact : Exact usageOf w.db (w.call usageOf extra).1 := exact_values hstore
    refine ⟨fun c hc => ?_, fun _ => ⟨_, rfl, hstore⟩⟩
    rcases List.mem_cons.1 hc with rfl | hc
    · exact hexact
    · exact h.calls c hc

theorem right_run {w : World U V X} (h : Right usageOf w) {events : List (Event U X)}
    (hcovered : CoveredRun usageOf w events) : Right usageOf (w.run usageOf events) := by
  induction events generalizing w with
  | nil => exact h
  | cons e events ih => exact ih (right_step h hcovered.1) hcovered.2

omit [DecidableEq X] in
theorem right_start (db : Db U) : Right usageOf (World.start db : World U V X) :=
  ⟨nofun, fun h => absurd rfl h⟩

end

section
variable {U V X : Type}

/-! ## One write -/

structure Keeps (old new : Db U) (seq : Nat) (f : Row (Usage U) → Row (Usage U)) (added : List (Row (Usage U))) :
    Prop where
  rows : new.entries.rows = old.entries.rows.map f ++ added
  added : ∀ r ∈ added, seq < r.mutationSeq
  later : ∀ r ∈ old.entries.rows, r.mutationSeq ≤ (f r).mutationSeq
  changed : ∀ r ∈ old.entries.rows, (f r).entry = r.entry ∨ seq < (f r).mutationSeq
  live : ∀ r ∈ old.live, (f r).entry.model ≠ SYNTHETIC ∧ new.rowKey (f r) = old.rowKey r

theorem mem_live {db : Db U} {r : Row (Usage U)} : r ∈ db.live ↔ r ∈ db.entries.rows ∧ r.entry.model ≠ SYNTHETIC := by
  rw [Db.live, List.mem_filter, decide_eq_true_eq]

section
variable {old new : Db U} {seq : Nat} {f : Row (Usage U) → Row (Usage U)} {added : List (Row (Usage U))}

theorem Keeps.mem (h : Keeps old new seq f added) {r : Row (Usage U)} (hr : r ∈ old.entries.rows) :
    f r ∈ new.entries.rows := by
  rw [h.rows]
  exact List.mem_append_left _ (List.mem_map_of_mem hr)

theorem Keeps.affected (h : Keeps old new seq f added) {key : String} (hkey : key ∈ old.affectedSessionKeys seq) :
    key ∈ new.affectedSessionKeys seq := by
  obtain ⟨r, hr, hlt, rfl⟩ := mem_affected.1 hkey
  obtain ⟨hlive, hsame⟩ := h.live r hr
  have hmem := (mem_live.1 hr).1
  exact mem_affected.2 ⟨f r, mem_live.2 ⟨h.mem hmem, hlive⟩, lt_of_lt_of_le hlt (h.later r hmem), hsame⟩

def entryOf (db : Db U) (key : String) (r : Row (Usage U)) : Option (Entry (Usage U)) :=
  if r.entry.model ≠ SYNTHETIC ∧ db.rowKey r = key then some r.entry else none

theorem sessionEntries_eq (db : Db U) (key : String) : db.sessionEntries key = db.entries.rows.filterMap (entryOf db key) := by
  rw [Db.sessionEntries, Db.live, List.filter_filter]
  induction db.entries.rows with
  | nil => rfl
  | cons r rows ih =>
    rw [List.filter_cons, List.filterMap_cons, entryOf]
    by_cases hr : r.entry.model ≠ SYNTHETIC ∧ db.rowKey r = key
    · rw [if_pos hr, if_pos (by rw [Bool.and_eq_true, decide_eq_true_eq, decide_eq_true_eq]; exact hr.symm), List.map_cons, ih]
    · rw [if_neg hr, if_neg (by rw [Bool.and_eq_true, decide_eq_true_eq, decide_eq_true_eq]; exact fun h => hr h.symm), ih]

theorem Keeps.same (h : Keeps old new seq f added) {key : String} (hkey : key ∉ new.affectedSessionKeys seq) :
    new.sessionEntries key = old.sessionEntries key := by
  have hnot : ∀ r ∈ new.entries.rows, seq < r.mutationSeq → entryOf new key r = none := fun r hr hlt =>
    if_neg fun hboth => hkey (mem_affected.2 ⟨r, mem_live.2 ⟨hr, hboth.1⟩, hlt, hboth.2⟩)
  have hadded : added.filterMap (entryOf new key) = [] := List.filterMap_eq_nil_iff.2 fun r hr => by
    refine hnot r ?_ (h.added r hr)
    rw [h.rows]
    exact List.mem_append_right _ hr
  rw [sessionEntries_eq, sessionEntries_eq, h.rows, List.filterMap_append, hadded, List.append_nil, List.filterMap_map]
  refine List.filterMap_congr fun r hr => ?_
  rw [Function.comp_apply]
  by_cases hlive : r.entry.model ≠ SYNTHETIC
  · obtain ⟨hlive', hsame⟩ := h.live r (mem_live.2 ⟨hr, hlive⟩)
    rcases h.changed r hr with hentry | hlt
    · rw [entryOf, entryOf, hsame, hentry]
    · have hnone := hnot (f r) (h.mem hr) hlt
      have hother : old.rowKey r ≠ key := fun heq => by
        rw [entryOf, if_pos ⟨hlive', hsame.trans heq⟩] at hnone
        cases hnone
      rw [hnone, entryOf, if_neg fun hboth => hother hboth.2]
  · have hnone : entryOf old key r = none := if_neg fun hboth => hlive hboth.1
    rw [hnone]
    rcases h.changed r hr with hentry | hlt
    · rw [entryOf, if_neg]
      rw [hentry]
      exact fun hboth => hlive hboth.1
    · exact hnot (f r) (h.mem hr) hlt

end

def plain (db : Db U) : Event U X → Bool
  | .edit (.insert _ _) => true
  | .edit (.rewrite id entry) =>
    db.live.all fun r =>
      r.id ≠ id || entry.model ≠ SYNTHETIC && db.identity entry.usage.sourcePath = db.rowKey r
  | .file path sessionId _ =>
    db.live.all fun r =>
      r.entry.usage.sourcePath ≠ path || (sessionId.getD (stem path)) = db.identity path
  | .tick _ => true

theorem identity_set (db : Db U) (path path' : String) (sessionId : Option String) (entries : Store (Usage U)) :
    Db.identity ⟨entries, db.files.set path sessionId⟩ path' =
      if path = path' then sessionId.getD (stem path) else db.identity path' := by
  rw [Db.identity, Dict.get?_set]
  by_cases hpath : path = path'
  · rw [if_pos hpath, if_pos hpath, Option.join_some, hpath]
  · rw [if_neg hpath, if_neg hpath, Db.identity]

theorem keeps_write {db : Db U} {e : Event U X} (h : plain db e = true) {seq : Nat} (hseq : seq ≤ db.entries.mutationSeq) :
    ∃ f added, Keeps db (db.write e) seq f added := by
  have hlater : seq < db.entries.mutationSeq + 1 := Nat.lt_succ_of_le hseq
  cases e with
  | tick extra =>
    refine ⟨id, [], ?_, nofun, fun _ _ => le_refl _, fun _ _ => .inl rfl, fun r hr => ⟨(mem_live.1 hr).2, rfl⟩⟩
    rw [List.map_id, List.append_nil]
    rfl
  | file path sessionId stamped =>
    have hkey : ∀ r ∈ db.live, Db.identity ⟨(db.write (.file path sessionId stamped : Event U X)).entries,
        db.files.set path sessionId⟩ r.entry.usage.sourcePath = db.rowKey r := fun r hr => by
      rw [identity_set]
      by_cases hpath : path = r.entry.usage.sourcePath
      · have hsame := List.all_eq_true.1 h r hr
        rw [Bool.or_eq_true, decide_eq_true_eq, decide_eq_true_eq] at hsame
        rw [if_pos hpath, hsame.resolve_left fun hne => hne hpath.symm, hpath]
        rfl
      · rw [if_neg hpath]
        rfl
    cases stamped with
    | false =>
      refine ⟨id, [], ?_, nofun, fun _ _ => le_refl _, fun _ _ => .inl rfl, fun r hr => ⟨(mem_live.1 hr).2, hkey r hr⟩⟩
      rw [List.map_id, List.append_nil]
      rfl
    | true =>
      have hentry : ∀ r, (restamped db.entries path r).entry = r.entry := fun r => by
        rw [restamped]
        split
        next => rfl
        next => rfl
      refine ⟨restamped db.entries path, [], (List.append_nil _).symm, nofun, fun r hr => ?_, fun r _ => .inl (hentry r),
        fun r hr => ⟨?_, ?_⟩⟩
      · rw [restamped]
        split
        next => exact Nat.le_succ_of_le (db.entries.seq_le r hr)
        next => exact le_refl _
      · rw [hentry]
        exact (mem_live.1 hr).2
      · rw [Db.rowKey, hentry]
        exact hkey r hr
  | edit edit =>
    cases edit with
    | insert skip entry =>
      refine ⟨id, [inserted db.entries skip entry], ?_, fun r hr => ?_, fun _ _ => le_refl _, fun _ _ => .inl rfl,
        fun r hr => ⟨(mem_live.1 hr).2, rfl⟩⟩
      · rw [List.map_id]
        rfl
      · rw [List.mem_singleton.1 hr]
        exact hlater
    | rewrite id entry =>
      refine ⟨rewritten db.entries id entry, [], (List.append_nil _).symm, nofun, fun r hr => ?_, fun r _ => ?_,
        fun r hr => ?_⟩
      · rw [rewritten]
        split
        next => exact Nat.le_succ_of_le (db.entries.seq_le r hr)
        next => exact le_refl _
      · rw [rewritten]
        split
        next => exact .inr hlater
        next => exact .inl rfl
      · have hsame := List.all_eq_true.1 h r hr
        rw [Bool.or_eq_true, Bool.and_eq_true, decide_eq_true_eq, decide_eq_true_eq, decide_eq_true_eq] at hsame
        rw [rewritten]
        split
        next hid => exact hsame.resolve_left fun hne => hne hid
        next => exact ⟨(mem_live.1 hr).2, rfl⟩

/-! ## Runs -/

def plainRun (db : Db U) : List (Event U X) → Bool
  | [] => true
  | e :: events => plain db e && plainRun (db.write e) events

def Tracked (w : World U V X) : Prop :=
  ∀ last seen, w.cache.lastSeen = some last → w.calls.head? = some seen →
    last.maxSeq ≤ w.db.entries.mutationSeq ∧
      ∀ key, key ∉ w.db.affectedSessionKeys last.maxSeq → w.db.sessionEntries key = seen.1.sessionEntries key

variable [DecidableEq X] {usageOf : List (Entry (Usage U)) → V}

theorem step_db (w : World U V X) (e : Event U X) : (w.step usageOf e).db = w.db.write e := by
  cases e with
  | tick extra => rfl
  | file path sessionId stamped => rfl
  | edit edit => rfl

omit [DecidableEq X] in
theorem write_seq (db : Db U) (e : Event U X) : db.entries.mutationSeq ≤ (db.write e).entries.mutationSeq := by
  cases e with
  | tick extra => exact le_refl _
  | file path sessionId stamped =>
    cases stamped with
    | false => exact le_refl _
    | true => exact Nat.le_succ _
  | edit edit =>
    cases edit with
    | insert skip entry => exact Nat.le_succ _
    | rewrite id entry => exact Nat.le_succ _

theorem tracked_step {w : World U V X} (h : Tracked w) {e : Event U X} (hplain : plain w.db e = true) :
    Tracked (w.step usageOf e) := by
  have hkept : ∀ last seen, w.cache.lastSeen = some last → w.calls.head? = some seen →
      last.maxSeq ≤ (w.db.write e).entries.mutationSeq ∧ ∀ key, key ∉ (w.db.write e).affectedSessionKeys last.maxSeq →
        (w.db.write e).sessionEntries key = seen.1.sessionEntries key := by
    intro last seen hlast hhead
    obtain ⟨hle, hsame⟩ := h last seen hlast hhead
    obtain ⟨f, added, hkeeps⟩ := keeps_write hplain hle
    refine ⟨hle.trans (write_seq w.db e), fun key hkey => ?_⟩
    rw [hkeeps.same hkey]
    exact hsame key fun hold => hkey (hkeeps.affected hold)
  cases e with
  | tick extra =>
    intro last seen hlast hhead
    obtain rfl := Option.some.inj hlast
    obtain rfl := Option.some.inj hhead
    exact ⟨le_refl _, fun _ _ => rfl⟩
  | file path sessionId stamped => exact hkept
  | edit edit => exact hkept

theorem covered_of_tracked {w : World U V X} (h : Tracked w) (extra : X) : Covered w extra := by
  intro last seen hwarm hhead key hne
  have hlast : w.cache.lastSeen = some last := (Option.filter_eq_some_iff.1 hwarm).1
  by_contra hkey
  exact hne ((h last seen hlast hhead).2 key hkey)

theorem covered_of_plain {w : World U V X} (h : Tracked w) {events : List (Event U X)}
    (hplain : plainRun w.db events = true) : CoveredRun usageOf w events := by
  induction events generalizing w with
  | nil => trivial
  | cons e events ih =>
    rw [plainRun, Bool.and_eq_true] at hplain
    refine ⟨fun extra _ => covered_of_tracked h extra, ih (tracked_step h hplain.1) ?_⟩
    rw [step_db]
    exact hplain.2

omit [DecidableEq X] in
theorem tracked_start (db : Db U) : Tracked (World.start db : World U V X) := fun _ _ h => nomatch h

/-- **Every call returns the full aggregation**, in every run whose warm calls are covered. -/
theorem calls_exact (usageOf : List (Entry (Usage U)) → V) (db : Db U) (events : List (Event U X))
    (h : CoveredRun usageOf (World.start db) events) :
    ∀ c ∈ ((World.start db : World U V X).run usageOf events).calls, Exact usageOf c.1 c.2 :=
  (right_run (right_start db) h).calls

end

def noEntries : Db Unit := ⟨⟨[], 0, List.nodup_nil, nofun, nofun⟩, Dict.empty⟩

def opus (path : String) (timestamp : Int) : Entry (Usage Unit) := ⟨timestamp, "claude-opus", ⟨path, ()⟩⟩

def resumedRun : List (Event Unit Unit) :=
  [.edit (.insert 0 (opus "/p/a.jsonl" 1)), .tick (), .edit (.insert 0 (opus "/q/a.jsonl" 2)),
    .file "/p/a.jsonl" (some "a") true, .tick ()]

theorem calls_exact_resumed :
    ((World.start noEntries : World Unit Nat Unit).run List.length resumedRun).calls.length = 2 ∧
      ∀ c ∈ ((World.start noEntries : World Unit Nat Unit).run List.length resumedRun).calls, Exact List.length c.1 c.2 :=
  ⟨by decide, calls_exact List.length noEntries resumedRun (covered_of_plain (tracked_start noEntries) (by decide))⟩

/-- A backfill that moves a file's entries to another session leaves the one under its stem. -/
theorem backfill_leaves_stem :
    ¬ ∀ c ∈ ((World.start noEntries : World Unit Nat Unit).run List.length
      [.edit (.insert 0 (opus "/p/a.jsonl" 1)), .tick (), .file "/p/a.jsonl" (some "s") true, .tick ()]).calls,
      Exact List.length c.1 c.2 := by
  intro h
  have hexact := h _ List.mem_cons_self
  have hlast : (⟨"a", 1⟩ : Session Nat) ∈ [(⟨"a", 1⟩ : Session Nat), ⟨"s", 1⟩] := List.mem_cons_self
  exact ((hexact.mem ⟨"a", 1⟩).1 hlast).1 rfl

end Cctally.SessionCache
