import Cctally.PrefixHash
import Cctally.Except
import Mathlib.Data.List.Nodup
import Mathlib.Logic.Function.Basic

/-!
# Streamed evidence is never wrong

The run is followed by the bytes it fed to each segment. Unless it is poisoned, the
accumulator's states are frames of those bytes, and a segment read again is believed
only if it reads as fed, so every digest is that of a framed prefix.
-/

namespace Cctally

namespace PrefixHash

structure Fed where
  closed : List (String × Bytes)
  current : Option (String × Bytes)
  registered : List HighWater

def Fed.segments (f : Fed) : List (String × Bytes) := f.closed ++ f.current.toList

def Fed.register (f : Fed) (boundary : Option HighWater) : List HighWater :=
  match boundary, f.current with
  | some b, some current => if b.1 = current.1 then f.registered ++ [b] else f.registered
  | _, _ => f.registered

def Fed.step (f : Fed) : Call → Fed
  | .beginSegment name boundary _ _ =>
    { closed := f.segments, current := some (name, []), registered := f.register boundary }
  | .extend data => { f with current := f.current.map fun c => (c.1, c.2 ++ data) }
  | .digestAt _ _ => f

def fed (calls : List Call) : Fed := calls.foldl Fed.step ⟨[], none, []⟩

def frame (segments : List (String × Bytes)) : Bytes :=
  segments.flatMap fun p => header p.1 p.2.length ++ p.2

def IsPrefix (segments : List (String × Bytes)) (segment : String) (offset : Nat) (text : Bytes) : Prop :=
  ∃ before bytes after, segments = before ++ (segment, bytes) :: after ∧ offset ≤ bytes.length ∧
    text = frame before ++ header segment offset ++ bytes.take offset

theorem frame_snoc (segments : List (String × Bytes)) (name : String) (bytes : Bytes) :
    frame (segments ++ [(name, bytes)]) = frame segments ++ header name bytes.length ++ bytes := by
  simp [frame]

/-! ## Reading again -/

section
variable {short : PrefixEvidenceUnavailable} {offset consumed : Nat}

theorem reread_ok (base : Bytes) : ∀ {chunks : List Bytes} {digest raw digest' raw' : Bytes},
    digest = base ++ raw.take offset →
      reread short offset consumed digest raw raw.length chunks = .ok (digest', raw') → digest' = base ++ raw'.take offset
  | [], digest, raw, digest', raw', hd, h => by
    simp only [reread] at h
    split at h
    · cases h
    · cases h
      exact hd
  | chunk :: chunks, digest, raw, digest', raw', hd, h => by
    simp only [reread] at h
    by_cases hlt : raw.length < consumed
    · rw [if_pos hlt] at h
      by_cases hnil : chunk = []
      · rw [if_pos hnil] at h
        cases h
      · rw [if_neg hnil, ← List.length_append] at h
        refine reread_ok base ?_ h
        rw [List.take_append, ← List.append_assoc, ← hd]
        by_cases hoff : raw.length < offset
        · rw [if_pos hoff]
        · rw [if_neg hoff, Nat.sub_eq_zero_of_le (not_lt.1 hoff), List.take_zero, List.append_nil]
    · rw [if_neg hlt] at h
      cases h
      exact hd

theorem reread_flatten : ∀ (chunks : List Bytes) (digest raw : Bytes), [] ∉ chunks →
    raw.length + chunks.flatten.length = consumed →
      ∃ digest', reread short offset consumed digest raw raw.length chunks = .ok (digest', raw ++ chunks.flatten)
  | [], digest, raw, _, hlen => by
    refine ⟨digest, ?_⟩
    simp only [List.flatten_nil, List.length_nil] at hlen
    have hend : ¬ raw.length < consumed := by omega
    simp only [reread, if_neg hend, List.flatten_nil, List.append_nil]
    rfl
  | chunk :: chunks, digest, raw, hne, hlen => by
    have hchunk : chunk ≠ [] := fun h => hne (h ▸ List.mem_cons_self ..)
    have hpos := List.length_pos_iff.2 hchunk
    simp only [List.flatten_cons, List.length_append] at hlen
    have hlt : raw.length < consumed := by omega
    obtain ⟨digest', h⟩ := reread_flatten chunks
      (if raw.length < offset then digest ++ chunk.take (offset - raw.length) else digest) (raw ++ chunk)
      (fun h => hne (List.mem_cons_of_mem _ h)) (by rw [List.length_append]; omega)
    refine ⟨digest', ?_⟩
    simp only [reread, if_pos hlt, if_neg hchunk]
    rw [← List.length_append, h, List.flatten_cons, List.append_assoc]

end

def Returns (bytes : Bytes) (reads : Reads) : Prop :=
  ∃ chunks, reads = some chunks ∧ chunks.flatten = bytes ∧ [] ∉ chunks

section
variable {sha256 : Bytes → String} {reads : Reads} {before bytes : Bytes} {name : String} {offset : Nat}

theorem verifiedRehash_ok (hsha : Function.Injective sha256) {digest : Bytes}
    (h : verifiedRehash sha256 reads before name offset bytes.length (sha256 bytes) = .ok digest) :
    offset ≤ bytes.length ∧ digest = before ++ header name offset ++ bytes.take offset := by
  unfold verifiedRehash at h
  rw [Except.guard_eq_ok] at h
  obtain ⟨hle, h⟩ := h
  refine ⟨not_lt.1 hle, ?_⟩
  by_cases hnil : bytes.length = 0
  · rw [if_pos hnil] at h
    cases h
    rw [List.length_eq_zero_iff.1 hnil, List.take_nil, List.append_nil]
  rw [if_neg hnil] at h
  cases reads with
  | none => cases h
  | some chunks =>
    obtain ⟨⟨digest', raw⟩, hread, h⟩ := Except.bind_eq_ok.1 h
    simp only at h
    rw [Except.guard_eq_ok, not_not] at h
    obtain ⟨hraw, h⟩ := h
    cases h
    have hdigest := reread_ok (before ++ header name offset) (by simp) hread
    rw [hdigest, hsha hraw]

theorem verifiedRehash_returns (hreads : Returns bytes reads) (hle : offset ≤ bytes.length) :
    ∃ digest, verifiedRehash sha256 reads before name offset bytes.length (sha256 bytes) = .ok digest := by
  obtain ⟨chunks, rfl, rfl, hne⟩ := hreads
  unfold verifiedRehash
  rw [if_neg (not_lt.2 hle)]
  by_cases hnil : chunks.flatten.length = 0
  · rw [if_pos hnil]
    exact ⟨_, rfl⟩
  · rw [if_neg hnil]
    obtain ⟨digest, h⟩ := reread_flatten chunks (before ++ header name offset) [] hne (Nat.zero_add _)
    rw [List.length_nil, List.nil_append] at h
    exact ⟨digest, Except.bind_eq_ok.2 ⟨_, h, by simp⟩⟩

end

structure Boundary.Describes (sha256 : Bytes → String) (closed : List (String × Bytes)) (key : HighWater) (b : Boundary) :
    Prop where
  split : ∃ before bytes after, closed = before ++ (key.1, bytes) :: after ∧ b.before = frame before ∧
    b.consumed = bytes.length ∧ b.witness = sha256 bytes ∧
      ∀ d, b.final = some d → key.2 = bytes.length ∧ d = frame before ++ header key.1 key.2 ++ bytes

structure Tracks (sha256 : Bytes → String) (f : Fed) (s : PrefixHashAccumulator) : Prop where
  name : s.currentName = f.current.map Prod.fst
  fed : ∀ name bytes, f.current = some (name, bytes) → s.fed = bytes.length ∧ s.witness = bytes
  running : s.poisoned = none → s.running = frame f.closed
  segment : s.poisoned = none → ∀ name bytes, f.current = some (name, bytes) →
    s.segment = s.running ++ header name s.declared ++ bytes
  boundaries : s.poisoned = none → ∀ key b, s.boundaries.get? key = some b → b.Describes sha256 f.closed key
  keys : ∀ key, (s.boundaries.get? key).isSome = true ↔ key ∈ s.boundaryOrder
  order : s.boundaryOrder = f.registered.drop (f.registered.length - MAX_BOUNDARIES)
  registered : ∀ key ∈ f.registered, key.1 ∈ f.closed.map Prod.fst
  nodup : f.registered.Nodup

section
variable {sha256 : Bytes → String} {f : Fed} {s : PrefixHashAccumulator}

theorem Boundary.Describes.more {closed more : List (String × Bytes)} {key : HighWater} {b : Boundary}
    (h : b.Describes sha256 closed key) : b.Describes sha256 (closed ++ more) key := by
  obtain ⟨before, bytes, after, hsplit, hrest⟩ := h.split
  refine ⟨before, bytes, after ++ more, ?_, hrest⟩
  rw [hsplit, List.append_assoc, List.cons_append]

theorem tracks_new : Tracks sha256 ⟨[], none, []⟩ PrefixHashAccumulator.new :=
  ⟨rfl, nofun, fun _ => rfl, fun _ => nofun, fun _ => nofun, by simp [PrefixHashAccumulator.new], rfl, nofun, .nil⟩

theorem Tracks.extend (h : Tracks sha256 f s) {data : Bytes} {s' : PrefixHashAccumulator} (hs : s.extend data = some s') :
    Tracks sha256 (f.step (.extend data)) s' := by
  unfold PrefixHashAccumulator.extend at hs
  rw [h.name] at hs
  cases hcur : f.current with
  | none =>
    rw [hcur] at hs
    cases hs
  | some c =>
    obtain ⟨name, bytes⟩ := c
    rw [hcur] at hs
    cases hs
    obtain ⟨hfed, hwitness⟩ := h.fed name bytes hcur
    refine ⟨?_, ?_, h.running, ?_, h.boundaries, h.keys, h.order, h.registered, h.nodup⟩
    · simp [Fed.step, hcur]
    · intro n b hb
      simp only [Fed.step, hcur, Option.map_some, Option.some.injEq, Prod.mk.injEq] at hb
      obtain ⟨-, rfl⟩ := hb
      exact ⟨by rw [hfed, List.length_append], by rw [hwitness]⟩
    · intro hp n b hb
      simp only [Fed.step, hcur, Option.map_some, Option.some.injEq, Prod.mk.injEq] at hb
      obtain ⟨rfl, rfl⟩ := hb
      simp only [h.segment hp name bytes hcur, List.append_assoc]

theorem Tracks.digestAt (h : Tracks sha256 f s) {highWater : Option HighWater} {reads : Reads}
    {s' : PrefixHashAccumulator} {text : Option String} (hs : s.digestAt sha256 highWater reads = .ok (s', text)) :
    Tracks sha256 f s' := by
  unfold PrefixHashAccumulator.digestAt at hs
  cases highWater with
  | none =>
    cases hs
    exact h
  | some key =>
    obtain ⟨d, -, hs⟩ := Except.bind_eq_ok.1 hs
    cases hs
    exact ⟨h.name, h.fed, h.running, h.segment, h.boundaries, h.keys, h.order, h.registered, h.nodup⟩

/-! ## Transitions -/

def recent (registered : List HighWater) : List HighWater := registered.drop (registered.length - MAX_BOUNDARIES)

theorem recent_length (l : List HighWater) : (recent l).length ≤ MAX_BOUNDARIES := by
  unfold recent
  rw [List.length_drop]
  omega

theorem recent_snoc (l : List HighWater) (b : HighWater) : recent (l ++ [b]) =
    if MAX_BOUNDARIES < (recent l ++ [b]).length then (recent l ++ [b]).tail else recent l ++ [b] := by
  unfold recent
  simp only [List.length_append, List.length_drop, List.length_singleton]
  by_cases hlt : MAX_BOUNDARIES < l.length - (l.length - MAX_BOUNDARIES) + 1
  · have hle : MAX_BOUNDARIES ≤ l.length := by omega
    have hnext : l.length + 1 - MAX_BOUNDARIES = l.length - MAX_BOUNDARIES + 1 := by omega
    have hmax : 0 < MAX_BOUNDARIES := by decide
    rw [if_pos hlt, hnext, ← List.drop_append_of_le_length (by omega), List.tail_drop]
  · have hle : l.length < MAX_BOUNDARIES := by omega
    rw [if_neg hlt, Nat.sub_eq_zero_of_le (Nat.le_of_lt hle), Nat.sub_eq_zero_of_le hle]
    rfl

theorem evict_eq (d : Dict HighWater Boundary) (order : List HighWater) (hlen : order.length ≤ MAX_BOUNDARIES + 1) :
    PrefixHashAccumulator.evict d order =
      if MAX_BOUNDARIES < order.length then (order.head?.elim d d.erase, order.tail) else (d, order) := by
  cases order with
  | nil => rfl
  | cons key order =>
    unfold PrefixHashAccumulator.evict
    by_cases hlt : MAX_BOUNDARIES < (key :: order).length
    · rw [if_pos hlt, if_pos hlt]
      cases order with
      | nil => rfl
      | cons key' order =>
        have hle : ¬ MAX_BOUNDARIES < (key' :: order).length := by
          rw [List.length_cons] at hlen
          omega
        unfold PrefixHashAccumulator.evict
        rw [if_neg hle]
        rfl
    · rw [if_neg hlt, if_neg hlt]

theorem evict_keys {d : Dict HighWater Boundary} {order : List HighWater} (hlen : order.length ≤ MAX_BOUNDARIES + 1)
    (hnodup : order.Nodup) (hkeys : ∀ key, (d.get? key).isSome = true ↔ key ∈ order) :
    (∀ key, ((PrefixHashAccumulator.evict d order).1.get? key).isSome = true ↔
      key ∈ (PrefixHashAccumulator.evict d order).2) ∧
    ∀ key b, (PrefixHashAccumulator.evict d order).1.get? key = some b → d.get? key = some b := by
  rw [evict_eq d order hlen]
  by_cases hlt : MAX_BOUNDARIES < order.length
  · rw [if_pos hlt]
    cases order with
    | nil => exact absurd hlt (Nat.not_lt_zero _)
    | cons old order =>
      obtain ⟨hnot, -⟩ := List.nodup_cons.1 hnodup
      simp only [List.head?_cons, Option.elim_some, List.tail_cons, Dict.get?_erase]
      refine ⟨fun key => ?_, fun key b hb => ?_⟩
      · by_cases hk : old = key
        · subst hk
          simp [hnot]
        · rw [if_neg hk, hkeys, List.mem_cons, or_iff_right (Ne.symm hk)]
      · by_cases hk : old = key
        · rw [if_pos hk] at hb
          cases hb
        · rwa [if_neg hk] at hb
  · rw [if_neg hlt]
    exact ⟨hkeys, fun _ _ => id⟩

structure Registers (sha256 : Bytes → String) (f : Fed) (boundary : Option HighWater) (s s' : PrefixHashAccumulator) :
    Prop where
  rest : s' = { s with boundaries := s'.boundaries, boundaryOrder := s'.boundaryOrder }
  boundaries : s.poisoned = none → ∀ key b, s'.boundaries.get? key = some b → b.Describes sha256 f.segments key
  keys : ∀ key, (s'.boundaries.get? key).isSome = true ↔ key ∈ s'.boundaryOrder
  order : s'.boundaryOrder = recent (f.register boundary)
  registered : ∀ key ∈ f.register boundary, key.1 ∈ f.segments.map Prod.fst
  nodup : (f.register boundary).Nodup

theorem Tracks.registers_same (h : Tracks sha256 f s) {boundary : Option HighWater}
    (hsame : f.register boundary = f.registered) : Registers sha256 f boundary s s := by
  refine ⟨rfl, fun hp key b hb => (h.boundaries hp key b hb).more, h.keys, ?_, ?_, ?_⟩
  · rw [hsame]
    exact h.order
  · intro key hkey
    rw [hsame] at hkey
    unfold Fed.segments
    rw [List.map_append]
    exact List.mem_append_left _ (h.registered key hkey)
  · rw [hsame]
    exact h.nodup

theorem Tracks.registerBoundary (h : Tracks sha256 f s) (hnames : (f.segments.map Prod.fst).Nodup) (b : HighWater) :
    Registers sha256 f (some b) s (s.registerBoundary sha256 b) := by
  cases hcur : f.current with
  | none =>
    have hskip : s.registerBoundary sha256 b = s := by
      unfold PrefixHashAccumulator.registerBoundary
      rw [h.name, hcur]
      exact if_pos nofun
    rw [hskip]
    exact h.registers_same (by simp [Fed.register, hcur])
  | some c =>
    obtain ⟨name, bytes⟩ := c
    by_cases hname : b.1 = name
    · have hregister : f.register (some b) = f.registered ++ [b] := by simp [Fed.register, hcur, hname]
      have hclosed : name ∉ f.closed.map Prod.fst := by
        unfold Fed.segments at hnames
        rw [hcur, Option.toList_some, List.map_append, List.nodup_append] at hnames
        exact fun hmem => hnames.2.2 name hmem name (List.mem_singleton_self _) rfl
      have hfresh : b ∉ f.registered := fun hmem => hclosed (hname ▸ h.registered b hmem)
      have horder : s.boundaryOrder = recent f.registered := h.order
      have hnew : ¬ (s.boundaries.get? b).isSome = true := by
        rw [h.keys, horder]
        exact fun hmem => hfresh (List.drop_subset _ _ hmem)
      have hnodup : (f.registered ++ [b]).Nodup := by
        rw [List.nodup_append]
        exact ⟨h.nodup, List.nodup_singleton _, fun x hx y hy => by
          obtain rfl := List.mem_singleton.1 hy
          exact fun heq => hfresh (heq ▸ hx)⟩
      have hstep : s.registerBoundary sha256 b = { s with
          boundaries := (PrefixHashAccumulator.evict (s.boundaries.set b ⟨s.running,
            if s.streamedEnd b.2 then some s.segment else none, s.fed, sha256 s.witness⟩) (s.boundaryOrder ++ [b])).1
          boundaryOrder := (PrefixHashAccumulator.evict (s.boundaries.set b ⟨s.running,
            if s.streamedEnd b.2 then some s.segment else none, s.fed, sha256 s.witness⟩) (s.boundaryOrder ++ [b])).2 } := by
        unfold PrefixHashAccumulator.registerBoundary
        rw [if_neg (by rw [h.name, hcur, Option.map_some, hname, not_not]), if_neg hnew]
      have hlen : (s.boundaryOrder ++ [b]).length ≤ MAX_BOUNDARIES + 1 := by
        have := recent_length f.registered
        rw [horder, List.length_append, List.length_singleton]
        omega
      have hsub : (s.boundaryOrder ++ [b]).Nodup := by
        rw [horder]
        exact ((List.drop_sublist _ _).append_right _).nodup hnodup
      obtain ⟨hkeys, hback⟩ := @evict_keys (s.boundaries.set b ⟨s.running,
          if s.streamedEnd b.2 then some s.segment else none, s.fed, sha256 s.witness⟩) _ hlen hsub fun key => by
        rw [Dict.get?_set, List.mem_append, List.mem_singleton, ← h.keys]
        by_cases hk : b = key
        · simp [hk]
        · simp [hk, Ne.symm hk]
      rw [hstep]
      refine ⟨rfl, fun hp key x hx => ?_, hkeys, ?_, ?_, ?_⟩
      · have hget := hback key x hx
        rw [Dict.get?_set] at hget
        by_cases hk : b = key
        · -- the segment that ends here
          rw [if_pos hk] at hget
          obtain rfl := Option.some.inj hget
          obtain ⟨hfed, hwitness⟩ := h.fed name bytes hcur
          refine ⟨f.closed, bytes, [], ?_, h.running hp, hfed, by rw [hwitness], fun d hd => ?_⟩
          · rw [← hk, hname, Fed.segments, hcur]
            rfl
          · by_cases hend : s.streamedEnd b.2 = true
            · rw [if_pos hend, Option.some.injEq] at hd
              unfold PrefixHashAccumulator.streamedEnd at hend
              obtain ⟨hoff, hdeclared⟩ := of_decide_eq_true hend
              refine ⟨by rw [← hk, hoff, hfed], ?_⟩
              rw [← hd, h.segment hp name bytes hcur, h.running hp, ← hk, hname, hoff, hdeclared]
            · rw [if_neg hend] at hd
              cases hd
        · rw [if_neg hk] at hget
          exact (h.boundaries hp key x hget).more
      · rw [hregister, evict_eq _ _ hlen, recent_snoc, horder]
        split <;> rfl
      · intro key hkey
        rw [hregister, List.mem_append, List.mem_singleton] at hkey
        unfold Fed.segments
        rw [List.map_append, hcur, List.mem_append]
        rcases hkey with hkey | rfl
        · exact .inl (h.registered key hkey)
        · exact .inr (by simp [hname])
      · rw [hregister]
        exact hnodup
    · have hskip : s.registerBoundary sha256 b = s := by
        unfold PrefixHashAccumulator.registerBoundary
        rw [h.name, hcur]
        exact if_pos fun heq => hname (Option.some.inj heq).symm
      rw [hskip]
      exact h.registers_same (by simp [Fed.register, hcur, hname])

theorem completedSegment_eq (hsha : Function.Injective sha256) {name : String} {bytes : Bytes} {reads : Reads}
    (hfed : s.fed = bytes.length) (hwitness : s.witness = bytes)
    (hsegment : s.poisoned = none → s.segment = s.running ++ header name s.declared ++ bytes) :
    ∃ running poisoned, s.completedSegment sha256 name reads = { s with running := running, poisoned := poisoned } ∧
      (poisoned = none → s.poisoned = none ∧ running = s.running ++ header name bytes.length ++ bytes) ∧
      (s.poisoned = none → Returns bytes reads → poisoned = none) := by
  unfold PrefixHashAccumulator.completedSegment
  by_cases hwhole : s.fed = s.declared ∨ s.poisoned ≠ none
  · rw [if_pos hwhole]
    refine ⟨s.segment, s.poisoned, rfl, fun hp => ⟨hp, ?_⟩, fun hp _ => hp⟩
    have hdeclared : s.fed = s.declared := hwhole.resolve_right fun hne => hne hp
    rw [hsegment hp, ← hdeclared, hfed]
  · rw [if_neg hwhole, hfed, hwitness]
    have hp : s.poisoned = none := by
      by_contra hne
      exact hwhole (.inr hne)
    cases hre : verifiedRehash sha256 reads s.running name bytes.length bytes.length (sha256 bytes) with
    | ok digest =>
      obtain ⟨-, hdigest⟩ := verifiedRehash_ok hsha hre
      rw [List.take_length] at hdigest
      exact ⟨digest, s.poisoned, rfl, fun _ => ⟨hp, hdigest⟩, fun _ _ => hp⟩
    | error e =>
      refine ⟨_, _, rfl, nofun, fun _ hreads => ?_⟩
      obtain ⟨digest, hok⟩ := @verifiedRehash_returns sha256 _ s.running _ name _ hreads (Nat.le_refl _)
      rw [hre] at hok
      cases hok

def HonestCall (f : Fed) : Call → Prop
  | .beginSegment _ _ _ reads => ∀ name bytes, f.current = some (name, bytes) → Returns bytes reads
  | .extend _ => True
  | .digestAt highWater reads =>
    ∀ segment offset bytes, highWater = some (segment, offset) → (segment, bytes) ∈ f.segments → Returns bytes reads

theorem Tracks.beginSegment (hsha : Function.Injective sha256) (h : Tracks sha256 f s)
    (hnames : (f.segments.map Prod.fst).Nodup) (name : String) (boundary : Option HighWater) (size : Nat) (reads : Reads) :
    Tracks sha256 (f.step (.beginSegment name boundary size reads))
        (s.beginSegment sha256 name boundary size reads) ∧
      (s.poisoned = none → HonestCall f (.beginSegment name boundary size reads) →
        (s.beginSegment sha256 name boundary size reads).poisoned = none) := by
  have hreg : Registers sha256 f boundary s (s.register sha256 boundary) := by
    cases boundary with
    | none => exact h.registers_same rfl
    | some b => exact h.registerBoundary hnames b
  obtain ⟨s₁, hs₁⟩ : ∃ s₁, s.register sha256 boundary = s₁ := ⟨_, rfl⟩
  rw [hs₁] at hreg
  have hrest := hreg.rest
  obtain ⟨running, poisoned, hs₂, hrunning, hhonest⟩ : ∃ running poisoned,
      s₁.complete sha256 reads = { s₁ with running := running, poisoned := poisoned } ∧
      (poisoned = none → s.poisoned = none ∧ running = frame f.segments) ∧
      (s.poisoned = none → HonestCall f (.beginSegment name boundary size reads) → poisoned = none) := by
    have hname : s₁.currentName = f.current.map Prod.fst := by
      rw [hrest]
      exact h.name
    cases hcur : f.current with
    | none =>
      have hskip : s₁.complete sha256 reads = s₁ := by
        unfold PrefixHashAccumulator.complete
        rw [hname, hcur]
        rfl
      rw [hskip]
      refine ⟨s₁.running, s₁.poisoned, rfl, fun hp => ?_, fun hp _ => ?_⟩
      · rw [hrest] at hp ⊢
        refine ⟨hp, ?_⟩
        simp only [h.running hp, Fed.segments, hcur, Option.toList_none, List.append_nil]
      · rw [hrest]
        exact hp
    | some c =>
      obtain ⟨current, bytes⟩ := c
      obtain ⟨hfed, hwitness⟩ := h.fed current bytes hcur
      have hclose : s₁.complete sha256 reads = s₁.completedSegment sha256 current reads := by
        unfold PrefixHashAccumulator.complete
        rw [hname, hcur]
        rfl
      rw [hclose]
      have hfed₁ : s₁.fed = bytes.length := by rw [hrest]; exact hfed
      have hwitness₁ : s₁.witness = bytes := by rw [hrest]; exact hwitness
      have hsegment₁ : s₁.poisoned = none → s₁.segment = s₁.running ++ header current s₁.declared ++ bytes := by
        rw [hrest]
        exact fun hp => h.segment hp current bytes hcur
      obtain ⟨running, poisoned, heq, hrunning, hhonest⟩ :=
        @completedSegment_eq _ s₁ hsha current bytes reads hfed₁ hwitness₁ hsegment₁
      refine ⟨running, poisoned, heq, fun hp => ?_, fun hp hcall => ?_⟩
      · obtain ⟨hp₁, hrun⟩ := hrunning hp
        rw [hrest] at hp₁ hrun
        refine ⟨hp₁, ?_⟩
        simp only [hrun, h.running hp₁, Fed.segments, hcur, Option.toList_some, frame_snoc]
      · refine hhonest ?_ (hcall current bytes hcur)
        rw [hrest]
        exact hp
  have hbegin : s.beginSegment sha256 name boundary size reads = { s₁ with
      running := running
      poisoned := poisoned
      currentName := some name
      declared := size
      fed := 0
      witness := []
      segment := running ++ header name size } := by
    unfold PrefixHashAccumulator.beginSegment
    simp only [hs₁, hs₂]
  rw [hbegin]
  refine ⟨⟨rfl, ?_, fun hp => (hrunning hp).2, ?_, fun hp => hreg.boundaries (hrunning hp).1, hreg.keys, hreg.order,
    hreg.registered, hreg.nodup⟩, hhonest⟩
  · intro n b hb
    cases hb
    exact ⟨rfl, rfl⟩
  · intro hp n b hb
    cases hb
    exact (List.append_nil _).symm

theorem names_step (f : Fed) (call : Call) : f.segments.map Prod.fst <+: (f.step call).segments.map Prod.fst := by
  cases call with
  | beginSegment name boundary size reads =>
    refine ⟨[name], ?_⟩
    simp [Fed.step, Fed.segments]
  | extend data =>
    cases hcur : f.current with
    | none => simp [Fed.step, Fed.segments, hcur]
    | some c => simp [Fed.step, Fed.segments, hcur]
  | digestAt highWater reads => exact List.prefix_rfl

theorem names_run : ∀ (calls : List Call) (f : Fed),
    f.segments.map Prod.fst <+: (calls.foldl Fed.step f).segments.map Prod.fst
  | [], _ => List.prefix_rfl
  | call :: calls, f => (names_step f call).trans (names_run calls (f.step call))

def HonestRun (f : Fed) : List Call → Prop
  | [] => True
  | call :: calls => HonestCall f call ∧ HonestRun (f.step call) calls

theorem Tracks.apply (hsha : Function.Injective sha256) (h : Tracks sha256 f s)
    (hnames : (f.segments.map Prod.fst).Nodup) {call : Call} {s' : PrefixHashAccumulator}
    (hs : call.apply sha256 s = some s') : Tracks sha256 (f.step call) s' ∧
      (s.poisoned = none → HonestCall f call → s'.poisoned = none) := by
  cases call with
  | beginSegment name boundary size reads =>
    cases hs
    exact h.beginSegment hsha hnames name boundary size reads
  | extend data =>
    refine ⟨h.extend hs, fun hp _ => ?_⟩
    simp only [Call.apply, PrefixHashAccumulator.extend] at hs
    cases hname : s.currentName with
    | none =>
      rw [hname] at hs
      cases hs
    | some current =>
      rw [hname] at hs
      cases hs
      exact hp
  | digestAt highWater reads =>
    simp only [Call.apply] at hs
    cases hd : s.digestAt sha256 highWater reads with
    | error e =>
      rw [hd] at hs
      cases hs
      exact ⟨h, fun hp _ => hp⟩
    | ok r =>
      obtain ⟨t, text⟩ := r
      rw [hd] at hs
      cases hs
      refine ⟨h.digestAt hd, fun hp _ => ?_⟩
      unfold PrefixHashAccumulator.digestAt at hd
      cases highWater with
      | none =>
        cases hd
        exact hp
      | some key =>
        obtain ⟨d, -, hd⟩ := Except.bind_eq_ok.1 hd
        cases hd
        exact hp

theorem Tracks.run (hsha : Function.Injective sha256) : ∀ {calls : List Call} {f : Fed} {s s' : PrefixHashAccumulator},
    Tracks sha256 f s → ((calls.foldl Fed.step f).segments.map Prod.fst).Nodup →
      PrefixHash.run sha256 s calls = some s' → Tracks sha256 (calls.foldl Fed.step f) s' ∧
        (s.poisoned = none → HonestRun f calls → s'.poisoned = none)
  | [], f, s, s', h, _, hs => by
    cases hs
    exact ⟨h, fun hp _ => hp⟩
  | call :: calls, f, s, s', h, hnames, hs => by
    simp only [PrefixHash.run, Option.bind_eq_bind, Option.bind_eq_some_iff] at hs
    obtain ⟨t, ht, hs⟩ := hs
    have hnow : (f.segments.map Prod.fst).Nodup := (names_run (call :: calls) f).sublist.nodup hnames
    obtain ⟨hstep, hhonest⟩ := h.apply hsha hnow ht
    obtain ⟨hrun, hrest⟩ := hstep.run hsha hnames hs
    exact ⟨hrun, fun hp hcalls => hrest (hhonest hp hcalls.1) hcalls.2⟩

/-! ## Evidence -/

theorem Tracks.stateAt_ok (hsha : Function.Injective sha256) (h : Tracks sha256 f s) {segment : String} {offset : Nat}
    {reads : Reads} {text : Bytes} (hs : s.stateAt sha256 segment offset reads = .ok text) :
    IsPrefix f.segments segment offset text := by
  unfold PrefixHashAccumulator.stateAt at hs
  cases hp : s.poisoned with
  | some reason =>
    rw [hp] at hs
    cases hs
  | none =>
    rw [hp] at hs
    simp only at hs
    by_cases hcurrent : s.currentName = some segment
    · rw [if_pos hcurrent] at hs
      rw [h.name] at hcurrent
      obtain ⟨⟨name, bytes⟩, hcur, rfl⟩ := Option.map_eq_some_iff.1 hcurrent
      obtain ⟨hfed, hwitness⟩ := h.fed name bytes hcur
      have hsplit : f.segments = f.closed ++ (name, bytes) :: [] := by rw [Fed.segments, hcur]; rfl
      by_cases hend : s.streamedEnd offset = true
      · rw [if_pos hend] at hs
        cases hs
        unfold PrefixHashAccumulator.streamedEnd at hend
        obtain ⟨hoff, hdeclared⟩ := of_decide_eq_true hend
        refine ⟨f.closed, bytes, [], hsplit, by omega, ?_⟩
        rw [h.segment hp name bytes hcur, h.running hp, ← hdeclared, hoff, hfed, List.take_length]
      · rw [if_neg hend, hfed, hwitness] at hs
        obtain ⟨hle, htext⟩ := verifiedRehash_ok hsha hs
        exact ⟨f.closed, bytes, [], hsplit, hle, by rw [htext, h.running hp]⟩
    · rw [if_neg hcurrent] at hs
      cases hget : s.boundaries.get? (segment, offset) with
      | none =>
        rw [hget] at hs
        cases hs
      | some b =>
        obtain ⟨before, bytes, after, hsplit, hbefore, hconsumed, hwitness, hfinal⟩ :=
          (h.boundaries hp _ _ hget).split
        have hmore : f.segments = before ++ (segment, bytes) :: (after ++ f.current.toList) := by
          rw [Fed.segments, hsplit, List.append_assoc, List.cons_append]
        rw [hget] at hs
        simp only at hs
        cases hf : b.final with
        | some final =>
          rw [hf] at hs
          cases hs
          obtain ⟨hoff, hd⟩ := hfinal _ hf
          have hoff' : offset = bytes.length := hoff
          refine ⟨before, bytes, _, hmore, by omega, ?_⟩
          rw [hd, hoff', List.take_length]
        | none =>
          rw [hf] at hs
          simp only [hconsumed, hwitness] at hs
          obtain ⟨hle, htext⟩ := verifiedRehash_ok hsha hs
          exact ⟨before, bytes, _, hmore, hle, by rw [htext, hbefore]⟩

def OutOfReach (f : Fed) (segment : String) (offset : Nat) : Prop :=
  (∃ bytes, (segment, bytes) ∈ f.segments ∧ bytes.length < offset) ∨
    (f.current.map Prod.fst ≠ some segment ∧ (segment, offset) ∉ recent f.registered)

theorem Tracks.stateAt_returns (h : Tracks sha256 f s) (hp : s.poisoned = none) {segment : String} {offset : Nat}
    {reads : Reads} (hreads : HonestCall f (.digestAt (some (segment, offset)) reads))
    (hreach : ¬ OutOfReach f segment offset) : ∃ text, s.stateAt sha256 segment offset reads = .ok text := by
  have hle : ∀ bytes, (segment, bytes) ∈ f.segments → offset ≤ bytes.length := fun bytes hmem => by
    by_contra hlt
    exact hreach (.inl ⟨bytes, hmem, not_le.1 hlt⟩)
  unfold PrefixHashAccumulator.stateAt
  rw [hp]
  simp only
  by_cases hcurrent : s.currentName = some segment
  · rw [if_pos hcurrent]
    rw [h.name] at hcurrent
    obtain ⟨⟨name, bytes⟩, hcur, rfl⟩ := Option.map_eq_some_iff.1 hcurrent
    obtain ⟨hfed, hwitness⟩ := h.fed name bytes hcur
    have hmem : (name, bytes) ∈ f.segments := by simp [Fed.segments, hcur]
    by_cases hend : s.streamedEnd offset = true
    · rw [if_pos hend]
      exact ⟨_, rfl⟩
    · rw [if_neg hend, hfed, hwitness]
      exact verifiedRehash_returns (hreads name offset bytes rfl hmem) (hle bytes hmem)
  · rw [if_neg hcurrent]
    have hkept : (segment, offset) ∈ recent f.registered := by
      by_contra hnot
      exact hreach (.inr ⟨h.name ▸ hcurrent, hnot⟩)
    have hsome : (s.boundaries.get? (segment, offset)).isSome = true := (h.keys _).2 (h.order.symm ▸ hkept)
    obtain ⟨b, hget⟩ := Option.isSome_iff_exists.1 hsome
    obtain ⟨before, bytes, after, hsplit, -, hconsumed, hwitness, -⟩ := (h.boundaries hp _ _ hget).split
    have hmem : (segment, bytes) ∈ f.segments := by simp [Fed.segments, hsplit]
    rw [hget]
    simp only
    cases b.final with
    | some final => exact ⟨_, rfl⟩
    | none =>
      rw [hconsumed, hwitness]
      exact verifiedRehash_returns (hreads segment offset bytes rfl hmem) (hle bytes hmem)

end

/-- **Streamed evidence is never wrong**: a digest is that of a framed prefix of the bytes
the run fed, and with an opener that gives those bytes back only what is out of reach has none. -/
theorem digestAt_certified (sha256 : Bytes → String) (hsha : Function.Injective sha256) (calls : List Call)
    (hnames : ((fed calls).segments.map Prod.fst).Nodup) (s : PrefixHashAccumulator)
    (hrun : run sha256 .new calls = some s) (segment : String) (offset : Nat) (reads : Reads) :
    (∀ s' text, s.digestAt sha256 (some (segment, offset)) reads = .ok (s', text) →
      ∃ framed, IsPrefix (fed calls).segments segment offset framed ∧ text = some ("sha256:" ++ sha256 framed)) ∧
    (HonestRun ⟨[], none, []⟩ calls → HonestCall (fed calls) (.digestAt (some (segment, offset)) reads) →
      ∀ e, s.digestAt sha256 (some (segment, offset)) reads = .error e → OutOfReach (fed calls) segment offset) := by
  obtain ⟨htracks, hhonest⟩ := tracks_new.run hsha hnames hrun
  refine ⟨fun s' text hs => ?_, fun hcalls hreads e hs => ?_⟩
  · obtain ⟨framed, hstate, hs⟩ := Except.bind_eq_ok.1 hs
    cases hs
    exact ⟨framed, htracks.stateAt_ok hsha hstate, rfl⟩
  · by_contra hreach
    obtain ⟨framed, hstate⟩ := htracks.stateAt_returns (hhonest rfl hcalls) hreads hreach
    unfold PrefixHashAccumulator.digestAt at hs
    simp only [hstate, Except.ok_bind] at hs
    cases hs

theorem toNat_ofNat {n : Nat} (h : n < 256) : (Char.ofNat n).toNat = n := by
  have hvalid : n.isValidChar := .inl (by omega)
  unfold Char.ofNat
  rw [dif_pos hvalid]
  rfl

def spell (bytes : Bytes) : String := String.ofList ('x' :: bytes.map fun b => Char.ofNat b.toNat)

theorem spell_injective : Function.Injective spell := by
  intro a b h
  refine List.map_injective_iff.2 (fun x y hxy => ?_) (List.cons.inj (String.ofList_injective h)).2
  have hnat := congrArg Char.toNat hxy
  rw [toNat_ofNat x.toNat_lt, toNat_ofNat y.toNat_lt] at hnat
  exact UInt8.toNat_inj.1 hnat

def workedDigests : List (Bytes × String) :=
  [([1], "4bf5122f344554c53bde2ebb8cd2b7e3d1600ad631c385a5d7cce23c7785459a"),
   ([2, 3], "ee9040f65c341855e070ff438eb0ea9d5b831b2a2c270fb7ef592d750408e3b3"),
   ([0, 0, 0, 1, 97, 0, 0, 0, 0, 0, 0, 0, 1, 1, 0, 0, 0, 1, 98, 0, 0, 0, 0, 0, 0, 0, 1, 2],
    "abe6d5fd2b2353fd58f2c3bee31f748df453a7c135d16ae2ff4bffdea235ac1d")]

def workedSha256 (bytes : Bytes) : String := (Dict.find bytes workedDigests).getD (spell bytes)

theorem workedSha256_injective : Function.Injective workedSha256 := by
  have hkeys : (workedDigests.map Prod.fst).Nodup := by decide
  have hdigests : ∀ p ∈ workedDigests, ∀ q ∈ workedDigests, p.2 = q.2 → p.1 = q.1 := by decide
  have hx : ∀ p ∈ workedDigests, p.2.toList.head? ≠ some 'x' := by decide
  have hspell : ∀ bytes, ∀ p ∈ workedDigests, spell bytes ≠ p.2 := by
    intro bytes p hp h
    refine hx p hp ?_
    rw [← h, spell, String.toList_ofList]
    rfl
  intro a b h
  unfold workedSha256 at h
  cases ha : Dict.find a workedDigests with
  | none =>
    cases hb : Dict.find b workedDigests with
    | none =>
      rw [ha, hb] at h
      exact spell_injective h
    | some w =>
      rw [ha, hb] at h
      exact absurd h (hspell a (b, w) ((Dict.find_eq_some hkeys).1 hb))
  | some v =>
    cases hb : Dict.find b workedDigests with
    | none =>
      rw [ha, hb] at h
      exact absurd h.symm (hspell b (a, v) ((Dict.find_eq_some hkeys).1 ha))
    | some w =>
      rw [ha, hb] at h
      exact hdigests (a, v) ((Dict.find_eq_some hkeys).1 ha) (b, w) ((Dict.find_eq_some hkeys).1 hb) h

def workedCalls : List Call :=
  [.beginSegment "a" none 2 none, .extend [1], .beginSegment "b" (some ("a", 1)) 2 (some [[1]]), .extend [2, 3]]

theorem digestAt_certified_worked : ∃ s, run workedSha256 .new workedCalls = some s ∧
    (∀ s' text, s.digestAt workedSha256 (some ("b", 1)) (some [[2], [3]]) = .ok (s', text) →
      ∃ framed, IsPrefix (fed workedCalls).segments "b" 1 framed ∧ text = some ("sha256:" ++ workedSha256 framed)) ∧
    (HonestRun ⟨[], none, []⟩ workedCalls → HonestCall (fed workedCalls) (.digestAt (some ("b", 1)) (some [[2], [3]])) →
      ∀ e, s.digestAt workedSha256 (some ("b", 1)) (some [[2], [3]]) = .error e → OutOfReach (fed workedCalls) "b" 1) := by
  have hsome : (run workedSha256 .new workedCalls).isSome = true := by decide
  obtain ⟨s, hs⟩ := Option.isSome_iff_exists.1 hsome
  exact ⟨s, hs, digestAt_certified workedSha256 workedSha256_injective workedCalls (by decide) s hs "b" 1 (some [[2], [3]])⟩

end PrefixHash

end Cctally
