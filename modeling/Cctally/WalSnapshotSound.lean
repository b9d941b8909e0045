import Cctally.WalSnapshot
import Mathlib.Logic.Relation
import Mathlib.Order.Bounds.Basic

/-!
# The reader shows the published snapshot

A reader that opened has followed an unbroken chain of frames to the index's
commit. Its page map and its cache then answer every page from the last of those
frames, or from the main file, and no byte behind them is ever looked at.
-/

namespace Cctally.WalSnapshot

section
variable (src : Source)

/-! ## What the files hold -/

def content (which : Which) : Bytes := (src.file which).bytes

def frameAt (index : Nat) : Bytes := bytesAt (content src .wal) (frameOffset src index) (frameSize src)

def framePgno (index : Nat) : Nat := big (bytesAt (frameAt src index) 0 4)

def frameCommit (index : Nat) : Nat := big (bytesAt (frameAt src index) 4 4)

def frameSalt (index : Nat) : Bytes := bytesAt (frameAt src index) 8 8

def storedChecksum (index : Nat) : Nat × Nat :=
  (big (bytesAt (frameAt src index) 16 4), big (bytesAt (frameAt src index) 20 4))

def walHeader : Bytes := bytesAt (content src .wal) 0 WAL_HEADER_BYTES

def walBigEndian : Bool := big (bytesAt (walHeader src) 0 4) == WAL_MAGIC_BE

def running : Nat → Attempt (Nat × Nat)
  | 0 => checksum (bytesAt (walHeader src) 0 24) (0, 0) (walBigEndian src)
  | n + 1 => do
    let c ← running n
    let c ← checksum (bytesAt (frameAt src (n + 1)) 0 8) c (walBigEndian src)
    checksum ((frameAt src (n + 1)).drop 24) c (walBigEndian src)

/-- The last frame among the first `n` that holds the page. -/
def lastFrame (pgno : Nat) : Nat → Option Nat
  | 0 => none
  | n + 1 => if framePgno src (n + 1) = pgno then some (n + 1) else lastFrame pgno n

/-- The page of the snapshot that ends with the first `n` frames. -/
def snapshotPage (n pgno : Nat) : Bytes :=
  match lastFrame src pgno n with
  | some i => bytesAt (content src .wal) (frameOffset src i + FRAME_HEADER_BYTES) src.pageSize
  | none => bytesAt (content src .db) ((pgno - 1) * src.pageSize) src.pageSize

theorem lastFrame_eq_some {pgno i : Nat} : ∀ {n : Nat},
    lastFrame src pgno n = some i ↔ IsGreatest { i | 1 ≤ i ∧ i ≤ n ∧ framePgno src i = pgno } i
  | 0 => by
    constructor
    · intro h
      cases h
    · intro h
      have := h.1.1
      have := h.1.2.1
      omega
  | n + 1 => by
    rw [lastFrame]
    split
    · rename_i hlast
      constructor
      · intro h
        cases h
        exact ⟨⟨by omega, le_rfl, hlast⟩, fun j hj => hj.2.1⟩
      · intro h
        have hge : n + 1 ≤ i := h.2 ⟨by omega, le_rfl, hlast⟩
        rw [Nat.le_antisymm hge h.1.2.1]
    · rename_i hlast
      have hset : { i | 1 ≤ i ∧ i ≤ n + 1 ∧ framePgno src i = pgno } =
          { i | 1 ≤ i ∧ i ≤ n ∧ framePgno src i = pgno } := by
        ext j
        constructor
        · rintro ⟨h1, h2, h3⟩
          refine ⟨h1, ?_, h3⟩
          by_contra hj
          exact hlast ((by omega : j = n + 1) ▸ h3)
        · rintro ⟨h1, h2, h3⟩
          exact ⟨h1, Nat.le_succ_of_le h2, h3⟩
      rw [hset]
      exact lastFrame_eq_some

theorem lastFrame_eq_none {pgno n : Nat} :
    lastFrame src pgno n = none ↔ ∀ i, 1 ≤ i → i ≤ n → framePgno src i ≠ pgno := by
  induction n with
  | zero => exact iff_of_true rfl fun i h1 h2 => by omega
  | succ n ih =>
    rw [lastFrame]
    split
    · rename_i hlast
      exact iff_of_false nofun fun h => h (n + 1) (by omega) le_rfl hlast
    · rename_i hlast
      rw [ih]
      constructor
      · intro h i h1 h2
        rcases Nat.eq_or_lt_of_le h2 with rfl | hlt
        · exact hlast
        · exact h i h1 (Nat.le_of_lt_succ hlt)
      · exact fun h i h1 h2 => h i h1 (Nat.le_succ_of_le h2)

/-- The first `mxFrame` frames form an unbroken chain from the WAL header to the index's commit. -/
structure Published (index : WalIndexHeader) : Prop where
  magic : big (bytesAt (walHeader src) 0 4) = WAL_MAGIC_LE ∨ big (bytesAt (walHeader src) 0 4) = WAL_MAGIC_BE
  headerChecksum : running src 0 = .ok (big (bytesAt (walHeader src) 24 4), big (bytesAt (walHeader src) 28 4))
  headerSalt : bytesAt (walHeader src) 16 8 = index.salt
  whole : WAL_HEADER_BYTES + index.maxFrame * frameSize src ≤ (content src .wal).length
  salt : ∀ i, 1 ≤ i → i ≤ index.maxFrame → frameSalt src i = bytesAt (walHeader src) 16 8
  frames : ∀ i, 1 ≤ i → i ≤ index.maxFrame → running src i = .ok (storedChecksum src i)
  commit : frameCommit src index.maxFrame ≠ 0 ∧ frameCommit src index.maxFrame = index.pageCount
  total : running src index.maxFrame = .ok index.frameChecksum

theorem ofAttempt_eq_ok {α : Type} {a : Attempt α} {x : α} {r r' : Reader}
    (h : (ofAttempt a).on r = (.ok x, r')) : a = .ok x ∧ r' = r := by
  rw [ofAttempt, Call.on_ofExcept] at h
  exact ⟨congrArg Prod.fst h, (congrArg Prod.snd h).symm⟩

def Reader.charged (r : Reader) (n : Nat) : Reader := { r with readBytes := r.readBytes + n, ticks := r.ticks + 1 }

structure SameView (r r' : Reader) : Prop where
  frames : r'.frames = r.frames
  header : r'.header = r.header
  pages : r'.pages = r.pages

theorem SameView.refl (r : Reader) : SameView r r := ⟨rfl, rfl, rfl⟩

theorem charge_on (n : Nat) (r : Reader) :
    (charge src n).on r =
      if src.budget < r.readBytes + n then
        (refuse .readBudgetExhausted s!"{r.readBytes + n} bytes", { r with readBytes := r.readBytes + n })
      else if src.late r.ticks then (refuse .readBudgetExhausted "deadline", r.charged n)
      else (.ok (), r.charged n) := by
  unfold charge
  rw [Call.on_bind_of_ok (Call.on_modify _ r), Call.on_bind_of_ok (Call.on_get _)]
  split
  · rfl
  · rw [Call.on_bind_of_ok (Call.on_set _ _)]
    split <;> rfl

theorem charge_eq_ok {n : Nat} {r r' : Reader} {u : Unit} (h : (charge src n).on r = (.ok u, r')) :
    r.readBytes + n ≤ src.budget ∧ r' = r.charged n := by
  rw [charge_on] at h
  split at h
  · cases h
  rename_i hbudget
  split at h
  · cases h
  · cases h
    exact ⟨not_lt.mp hbudget, rfl⟩

theorem pread_eq_ok {which : Which} {size offset : Nat} {r r' : Reader} {data : Bytes}
    (h : (pread src which size offset).on r = (.ok data, r')) :
    data = bytesAt (content src which) offset size ∧ data.length = size ∧ r' = r.charged size ∧
      r'.readBytes ≤ src.budget := by
  obtain ⟨u, r₁, hcharge, h⟩ := Call.on_bind_eq_ok.mp h
  obtain ⟨hbudget, rfl⟩ := charge_eq_ok src hcharge
  dsimp only at h
  split at h
  · cases h
  · rename_i hlen
    cases h
    exact ⟨rfl, not_not.mp hlen, rfl, hbudget⟩

theorem pread_view (which : Which) (size offset : Nat) (r : Reader) :
    SameView r ((pread src which size offset).on r).2 := by
  unfold pread
  refine Call.on_bind_keeps ?_ ?_
  · rw [charge_on]
    split
    · exact ⟨rfl, rfl, rfl⟩
    · split <;> exact ⟨rfl, rfl, rfl⟩
  · intro _ r₁ h
    obtain ⟨-, rfl⟩ := charge_eq_ok src h
    have hview : SameView r (r.charged size) := ⟨rfl, rfl, rfl⟩
    dsimp only
    split <;> exact hview

/-! ## The scan -/

structure Follows (salt : Bytes) (n : Nat) (s : Scanned) : Prop where
  checksum : running src n = .ok s.checksum
  frames : ∀ pgno, s.frames.get? pgno = (lastFrame src pgno n).map (frameOffset src)
  salt : ∀ i, 1 ≤ i → i ≤ n → frameSalt src i = salt
  stored : ∀ i, 1 ≤ i → i ≤ n → running src i = .ok (storedChecksum src i)
  last : s.lastCommit = if n = 0 then none else some (frameCommit src n)

theorem scanFrame_follows {salt : Bytes} {n : Nat} {s s' : Scanned} {r r' : Reader} (hs : Follows src salt n s)
    (h : (scanFrame src salt (walBigEndian src) s (n + 1)).on r = (.ok s', r')) :
    Follows src salt (n + 1) s' ∧ SameView r r' ∧ r'.readBytes ≤ src.budget := by
  obtain ⟨frame, r₁, hread, h⟩ := Call.on_bind_eq_ok.mp h
  obtain ⟨rfl, -, rfl, hbudget⟩ := pread_eq_ok src hread
  split at h
  · cases h
  rename_i hsalt
  obtain ⟨c₁, r₁, hcall₁, h⟩ := Call.on_bind_eq_ok.mp h
  obtain ⟨c₂, r₂, hcall₂, h⟩ := Call.on_bind_eq_ok.mp h
  obtain ⟨hc₁, rfl⟩ := ofAttempt_eq_ok hcall₁
  obtain ⟨hc₂, rfl⟩ := ofAttempt_eq_ok hcall₂
  split at h
  · cases h
  rename_i hstored
  cases h
  have hrun : running src (n + 1) = .ok c₂ := by
    rw [running, hs.checksum, Except.ok_bind]
    exact Except.bind_eq_ok.mpr ⟨c₁, hc₁, hc₂⟩
  refine ⟨⟨hrun, fun pgno => ?_, fun i h1 h2 => ?_, fun i h1 h2 => ?_, by simp [frameCommit, frameAt, content]⟩,
    ⟨rfl, rfl, rfl⟩, hbudget⟩
  · rw [Dict.get?_set, lastFrame, hs.frames]
    show (if framePgno src (n + 1) = pgno then _ else _) = _
    split <;> rfl
  · rcases Nat.eq_or_lt_of_le h2 with rfl | hlt
    · exact not_not.mp hsalt
    · exact hs.salt i h1 (Nat.le_of_lt_succ hlt)
  · rcases Nat.eq_or_lt_of_le h2 with rfl | hlt
    · rw [hrun, not_not.mp hstored]
      rfl
    · exact hs.stored i h1 (Nat.le_of_lt_succ hlt)

theorem foldlM_follows {salt : Bytes} : ∀ {k n : Nat} {s s' : Scanned} {r r' : Reader}, Follows src salt n s →
    ((List.range' (n + 1) k).foldlM (scanFrame src salt (walBigEndian src)) s).on r = (.ok s', r') →
    Follows src salt (n + k) s' ∧ SameView r r' ∧ (r' = r ∨ r'.readBytes ≤ src.budget) := by
  intro k
  induction k with
  | zero =>
    intro n s s' r r' hs h
    cases h
    exact ⟨hs, SameView.refl r, .inl rfl⟩
  | succ k ih =>
    intro n s s' r r' hs h
    rw [List.range'_succ, List.foldlM_cons] at h
    obtain ⟨s₁, r₁, hstep, h⟩ := Call.on_bind_eq_ok.mp h
    obtain ⟨hs₁, hview₁, hbudget⟩ := scanFrame_follows src hs hstep
    obtain ⟨hs', hview, hcharged⟩ := ih hs₁ h
    refine ⟨(by omega : n + 1 + k = n + (k + 1)) ▸ hs', ⟨hview.frames.trans hview₁.frames,
      hview.header.trans hview₁.header, hview.pages.trans hview₁.pages⟩, .inr ?_⟩
    rcases hcharged with rfl | hle
    · exact hbudget
    · exact hle

theorem scanHeader_eq_ok {index : WalIndexHeader} {start : (Nat × Nat) × Bool}
    (h : scanHeader src index (walHeader src) = .ok start) :
    (big (bytesAt (walHeader src) 0 4) = WAL_MAGIC_LE ∨ big (bytesAt (walHeader src) 0 4) = WAL_MAGIC_BE) ∧
      start.1 = (big (bytesAt (walHeader src) 24 4), big (bytesAt (walHeader src) 28 4)) ∧
      bytesAt (walHeader src) 16 8 = index.salt ∧ running src 0 = .ok start.1 ∧ start.2 = walBigEndian src := by
  obtain ⟨hmagic, h⟩ := Except.guard_eq_ok.mp h
  obtain ⟨hsize, h⟩ := Except.guard_eq_ok.mp h
  obtain ⟨c, hc, h⟩ := Except.bind_eq_ok.mp h
  obtain ⟨hstored, h⟩ := Except.guard_eq_ok.mp h
  obtain ⟨hsalt, h⟩ := Except.guard_eq_ok.mp h
  cases h
  refine ⟨?_, not_not.mp hstored, not_not.mp hsalt, hc, rfl⟩
  by_contra hno
  exact hmagic (.inl (not_or.mp hno))

theorem scan_eq_ok {index : WalIndexHeader} {r r' : Reader} {u : Unit} (hmax : 0 < index.maxFrame)
    (h : (scan src index).on r = (.ok u, r')) :
    Published src index ∧ (∀ pgno, r'.frames.get? pgno = (lastFrame src pgno index.maxFrame).map (frameOffset src)) ∧
      r'.header = r.header ∧ r'.pages = r.pages ∧ r'.readBytes ≤ src.budget := by
  obtain ⟨header, r₁, hread, h⟩ := Call.on_bind_eq_ok.mp h
  obtain ⟨rfl, -, rfl, hcharge⟩ := pread_eq_ok src hread
  obtain ⟨start, r₁, hcall, h⟩ := Call.on_bind_eq_ok.mp h
  obtain ⟨hstart, rfl⟩ := ofAttempt_eq_ok hcall
  split at h
  · cases h
  rename_i hwhole
  obtain ⟨s, r₂, hloop, h⟩ := Call.on_bind_eq_ok.mp h
  split at h
  · cases h
  rename_i hend
  cases h
  obtain ⟨hmagic, hck, hsalt, hrun, hbig⟩ := scanHeader_eq_ok src hstart
  have hstart₀ : Follows src (bytesAt (walHeader src) 16 8) 0 ⟨start.1, Dict.empty, none⟩ :=
    ⟨hrun, fun _ => rfl, fun i h1 h2 => by omega, fun i h1 h2 => by omega, rfl⟩
  rw [hbig] at hloop
  obtain ⟨hs, hview, hcharged⟩ := foldlM_follows src hstart₀ hloop
  rw [Nat.zero_add] at hs
  obtain ⟨hzero, hend⟩ := not_or.mp hend
  obtain ⟨hcount, htotal⟩ := not_or.mp hend
  rw [hs.last, if_neg (by omega), Option.getD_some] at hzero
  rw [hs.last, if_neg (by omega), not_not, Option.some.injEq] at hcount
  have hbudget : r₂.readBytes ≤ src.budget := by
    rcases hcharged with rfl | hle
    · assumption
    · exact hle
  exact ⟨⟨hmagic, hck ▸ hrun, hsalt, not_lt.mp hwhole, hs.salt, hs.stored, ⟨hzero, hcount⟩,
    not_not.mp htotal ▸ hs.checksum⟩, hs.frames, hview.header, hview.pages, hbudget⟩

def publishedIndex : Attempt WalIndexHeader :=
  parseWalIndexHeader src.littleEndian (bytesAt (content src .shm) 0 (2 * WAL_INDEX_HEADER_BYTES))

theorem openFile_eq_ok {which : Which} {r r' : Reader} {u : Unit} (h : (openFile src which).on r = (.ok u, r')) : r' = r := by
  unfold openFile at h
  split at h <;> cases h
  rfl

theorem openReader_eq_ok {r : Reader} {u : Unit} (h : (openReader src).on .new = (.ok u, r)) :
    ∃ index, publishedIndex src = .ok index ∧ r.header = some index ∧ (0 < index.maxFrame → Published src index) ∧
      (∀ pgno, r.frames.get? pgno = (lastFrame src pgno index.maxFrame).map (frameOffset src)) ∧
      r.pages = Dict.empty ∧ r.readBytes ≤ src.budget := by
  obtain ⟨u₁, r₁, hdb, h⟩ := Call.on_bind_eq_ok.mp h
  obtain rfl := openFile_eq_ok src hdb
  obtain ⟨u₂, r₂, hshm, h⟩ := Call.on_bind_eq_ok.mp h
  obtain rfl := openFile_eq_ok src hshm
  obtain ⟨raw, r₃, hread, h⟩ := Call.on_bind_eq_ok.mp h
  obtain ⟨rfl, -, rfl, hbudget⟩ := pread_eq_ok src hread
  obtain ⟨index, r₃, hcall, h⟩ := Call.on_bind_eq_ok.mp h
  obtain ⟨hindex, rfl⟩ := ofAttempt_eq_ok hcall
  rw [Call.on_bind_of_ok (Call.on_modify _ _)] at h
  refine ⟨index, hindex, ?_⟩
  split at h
  · cases h
  · split at h
    · rename_i hmax
      obtain ⟨u₃, r₄, hwal, h⟩ := Call.on_bind_eq_ok.mp h
      obtain rfl := openFile_eq_ok src hwal
      obtain ⟨hpub, hframes, hheader, hpages, hbudget⟩ := scan_eq_ok src (Nat.pos_of_ne_zero hmax) h
      exact ⟨hheader, fun _ => hpub, hframes, hpages, hbudget⟩
    · rename_i hmax
      cases h
      have hzero : index.maxFrame = 0 := not_not.mp hmax
      refine ⟨rfl, fun h => absurd hzero h.ne', fun pgno => ?_, rfl, hbudget⟩
      rw [hzero]
      rfl

/-! ## Pages -/

structure Shows (n : Nat) (r : Reader) : Prop where
  frames : ∀ pgno, r.frames.get? pgno = (lastFrame src pgno n).map (frameOffset src)
  pages : ∀ pgno image, r.pages.get? pgno = some image → image = snapshotPage src n pgno ∧ image.length = src.pageSize

def readPage (pgno : Nat) (frame : Option Nat) : Session Bytes :=
  match frame with
  | some offset => pread src .wal src.pageSize (offset + FRAME_HEADER_BYTES)
  | none => pread src .db src.pageSize ((pgno - 1) * src.pageSize)

theorem readPage_view (pgno : Nat) (frame : Option Nat) (r : Reader) : SameView r ((readPage src pgno frame).on r).2 := by
  cases frame <;> exact pread_view src _ _ _ r

theorem readPage_eq_ok {n pgno : Nat} {r r' : Reader} {image : Bytes}
    (h : (readPage src pgno ((lastFrame src pgno n).map (frameOffset src))).on r = (.ok image, r')) :
    (image = snapshotPage src n pgno ∧ image.length = src.pageSize) ∧ r'.readBytes ≤ src.budget := by
  unfold snapshotPage
  cases hlast : lastFrame src pgno n with
  | none =>
    rw [hlast] at h
    obtain ⟨hdata, hlen, -, hbudget⟩ := pread_eq_ok src h
    exact ⟨⟨hdata, hlen⟩, hbudget⟩
  | some i =>
    rw [hlast] at h
    obtain ⟨hdata, hlen, -, hbudget⟩ := pread_eq_ok src h
    exact ⟨⟨hdata, hlen⟩, hbudget⟩

theorem page_on (pgno : Nat) (r : Reader) :
    (page src pgno).on r = match r.pages.get? pgno with
      | some image => (.ok image, r)
      | none =>
        if pgno < 1 then (refuse .malformedPage s!"page {pgno}", r)
        else match (readPage src pgno (r.frames.get? pgno)).on r with
          | (.ok image, r') => (.ok image, { r' with pages := r'.pages.set pgno image })
          | (.error e, r') => (.error e, r') := by
  unfold page
  rw [Call.on_bind_of_ok (Call.on_get r)]
  cases r.pages.get? pgno with
  | some image => rfl
  | none =>
    dsimp only
    split
    · rfl
    · rw [Call.on_bind_of_ok (Call.on_get r)]
      cases hread : (readPage src pgno (r.frames.get? pgno)).on r with
      | mk res r' =>
        cases hf : r.frames.get? pgno with
        | none =>
          rw [hf] at hread
          cases res with
          | ok image => exact (Call.on_bind_of_ok hread).trans rfl
          | error e => exact Call.on_bind_of_error hread
        | some offset =>
          rw [hf] at hread
          cases res with
          | ok image => exact (Call.on_bind_of_ok hread).trans rfl
          | error e => exact Call.on_bind_of_error hread

theorem page_shows {n pgno : Nat} {r r' : Reader} {res : Attempt Bytes} (hr : Shows src n r)
    (h : (page src pgno).on r = (res, r')) : Shows src n r' ∧ ∀ image, res = .ok image →
      (image = snapshotPage src n pgno ∧ image.length = src.pageSize) ∧ (r' = r ∨ r'.readBytes ≤ src.budget) := by
  rw [page_on] at h
  split at h
  · rename_i image hcached
    cases h
    refine ⟨hr, fun image' himage => ?_⟩
    cases himage
    exact ⟨hr.pages pgno _ hcached, .inl rfl⟩
  · split at h
    · cases h
      exact ⟨hr, fun _ h => by cases h⟩
    · have hview := readPage_view src pgno (r.frames.get? pgno) r
      split at h
      · rename_i image r₁ hread
        cases h
        rw [hread] at hview
        rw [hr.frames] at hread
        obtain ⟨himage, hbudget⟩ := readPage_eq_ok src hread
        refine ⟨⟨fun p => (congrArg (Dict.get? · p) hview.frames).trans (hr.frames p), fun p image' hp => ?_⟩,
          fun image' h => ?_⟩
        · rw [Dict.get?_set, hview.pages] at hp
          split at hp
          · rename_i heq
            subst heq
            cases hp
            exact himage
          · exact hr.pages p image' hp
        · cases h
          exact ⟨himage, .inr hbudget⟩
      · rename_i e r₁ hread
        cases h
        rw [hread] at hview
        exact ⟨⟨fun p => (congrArg (Dict.get? · p) hview.frames).trans (hr.frames p),
          fun p image' hp => hr.pages p image' (hview.pages ▸ hp)⟩, fun _ h => by cases h⟩

/-- The states of a reader after calls of `page`, whether they return or raise. -/
abbrev Later : Reader → Reader → Prop := Relation.ReflTransGen fun r r' => ∃ pgno, ((page src pgno).on r).2 = r'

theorem shows_later {n : Nat} {r r' : Reader} (hr : Shows src n r) (h : Later src r r') : Shows src n r' := by
  induction h with
  | refl => exact hr
  | tail _ hstep ih =>
    obtain ⟨pgno, rfl⟩ := hstep
    exact (page_shows src ih rfl).1

/-! ## Bytes behind the published frames -/

def Source.withWal (wal : File) : Source :=
  { src with file := fun which => if which = .wal then wal else src.file which }

def SameUpTo (n : Nat) (f g : File) : Prop := f = g ∨ ∃ a b, f = .regular a ∧ g = .regular b ∧ a.take n = b.take n

def walEnd (index : WalIndexHeader) : Nat := WAL_HEADER_BYTES + index.maxFrame * frameSize src

theorem bytesAt_take {a : Bytes} {n offset size : Nat} (h : offset + size ≤ n) :
    bytesAt (a.take n) offset size = bytesAt a offset size := by
  unfold bytesAt
  rw [List.drop_take, List.take_take, min_eq_left (by omega)]

theorem SameUpTo.bytesAt {n : Nat} {f g : File} (h : SameUpTo n f g) {offset size : Nat} (hn : offset + size ≤ n) :
    bytesAt g.bytes offset size = bytesAt f.bytes offset size := by
  rcases h with rfl | ⟨a, b, rfl, rfl, hab⟩
  · rfl
  · show Words.bytesAt b offset size = Words.bytesAt a offset size
    rw [← bytesAt_take hn, ← hab, bytesAt_take hn]

theorem SameUpTo.length_lt {n : Nat} {f g : File} (h : SameUpTo n f g) : g.bytes.length < n ↔ f.bytes.length < n := by
  rcases h with rfl | ⟨a, b, rfl, rfl, hab⟩
  · exact Iff.rfl
  · have hlen := congrArg List.length hab
    rw [List.length_take, List.length_take] at hlen
    show b.length < n ↔ a.length < n
    omega

section
variable {wal : File}

theorem pread_congr {which : Which} {size offset : Nat}
    (h : bytesAt ((src.withWal wal).file which).bytes offset size = bytesAt (src.file which).bytes offset size) :
    pread (src.withWal wal) which size offset = pread src which size offset := by
  unfold pread
  rw [show charge (src.withWal wal) size = charge src size from rfl]
  simp only [h]

theorem pread_withWal {n size offset : Nat} (h : SameUpTo n (src.file .wal) wal) (hn : offset + size ≤ n) :
    pread (src.withWal wal) .wal size offset = pread src .wal size offset :=
  pread_congr src (h.bytesAt hn)

theorem frame_le_walEnd {index : WalIndexHeader} {i : Nat} (h1 : 1 ≤ i) (h2 : i ≤ index.maxFrame) :
    frameOffset src i + frameSize src ≤ walEnd src index := by
  have hmul : (i - 1) * frameSize src + frameSize src ≤ index.maxFrame * frameSize src := by
    rw [← Nat.succ_mul]
    exact Nat.mul_le_mul_right _ (by omega)
  unfold walEnd frameOffset
  omega

theorem scan_withWal {index : WalIndexHeader} (h : SameUpTo (walEnd src index) (src.file .wal) wal) (r : Reader) :
    (scan (src.withWal wal) index).on r = (scan src index).on r := by
  have hframe : ∀ salt big, ∀ i ∈ List.range' 1 index.maxFrame, ∀ s,
      scanFrame (src.withWal wal) salt big s i = scanFrame src salt big s i := by
    intro salt big i hi s
    obtain ⟨hi1, hi2⟩ := List.mem_range'_1.mp hi
    have hread := pread_withWal src h (frame_le_walEnd src hi1 (by omega))
    unfold scanFrame
    dsimp only
    rw [show frameSize (src.withWal wal) = frameSize src from rfl,
      show frameOffset (src.withWal wal) i = frameOffset src i from rfl, hread]
  have hread : pread (src.withWal wal) .wal WAL_HEADER_BYTES 0 = pread src .wal WAL_HEADER_BYTES 0 :=
    pread_withWal src h (by unfold walEnd; omega)
  unfold scan
  rw [hread]
  refine Call.on_bind_congr fun header r₁ _ => Call.on_bind_congr fun start r₂ _ => ?_
  by_cases hshort : (src.file .wal).bytes.length < WAL_HEADER_BYTES + index.maxFrame * frameSize src
  · rw [if_pos hshort]
    exact congrArg (fun m : Session Unit => m.on r₂) (if_pos (h.length_lt.mpr hshort))
  · rw [if_neg hshort]
    refine (congrArg (fun m : Session Unit => m.on r₂) (if_neg (mt h.length_lt.mp hshort))).trans ?_
    rw [Call.on_bind, Call.on_bind, Call.on_foldlM_congr (hframe _ _)]

theorem openReader_withWal (h : ∀ index, publishedIndex src = .ok index → 0 < index.maxFrame →
    SameUpTo (walEnd src index) (src.file .wal) wal) (r : Reader) :
    (openReader (src.withWal wal)).on r = (openReader src).on r := by
  have hopen : ∀ which, which ≠ .wal → openFile (src.withWal wal) which = openFile src which := by
    intro which hne
    have hfile : (src.withWal wal).file which = src.file which := if_neg hne
    unfold openFile
    rw [hfile]
  have hread : pread (src.withWal wal) .shm (2 * WAL_INDEX_HEADER_BYTES) 0 = pread src .shm (2 * WAL_INDEX_HEADER_BYTES) 0 :=
    pread_congr src rfl
  unfold openReader
  rw [hopen .db (by decide), hopen .shm (by decide), hread]
  refine Call.on_bind_congr fun _ r₁ _ => Call.on_bind_congr fun _ r₂ _ => Call.on_bind_congr fun raw r₃ hraw => ?_
  obtain ⟨rfl, -, -, -⟩ := pread_eq_ok src hraw
  refine Call.on_bind_congr fun index r₄ hindex => Call.on_bind_congr fun _ r₅ _ => ?_
  obtain ⟨hindex, -⟩ := ofAttempt_eq_ok hindex
  show (if index.maxFrame ≠ 0 ∧ index.pageSize ≠ src.pageSize then _ else _ : Session Unit).on r₅ = _
  split
  · rfl
  · split
    · rename_i hmax
      have hsame := h index hindex (Nat.pos_of_ne_zero hmax)
      have hwal : openFile (src.withWal wal) .wal = openFile src .wal := by
        have hfile : (src.withWal wal).file .wal = wal := rfl
        unfold openFile
        rw [hfile]
        rcases hsame with heq | ⟨a, b, ha, hb, -⟩
        · rw [heq]
        · rw [ha, hb]
      rw [hwal]
      exact Call.on_bind_congr fun _ r₆ _ => scan_withWal src hsame r₆
    · rfl

theorem page_withWal {index : WalIndexHeader} (h : 0 < index.maxFrame → SameUpTo (walEnd src index) (src.file .wal) wal)
    {r : Reader} (hr : Shows src index.maxFrame r) (pgno : Nat) :
    (page (src.withWal wal) pgno).on r = (page src pgno).on r := by
  have hread : readPage (src.withWal wal) pgno (r.frames.get? pgno) = readPage src pgno (r.frames.get? pgno) := by
    rw [hr.frames]
    cases hlast : lastFrame src pgno index.maxFrame with
    | none => exact pread_congr src rfl
    | some i =>
      obtain ⟨h1, h2, -⟩ := ((lastFrame_eq_some src).mp hlast).1
      refine pread_withWal src (h (by omega)) ?_
      have hle := frame_le_walEnd src h1 h2
      unfold frameSize at hle
      show frameOffset src i + FRAME_HEADER_BYTES + src.pageSize ≤ walEnd src index
      omega
  rw [page_on, page_on, hread]

end

/-- **An opened reader has followed an unbroken chain to the published commit, answers every page from the last
frame of the chain that holds it or from the main file, and looks at no byte behind the chain.** -/
theorem snapshot_exact :
    (∀ u r₀, (openReader src).on .new = (.ok u, r₀) → ∃ index, publishedIndex src = .ok index ∧
      r₀.readBytes ≤ src.budget ∧ (0 < index.maxFrame → Published src index) ∧
      ∀ r, Later src r₀ r → ∀ pgno image r', (page src pgno).on r = (.ok image, r') →
        image.length = src.pageSize ∧
        (∀ i, IsGreatest { i | 1 ≤ i ∧ i ≤ index.maxFrame ∧ framePgno src i = pgno } i →
          image = bytesAt (content src .wal) (frameOffset src i + FRAME_HEADER_BYTES) src.pageSize) ∧
        ((∀ i, 1 ≤ i → i ≤ index.maxFrame → framePgno src i ≠ pgno) →
          image = bytesAt (content src .db) ((pgno - 1) * src.pageSize) src.pageSize) ∧
        (r' = r ∨ r'.readBytes ≤ src.budget) ∧
        ∀ r₁, Later src r₀ r₁ → ∀ again r₁', (page src pgno).on r₁ = (.ok again, r₁') → again = image) ∧
    ∀ wal, (∀ index, publishedIndex src = .ok index → 0 < index.maxFrame →
        SameUpTo (walEnd src index) (src.file .wal) wal) →
      (openReader (src.withWal wal)).on .new = (openReader src).on .new ∧
      ∀ u r₀, (openReader src).on .new = (.ok u, r₀) → ∀ r, Later src r₀ r → ∀ pgno,
        (page (src.withWal wal) pgno).on r = (page src pgno).on r := by
  have hshows : ∀ u r₀, (openReader src).on .new = (.ok u, r₀) → ∀ index, publishedIndex src = .ok index →
      ∀ r, Later src r₀ r → Shows src index.maxFrame r := by
    intro u r₀ hopen index hindex r hlater
    obtain ⟨index', hindex', -, -, hframes, hpages, -⟩ := openReader_eq_ok src hopen
    cases hindex.symm.trans hindex'
    exact shows_later src ⟨hframes, fun pgno image h => absurd h (by simp [hpages])⟩ hlater
  refine ⟨fun u r₀ hopen => ?_, fun wal hagree => ⟨openReader_withWal src hagree _, fun u r₀ hopen r hlater pgno => ?_⟩⟩
  · obtain ⟨index, hindex, -, hpub, -, -, hbudget⟩ := openReader_eq_ok src hopen
    refine ⟨index, hindex, hbudget, hpub, fun r hlater pgno image r' hpage => ?_⟩
    obtain ⟨-, hres⟩ := page_shows src (hshows u r₀ hopen index hindex r hlater) hpage
    obtain ⟨⟨himage, hlen⟩, hcharged⟩ := hres image rfl
    refine ⟨hlen, fun i hi => ?_, fun hnone => ?_, hcharged, fun r₁ hlater₁ again r₁' hagain => ?_⟩
    · rw [himage, snapshotPage, (lastFrame_eq_some src).mpr hi]
    · rw [himage, snapshotPage, (lastFrame_eq_none src).mpr hnone]
    · obtain ⟨-, hres'⟩ := page_shows src (hshows u r₀ hopen index hindex r₁ hlater₁) hagain
      exact (hres' again rfl).1.1.trans himage.symm
  · obtain ⟨index, hindex, -⟩ := openReader_eq_ok src hopen
    exact page_withWal src (hagree index hindex) (hshows u r₀ hopen index hindex r hlater) pgno

end

end Cctally.WalSnapshot
