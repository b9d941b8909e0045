import Cctally.Dict
import Mathlib.Order.BoundedOrder.Basic
import Mathlib.Order.UpperLower.Basic

/-!
# Directories that survive a power loss

Entries and file contents have a live state and a durable one: a file becomes durable at its
sync, the entries at the directory's. As long as writes only add to a file and only an empty
one is unlinked, what a durable file holds under a data name is never lost.
-/

/-- Entries point at files by number; `fresh` and all above it are unused. -/
structure DurableDir (N C : Type*) where
  live : Dict N Nat
  disk : Dict N Nat
  node : Nat → C
  synced : Nat → C
  fresh : Nat

namespace DurableDir

variable {N C : Type*}

def empty (c : C) : DurableDir N C := ⟨Dict.empty, Dict.empty, fun _ => c, fun _ => c, 0⟩

section
variable (d : DurableDir N C)

def write (i : Nat) (c : C) : DurableDir N C := { d with node := Function.update d.node i c }

def sync (i : Nat) : DurableDir N C := { d with synced := Function.update d.synced i (d.node i) }

def syncDir : DurableDir N C := { d with disk := d.live }

def powerLoss : DurableDir N C := { d with live := d.disk, node := d.synced }

def alloc (c : C) : DurableDir N C :=
  { d with node := Function.update d.node d.fresh c, synced := Function.update d.synced d.fresh c, fresh := d.fresh + 1 }

variable [DecidableEq N]

def rename (n : N) (i : Nat) : DurableDir N C := { d with live := d.live.set n i }

def unlink (n : N) : DurableDir N C := { d with live := d.live.erase n }

def create [Bot C] (n : N) : DurableDir N C :=
  { d with
    live := d.live.set n d.fresh
    node := Function.update d.node d.fresh ⊥
    synced := Function.update d.synced d.fresh ⊥
    fresh := d.fresh + 1 }

end

variable [DecidableEq N] [Preorder C] [OrderBot C]

def Points (d : DurableDir N C) (n : N) (i : Nat) : Prop := d.live.get? n = some i ∨ d.disk.get? n = some i

structure Sound (data : Set N) (d : DurableDir N C) : Prop where
  lt_fresh : ∀ n i, d.Points n i → i < d.fresh
  owned : ∀ n n' i, d.Points n i → d.Points n' i → n = n'
  synced_le : ∀ i, d.synced i ≤ d.node i
  kept : ∀ n ∈ data, ∀ i, d.disk.get? n = some i → ¬ d.synced i ≤ ⊥ → d.live.get? n = some i

def Kept (d : DurableDir N C) (n : N) (P : Set C) : Prop := ∃ i, d.disk.get? n = some i ∧ d.synced i ∈ P

structure Extends (data : Set N) (d d' : DurableDir N C) : Prop where
  sound : Sound data d'
  keeps : ∀ (P : Set C), IsUpperSet P → ⊥ ∉ P → ∀ n ∈ data, d.Kept n P → d'.Kept n P

variable {data : Set N}

theorem Sound.refl {d : DurableDir N C} (h : Sound data d) : Extends data d d := ⟨h, fun _ _ _ _ _ hkept => hkept⟩

theorem Extends.trans {a b c : DurableDir N C} (hab : Extends data a b) (hbc : Extends data b c) : Extends data a c :=
  ⟨hbc.sound, fun P hup hbot n hn hkept => hbc.keeps P hup hbot n hn (hab.keeps P hup hbot n hn hkept)⟩

theorem sound_empty : Sound data (empty ⊥ : DurableDir N C) where
  lt_fresh n i h := by rcases h with h | h <;> cases h
  owned n n' i h _ := by rcases h with h | h <;> cases h
  synced_le i := le_refl _
  kept n _ i h := by cases h

variable {d : DurableDir N C} {n : N} {i : Nat} {c : C} {P : Set C}

theorem not_le_of_mem (hup : IsUpperSet P) (hbot : ⊥ ∉ P) (hc : c ∈ P) : ¬ c ≤ ⊥ := fun hle => hbot (hup hle hc)

theorem Sound.live_of_kept (h : Sound data d) (hup : IsUpperSet P) (hbot : ⊥ ∉ P) (hn : n ∈ data) (hkept : d.Kept n P) :
    ∃ i, d.live.get? n = some i ∧ d.node i ∈ P := by
  obtain ⟨i, hdisk, hsynced⟩ := hkept
  exact ⟨i, h.kept n hn i hdisk (not_le_of_mem hup hbot hsynced), hup (h.synced_le i) hsynced⟩

theorem Sound.write (h : Sound data d) (hle : d.node i ≤ c) : Extends data d (d.write i c) := by
  refine ⟨⟨h.lt_fresh, h.owned, fun j => ?_, h.kept⟩, fun P _ _ n _ hkept => hkept⟩
  rw [DurableDir.write]
  simp only
  by_cases hj : j = i
  · subst hj
    rw [Function.update_self]
    exact le_trans (h.synced_le j) hle
  · rw [Function.update_of_ne hj]
    exact h.synced_le j

theorem Sound.sync (h : Sound data d) (hlive : d.live.get? n = some i) : Extends data d (d.sync i) := by
  have hle : ∀ j, d.synced j ≤ Function.update d.synced i (d.node i) j := fun j => by
    by_cases hj : j = i
    · subst hj
      rw [Function.update_self]
      exact h.synced_le j
    · rw [Function.update_of_ne hj]
  refine ⟨⟨h.lt_fresh, h.owned, fun j => ?_, fun m hm j hdisk hdata => ?_⟩, fun P hup _ m _ hkept => ?_⟩
  · rw [DurableDir.sync]
    simp only
    by_cases hj : j = i
    · subst hj
      rw [Function.update_self]
    · rw [Function.update_of_ne hj]
      exact h.synced_le j
  · rw [DurableDir.sync] at hdata hdisk ⊢
    simp only at hdata hdisk ⊢
    by_cases hj : j = i
    · subst hj
      rw [h.owned m n j (.inr hdisk) (.inl hlive)]
      exact hlive
    · rw [Function.update_of_ne hj] at hdata
      exact h.kept m hm j hdisk hdata
  · obtain ⟨j, hdisk, hmem⟩ := hkept
    exact ⟨j, hdisk, hup (hle j) hmem⟩

theorem Sound.syncDir (h : Sound data d) : Extends data d d.syncDir := by
  refine ⟨⟨fun m j hp => ?_, fun m m' j hp hp' => ?_, h.synced_le, fun m _ j hdisk _ => hdisk⟩, fun P hup hbot m hm hkept => ?_⟩
  · exact h.lt_fresh m j (.inl (hp.elim id id))
  · exact h.owned m m' j (.inl (hp.elim id id)) (.inl (hp'.elim id id))
  · obtain ⟨j, hdisk, hmem⟩ := hkept
    exact ⟨j, h.kept m hm j hdisk (not_le_of_mem hup hbot hmem), hmem⟩

theorem Sound.powerLoss (h : Sound data d) : Extends data d d.powerLoss := by
  refine ⟨⟨fun m j hp => ?_, fun m m' j hp hp' => ?_, fun j => le_refl _, fun m _ j hdisk _ => hdisk⟩, fun P _ _ m _ hkept => hkept⟩
  · exact h.lt_fresh m j (.inr (hp.elim id id))
  · exact h.owned m m' j (.inr (hp.elim id id)) (.inr (hp'.elim id id))

theorem Sound.alloc (h : Sound data d) (c : C) : Extends data d (d.alloc c) := by
  have hother : ∀ {m j}, d.Points m j → j ≠ d.fresh := fun hp => Nat.ne_of_lt (h.lt_fresh _ _ hp)
  refine ⟨⟨fun m j hp => Nat.lt_succ_of_lt (h.lt_fresh m j hp), h.owned, fun j => ?_, fun m hm j hdisk hdata => ?_⟩,
    fun P _ _ m _ hkept => ?_⟩
  · rw [DurableDir.alloc]
    simp only
    by_cases hj : j = d.fresh
    · rw [hj, Function.update_self, Function.update_self]
    · rw [Function.update_of_ne hj, Function.update_of_ne hj]
      exact h.synced_le j
  · rw [DurableDir.alloc] at hdisk hdata
    simp only at hdisk hdata
    rw [Function.update_of_ne (hother (.inr hdisk))] at hdata
    exact h.kept m hm j hdisk hdata
  · obtain ⟨j, hdisk, hmem⟩ := hkept
    refine ⟨j, hdisk, ?_⟩
    rw [DurableDir.alloc]
    simp only
    rwa [Function.update_of_ne (hother (.inr hdisk))]

theorem Sound.rename (h : Sound data d) (hi : i < d.fresh) (hfree : ∀ m, ¬ d.Points m i)
    (hdrop : n ∈ data → ∀ j, d.disk.get? n = some j → d.synced j ≤ ⊥) : Extends data d (d.rename n i) := by
  have hlive : ∀ {m j}, (d.rename n i).live.get? m = some j → n = m ∧ i = j ∨ d.live.get? m = some j := by
    intro m j hget
    rw [DurableDir.rename] at hget
    simp only at hget
    rw [Dict.get?_set] at hget
    by_cases hm : n = m
    · rw [if_pos hm] at hget
      exact .inl ⟨hm, Option.some.inj hget⟩
    · rw [if_neg hm] at hget
      exact .inr hget
  have hpoints : ∀ {m j}, (d.rename n i).Points m j → n = m ∧ i = j ∨ d.Points m j := fun hp => by
    rcases hp with hp | hp
    · exact (hlive hp).imp id .inl
    · exact .inr (.inr hp)
  refine ⟨⟨fun m j hp => ?_, fun m m' j hp hp' => ?_, h.synced_le, fun m hdata' j hdisk hdata => ?_⟩, fun P _ _ m _ hkept => hkept⟩
  · rcases hpoints hp with ⟨_, rfl⟩ | hp
    · exact hi
    · exact h.lt_fresh m j hp
  · rcases hpoints hp with ⟨rfl, rfl⟩ | hp
    · rcases hpoints hp' with ⟨rfl, _⟩ | hp'
      · rfl
      · exact absurd hp' (hfree m')
    · rcases hpoints hp' with ⟨rfl, rfl⟩ | hp'
      · exact absurd hp (hfree m)
      · exact h.owned m m' j hp hp'
  · rw [DurableDir.rename]
    simp only
    rw [Dict.get?_set]
    by_cases hm : n = m
    · subst hm
      exact absurd (hdrop hdata' j hdisk) hdata
    · rw [if_neg hm]
      exact h.kept m hdata' j hdisk hdata

theorem Sound.create (h : Sound data d) (hnone : d.live.get? n = none) : Extends data d (d.create n) := by
  have hnew : (d.create n) = (d.alloc ⊥).rename n d.fresh := rfl
  have halloc := h.alloc ⊥
  have hfree : ∀ m, ¬ (d.alloc ⊥).Points m d.fresh := fun m hp => Nat.lt_irrefl _ (h.lt_fresh m d.fresh hp)
  refine halloc.trans (hnew ▸ halloc.sound.rename (Nat.lt_succ_self _) hfree fun hn j hdisk => ?_)
  by_contra hdata
  have hlive := halloc.sound.kept n hn j hdisk hdata
  rw [DurableDir.alloc] at hlive
  rw [hnone] at hlive
  cases hlive

theorem Sound.unlink (h : Sound data d) (hempty : ∀ j, d.live.get? n = some j → d.node j ≤ ⊥) : Extends data d (d.unlink n) := by
  have hlive : ∀ {m j}, (d.unlink n).live.get? m = some j → d.live.get? m = some j := by
    intro m j hget
    rw [DurableDir.unlink] at hget
    simp only at hget
    rw [Dict.get?_erase] at hget
    split at hget
    · cases hget
    · exact hget
  refine ⟨⟨fun m j hp => h.lt_fresh m j (hp.imp hlive id), fun m m' j hp hp' =>
    h.owned m m' j (hp.imp hlive id) (hp'.imp hlive id), h.synced_le, fun m hn j hdisk hdata => ?_⟩, fun P _ _ m _ hkept => hkept⟩
  have hthere := h.kept m hn j hdisk hdata
  rw [DurableDir.unlink]
  simp only
  rw [Dict.get?_erase]
  by_cases hm : n = m
  · subst hm
    exact absurd (le_trans (h.synced_le j) (hempty j hthere)) hdata
  · rw [if_neg hm]
    exact hthere

structure Grows (d d' : DurableDir N C) : Prop where
  fresh_le : d.fresh ≤ d'.fresh
  node_le : ∀ i < d.fresh, d.node i ≤ d'.node i

omit [DecidableEq N] [OrderBot C]

theorem Grows.refl (d : DurableDir N C) : Grows d d := ⟨le_refl _, fun _ _ => le_refl _⟩

theorem Grows.trans {a b c : DurableDir N C} (hab : Grows a b) (hbc : Grows b c) : Grows a c :=
  ⟨le_trans hab.fresh_le hbc.fresh_le, fun i hi =>
    le_trans (hab.node_le i hi) (hbc.node_le i (Nat.lt_of_lt_of_le hi hab.fresh_le))⟩

theorem grows_write (hle : d.node i ≤ c) : Grows d (d.write i c) := by
  refine ⟨le_refl _, fun j _ => ?_⟩
  rw [DurableDir.write]
  simp only
  by_cases hj : j = i
  · subst hj
    rw [Function.update_self]
    exact hle
  · rw [Function.update_of_ne hj]

theorem grows_alloc (d : DurableDir N C) (c : C) : Grows d (d.alloc c) := by
  refine ⟨Nat.le_succ _, fun j hj => ?_⟩
  rw [DurableDir.alloc]
  simp only
  rw [Function.update_of_ne (Nat.ne_of_lt hj)]

end DurableDir
