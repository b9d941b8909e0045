import Mathlib

/-!
# Greedy packing

Elements are put into the last chunk as long as it does not become too large;
one that would make it so starts the next chunk. A chunk of one element is
never too large.
-/

namespace Packing

variable {α : Type*} (big : List α → Bool)

def packFrom (chunk : List α) : List α → List (List α)
  | [] => [chunk]
  | a :: rest => if big (chunk ++ [a]) then chunk :: packFrom [a] rest else packFrom (chunk ++ [a]) rest

def pack : List α → List (List α)
  | [] => []
  | a :: rest => packFrom big [a] rest

variable {big}

theorem flatten_packFrom : ∀ (l chunk : List α), (packFrom big chunk l).flatten = chunk ++ l
  | [], chunk => by rw [packFrom, List.flatten_singleton, List.append_nil]
  | a :: rest, chunk => by
    rw [packFrom]
    split
    · rw [List.flatten_cons, flatten_packFrom rest, List.singleton_append]
    · rw [flatten_packFrom rest, List.append_assoc, List.singleton_append]

theorem flatten_pack (l : List α) : (pack big l).flatten = l := by
  cases l with
  | nil => rfl
  | cons a rest => rw [pack, flatten_packFrom, List.singleton_append]

theorem packFrom_eq : ∀ (l chunk : List α), ∃ grown chunks, packFrom big chunk l = (chunk ++ grown) :: chunks
  | [], chunk => ⟨[], [], by rw [packFrom, List.append_nil]⟩
  | a :: rest, chunk => by
    rw [packFrom]
    split
    · exact ⟨[], packFrom big [a] rest, by rw [List.append_nil]⟩
    · obtain ⟨grown, chunks, h⟩ := packFrom_eq rest (chunk ++ [a])
      exact ⟨a :: grown, chunks, by rw [h, List.append_assoc, List.singleton_append]⟩

theorem nonempty_packFrom : ∀ {l chunk : List α}, chunk ≠ [] → ∀ c ∈ packFrom big chunk l, c ≠ []
  | [], chunk, h, c, hc => by
    rw [packFrom, List.mem_singleton] at hc
    exact hc ▸ h
  | a :: rest, chunk, h, c, hc => by
    rw [packFrom] at hc
    split at hc
    · rcases List.mem_cons.mp hc with rfl | hc
      · exact h
      · exact nonempty_packFrom (List.cons_ne_nil _ _) c hc
    · exact nonempty_packFrom (by simp) c hc

theorem nonempty_pack {l : List α} : ∀ c ∈ pack big l, c ≠ [] := by
  cases l with
  | nil => exact fun c hc => absurd hc List.not_mem_nil
  | cons a rest => exact nonempty_packFrom (List.cons_ne_nil _ _)

theorem within_packFrom : ∀ {l chunk : List α}, (1 < chunk.length → big chunk = false) →
    ∀ c ∈ packFrom big chunk l, 1 < c.length → big c = false
  | [], chunk, h, c, hc => by
    rw [packFrom, List.mem_singleton] at hc
    exact hc ▸ h
  | a :: rest, chunk, h, c, hc => by
    rw [packFrom] at hc
    split at hc
    · rcases List.mem_cons.mp hc with rfl | hc
      · exact h
      · exact within_packFrom (fun hlen => absurd hlen (by simp)) c hc
    · rename_i hbig
      exact within_packFrom (fun _ => by simpa using hbig) c hc

theorem within_pack {l : List α} : ∀ c ∈ pack big l, 1 < c.length → big c = false := by
  cases l with
  | nil => exact fun c hc => absurd hc List.not_mem_nil
  | cons a rest => exact within_packFrom fun hlen => absurd hlen (by simp)

theorem full_packFrom : ∀ (l chunk : List α),
    (packFrom big chunk l).IsChain fun c d => ∀ a ∈ d.head?, big (c ++ [a]) = true
  | [], chunk => by
    rw [packFrom]
    exact List.isChain_singleton _
  | a :: rest, chunk => by
    rw [packFrom]
    split
    · rename_i hbig
      obtain ⟨grown, chunks, h⟩ := @packFrom_eq _ big rest [a]
      have ih := full_packFrom rest [a]
      rw [h] at ih ⊢
      refine List.isChain_cons_cons.mpr ⟨fun b hb => ?_, ih⟩
      obtain rfl : a = b := by simpa using hb
      exact hbig
    · exact full_packFrom rest (chunk ++ [a])

theorem full_pack (l : List α) : (pack big l).IsChain fun c d => ∀ a ∈ d.head?, big (c ++ [a]) = true := by
  cases l with
  | nil => exact List.isChain_nil
  | cons a rest => exact full_packFrom rest [a]

end Packing
