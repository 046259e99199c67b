import Mathlib

/-! # Blocks of fixed size

A block is written one cell or one string at a time; a write outside of it has no result.
A text is built at the front of a block: it stays a prefix of the block while what is
written comes right behind it.
-/
namespace Machismo.Data.TextBuffer
variable {α : Type*}

def store (block : List α) (i : ℕ) (a : α) : Option (List α) :=
  if i < block.length then some (block.set i a) else none

def storeAll (block : List α) (i : ℕ) (as : List α) : Option (List α) :=
  if i+as.length ≤ block.length then some (block.take i++as++block.drop (i+as.length)) else none

theorem store_extends {block text : List α} (h : text <+: block) (hroom : text.length < block.length) (a : α) :
    ∃ block', store block text.length a = some block' ∧ block'.length = block.length ∧ text++[a] <+: block' := by
  obtain ⟨rest,rfl⟩ := h
  cases rest with
  | nil => simp at hroom
  | cons c rest =>
    refine ⟨_,if_pos hroom,List.length_set,rest,?_⟩
    simp

theorem storeAll_extends {block text : List α} (h : text <+: block) {l : List α}
    (hroom : text.length+l.length ≤ block.length) :
    ∃ block', storeAll block text.length l = some block' ∧ block'.length = block.length ∧ text++l <+: block' := by
  obtain ⟨rest,rfl⟩ := h
  refine ⟨_,if_pos hroom,?_,(text++rest).drop (text.length+l.length),by rw [List.take_left]⟩
  simp only [List.take_left,List.length_append,List.length_drop] at hroom ⊢
  omega

theorem getElem?_front {block text : List α} (h : text <+: block) {i : ℕ} (hi : i < text.length) :
    block[i]? = text[i]? := by
  obtain ⟨rest,rfl⟩ := h
  exact List.getElem?_append_left hi

/-- The string that ends at the first `z`. -/
def upTo [DecidableEq α] (z : α) (block : List α) : List α := block.takeWhile (· != z)

theorem upTo_front [DecidableEq α] {z : α} {text block : List α} (h : text++[z] <+: block) (hz : z ∉ text) :
    upTo z block = text := by
  obtain ⟨rest,rfl⟩ := h
  have hall : ∀ a ∈ text, (a != z) = true := fun a ha => by
    simpa using fun e : a = z => hz (e ▸ ha)
  rw [upTo,List.append_assoc,List.takeWhile_append_of_pos hall]
  simp

theorem take_append_take (n : ℕ) (text rest : List α) : (text.take n++rest).take n = (text++rest).take n := by
  rcases Nat.le_total text.length n with hle | hle
  · rw [List.take_of_length_le hle]
  · have hcut : n ≤ (text.take n).length := by rw [List.length_take,Nat.min_eq_left hle]
    rw [List.take_append_of_le_length hcut,List.take_take,Nat.min_self,List.take_append_of_le_length hle]

end Machismo.Data.TextBuffer
