import Mathlib

/-! # Removal from an unordered array

`a[i] = a[--n]`: the last element takes the place of the one that goes.  Nothing but the
order changes otherwise.
-/
namespace Machismo.Data
variable {α : Type}

def swapRemove (l : List α) (i : ℕ) : List α :=
  match l.getLast? with
  | none => []
  | some x => (l.set i x).dropLast

theorem swapRemove_perm {l : List α} {i : ℕ} (hi : i < l.length) : (swapRemove l i).Perm (l.eraseIdx i) := by
  have hne : l ≠ [] := List.ne_nil_of_length_pos (by omega)
  obtain ⟨init,x,rfl⟩ : ∃ init x, l = init++[x] := ⟨_,_,(List.dropLast_append_getLast hne).symm⟩
  rw [List.length_append,List.length_singleton] at hi
  rw [swapRemove,List.getLast?_concat]
  dsimp only
  by_cases hlast : i < init.length
  · rw [List.set_append_left _ _ hlast,List.dropLast_concat,List.eraseIdx_append_of_lt_length hlast]
    exact (List.set_perm_cons_eraseIdx hlast x).trans (List.perm_append_singleton _ _).symm
  · obtain rfl : i = init.length := by omega
    simp [List.eraseIdx_append_of_length_le]

theorem getElem_cons_swapRemove_perm {l : List α} {i : ℕ} (hi : i < l.length) : (l[i]::swapRemove l i).Perm l :=
  ((swapRemove_perm hi).cons _).trans (List.getElem_cons_eraseIdx_perm hi)

section Enumerates
variable {l : List α} {s t : Finset α} {x : α}

/-- The array holds every member of the set once and nothing else. -/
def Enumerates (l : List α) (s : Finset α) : Prop := l.Nodup ∧ ∀ x, x ∈ l ↔ x ∈ s

theorem Enumerates.iff_eq (h : Enumerates l s) : Enumerates l t ↔ s = t := by
  constructor
  · intro ht
    exact Finset.ext fun x => by rw [← h.2,ht.2]
  · rintro rfl
    exact h

variable [DecidableEq α]

theorem Enumerates.length_eq (h : Enumerates l s) : l.length = s.card := by
  have hset : l.toFinset = s := Finset.ext fun x => by rw [List.mem_toFinset,h.2]
  rw [← hset,List.toFinset_card_of_nodup h.1]

theorem Enumerates.push (h : Enumerates l s) (hx : x ∉ s) : Enumerates (l++[x]) (insert x s) := by
  refine ⟨h.1.append (List.nodup_singleton x) ?_,fun y => ?_⟩
  · rintro y hy hyx
    obtain rfl := List.mem_singleton.mp hyx
    exact hx ((h.2 y).mp hy)
  · rw [List.mem_append,List.mem_singleton,Finset.mem_insert,h.2,or_comm]

theorem swapRemove_idxOf_perm (hx : x ∈ l) : (swapRemove l (l.idxOf x)).Perm (l.erase x) := by
  have hperm := swapRemove_perm (List.idxOf_lt_length_of_mem hx)
  rwa [List.erase_eq_eraseIdx_of_idxOf rfl]

theorem Enumerates.remove (h : Enumerates l s) (hx : x ∈ l) :
    Enumerates (swapRemove l (l.idxOf x)) (s.erase x) := by
  have hperm := swapRemove_idxOf_perm hx
  refine ⟨hperm.nodup_iff.mpr (h.1.erase x),fun y => ?_⟩
  rw [hperm.mem_iff,h.1.mem_erase_iff,Finset.mem_erase,h.2]

end Enumerates

end Machismo.Data
