import Mathlib

/-! # Circular queues

A circular queue over a block of cells: the cell the first element is in, how many
elements there are, and how many cells.  What it holds is a list, first in first out;
each operation is described by what it does to that list.
-/
namespace Machismo.Data

structure Circular (α : Type*) where
  buffer : ℕ → α
  capacity : ℕ
  head : ℕ
  count : ℕ

namespace Circular
variable {α : Type*}

def event (q : Circular α) (i : ℕ) : α := q.buffer ((q.head+i)%q.capacity)

/-- The elements, the oldest first. -/
def contents (q : Circular α) : List α := (List.range q.count).map q.event

structure Valid (q : Circular α) : Prop where
  fits : q.count ≤ q.capacity
  head : q.capacity = 0 ∨ q.head < q.capacity

def push (q : Circular α) (a : α) : Circular α :=
  { q with buffer := Function.update q.buffer ((q.head+q.count)%q.capacity) a, count := q.count+1 }

def pop (q : Circular α) : Circular α :=
  { q with head := (q.head+1)%q.capacity, count := q.count-1 }

/-- The same elements at the start of another block, whose other cells are left open. -/
def moveTo (q : Circular α) (capacity : ℕ) : Circular α :=
  ⟨fun i => if i < q.count then q.event i else q.buffer i,capacity,0,q.count⟩

@[simp] theorem push_count (q : Circular α) (a : α) : (q.push a).count = q.count+1 := rfl

@[simp] theorem push_capacity (q : Circular α) (a : α) : (q.push a).capacity = q.capacity := rfl

@[simp] theorem pop_count (q : Circular α) : q.pop.count = q.count-1 := rfl

@[simp] theorem pop_capacity (q : Circular α) : q.pop.capacity = q.capacity := rfl

theorem cell_injective {c h a b : ℕ} (ha : a < c) (hb : b < c) (e : (h+a)%c = (h+b)%c) : a = b := by
  have hm : h+a ≡ h+b [MOD c] := e
  have hab : a ≡ b [MOD c] := Nat.ModEq.add_left_cancel' h hm
  exact Nat.ModEq.eq_of_lt_of_lt hab ha hb

theorem push_event (q : Circular α) (a : α) {i : ℕ} (hq : q.count < q.capacity) (hi : i < q.count) :
    (q.push a).event i = q.event i := by
  have hne : (q.head+i)%q.capacity ≠ (q.head+q.count)%q.capacity :=
    fun e => hi.ne (cell_injective (hi.trans hq) hq e)
  exact Function.update_of_ne hne _ _

theorem push_event_last (q : Circular α) (a : α) : (q.push a).event q.count = a :=
  Function.update_self _ _ _

theorem push_contents (q : Circular α) (a : α) (hq : q.count < q.capacity) :
    (q.push a).contents = q.contents++[a] := by
  have hold : (List.range q.count).map (q.push a).event = (List.range q.count).map q.event :=
    List.map_congr_left fun i hi => push_event q a hq (List.mem_range.mp hi)
  simp only [contents,push_count,List.range_succ,List.map_append,hold,List.map_cons,List.map_nil,push_event_last]

theorem push_valid {q : Circular α} (h : q.Valid) (a : α) (hq : q.count < q.capacity) : (q.push a).Valid :=
  ⟨hq,h.head⟩

theorem pop_event (q : Circular α) (i : ℕ) : q.pop.event i = q.event (i+1) := by
  simp only [event,pop,Nat.mod_add_mod]
  congr 2
  omega

theorem contents_eq_cons (q : Circular α) (hq : q.count ≠ 0) : q.contents = q.event 0 :: q.pop.contents := by
  obtain ⟨n,hn⟩ := Nat.exists_eq_succ_of_ne_zero hq
  have hrest : (List.range n).map q.pop.event = (List.range n).map (q.event ∘ Nat.succ) :=
    List.map_congr_left fun i _ => pop_event q i
  simp only [contents,pop_count,hn,Nat.succ_sub_one,List.range_succ_eq_map,List.map_cons,List.map_map,hrest]

theorem pop_valid {q : Circular α} (h : q.Valid) : q.pop.Valid := by
  refine ⟨(Nat.sub_le _ _).trans h.fits,?_⟩
  rcases Nat.eq_zero_or_pos q.capacity with hz | hz
  · exact Or.inl hz
  · exact Or.inr (Nat.mod_lt _ hz)

theorem moveTo_contents (q : Circular α) {capacity : ℕ} (hc : q.count ≤ capacity) :
    (q.moveTo capacity).contents = q.contents := by
  apply List.map_congr_left
  intro i hi
  have hlt : i < q.count := List.mem_range.mp hi
  have hcell : (0+i)%capacity = i := by rw [Nat.zero_add,Nat.mod_eq_of_lt (hlt.trans_le hc)]
  simp only [event,moveTo,hcell,if_pos hlt]

theorem moveTo_valid (q : Circular α) {capacity : ℕ} (hc : q.count ≤ capacity) : (q.moveTo capacity).Valid := by
  refine ⟨hc,?_⟩
  rcases Nat.eq_zero_or_pos capacity with hz | hz
  · exact Or.inl hz
  · exact Or.inr hz

end Circular

end Machismo.Data
