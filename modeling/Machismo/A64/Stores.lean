import Machismo.A64.Memory

/-! # Stores after another

Whatever order they come in, all stores of a list are in memory afterwards exactly if no two of them
disagree about a byte; and then a byte keeps its value exactly if no store over it has another one.
-/
namespace Machismo.A64

structure Store where
  addr : Addr
  size : ℕ
  value : BitVec (8*size)

def runStores (l : List Store) (m : Memory) : Memory := l.foldl (fun m s => store m s.addr s.size s.value) m

namespace Store

/-- The byte that a store has for an address. -/
def byteAt (s : Store) (b : Addr) : Option Byte :=
  if (b - s.addr).toNat < s.size then some (s.value.extractLsb' (8*(b - s.addr).toNat) 8) else none

def Done (s : Store) (m : Memory) : Prop := load m s.addr s.size = s.value

def Agrees (s t : Store) : Prop := ∀ b v w, s.byteAt b = some v → t.byteAt b = some w → v = w

variable {s t : Store} {m : Memory} {b : Addr}

theorem store_apply (s : Store) (m : Memory) (b : Addr) :
    store m s.addr s.size s.value b = (s.byteAt b).getD (m b) := by
  unfold store byteAt
  split <;> rfl

theorem lt_of_byteAt {v : Byte} (h : s.byteAt b = some v) : (b - s.addr).toNat < s.size := by
  unfold byteAt at h
  split at h
  next hlt => exact hlt
  next => cases h

theorem done_iff (hs : s.size ≤ 2^64) : s.Done m ↔ ∀ b v, s.byteAt b = some v → m b = v := by
  constructor
  · intro h b v hv
    have hsame := congrFun (store_load_same m s.addr s.size) b
    rw [h,store_apply,hv] at hsame
    exact hsame.symm
  · intro h
    have hsame : store m s.addr s.size s.value = m := by
      funext b
      rw [store_apply]
      cases hb : s.byteAt b with
      | none => rfl
      | some v => exact (h b v hb).symm
    have hload := load_store_same m s.addr s.size s.value hs
    rw [hsame] at hload
    exact hload

theorem Agrees.refl (s : Store) : s.Agrees s := fun _ _ _ hv hw => Option.some.inj (hv.symm.trans hw)

theorem Agrees.symm (h : s.Agrees t) : t.Agrees s := fun b v w hv hw => (h b w v hw hv).symm

theorem agrees_of_apart (h : Apart s.addr s.size t.addr t.size) : s.Agrees t := by
  intro b v w hv hw
  have hs := lt_of_byteAt hv
  have ht := lt_of_byteAt hw
  have hout := h.toNat_sub hs
  rw [BitVec.ofNat_toNat,BitVec.setWidth_eq,BitVec.add_comm,BitVec.sub_add_cancel] at hout
  omega

end Store

section Run
variable {l : List Store} {m : Memory} {b : Addr}

/-- A byte ends up as what all stores over it have there, if there is one or if it had that value before. -/
theorem runStores_apply {v : Byte} (h : ∀ s ∈ l, ∀ w, s.byteAt b = some w → w = v)
    (hb : m b = v ∨ ∃ s ∈ l, (s.byteAt b).isSome) : runStores l m b = v := by
  induction l generalizing m with
  | nil =>
    obtain hb | ⟨s,hs,-⟩ := hb
    · exact hb
    · cases hs
  | cons s l ih =>
    refine ih (fun t ht => h t (List.mem_cons_of_mem _ ht)) ?_
    dsimp only
    rw [s.store_apply]
    cases hs : s.byteAt b with
    | some w => exact .inl (h s List.mem_cons_self w hs)
    | none =>
      obtain hb | ⟨t,ht,htb⟩ := hb
      · exact .inl hb
      · obtain rfl | ht := List.mem_cons.mp ht
        · rw [hs] at htb
          cases htb
        · exact .inr ⟨t,ht,htb⟩

theorem runStores_outside (h : ∀ s ∈ l, s.size ≤ (b - s.addr).toNat) : runStores l m b = m b :=
  runStores_apply (fun s hs _ hw => absurd (Store.lt_of_byteAt hw) (h s hs).not_gt) (.inl rfl)

theorem runStores_done_iff (hsize : ∀ s ∈ l, s.size ≤ 2^64) :
    (∀ s ∈ l, s.Done (runStores l m)) ↔ ∀ s ∈ l, ∀ t ∈ l, s.Agrees t := by
  constructor
  · intro h s hs t ht b v w hv hw
    rw [← (Store.done_iff (hsize s hs)).mp (h s hs) b v hv,← (Store.done_iff (hsize t ht)).mp (h t ht) b w hw]
  · intro h s hs
    refine (Store.done_iff (hsize s hs)).mpr fun b v hv => runStores_apply (fun t ht w hw => ?_) (.inr ⟨s,hs,?_⟩)
    · exact (h s hs t ht b v w hv hw).symm
    · rw [hv]
      rfl

theorem runStores_keeps_iff (hsize : ∀ s ∈ l, s.size ≤ 2^64) (hdone : ∀ s ∈ l, s.Done (runStores l m)) :
    runStores l m b = m b ↔ ∀ s ∈ l, ∀ w, s.byteAt b = some w → w = m b := by
  constructor
  · intro h s hs w hw
    rw [← h,(Store.done_iff (hsize s hs)).mp (hdone s hs) b w hw]
  · exact fun h => runStores_apply h (.inl rfl)

end Run

end Machismo.A64
