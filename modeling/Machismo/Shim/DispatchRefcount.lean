import Machismo.Data.Threads

/-! # The reference count of a dispatch object

`dispatch_release` reads the count before it subtracts from it, and does nothing when it is
over 99, which is how the global queues are never freed.  An object of the program's own that
comes to have more than 99 references at a release keeps the one it should lose then, for good.
-/
namespace Machismo.Shim.Refcount
open Machismo.Data.Threads
variable {T : Type}

inductive ObjType where
  | semaphore
  | queue
  | data
deriving DecidableEq, Repr

structure Object where
  type : ObjType
  refcount : ℤ
deriving DecidableEq, Repr

section Create

def create (type : ObjType) (calloc : Bool) : Option Object := if calloc then some ⟨type,1⟩ else none

def dispatchSemaphoreCreate (calloc : Bool) : Option Object := create .semaphore calloc
def dispatchQueueCreate (calloc : Bool) : Option Object := create .queue calloc
def dispatchDataCreate (calloc : Bool) : Option Object := create .data calloc

/-- One of the three functions has made the object. -/
def Created (o : Object) : Prop :=
  ∃ calloc, dispatchSemaphoreCreate calloc = some o ∨ dispatchQueueCreate calloc = some o ∨
    dispatchDataCreate calloc = some o

end Create

def intMax : ℤ := 2^31-1

def wrap (x : ℤ) : ℤ := Int.bmod x (2^32)

/-- The object, the references nobody has begun to release, the threads in `dispatch_release` before and
after the subtraction, and how often a release came upon more than 99 references, the semaphore was
destroyed and the object freed. -/
structure State (T : Type) where
  object : Object
  refs : ℕ
  checked : Finset T
  freeing : Finset T
  crowded : ℕ
  destroyed : ℕ
  freed : ℕ

def State.start (o : Object) : State T := ⟨o,1,∅,∅,0,0,0⟩

namespace State

/-- The references that have not been dropped yet. -/
def live (s : State T) : ℕ := s.refs+s.checked.card

/-- Every reference was released, and every call has returned. -/
def Over (s : State T) : Prop := s.refs = 0 ∧ s.checked = ∅ ∧ s.freeing = ∅

/-- The object is freed at most once, by the release that dropped the last reference; and has been freed
when all is over. -/
def FreedOnce (s : State T) : Prop :=
  s.freed ≤ 1 ∧ (0 < s.freed ∨ s.freeing.Nonempty → s.live = 0) ∧ (s.Over → s.freed = 1)

variable [DecidableEq T]

/-- A release takes its reference. -/
def take (s : State T) : State T :=
  { s with
    refs := s.refs-1
    crowded := s.crowded+if 99 < s.live then 1 else 0 }

def add (s : State T) (n : ℤ) : State T :=
  { s with object := { s.object with refcount := wrap (s.object.refcount+n) } }

end State

variable [DecidableEq T]

/-- One step of thread `t`; one that retains has a reference to do it by. -/
inductive Step (t : T) : State T → State T → Prop where
  | retain (s : State T) : t ∉ s.checked → t ∉ s.freeing → 0 < s.refs →
      Step t s { s.add 1 with refs := s.refs+1 }
  | immortal (s : State T) : t ∉ s.checked → t ∉ s.freeing → 0 < s.refs → 99 < s.object.refcount →
      Step t s s.take
  | check (s : State T) : t ∉ s.checked → t ∉ s.freeing → 0 < s.refs → s.object.refcount ≤ 99 →
      Step t s { s.take with checked := insert t s.checked }
  | subtract (s : State T) : t ∈ s.checked → 0 < wrap (s.object.refcount-1) →
      Step t s { s.add (-1) with checked := s.checked.erase t }
  | last (s : State T) : t ∈ s.checked → wrap (s.object.refcount-1) ≤ 0 →
      Step t s { s.add (-1) with
        checked := s.checked.erase t
        freeing := insert t s.freeing }
  | free (s : State T) : t ∈ s.freeing →
      Step t s { s with
        freeing := s.freeing.erase t
        destroyed := s.destroyed+if s.object.type = .semaphore then 1 else 0
        freed := s.freed+1 }

/-- A step that does not retain an object whose count is at its end. -/
def Bounded (t : T) (s s' : State T) : Prop :=
  Step t s s' ∧ (s.refs < s'.refs → s.object.refcount < intMax)

/-- A release finds at most 99 references, and a retain fewer than a count holds. -/
def Clean (t : T) (s s' : State T) : Prop :=
  Step t s s' ∧ (s'.refs < s.refs → s.live ≤ 99) ∧ (s.refs < s'.refs → s.live < intMax)

/-- The count is that of the references and of the releases that passed one by. -/
structure Inv (s : State T) (skipped : ℕ) : Prop where
  count : s.object.refcount = (s.live+skipped : ℕ)
  bound : s.object.refcount ≤ intMax
  crowded : s.crowded = 0 ↔ skipped = 0
  freed : s.freed+s.freeing.card = if s.live = 0 ∧ skipped = 0 then 1 else 0

section Steps
variable {s s' : State T} {t : T} {skipped : ℕ}

theorem wrap_eq {x : ℤ} (h0 : 0 ≤ x) (h : x ≤ intMax) : wrap x = x := by
  apply Int.bmod_eq_of_le <;> simp only [intMax] at * <;> omega

omit [DecidableEq T] in
theorem Inv.start {o : Object} (h : Created o) : Inv (State.start o : State T) 0 := by
  have hcount : o.refcount = 1 := by
    obtain ⟨calloc,h⟩ := h
    cases calloc <;> simp [dispatchSemaphoreCreate,dispatchQueueCreate,dispatchDataCreate,create] at h
    rcases h with rfl | rfl | rfl <;> rfl
  exact ⟨by simp [State.start,State.live,hcount],by simp [State.start,hcount,intMax],by simp [State.start],
    by simp [State.start,State.live]⟩

omit [DecidableEq T] in
theorem live_pos_of_mem (ht : t ∈ s.checked) : 0 < s.live :=
  (Finset.card_pos.mpr ⟨t,ht⟩).trans_le (Nat.le_add_left _ _)

theorem Inv.subtract (h : Inv s skipped) (ht : t ∈ s.checked) :
    wrap (s.object.refcount-1) = (s.live-1+skipped : ℕ) ∧ s.refs+(s.checked.erase t).card = s.live-1 := by
  have hlive := live_pos_of_mem ht
  have hcount := h.count
  have hbound := h.bound
  refine ⟨?_,?_⟩
  · rw [wrap_eq (by omega) (by omega),hcount]
    omega
  · have hcard := Finset.card_erase_add_one ht
    simp only [State.live]
    omega

omit [DecidableEq T] in
theorem Inv.unfreed (h : Inv s skipped) (hlive : 0 < s.live) : s.freed = 0 ∧ s.freeing.card = 0 := by
  have hfreed := h.freed
  rw [if_neg fun h => hlive.ne' h.1] at hfreed
  omega

omit [DecidableEq T] in
theorem Inv.retain (h : Inv s skipped) (hrefs : 0 < s.refs) (hlt : s.object.refcount < intMax) :
    Inv { s.add 1 with refs := s.refs+1 } skipped := by
  have hcount := h.count
  have hwrap : wrap (s.object.refcount+1) = s.object.refcount+1 := wrap_eq (by omega) (by omega)
  obtain ⟨hfreed,hfreeing⟩ := h.unfreed (hrefs.trans_le (Nat.le_add_right _ _))
  refine ⟨?_,?_,h.crowded,?_⟩
  · show wrap (s.object.refcount+1) = (s.refs+1+s.checked.card+skipped : ℕ)
    simp only [State.live] at hcount
    omega
  · show wrap (s.object.refcount+1) ≤ intMax
    omega
  · show s.freed+s.freeing.card = if s.refs+1+s.checked.card = 0 ∧ skipped = 0 then 1 else 0
    rw [hfreed,hfreeing,if_neg (by omega)]

omit [DecidableEq T] in
theorem Inv.immortal (h : Inv s skipped) (hrefs : 0 < s.refs) (hover : 99 < s.object.refcount) :
    Inv s.take (skipped+1) := by
  have hcount := h.count
  have hcrowded := h.crowded
  obtain ⟨hfreed,hfreeing⟩ := h.unfreed (hrefs.trans_le (Nat.le_add_right _ _))
  have hpos : 0 < s.crowded+if 99 < s.live then 1 else 0 := by
    by_cases hcrowd : 99 < s.live
    · rw [if_pos hcrowd]
      exact Nat.succ_pos _
    · have hskipped : s.crowded ≠ 0 := fun h0 => by
        have := hcrowded.mp h0
        omega
      omega
  refine ⟨?_,h.bound,iff_of_false hpos.ne' (Nat.succ_ne_zero skipped),?_⟩
  · show s.object.refcount = (s.refs-1+s.checked.card+(skipped+1) : ℕ)
    simp only [State.live] at hcount
    omega
  · show s.freed+s.freeing.card = if s.refs-1+s.checked.card = 0 ∧ skipped+1 = 0 then 1 else 0
    rw [hfreed,hfreeing,if_neg fun h => Nat.succ_ne_zero skipped h.2]

/-- One that goes on keeps its reference until it has subtracted. -/
theorem Inv.check (h : Inv s skipped) (hidle : t ∉ s.checked) (hrefs : 0 < s.refs)
    (hunder : s.object.refcount ≤ 99) : Inv { s.take with checked := insert t s.checked } skipped := by
  have hcount := h.count
  have hlive : s.refs-1+(insert t s.checked).card = s.live := by
    rw [Finset.card_insert_of_notMem hidle]
    simp only [State.live]
    omega
  have hcrowd : s.crowded+(if 99 < s.live then 1 else 0) = s.crowded := by
    rw [if_neg (by omega),Nat.add_zero]
  refine ⟨?_,h.bound,?_,?_⟩
  · show s.object.refcount = (s.refs-1+(insert t s.checked).card+skipped : ℕ)
    rw [hlive,hcount]
  · show s.crowded+(if 99 < s.live then 1 else 0) = 0 ↔ skipped = 0
    rw [hcrowd]
    exact h.crowded
  · show s.freed+s.freeing.card = if s.refs-1+(insert t s.checked).card = 0 ∧ skipped = 0 then 1 else 0
    rw [hlive]
    exact h.freed

theorem Inv.dropped (h : Inv s skipped) (ht : t ∈ s.checked) {freeing : Finset T}
    (hfreeing : freeing.card = if wrap (s.object.refcount-1) ≤ 0 then 1 else 0) :
    Inv { s.add (-1) with
      checked := s.checked.erase t
      freeing := freeing } skipped := by
  have hbound := h.bound
  have hpos := live_pos_of_mem ht
  obtain ⟨hwrap,hlive⟩ := h.subtract ht
  obtain ⟨hfreed,-⟩ := h.unfreed hpos
  refine ⟨?_,?_,h.crowded,?_⟩
  · show wrap (s.object.refcount-1) = (s.refs+(s.checked.erase t).card+skipped : ℕ)
    rw [hwrap,hlive]
  · show wrap (s.object.refcount-1) ≤ intMax
    have hcount := h.count
    omega
  · show s.freed+freeing.card = if s.refs+(s.checked.erase t).card = 0 ∧ skipped = 0 then 1 else 0
    rw [hfreed,hfreeing,hlive,hwrap,Nat.zero_add]
    exact if_congr (by omega) rfl rfl

theorem Inv.free (h : Inv s skipped) (ht : t ∈ s.freeing) (destroyed : ℕ) :
    Inv { s with
      freeing := s.freeing.erase t
      destroyed := destroyed
      freed := s.freed+1 } skipped := by
  have hcard := Finset.card_erase_add_one ht
  have hfreed := h.freed
  refine ⟨h.count,h.bound,h.crowded,?_⟩
  show s.freed+1+(s.freeing.erase t).card = if s.live = 0 ∧ skipped = 0 then 1 else 0
  omega

theorem Inv.step (h : Inv s skipped) (hstep : Bounded t s s') : ∃ skipped', Inv s' skipped' := by
  obtain ⟨hstep,hretain⟩ := hstep
  cases hstep with
  | retain _ _ hrefs => exact ⟨skipped,h.retain hrefs (hretain (Nat.lt_succ_self _))⟩
  | immortal _ _ hrefs hover => exact ⟨skipped+1,h.immortal hrefs hover⟩
  | check hidle _ hrefs hunder => exact ⟨skipped,h.check hidle hrefs hunder⟩
  | subtract ht hpos =>
    refine ⟨skipped,h.dropped ht ?_⟩
    rw [if_neg hpos.not_ge]
    exact (h.unfreed (live_pos_of_mem ht)).2
  | last ht hlast =>
    have hempty := Finset.card_eq_zero.mp (h.unfreed (live_pos_of_mem ht)).2
    refine ⟨skipped,h.dropped ht ?_⟩
    rw [if_pos hlast,hempty]
    rfl
  | free ht => exact ⟨skipped,h.free ht _⟩

end Steps

section Runs
variable {s : State T} {o : Object}

theorem Inv.reaches (ho : Created o) (h : Reaches Bounded (.start o) s) : ∃ skipped, Inv s skipped :=
  Reaches.invariant (P := fun s => ∃ skipped, Inv s skipped) (fun _ _ _ ⟨_,hs⟩ hstep => hs.step hstep) h
    ⟨0,.start ho⟩

omit [DecidableEq T] in
theorem Inv.freed_le {skipped : ℕ} (h : Inv s skipped) :
    s.freed ≤ 1 ∧ (0 < s.freed ∨ s.freeing.Nonempty → s.live = 0) := by
  have hfreed := h.freed
  by_cases hlive : s.live = 0 ∧ skipped = 0
  · rw [if_pos hlive] at hfreed
    exact ⟨by omega,fun _ => hlive.1⟩
  · rw [if_neg hlive] at hfreed
    refine ⟨by omega,?_⟩
    rintro (hpos | hne)
    · omega
    · have hcard := Finset.card_pos.mpr hne
      omega

omit [DecidableEq T] in
theorem Inv.over {skipped : ℕ} (h : Inv s skipped) (hover : s.Over) : s.freed = 1 ↔ s.crowded = 0 := by
  obtain ⟨hrefs,hchecked,hfreeing⟩ := hover
  have hfreed := h.freed
  have hlive : s.live = 0 := by simp [State.live,hrefs,hchecked]
  rw [hfreeing,Finset.card_empty,Nat.add_zero] at hfreed
  rw [h.crowded,hfreed]
  by_cases hskipped : skipped = 0
  · rw [if_pos ⟨hlive,hskipped⟩]
    exact iff_of_true rfl hskipped
  · rw [if_neg fun h => hskipped h.2]
    exact iff_of_false Nat.zero_ne_one hskipped

theorem Clean.bounded {s' : State T} {t : T} (h : Inv s 0) (hstep : Clean t s s') : Bounded t s s' := by
  refine ⟨hstep.1,fun hlt => ?_⟩
  have hlive := hstep.2.2 hlt
  have hcount := h.count
  omega

omit [DecidableEq T] in
theorem State.take_crowded (h : s.live ≤ 99) : s.take.crowded = s.crowded := by
  show s.crowded+(if 99 < s.live then 1 else 0) = s.crowded
  rw [if_neg (by omega),Nat.add_zero]

theorem Clean.crowded {s' : State T} {t : T} (hstep : Clean t s s') : s'.crowded = s.crowded := by
  obtain ⟨hstep,hrelease,-⟩ := hstep
  cases hstep with
  | immortal _ _ hrefs => exact State.take_crowded (hrelease (Nat.sub_lt hrefs Nat.one_pos))
  | check _ _ hrefs => exact State.take_crowded (hrelease (Nat.sub_lt hrefs Nat.one_pos))
  | _ => rfl

theorem Inv.reaches_clean (ho : Created o) (h : Reaches Clean (.start o) s) : Inv s 0 ∧ s.crowded = 0 := by
  refine Reaches.invariant (P := fun s => Inv s 0 ∧ s.crowded = 0) (fun t s s' hs hstep => ?_) h ⟨.start ho,rfl⟩
  have hcrowded := hstep.crowded.trans hs.2
  obtain ⟨skipped,hinv⟩ := hs.1.step (hstep.bounded hs.1)
  obtain rfl := hinv.crowded.mp hcrowded
  exact ⟨hinv,hcrowded⟩

end Runs

/-- While every release finds at most 99 references the object is freed once and by the last release; and
without that condition, as long as the count stays in its range, exactly those objects are freed at the
end that never met a release with more. -/
theorem release_freed_once {o : Object} (ho : Created o) :
    (∀ s : State T, Reaches Clean (.start o) s → s.FreedOnce) ∧
    ∀ s : State T, Reaches Bounded (.start o) s → s.Over → (s.freed = 1 ↔ s.crowded = 0) := by
  refine ⟨fun s hs => ?_,fun s hs hover => ?_⟩
  · obtain ⟨hinv,hcrowded⟩ := Inv.reaches_clean ho hs
    obtain ⟨hle,hlive⟩ := hinv.freed_le
    exact ⟨hle,hlive,fun hover => (hinv.over hover).mpr hcrowded⟩
  · obtain ⟨skipped,hinv⟩ := Inv.reaches ho hs
    exact hinv.over hover

/-- Two threads release a semaphore that one of them has retained. -/
theorem release_freed_once_semaphore : ∃ s : State Bool, s.Over ∧ s.FreedOnce ∧ (s.freed = 1 ↔ s.crowded = 0) := by
  have ho : Created ⟨.semaphore,1⟩ := ⟨true,Or.inl rfl⟩
  have hrun : ∃ s : State Bool, Reaches (fun t s s' => Clean t s s' ∧ (s.refs < s'.refs → s.object.refcount < intMax))
      (.start ⟨.semaphore,1⟩) s ∧ s.Over := by
    refine ⟨_,((((((Relation.ReflTransGen.refl.tail
      ⟨true,⟨.retain _ (by decide) (by decide) (by decide),by decide,by decide⟩,by decide⟩).tail
      ⟨false,⟨.check _ (by decide) (by decide) (by decide) (by decide),by decide,by decide⟩,by decide⟩).tail
      ⟨true,⟨.check _ (by decide) (by decide) (by decide) (by decide),by decide,by decide⟩,by decide⟩).tail
      ⟨true,⟨.subtract _ (by decide) (by decide),by decide,by decide⟩,by decide⟩).tail
      ⟨false,⟨.last _ (by decide) (by decide),by decide,by decide⟩,by decide⟩).tail
      ⟨false,⟨.free _ (by decide),by decide,by decide⟩,by decide⟩),rfl,?_,?_⟩
    · decide
    · decide
  obtain ⟨s,hs,hover⟩ := hrun
  have hclean : Reaches Clean (.start ⟨.semaphore,1⟩) s := hs.mono fun _ _ _ h => h.1
  have hbounded : Reaches Bounded (.start ⟨.semaphore,1⟩) s := hs.mono fun _ _ _ h => ⟨h.1.1,h.2⟩
  exact ⟨s,hover,(release_freed_once ho).1 s hclean,(release_freed_once ho).2 s hbounded hover⟩

section Hundred

theorem retains (type : ObjType) (n : ℕ) (hn : (n+1 : ℤ) ≤ intMax) :
    Reaches Step (.start ⟨type,1⟩) (⟨⟨type,n+1⟩,n+1,∅,∅,0,0,0⟩ : State Unit) := by
  induction n with
  | zero => exact Relation.ReflTransGen.refl
  | succ n ih =>
    have hstep := Step.retain (t := ()) (⟨⟨type,n+1⟩,n+1,∅,∅,0,0,0⟩ : State Unit) (Finset.notMem_empty _)
      (Finset.notMem_empty _) (Nat.succ_pos n)
    have hwrap : wrap ((n : ℤ)+1+1) = ((n+1 : ℕ) : ℤ)+1 := by
      rw [wrap_eq (by omega) (by omega)]
      omega
    simp only [State.add,hwrap] at hstep
    exact (ih (by omega)).tail hstep

theorem releases (type : ObjType) (k crowded : ℕ) :
    ∃ s : State Unit, Reaches Step ⟨⟨type,100⟩,k,∅,∅,crowded,0,0⟩ s ∧ s.Over ∧ s.freed = 0 := by
  induction k generalizing crowded with
  | zero => exact ⟨_,.refl,⟨rfl,rfl,rfl⟩,rfl⟩
  | succ k ih =>
    obtain ⟨s,hs,hover⟩ := ih _
    exact ⟨s,.head ⟨(),.immortal _ (Finset.notMem_empty _) (Finset.notMem_empty _) (Nat.succ_pos k)
      (show (99 : ℤ) < 100 by decide)⟩ hs,hover⟩

/-- A queue retained 99 times and released a hundred times is not freed. -/
theorem hundred_references_kept : ∃ o, dispatchQueueCreate true = some o ∧
    ∃ s : State Unit, Reaches Step (.start o) s ∧ s.Over ∧ s.freed = 0 := by
  obtain ⟨s,hs,hover⟩ := releases .queue 100 0
  exact ⟨⟨.queue,1⟩,rfl,s,(retains .queue 99 (by decide)).trans hs,hover⟩

end Hundred

end Machismo.Shim.Refcount
