import Machismo.Sword3.Input

/-! # What the queue of input events has seen

A state is `Sound` when its queue is a well-formed circular queue that holds what was
queued and not yet polled, and when for every scancode the events ever queued alternate
and the last one says whether the key is down.  Everything that touches a key count goes
through one move: the count takes a new value and an edge queues one event.
-/
namespace Machismo.Sword3Input
open Machismo.Data

section Alternation

/-- Presses and releases in turn, a press first. -/
def Alternating (l : List Bool) : Prop := l.head? ≠ some false ∧ l.IsChain (· ≠ ·)

/-- What the last flag says; nothing is pressed before the first. -/
def lastPressed (l : List Bool) : Bool := l.getLast?.getD false

/-- The flags of the events for one scancode. -/
def flags (events : List Event) (scancode : ℤ) : List Bool :=
  (events.filter fun e => e.scancode == scancode).map Event.pressed

theorem lastPressed_concat (l : List Bool) (b : Bool) : lastPressed (l++[b]) = b := by
  simp [lastPressed]

theorem alternating_nil : Alternating [] := ⟨by simp,List.isChain_nil⟩

theorem alternating_concat {l : List Bool} (h : Alternating l) : Alternating (l++[!lastPressed l]) := by
  rcases List.eq_nil_or_concat' l with rfl | ⟨l',b,rfl⟩
  · exact ⟨by simp [lastPressed],List.isChain_singleton _⟩
  · rw [lastPressed_concat]
    refine ⟨?_,?_⟩
    · have hne : l'++[b] ≠ [] := by simp
      rw [List.head?_append_of_ne_nil _ hne]
      exact h.1
    · refine h.2.append (List.isChain_singleton _) ?_
      intro x hx y hy
      simp only [List.getLast?_concat,Option.mem_some_iff] at hx
      simp only [List.head?_cons,Option.mem_some_iff] at hy
      subst hx hy
      cases b <;> simp

theorem flags_concat_self (events : List Event) (sc : ℤ) (b : Bool) :
    flags (events++[⟨sc,b⟩]) sc = flags events sc++[b] := by
  simp [flags]

theorem flags_concat_of_ne (events : List Event) {sc sc' : ℤ} (b : Bool) (h : sc ≠ sc') :
    flags (events++[⟨sc,b⟩]) sc' = flags events sc' := by
  simp [flags,h]

end Alternation

structure Sound (w : World) : Prop where
  valid : w.queue.Valid
  capacity : w.queue.capacity ≤ sizeMax/eventSize
  fifo : w.queued = w.polled++w.queue.contents
  alternating : ∀ sc, Alternating (flags w.queued sc)
  last : ∀ sc, lastPressed (flags w.queued sc) = isDown w sc

theorem Sound.withKeys {w : World} (h : Sound w) (k : Keys) (hk : k.keyRefs = w.keyRefs) :
    Sound { w with toKeys := k } := by
  refine ⟨h.valid,h.capacity,h.fifo,h.alternating,?_⟩
  intro sc
  rw [h.last]
  simp only [isDown,hk]

section Reserve
variable (env : Env)

theorem le_growCapacity (required capacity : ℕ) (h : 0 < capacity) : required ≤ growCapacity required capacity := by
  fun_induction growCapacity required capacity with
  | case1 capacity hlt hbig => exact le_rfl
  | case2 capacity hlt hsmall ih => exact ih (by omega)
  | case3 capacity hlt => omega

theorem le_newCapacity (q : Circular Event) (required : ℕ) : required ≤ newCapacity q required := by
  unfold newCapacity
  dsimp only
  rcases Nat.eq_zero_or_pos required with hz | hr
  · omega
  · apply le_growCapacity
    split_ifs <;> omega

/-- A reservation leaves the keys as they are; it fails for want of memory or makes the room. -/
theorem reserveQueue_spec {w : World} (h : Sound w) (n : ℕ) :
    Sound (reserveQueue env n w).2 ∧ (reserveQueue env n w).2.toKeys = w.toKeys ∧
      (reserveQueue env n w).2.queued = w.queued ∧
      ((reserveQueue env n w).1 = .error .enomem ∨ (reserveQueue env n w).1 = .ok 0 ∧
        (reserveQueue env n w).2.queue.count+n ≤ (reserveQueue env n w).2.queue.capacity) := by
  unfold reserveQueue
  split
  · exact ⟨h,rfl,rfl,Or.inl rfl⟩
  split
  · rename_i hroom
    exact ⟨h,rfl,rfl,Or.inr ⟨rfl,hroom⟩⟩
  split
  · exact ⟨h,rfl,rfl,Or.inl rfl⟩
  rename_i hsize
  have hnew := le_newCapacity w.queue (w.queue.count+n)
  have hcount : w.queue.count ≤ newCapacity w.queue (w.queue.count+n) := by omega
  split
  · refine ⟨⟨Circular.moveTo_valid _ hcount,not_lt.mp hsize,?_,h.alternating,h.last⟩,rfl,rfl,
      Or.inr ⟨rfl,hnew⟩⟩
    rw [h.fifo]
    exact congrArg (w.polled++·) (Circular.moveTo_contents _ hcount).symm
  · exact ⟨⟨h.valid,h.capacity,h.fifo,h.alternating,h.last⟩,rfl,rfl,Or.inl rfl⟩

theorem poll_spec {w : World} (h : Sound w) :
    Sound (poll w).2 ∧ (poll w).2.toKeys = w.toKeys ∧ (poll w).2.queued = w.queued ∧
      (poll w).2.queue.capacity = w.queue.capacity ∧ (poll w).2.queue.count ≤ w.queue.count := by
  unfold poll
  split
  · exact ⟨h,rfl,rfl,rfl,le_rfl⟩
  · rename_i hcount
    refine ⟨⟨Circular.pop_valid h.valid,h.capacity,?_,h.alternating,h.last⟩,rfl,rfl,rfl,Nat.sub_le _ _⟩
    rw [h.fifo,Circular.contents_eq_cons _ hcount]
    simp

theorem polls_spec (n : ℕ) {w : World} (h : Sound w) :
    Sound ((fun w => (poll w).2)^[n] w) ∧ ((fun w => (poll w).2)^[n] w).toKeys = w.toKeys ∧
      ((fun w => (poll w).2)^[n] w).queued = w.queued ∧
      ((fun w => (poll w).2)^[n] w).queue.capacity = w.queue.capacity ∧
      ((fun w => (poll w).2)^[n] w).queue.count ≤ w.queue.count := by
  induction n generalizing w with
  | zero => exact ⟨h,rfl,rfl,rfl,le_rfl⟩
  | succ n ih =>
    obtain ⟨hs,hk,hq,hcap,hcount⟩ := poll_spec h
    obtain ⟨is,ik,iq,icap,icount⟩ := ih hs
    rw [Function.iterate_succ_apply]
    exact ⟨is,ik.trans hk,iq.trans hq,icap.trans hcap,icount.trans hcount⟩

end Reserve

section Move
variable (env : Env)

def isEdge (old new : ℕ) : Bool := (old == 0) != (new == 0)

def moveKey (scancode : ℤ) (n : ℕ) (w : World) : World :=
  enqueueIf env (isEdge (w.keyRefs scancode) n) scancode (n != 0) (setKeyRefs scancode n w)

theorem isDown_setKeyRefs_self (sc : ℤ) (n : ℕ) (w : World) (hv : validScancode sc = true) :
    isDown (setKeyRefs sc n w) sc = (n != 0) := by
  simp [isDown,setKeyRefs,hv]

theorem isDown_setKeyRefs_of_ne {sc sc' : ℤ} (n : ℕ) (w : World) (h : sc' ≠ sc) :
    isDown (setKeyRefs sc n w) sc' = isDown w sc' := by
  simp [isDown,setKeyRefs,h]

theorem sound_push {w : World} (h : Sound w) {sc : ℤ} (hv : validScancode sc = true) (n : ℕ)
    (he : isEdge (w.keyRefs sc) n = true) (hroom : w.queue.count < w.queue.capacity) :
    Sound { setKeyRefs sc n w with
      queue := w.queue.push ⟨sc,n != 0⟩
      queued := w.queued++[⟨sc,n != 0⟩] } := by
  have hflag : (n != 0) = !lastPressed (flags w.queued sc) := by
    rw [h.last]
    simp only [isDown,hv,Bool.true_and]
    revert he
    simp only [isEdge,bne]
    cases w.keyRefs sc == 0 <;> cases n == 0 <;> simp
  refine ⟨Circular.push_valid h.valid _ hroom,h.capacity,?_,?_,?_⟩
  · rw [Circular.push_contents _ _ hroom,← List.append_assoc]
    exact congrArg (·++_) h.fifo
  · intro sc'
    rcases eq_or_ne sc sc' with rfl | hne
    · rw [flags_concat_self,hflag]
      exact alternating_concat (h.alternating sc)
    · rw [flags_concat_of_ne _ _ hne]
      exact h.alternating sc'
  · intro sc'
    rcases eq_or_ne sc sc' with rfl | hne
    · rw [flags_concat_self,lastPressed_concat]
      exact (isDown_setKeyRefs_self sc n w hv).symm
    · rw [flags_concat_of_ne _ _ hne,h.last]
      exact (isDown_setKeyRefs_of_ne n w hne.symm).symm

theorem sound_setKeyRefs {w : World} (h : Sound w) {sc : ℤ} (hv : validScancode sc = true) (n : ℕ)
    (he : isEdge (w.keyRefs sc) n = false) : Sound (setKeyRefs sc n w) := by
  refine ⟨h.valid,h.capacity,h.fifo,h.alternating,?_⟩
  intro sc'
  rcases eq_or_ne sc' sc with rfl | hne
  · rw [isDown_setKeyRefs_self _ n w hv]
    refine (h.last _).trans ?_
    simp only [isDown,hv,Bool.true_and]
    revert he
    simp only [isEdge,bne]
    cases w.keyRefs sc' == 0 <;> cases n == 0 <;> simp
  · rw [isDown_setKeyRefs_of_ne n w hne]
    exact h.last sc'

theorem moveKey_spec {w : World} (h : Sound w) {sc : ℤ} (hv : validScancode sc = true) (n : ℕ)
    (hroom : w.queue.count+(isEdge (w.keyRefs sc) n).toNat ≤ w.queue.capacity) :
    Sound (moveKey env sc n w) ∧ (moveKey env sc n w).toKeys = (setKeyRefs sc n w).toKeys ∧
      (moveKey env sc n w).queue.capacity = w.queue.capacity ∧
      (moveKey env sc n w).queue.count ≤ w.queue.count+(isEdge (w.keyRefs sc) n).toNat := by
  unfold moveKey enqueueIf
  cases he : isEdge (w.keyRefs sc) n with
  | false =>
    exact ⟨sound_setKeyRefs h hv n he,rfl,rfl,le_rfl⟩
  | true =>
    rw [he] at hroom
    obtain ⟨hs,hk,-,hcap,hcount⟩ := polls_spec (env.polls w.queued.length) (sound_push h hv n he hroom)
    exact ⟨hs,hk,hcap,hcount⟩

end Move

section Loops
variable (env : Env)

/-- A loop over scancodes that moves each count from `old` to `new`, changing the controllers as
it goes.  The room it needs is one place for each edge. -/
theorem fold_moveKey {f : World → ℤ → World} {g : List Controller → ℤ → List Controller}
    {Q : List Controller → ℤ → Prop} {old new : ℤ → ℕ}
    (hf : ∀ w sc, w.keyRefs sc = old sc → Q w.controllers sc →
      f w sc = moveKey env sc (new sc) { w with controllers := g w.controllers sc })
    (hg : ∀ cs sc sc', sc ≠ sc' → Q cs sc' → Q (g cs sc) sc')
    (L : List ℤ) (hnodup : L.Nodup) (hvalid : ∀ sc ∈ L, validScancode sc = true)
    {w : World} (hw : Sound w) (hold : ∀ sc ∈ L, w.keyRefs sc = old sc) (hQ : ∀ sc ∈ L, Q w.controllers sc)
    (hroom : w.queue.count+L.countP (fun sc => isEdge (old sc) (new sc)) ≤ w.queue.capacity) :
    Sound (L.foldl f w) ∧ (L.foldl f w).toKeys = { w.toKeys with
      controllers := L.foldl g w.controllers
      keyRefs := fun sc => if sc ∈ L then new sc else w.keyRefs sc } := by
  induction L generalizing w with
  | nil => exact ⟨hw,by simp⟩
  | cons sc L ih =>
    obtain ⟨hnew,hnodup⟩ := List.nodup_cons.mp hnodup
    have hsc := hold sc (by simp)
    have hstep := hf w sc hsc (hQ sc (by simp))
    have hsound : Sound { w with controllers := g w.controllers sc } := hw.withKeys { w.toKeys with
      controllers := g w.controllers sc } rfl
    have hedge : (isEdge (old sc) (new sc)).toNat+L.countP (fun sc => isEdge (old sc) (new sc)) =
        (sc :: L).countP (fun sc => isEdge (old sc) (new sc)) := by
      rw [List.countP_cons]
      cases isEdge (old sc) (new sc) <;> simp [Nat.add_comm]
    obtain ⟨hs,hk,hcap,hcount⟩ := moveKey_spec env hsound (hvalid sc (by simp)) (new sc)
      (by simp only [hsc]; omega)
    simp only [hsc] at hcount hcap
    rw [← hstep] at hs hk hcap hcount
    have hkeys : (f w sc).keyRefs = Function.update w.keyRefs sc (new sc) := congrArg Keys.keyRefs hk
    have hctrl : (f w sc).controllers = g w.controllers sc := congrArg Keys.controllers hk
    have hother : ∀ sc' ∈ L, sc' ≠ sc := fun sc' hmem e => hnew (e ▸ hmem)
    obtain ⟨is,ik⟩ := ih hnodup (fun sc' hmem => hvalid sc' (by simp [hmem])) hs
      (fun sc' hmem => by rw [hkeys,Function.update_of_ne (hother sc' hmem)]; exact hold sc' (by simp [hmem]))
      (fun sc' hmem => by rw [hctrl]; exact hg _ _ _ (hother sc' hmem).symm (hQ sc' (by simp [hmem])))
      (by omega)
    refine ⟨is,?_⟩
    rw [List.foldl_cons,List.foldl_cons,ik,hk]
    simp only [setKeyRefs,Keys.mk.injEq,and_true,true_and]
    funext sc'
    rcases eq_or_ne sc' sc with rfl | hne
    · simp [hnew]
    · simp [hne]

end Loops

theorem validScancode_iff {sc : ℤ} : validScancode sc = true ↔ 0 < sc ∧ sc < 512 := by
  rw [validScancode,Bool.and_eq_true,decide_eq_true_iff,decide_eq_true_iff,scancodeUnknown,numScancodes]

theorem mem_scancodes {sc : ℤ} : sc ∈ scancodes ↔ validScancode sc = true := by
  unfold scancodes
  rw [validScancode_iff,List.mem_map]
  constructor
  · rintro ⟨i,hi,rfl⟩
    have hlt := List.mem_range.mp hi
    omega
  · rintro ⟨h0,h1⟩
    exact ⟨(sc-1).toNat,List.mem_range.mpr (by omega),by omega⟩

theorem scancodes_nodup : scancodes.Nodup := by
  unfold scancodes
  exact List.Nodup.map (fun a b h => by simpa using h) List.nodup_range

end Machismo.Sword3Input
