import Machismo.Sword3.InputRuns

/-! # Calls that fail leave the state as it was

Every call reserves what it needs before it changes anything, so that a call that fails
has changed nothing; only the stick of an axis, swung from one side to the other, makes
two changes that can fail one after the other.  When the second one fails the first one
stays.
-/
namespace Machismo.Sword3Input
open Machismo.Data

/-- Keys, controllers, mappings and queued events are the same. -/
structure Unchanged (w w' : World) : Prop where
  keys : w'.toKeys = w.toKeys
  queue : w'.queue = w.queue
  queued : w'.queued = w.queued

/-- A call that returns `-1` changed nothing. -/
def Atomic (r : Result) (w : World) : Prop := ∀ e, r.1 = .error e → Unchanged w r.2

theorem Unchanged.refl (w : World) : Unchanged w w := ⟨rfl,rfl,rfl⟩

theorem atomic_self (r : Except Errno ℕ) (w : World) : Atomic (r,w) w := fun _ _ => Unchanged.refl w

theorem atomic_of_ok {r : Result} {n : ℕ} (h : r.1 = .ok n) (w : World) : Atomic r w :=
  fun e he => absurd (h.symm.trans he) (by simp)

theorem atomic_andThen {r : Result} {w : World} {f : World → Result} (h : Atomic r w)
    (hf : ∀ w', ∃ n, (f w').1 = .ok n) : Atomic (r.andThen f) w := by
  cases hr : r.1 with
  | error e =>
    rw [andThen_error _ hr]
    exact fun e' _ => h e hr
  | ok n =>
    rw [andThen_ok _ hr]
    obtain ⟨m,hm⟩ := hf r.2
    exact atomic_of_ok hm w

section Steps
variable (env : Env)

theorem reserveQueue_atomic (n : ℕ) (w : World) : Atomic (reserveQueue env n w) w := by
  intro e he
  unfold reserveQueue at he ⊢
  split_ifs at he ⊢
  all_goals exact ⟨rfl,rfl,rfl⟩

theorem reserveIf_atomic (edge : Bool) (w : World) : Atomic (reserveIf env edge w) w := by
  cases edge with
  | false => exact atomic_self _ w
  | true => exact reserveQueue_atomic env 1 w

theorem changeGlobalKey_atomic (sc : ℤ) (pressed : Bool) (w : World) :
    Atomic (changeGlobalKey env sc pressed w) w := by
  unfold changeGlobalKey
  split_ifs
  · exact atomic_self _ w
  · exact atomic_self _ w
  · exact atomic_andThen (reserveIf_atomic env _ w) fun _ => ⟨0,rfl⟩
  · exact atomic_self _ w
  · exact atomic_andThen (reserveIf_atomic env _ w) fun _ => ⟨0,rfl⟩

theorem changeControllerKey_atomic (state : Controller) (sc : ℤ) (pressed : Bool) (w : World) :
    Atomic (changeControllerKey env state sc pressed w) w := by
  unfold changeControllerKey
  split_ifs
  · exact atomic_self _ w
  · exact atomic_self _ w
  · exact atomic_andThen (reserveIf_atomic env _ w) fun _ => ⟨0,rfl⟩
  · exact atomic_self _ w
  · exact atomic_self _ w
  · exact atomic_andThen (reserveIf_atomic env _ w) fun _ => ⟨0,rfl⟩

theorem addController_atomic (device : Opened) (w : World) : Atomic (addController env device w) w := by
  cases device with
  | notController => exact atomic_self _ w
  | openFailed => exact atomic_self _ w
  | noJoystick => exact atomic_self _ w
  | joystick instanceId =>
    unfold addController
    dsimp only
    split_ifs
    · exact atomic_self _ w
    · exact atomic_self _ w
    · exact atomic_of_ok rfl w
    · exact fun _ _ => ⟨rfl,rfl,rfl⟩

theorem releaseController_atomic (state : Controller) (w : World) : Atomic (releaseController env state w) w := by
  unfold releaseController
  split
  · exact atomic_self _ w
  · exact atomic_andThen (reserveQueue_atomic env _ w) fun _ => ⟨0,rfl⟩

theorem removeController_atomic (which : ℤ) (w : World) : Atomic (removeController env which w) w := by
  unfold removeController
  split
  · exact atomic_self _ w
  · exact atomic_andThen (releaseController_atomic env _ w) fun _ => ⟨0,rfl⟩

theorem handleKeyboard_atomic (sc : ℤ) (pressed repeated : Bool) (w : World) :
    Atomic (handleKeyboard env sc pressed repeated w) w := by
  unfold handleKeyboard
  split_ifs
  · exact atomic_self _ w
  · exact atomic_self _ w
  · exact atomic_andThen (changeGlobalKey_atomic env sc pressed w) fun _ => ⟨0,rfl⟩

theorem handleButton_atomic (which button : ℤ) (pressed : Bool) (w : World) :
    Atomic (handleButton env which button pressed w) w := by
  unfold handleButton
  split
  · exact atomic_self _ w
  · split_ifs
    · exact atomic_self _ w
    · exact atomic_andThen (changeControllerKey_atomic env _ _ pressed w) fun _ => ⟨0,rfl⟩
    · exact atomic_self _ w

theorem releaseAll_atomic (w : World) : Atomic (releaseAll env w) w :=
  atomic_andThen (reserveQueue_atomic env _ w) fun _ => ⟨0,rfl⟩

theorem releaseControllerInputs_atomic (w : World) : Atomic (releaseControllerInputs env w) w := by
  unfold releaseControllerInputs
  split
  · exact atomic_self _ w
  · exact atomic_andThen (reserveQueue_atomic env _ w) fun _ => ⟨0,rfl⟩

theorem mapButton_atomic (button sc : ℤ) (w : World) : Atomic (mapButton env button sc w) w := by
  unfold mapButton
  split
  · exact atomic_self _ w
  · exact atomic_andThen (releaseControllerInputs_atomic env w) fun _ => ⟨0,rfl⟩

theorem mapAxis_atomic (axis negative positive : ℤ) (w : World) : Atomic (mapAxis env axis negative positive w) w := by
  unfold mapAxis
  split
  · exact atomic_self _ w
  · exact atomic_andThen (releaseControllerInputs_atomic env w) fun _ => ⟨0,rfl⟩

end Steps

section Room
variable (env : Env)

/-- The ring has a free cell, or `reserve_queue` gets it one. -/
def HasRoom (w : World) : Prop :=
  w.queue.count < w.queue.capacity ∨
    newCapacity w.queue (w.queue.count+1) ≤ sizeMax/eventSize ∧ env.malloc w.mallocs = true

/-- The sizes of the ring once it took an event and the callback polled. -/
def afterEvent (w : World) : World :=
  { w with
    queue := { w.queue with
      capacity := if w.queue.count < w.queue.capacity then w.queue.capacity else newCapacity w.queue (w.queue.count+1)
      count := w.queue.count+1-env.polls w.queued.length }
    mallocs := if w.queue.count < w.queue.capacity then w.mallocs else w.mallocs+1 }

theorem hasRoom_congr {w w' : World} (hcount : w'.queue.count = w.queue.count)
    (hcap : w'.queue.capacity = w.queue.capacity) (hmallocs : w'.mallocs = w.mallocs) :
    HasRoom env w' ↔ HasRoom env w := by
  simp only [HasRoom,newCapacity,hcount,hcap,hmallocs]

theorem reserveQueue_ok_iff {w : World} (h : Sound w) :
    ((reserveQueue env 1 w).1 = .ok 0 ↔ HasRoom env w) ∧
      ((reserveQueue env 1 w).1 = .ok 0 ∨ (reserveQueue env 1 w).1 = .error .enomem) := by
  have hfits := h.valid.fits
  have hcap := h.capacity
  have hsmall : ¬sizeMax-w.queue.count < 1 := by
    unfold sizeMax eventSize at *
    omega
  unfold reserveQueue HasRoom
  rw [if_neg hsmall]
  by_cases hroom : w.queue.count < w.queue.capacity
  · rw [if_pos (Nat.succ_le_of_lt hroom)]
    exact ⟨⟨fun _ => Or.inl hroom,fun _ => rfl⟩,Or.inl rfl⟩
  rw [if_neg fun hle => hroom (Nat.lt_of_succ_le hle)]
  by_cases hbig : sizeMax/eventSize < newCapacity w.queue (w.queue.count+1)
  · rw [if_pos hbig]
    simp [hroom,hbig]
  rw [if_neg hbig]
  cases hm : env.malloc w.mallocs with
  | false => simp [hroom]
  | true => simp [not_lt.mp hbig]

theorem reserveQueue_sizes {w : World} (hok : (reserveQueue env 1 w).1 = .ok 0) :
    (reserveQueue env 1 w).2.queue.count = w.queue.count ∧
    (reserveQueue env 1 w).2.queue.capacity = (afterEvent env w).queue.capacity ∧
    (reserveQueue env 1 w).2.mallocs = (afterEvent env w).mallocs ∧
    (reserveQueue env 1 w).2.queued = w.queued := by
  unfold reserveQueue afterEvent at *
  simp only [Nat.add_one_le_iff] at hok ⊢
  split_ifs at hok ⊢
  · exact ⟨rfl,rfl,rfl,rfl⟩
  · exact ⟨rfl,rfl,rfl,rfl⟩

theorem polls_sizes (n : ℕ) (w : World) :
    ((fun w => (poll w).2)^[n] w).queue.count = w.queue.count-n ∧
    ((fun w => (poll w).2)^[n] w).queue.capacity = w.queue.capacity ∧
    ((fun w => (poll w).2)^[n] w).mallocs = w.mallocs ∧ ((fun w => (poll w).2)^[n] w).toKeys = w.toKeys := by
  induction n generalizing w with
  | zero => exact ⟨rfl,rfl,rfl,rfl⟩
  | succ n ih =>
    have hpoll : (poll w).2.queue.count = w.queue.count-1 ∧ (poll w).2.queue.capacity = w.queue.capacity ∧
        (poll w).2.mallocs = w.mallocs ∧ (poll w).2.toKeys = w.toKeys := by
      unfold poll
      split
      · rename_i h0
        exact ⟨by rw [h0],rfl,rfl,rfl⟩
      · exact ⟨rfl,rfl,rfl,rfl⟩
    obtain ⟨hcount,hcap,hmallocs,hkeys⟩ := ih (poll w).2
    rw [Function.iterate_succ_apply]
    refine ⟨?_,hcap.trans hpoll.2.1,hmallocs.trans hpoll.2.2.1,hkeys.trans hpoll.2.2.2⟩
    rw [hcount,hpoll.1]
    omega

theorem enqueueReserved_sizes (sc : ℤ) (pressed : Bool) (w : World) :
    (enqueueReserved env sc pressed w).queue.count = w.queue.count+1-env.polls w.queued.length ∧
    (enqueueReserved env sc pressed w).queue.capacity = w.queue.capacity ∧
    (enqueueReserved env sc pressed w).mallocs = w.mallocs ∧ (enqueueReserved env sc pressed w).toKeys = w.toKeys :=
  polls_sizes _ _

end Room

section Axis
variable (env : Env)

/-- The key of a side can be released: its last hold has room for the event. -/
def Releasable (w : World) (sc : ℤ) : Prop := validScancode sc = true → w.keyRefs sc = 1 → HasRoom env w

/-- The sizes of the ring once the key was released. -/
def afterRelease (w : World) (sc : ℤ) : World :=
  if validScancode sc = true ∧ w.keyRefs sc = 1 then afterEvent env w else w

def refsAfter (w : World) (released sc : ℤ) : ℕ :=
  if validScancode released = true ∧ sc = released then w.keyRefs sc-1 else w.keyRefs sc

/-- After the one key is released the other cannot be pressed: its count is full, or it is not down
and there is no room for the event. -/
def Blocked (w : World) (released sc : ℤ) : Prop :=
  validScancode sc = true ∧ (refsAfter w released sc = shortMax ∨
    refsAfter w released sc = 0 ∧ ¬HasRoom env (afterRelease env w released))

theorem release_sizes {w : World} (hS : Sound w) (c : Controller) {sc : ℤ} (hle : c.keyRefs sc ≤ w.keyRefs sc)
    (hrel : validScancode sc = true → c.keyRefs sc ≠ 0) :
    ((changeControllerKey env c sc false w).1 = .ok 0 ↔ Releasable env w sc) ∧
    ((changeControllerKey env c sc false w).1 = .ok 0 →
      (HasRoom env (changeControllerKey env c sc false w).2 ↔ HasRoom env (afterRelease env w sc)) ∧
      (changeControllerKey env c sc false w).2.keyRefs = fun sc' => refsAfter w sc sc') := by
  have hrefs : validScancode sc = true →
      Function.update w.keyRefs sc (w.keyRefs sc-1) = fun sc' => refsAfter w sc sc' := by
    intro hv
    funext sc'
    rcases eq_or_ne sc' sc with rfl | hne
    · simp [refsAfter,hv]
    · simp [refsAfter,hne]
  unfold changeControllerKey Releasable afterRelease
  cases hv : validScancode sc with
  | false => simp [refsAfter,hv]
  | true =>
    rw [← hrefs hv]
    have h0 := hrel hv
    have hw0 : w.keyRefs sc ≠ 0 := by omega
    simp only [Bool.not_true,Bool.false_eq_true,if_false,if_neg h0,if_neg hle.not_gt,true_and,forall_const]
    by_cases h1 : w.keyRefs sc = 1
    · obtain ⟨hiff,hres⟩ := reserveQueue_ok_iff env hS
      simp only [h1,beq_self_eq_true,if_true,forall_const,reserveIf]
      rcases hres with hok | herr
      · obtain ⟨hcount,hcap,hmallocs,hqueued⟩ := reserveQueue_sizes env hok
        have hkeys := (reserveQueue_spec env hS 1).2.1
        rw [andThen_ok _ hok]
        refine ⟨by simp [← hiff,hok],fun _ => ?_⟩
        generalize (reserveQueue env 1 w).2 = w₁ at *
        have hold : w₁.keyRefs = w.keyRefs := congrArg Keys.keyRefs hkeys
        have hedge : ((setKeyRefs sc (w₁.keyRefs sc-1) (updateController c.instanceId
            (Controller.setKeyRefs sc (c.keyRefs sc-1)) w₁)).keyRefs sc == 0) = true := by
          simp [setKeyRefs,hold,h1]
        obtain ⟨ecount,ecap,emallocs,ekeys⟩ := enqueueReserved_sizes env sc false
          (setKeyRefs sc (w₁.keyRefs sc-1) (updateController c.instanceId
            (Controller.setKeyRefs sc (c.keyRefs sc-1)) w₁))
        have hput : enqueueIf env true sc false = enqueueReserved env sc false := rfl
        dsimp only [updateController] at hedge ecount ecap emallocs ekeys ⊢
        simp only [hedge,hput]
        refine ⟨hasRoom_congr env ?_ (ecap.trans hcap) (emallocs.trans hmallocs),?_⟩
        · rw [ecount]
          simp only [setKeyRefs,hcount,hqueued,afterEvent]
        · rw [ekeys]
          simp only [setKeyRefs,hold,h1]
      · rw [andThen_error _ herr]
        exact ⟨by simp [← hiff,herr],fun he => absurd he (by simp)⟩
    · have hone : (w.keyRefs sc == 1) = false := by simpa using h1
      have hedge : (w.keyRefs sc-1 == 0) = false := by
        rw [beq_eq_false_iff_ne]
        omega
      have hself : ∀ f : World → Result, Result.andThen (.ok 0,w) f = f w := fun _ => rfl
      simp only [hone,reserveIf,h1,Bool.false_eq_true,if_false,IsEmpty.forall_iff,hself,
        setKeyRefs,Function.update_self,hedge,enqueueIf,updateController]
      exact ⟨trivial,fun _ => ⟨hasRoom_congr env rfl rfl rfl,trivial⟩⟩

/-- A press fails when the count is full, or is zero and there is no room for the event. -/
theorem press_error_iff {w : World} (hS : Sound w) (c : Controller) {sc : ℤ} (hle : c.keyRefs sc ≤ w.keyRefs sc)
    (hshort : w.keyRefs sc ≤ shortMax) :
    (∃ e, (changeControllerKey env c sc true w).1 = .error e) ↔
      validScancode sc = true ∧ (w.keyRefs sc = shortMax ∨ w.keyRefs sc = 0 ∧ ¬HasRoom env w) := by
  unfold changeControllerKey
  cases hv : validScancode sc with
  | false => simp
  | true =>
    simp only [Bool.not_true,Bool.false_eq_true,if_false,if_true,true_and]
    by_cases hfull : w.keyRefs sc = shortMax
    · simp [hfull]
    have hshare : c.keyRefs sc ≠ shortMax := by omega
    simp only [hfull,hshare,or_self,if_false,false_or]
    by_cases h0 : w.keyRefs sc = 0
    · obtain ⟨hiff,hres⟩ := reserveQueue_ok_iff env hS
      simp only [h0,beq_self_eq_true,reserveIf,if_true,true_and]
      rcases hres with hok | herr
      · rw [andThen_ok _ hok]
        simp [← hiff,hok]
      · rw [andThen_error _ herr]
        simp [← hiff,herr]
    · have hzero : (w.keyRefs sc == 0) = false := by simpa using h0
      simp [hzero,reserveIf,h0,andThen_ok]

/-- The stick of a known controller swings over, the key of the side it leaves can be released, and
the key of the side it goes to can then not be pressed. -/
structure Stuck (w : World) (which axis value : ℤ) (c : Controller) : Prop where
  found : findController w which = some c
  range : 0 ≤ axis ∧ axis < axisMax
  old : c.axisDirection axis ≠ 0
  new : newDirection (c.axisDirection axis) value ≠ 0
  swings : newDirection (c.axisDirection axis) value ≠ c.axisDirection axis
  releases : Releasable env w (axisKey w axis (c.axisDirection axis))
  blocked : Blocked env w (axisKey w axis (c.axisDirection axis))
    (axisKey w axis (newDirection (c.axisDirection axis) value))

theorem directionKey_of_ne_zero (w : World) (axis : ℤ) {direction : ℤ} (h : direction ≠ 0) :
    directionKey w.toKeys axis direction = axisKey w axis direction := by
  simp [directionKey,axisKey,h]

theorem directionKey_congr {k k' : Keys} (hneg : k'.axisNegative = k.axisNegative)
    (hpos : k'.axisPositive = k.axisPositive) (axis direction : ℤ) :
    directionKey k' axis direction = directionKey k axis direction := by
  simp only [directionKey,hneg,hpos]

theorem updateController_setAxis_self {w : World} {which axis : ℤ} {c : Controller}
    (hfind : findController w which = some c) (h0 : c.axisDirection axis = 0) :
    updateController which (Controller.setAxis axis 0) w = w := by
  obtain ⟨hid,before,after,hcs,hb⟩ := findController_split hfind
  have hself : Controller.setAxis axis 0 c = c := by
    simp only [Controller.setAxis,← h0,Function.update_eq_self]
  have hsame : modifyController which (Controller.setAxis axis 0) w.controllers = w.controllers := by
    rw [hcs,modifyController_append _ hb hid,hself]
  simp only [updateController,hsame]

theorem held_of_deflected {w : World} (hC : Counted w.toKeys) {c : Controller} (hmem : c ∈ w.controllers) {axis : ℤ}
    (ha : 0 ≤ axis ∧ axis < axisMax) (hv : validScancode (directionKey w.toKeys axis (c.axisDirection axis)) = true) :
    c.keyRefs (directionKey w.toKeys axis (c.axisDirection axis)) ≠ 0 := by
  rw [hC.held c hmem _ hv]
  have hle : axisHeld w.toKeys axis (c.axisDirection axis) (directionKey w.toKeys axis (c.axisDirection axis)) ≤
      ∑ a ∈ Finset.Ico 0 axisMax,axisHeld w.toKeys a (c.axisDirection a)
        (directionKey w.toKeys axis (c.axisDirection axis)) :=
    Finset.single_le_sum (f := fun a => axisHeld w.toKeys a (c.axisDirection a)
      (directionKey w.toKeys axis (c.axisDirection axis))) (fun _ _ => Nat.zero_le _) (Finset.mem_Ico.mpr ha)
  rw [axisHeld_eq _ _ _ hv,if_pos rfl] at hle
  unfold held
  omega

theorem changeControllerKey_maps {w : World} (hS : Sound w) (c : Controller) {sc : ℤ}
    (hle : c.keyRefs sc ≤ w.keyRefs sc) (hrel : validScancode sc = true → c.keyRefs sc ≠ 0) :
    (changeControllerKey env c sc false w).2.axisNegative = w.axisNegative ∧
      (changeControllerKey env c sc false w).2.axisPositive = w.axisPositive := by
  cases hv : validScancode sc with
  | false => simp [changeControllerKey,hv]
  | true =>
    obtain ⟨-,⟨e,-,-,hk⟩ | ⟨-,-,hk⟩⟩ := changeControllerKey_spec env hS hv c false hle fun _ => hrel hv
    · rw [hk]
      exact ⟨rfl,rfl⟩
    · rw [hk]
      exact ⟨rfl,rfl⟩

theorem andThen_zero {r : Result} {f : World → Result} (hf : ∀ w, (f w).1 = .ok 0) {n : ℕ}
    (h : (r.andThen f).1 = .ok n) : n = 0 := by
  cases hr : r.1 with
  | error e => simp [andThen_error _ hr] at h
  | ok m =>
    rw [andThen_ok _ hr,hf] at h
    exact (Except.ok.inj h).symm

theorem changeControllerKey_zero {state : Controller} {sc : ℤ} {pressed : Bool} {w : World} {n : ℕ}
    (h : (changeControllerKey env state sc pressed w).1 = .ok n) : n = 0 := by
  unfold changeControllerKey at h
  split_ifs at h
  · exact (Except.ok.inj h).symm
  · exact andThen_zero (fun _ => rfl) h
  · exact (Except.ok.inj h).symm
  · exact andThen_zero (fun _ => rfl) h

/-- The second half of a swing fails exactly when the key of the new side is blocked. -/
theorem press_after_release {w : World} (hC : Counted w.toKeys) (hS : Sound w) {which axis : ℤ} {c : Controller}
    (hfind : findController w which = some c) (ha : 0 ≤ axis ∧ axis < axisMax) {w₂ : World}
    (hw₂ : w₂ = updateController which (Controller.setAxis axis 0)
      (changeControllerKey env c (directionKey w.toKeys axis (c.axisDirection axis)) false w).2)
    (hok : (changeControllerKey env c (directionKey w.toKeys axis (c.axisDirection axis)) false w).1 = .ok 0)
    (hC₂ : Counted w₂.toKeys) (hS₂ : Sound w₂) {c₂ : Controller} (hfind₂ : findController w₂ which = some c₂)
    (direction : ℤ) :
    (∃ e, (changeAxisKey env which axis direction true w₂).1 = .error e) ↔
      Blocked env w (directionKey w.toKeys axis (c.axisDirection axis)) (directionKey w.toKeys axis direction) := by
  have hmem := List.mem_of_find?_eq_some hfind
  have hmem₂ := List.mem_of_find?_eq_some hfind₂
  have hle := hC.le_total hmem (directionKey w.toKeys axis (c.axisDirection axis))
  have hrel := held_of_deflected hC hmem ha
  obtain ⟨-,hafter⟩ := release_sizes env hS c hle hrel
  obtain ⟨hroom,hrefs⟩ := hafter hok
  obtain ⟨hneg,hpos⟩ := changeControllerKey_maps env hS c hle hrel
  have hkey : directionKey w₂.toKeys axis direction = directionKey w.toKeys axis direction := by
    rw [hw₂]
    exact directionKey_congr hneg hpos axis direction
  have hroom₂ : HasRoom env w₂ ↔
      HasRoom env (afterRelease env w (directionKey w.toKeys axis (c.axisDirection axis))) := by
    rw [hw₂]
    exact (hasRoom_congr env rfl rfl rfl).trans hroom
  have hrefs₂ : w₂.keyRefs = fun sc => refsAfter w (directionKey w.toKeys axis (c.axisDirection axis)) sc := by
    rw [hw₂]
    exact hrefs
  have hpress := press_error_iff env hS₂ c₂ (hC₂.le_total hmem₂ (directionKey w.toKeys axis direction)) (hC₂.short _)
  rw [hroom₂,hrefs₂] at hpress
  rw [changeAxisKey_eq env hfind₂,hkey]
  exact hpress

theorem release_centred {w : World} {which axis : ℤ} {c : Controller} (hfind : findController w which = some c)
    (hold : c.axisDirection axis = 0) :
    updateController which (Controller.setAxis axis 0)
      (changeControllerKey env c (directionKey w.toKeys axis (c.axisDirection axis)) false w).2 = w := by
  have hkey : changeControllerKey env c (directionKey w.toKeys axis 0) false w = (.ok 0,w) := by
    simp [changeControllerKey,directionKey,validScancode]
  rw [hold,hkey]
  exact updateController_setAxis_self hfind hold

theorem not_atomic_of_centred {w w₂ : World} {which axis : ℤ} {c c₂ : Controller} {r : Result} {e : Errno}
    (hfind : findController w which = some c) (hold : c.axisDirection axis ≠ 0)
    (hfind₂ : findController w₂ which = some c₂) (hdir₂ : c₂.axisDirection = (c.setAxis axis 0).axisDirection)
    (hkept : Unchanged w₂ r.2) (hr : r.1 = .error e) : ¬Atomic r w := by
  intro hatomic
  have hkeys := (hatomic e hr).keys
  have hsome : w₂.controllers.find? (fun c => c.instanceId == which) = some c₂ := hfind₂
  rw [hkept.keys] at hkeys
  rw [hkeys] at hsome
  obtain rfl : c₂ = c := Option.some.inj (hsome.symm.trans hfind)
  refine hold ?_
  rw [hdir₂]
  simp [Controller.setAxis]

theorem stuck_of_blocked {w : World} {which axis value : ℤ} {c : Controller} (hfind : findController w which = some c)
    (ha : 0 ≤ axis ∧ axis < axisMax) (hold : c.axisDirection axis ≠ 0)
    (hmoves : newDirection (c.axisDirection axis) value ≠ c.axisDirection axis)
    (hreleases : Releasable env w (directionKey w.toKeys axis (c.axisDirection axis)))
    (hblocked : Blocked env w (directionKey w.toKeys axis (c.axisDirection axis))
      (directionKey w.toKeys axis (newDirection (c.axisDirection axis) value))) : Stuck env w which axis value c := by
  have hnew : newDirection (c.axisDirection axis) value ≠ 0 := by
    intro h0
    have hv := hblocked.1
    simp [directionKey,h0,validScancode] at hv
  rw [directionKey_of_ne_zero w axis hold,directionKey_of_ne_zero w axis hnew] at hblocked
  rw [directionKey_of_ne_zero w axis hold] at hreleases
  exact ⟨hfind,ha,hold,hnew,hmoves,hreleases,hblocked⟩

/-- An axis motion that fails leaves the state as it was unless the stick is stuck half-way. -/
theorem handleAxis_atomic_iff {w : World} (hC : Counted w.toKeys) (hS : Sound w) (which axis value : ℤ) :
    Atomic (handleAxis env which axis value w) w ↔ ∀ c, ¬Stuck env w which axis value c := by
  unfold handleAxis
  cases hfind : findController w which with
  | none =>
    refine iff_of_true (atomic_self _ w) fun c hstuck => ?_
    exact absurd (hfind.symm.trans hstuck.found) (by simp)
  | some c =>
    have hsame : ∀ {d}, Stuck env w which axis value d → d = c := fun hstuck =>
      Option.some.inj (hstuck.found.symm.trans hfind)
    dsimp only
    split
    · rename_i hrange
      refine iff_of_true (atomic_self _ w) fun d hstuck => ?_
      have := hstuck.range
      omega
    rename_i hrange
    have ha : 0 ≤ axis ∧ axis < axisMax := by omega
    split
    · rename_i hstill
      refine iff_of_true (atomic_self _ w) fun d hstuck => ?_
      rw [← hsame hstuck] at hstill
      exact hstuck.swings hstill
    rename_i hmoves
    have hmem := List.mem_of_find?_eq_some hfind
    have hle := hC.le_total hmem (directionKey w.toKeys axis (c.axisDirection axis))
    have hrel := held_of_deflected hC hmem ha
    obtain ⟨hreleases,-⟩ := release_sizes env hS c hle hrel
    have hfirst := changeAxis_spec env hC hS hfind ha 0 false rfl
    simp only [Bool.false_eq_true,if_false] at hfirst
    rw [← andThen_map (changeAxisKey env which axis (c.axisDirection axis) false w)
      (updateController which (Controller.setAxis axis 0)) fun w =>
        (changeAxisKey env which axis (newDirection (c.axisDirection axis) value) true w).andThen fun w =>
          (.ok 0,updateController which (Controller.setAxis axis (newDirection (c.axisDirection axis) value)) w)]
    rw [changeAxisKey_eq env hfind] at hfirst ⊢
    cases hr : (changeControllerKey env c (directionKey w.toKeys axis (c.axisDirection axis)) false w).1 with
    | error e =>
      rw [andThen_error (fun w => (.ok 0,_)) hr,andThen_error _ rfl]
      refine iff_of_true (fun _ _ => changeControllerKey_atomic env c _ false w e hr) fun d hstuck => ?_
      have hrl := hstuck.releases
      rw [hsame hstuck,← directionKey_of_ne_zero w axis (hsame hstuck ▸ hstuck.old)] at hrl
      exact absurd (hr.symm.trans (hreleases.mpr hrl)) (by simp)
    | ok n =>
      obtain rfl := changeControllerKey_zero env hr
      rw [andThen_ok _ hr] at hfirst ⊢
      obtain ⟨hS₂,⟨e,-,he,-⟩ | ⟨-,hC₂,c₂,hfind₂,hdir₂⟩⟩ := hfirst
      · simp at he
      rw [andThen_ok _ rfl]
      obtain ⟨w₂,hw₂⟩ : ∃ w₂, w₂ = updateController which (Controller.setAxis axis 0) (changeControllerKey env c
        (directionKey w.toKeys axis (c.axisDirection axis)) false w).2 := ⟨_,rfl⟩
      simp only [← hw₂] at hC₂ hS₂ hfind₂ ⊢
      have hpress := press_after_release env hC hS hfind ha hw₂ hr hC₂ hS₂ hfind₂
        (newDirection (c.axisDirection axis) value)
      cases hp : (changeAxisKey env which axis (newDirection (c.axisDirection axis) value) true w₂).1 with
      | ok m =>
        rw [andThen_ok _ hp]
        refine iff_of_true (atomic_of_ok rfl w) fun d hstuck => ?_
        have hb := hstuck.blocked
        rw [hsame hstuck,← directionKey_of_ne_zero w axis (hsame hstuck ▸ hstuck.old),
          ← directionKey_of_ne_zero w axis (hsame hstuck ▸ hstuck.new)] at hb
        obtain ⟨e,he⟩ := hpress.mpr hb
        exact absurd (hp.symm.trans he) (by simp)
      | error e =>
        rw [andThen_error _ hp]
        -- the press left what the first half had made
        have hkept : Unchanged w₂
            (changeAxisKey env which axis (newDirection (c.axisDirection axis) value) true w₂).2 := by
          rw [changeAxisKey_eq env hfind₂] at hp ⊢
          exact changeControllerKey_atomic env c₂ _ true w₂ e hp
        by_cases hold : c.axisDirection axis = 0
        · refine iff_of_true (fun _ _ => ?_) fun d hstuck => hstuck.old (hsame hstuck ▸ hold)
          have hnothing : w₂ = w := hw₂.trans (release_centred env hfind hold)
          rw [hnothing] at hkept ⊢
          exact hkept
        · refine iff_of_false (not_atomic_of_centred hfind hold hfind₂ hdir₂ hkept rfl) fun hnone => hnone c ?_
          exact stuck_of_blocked env hfind ha hold hmoves (hreleases.mp hr) (hpress.mp ⟨e,hp⟩)

end Axis

section Runs
variable (env : Env)

theorem consumed_atomic {r : Result} {w : World} : Atomic r.consumed w ↔ Atomic r w := by
  unfold Atomic Result.consumed
  cases hr : r.1 with
  | error e => rw [andThen_error _ hr]
  | ok n =>
    rw [andThen_ok _ hr]
    exact iff_of_true (fun e he => absurd he (by simp)) fun e he => absurd he (by simp)

/-- In every state a run reaches, a call that returns `-1` leaves everything as it was, except for a
stick that is stuck half-way. -/
theorem failed_call_unchanged_iff (joysticks : Option (List Opened)) {w₀ : World}
    (h : create env joysticks = some w₀) (calls : List Call) (c : Call) :
    Atomic (call env c (run env w₀ calls)) (run env w₀ calls) ↔
      ∀ which axis value, c = .axisMotion which axis value →
        ∀ state, ¬Stuck env (run env w₀ calls) which axis value state := by
  obtain ⟨hC₀,hS₀⟩ := create_kept env h
  obtain ⟨hC,hS⟩ := run_kept env calls hC₀ hS₀
  generalize run env w₀ calls = w at hC hS ⊢
  cases c with
  | key sc pressed repeated =>
    exact iff_of_true (consumed_atomic.mpr (handleKeyboard_atomic env sc pressed repeated w)) (by simp)
  | deviceAdded device => exact iff_of_true (consumed_atomic.mpr (addController_atomic env device w)) (by simp)
  | deviceRemoved which => exact iff_of_true (consumed_atomic.mpr (removeController_atomic env which w)) (by simp)
  | button which button pressed =>
    exact iff_of_true (consumed_atomic.mpr (handleButton_atomic env which button pressed w)) (by simp)
  | axisMotion which axis value =>
    refine consumed_atomic.trans ((handleAxis_atomic_iff env hC hS which axis value).trans ⟨?_,fun h => h _ _ _ rfl⟩)
    rintro h which' axis' value' he state
    obtain ⟨rfl,rfl,rfl⟩ := Call.axisMotion.inj he
    exact h state
  | window focusLost =>
    refine iff_of_true ?_ (by simp)
    cases focusLost with
    | true =>
      rw [call,if_pos rfl]
      exact consumed_atomic.mpr (releaseAll_atomic env w)
    | false => exact atomic_self _ w
  | other => exact iff_of_true (atomic_self _ w) (by simp)
  | mapButton button sc => exact iff_of_true (mapButton_atomic env button sc w) (by simp)
  | mapAxis axis negative positive => exact iff_of_true (mapAxis_atomic env axis negative positive w) (by simp)
  | releaseAll => exact iff_of_true (releaseAll_atomic env w) (by simp)
  | poll => exact iff_of_true (atomic_of_ok rfl w) (by simp)

/-- From a centred stick there is nothing to release first. -/
theorem failed_call_unchanged_centred :
    let env : Env := ⟨fun n => decide (n < 2),fun _ => 0⟩
    let w₀ : World := { blank with controllers := [newController 7], mallocs := 2 }
    create env (some [.joystick 7]) = some w₀ ∧
      Atomic (call env (.axisMotion 7 0 20000) (run env w₀ [])) (run env w₀ []) := by
  refine ⟨rfl,(failed_call_unchanged_iff _ (some [.joystick 7]) rfl [] _).mpr ?_⟩
  rintro which axis value - state hstuck
  have hfound := List.mem_of_find?_eq_some hstuck.found
  obtain rfl : state = newController 7 := by simpa [run] using hfound
  exact hstuck.old rfl

/-- The stick is held to the left, and memory has run out. -/
def heldLeft : World :=
  run ⟨fun n => decide (n < 3),fun _ => 0⟩ { blank with controllers := [newController 7], mallocs := 2 }
    (.axisMotion 7 0 (-20000) :: (List.range 15).flatMap fun i : ℕ => [.key (i+4) true false,.key (i+4) false false])

/-- The ring's last free cell goes to the release of the left key; the press of the right key fails,
and the left key stays released. -/
theorem swing_half_done :
    let env : Env := ⟨fun n => decide (n < 3),fun _ => 0⟩
    create env (some [.joystick 7]) = some { blank with controllers := [newController 7], mallocs := 2 } ∧
      (call env (.axisMotion 7 0 20000) heldLeft).1 = .error .enomem ∧
      heldLeft.keyRefs 80 = 1 ∧ (call env (.axisMotion 7 0 20000) heldLeft).2.keyRefs 80 = 0 ∧
      ¬Atomic (call env (.axisMotion 7 0 20000) heldLeft) heldLeft := by
  have hfails : (call ⟨fun n => decide (n < 3),fun _ => 0⟩ (.axisMotion 7 0 20000) heldLeft).1 = .error .enomem := by
    decide +kernel
  have hbefore : heldLeft.keyRefs 80 = 1 := by decide +kernel
  have hafter : (call ⟨fun n => decide (n < 3),fun _ => 0⟩ (.axisMotion 7 0 20000) heldLeft).2.keyRefs 80 = 0 := by
    decide +kernel
  refine ⟨rfl,hfails,hbefore,hafter,fun hatomic => ?_⟩
  have hkeys := congrArg (fun k : Keys => k.keyRefs 80) (hatomic _ hfails).keys
  simp only [hafter,hbefore] at hkeys
  exact absurd hkeys (by decide)

end Runs

end Machismo.Sword3Input
