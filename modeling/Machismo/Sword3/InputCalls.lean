import Machismo.Sword3.InputCounts

/-! # Every call keeps the counts

A call that starts from counts that agree ends with counts that agree, whether it
succeeds, fails at once or fails half-way, and it does not fail with `EPROTO`.
-/
namespace Machismo.Sword3Input

/-- What a call leaves when the counts agreed before it. -/
structure Kept (r : Result) : Prop where
  counted : Counted r.2.toKeys
  sound : Sound r.2
  noProto : r.1 ≠ .error .eproto

theorem kept_ok {w : World} (hC : Counted w.toKeys) (hS : Sound w) (n : ℕ) : Kept (.ok n,w) :=
  ⟨hC,hS,by simp⟩

theorem kept_error {w : World} (hC : Counted w.toKeys) (hS : Sound w) {e : Errno} (he : e ≠ .eproto) :
    Kept (.error e,w) :=
  ⟨hC,hS,by simpa using he⟩

theorem Gives.kept {r : Result} {w : World} {P : Keys → Prop} (h : Gives r w P) (hC : Counted w.toKeys)
    (hP : ∀ k, P k → Counted k) : Kept r := by
  obtain ⟨hs,⟨e,hne,he,hk⟩ | ⟨hok,hk⟩⟩ := h
  · exact ⟨by rw [hk]; exact hC,hs,by rw [he]; simpa using hne⟩
  · exact ⟨hP _ hk,hs,by rw [hok]; simp⟩

theorem Gives.andThen {r : Result} {w : World} {P Q : Keys → Prop} (h : Gives r w P) (g : World → World)
    (hg : ∀ w', P w'.toKeys → Q (g w').toKeys)
    (hs : ∀ w', P w'.toKeys → Sound w' → Sound (g w')) :
    Gives (r.andThen fun w' => (.ok 0,g w')) w Q := by
  obtain ⟨hsound,⟨e,hne,he,hk⟩ | ⟨hok,hk⟩⟩ := h
  · rw [andThen_error _ he]
    exact ⟨hsound,Or.inl ⟨e,hne,rfl,hk⟩⟩
  · rw [andThen_ok _ hok]
    exact ⟨hs _ hk hsound,Or.inr ⟨rfl,hg _ hk⟩⟩

theorem andThen_map (r : Result) (h : World → World) (g : World → Result) :
    (r.andThen fun w => (.ok 0,h w)).andThen g = r.andThen fun w => g (h w) := by
  unfold Result.andThen
  cases r.1 <;> rfl

section Inputs
variable (env : Env)

theorem handleKeyboard_kept {w : World} (hC : Counted w.toKeys) (hS : Sound w) (sc : ℤ) (pressed repeated : Bool) :
    Kept (handleKeyboard env sc pressed repeated w) := by
  unfold handleKeyboard
  split
  · exact kept_ok hC hS 0
  rename_i hv
  have hv : validScancode sc = true := by
    simp only [Bool.or_eq_true,not_or] at hv
    simpa using hv.1
  split
  · exact kept_ok hC hS 0
  rename_i hne
  have hrel : pressed = false → w.keyRefs sc ≠ 0 := by
    rintro rfl
    have hdown : w.keyboardDown sc = true := by simpa using hne
    have ht := hC.total sc
    rw [hdown,Bool.toNat_true] at ht
    omega
  refine ((changeGlobalKey_spec env hS hv pressed hrel).andThen (Q := Counted) _ ?_ ?_).kept hC fun k hk => hk
  · rintro w' ⟨hfull,hk⟩
    simp only [hk]
    exact hC.keyboard hv hne hfull
  · intro w' _ hs
    exact hs.withKeys { w'.toKeys with keyboardDown := Function.update w'.keyboardDown sc pressed } rfl

/-- A change of a controller's buttons or axes. -/
structure InputChange (input : Controller → Controller) : Prop where
  refs : ∀ c, (input c).keyRefs = c.keyRefs
  instanceId : ∀ c, (input c).instanceId = c.instanceId
  setKeyRefs : ∀ c sc n, input (c.setKeyRefs sc n) = (input c).setKeyRefs sc n

theorem inputChange_setButton (b : ℤ) (pressed : Bool) : InputChange (Controller.setButton b pressed) :=
  ⟨fun _ => rfl,fun _ => rfl,fun _ _ _ => rfl⟩

theorem inputChange_setAxis (a direction : ℤ) : InputChange (Controller.setAxis a direction) :=
  ⟨fun _ => rfl,fun _ => rfl,fun _ _ _ => rfl⟩

/-- The key of an input changes and then the input itself: the counts agree again and the
controller has its new input. -/
theorem changeInput_spec {w : World} (hC : Counted w.toKeys) (hS : Sound w) {which : ℤ} {c : Controller}
    (hfind : findController w which = some c) {input : Controller → Controller} (hi : InputChange input)
    (key : ℤ) (pressed : Bool)
    (hheld : ∀ sc, validScancode sc = true →
      held w.toKeys (input c) sc+(if pressed = false ∧ key = sc then 1 else 0) =
        held w.toKeys c sc+(if pressed = true ∧ key = sc then 1 else 0)) :
    Gives ((changeControllerKey env c key pressed w).andThen fun w => (.ok 0,updateController which input w)) w
      fun k => Counted k ∧
        ∃ c', k.controllers.find? (fun c => c.instanceId == which) = some c' ∧
          c'.axisDirection = (input c).axisDirection := by
  obtain ⟨hid,before,after,hcs,hb⟩ := findController_split hfind
  have hmem : c ∈ w.controllers := by simp [hcs]
  have hle := hC.le_total hmem key
  cases hv : validScancode key with
  | false =>
    have hsame : changeControllerKey env c key pressed w = (.ok 0,w) := by simp [changeControllerKey,hv]
    have hkey : ∀ sc, validScancode sc = true → key ≠ sc := fun sc hsc e => by simp [e,hsc] at hv
    have hinput : (input c).instanceId = which := (hi.instanceId c).trans hid
    have hkeys : (updateController which input w).toKeys =
        { w.toKeys with controllers := before++input c :: after } := by
      simp only [updateController,hcs,modifyController_append _ hb hid]
    rw [hsame]
    refine ⟨hS.withKeys { w.toKeys with controllers := modifyController which input w.controllers } rfl,
      Or.inr ⟨rfl,?_⟩⟩
    rw [andThen_ok _ rfl,hkeys]
    refine ⟨?_,input c,findController_append _ hb hinput,rfl⟩
    refine hC.replace hcs hC.short (fun sc => by rw [hi.refs]) (fun sc hsc => ?_) hC.unknown
    have h := hheld sc hsc
    simp only [hkey sc hsc,and_false,if_false,Nat.add_zero] at h
    rw [hi.refs,hC.held c hmem sc hsc,h]
  | true =>
    have hrel : pressed = false → c.keyRefs key ≠ 0 := by
      rintro rfl
      have h := hheld key hv
      simp only [true_and,if_true,Bool.false_eq_true,false_and,if_false] at h
      rw [hC.held c hmem key hv]
      omega
    have hinput : ∀ n, ((input c).setKeyRefs key n).instanceId = which := fun _ => (hi.instanceId c).trans hid
    have hboth : modifyController which input (modifyController c.instanceId
        (Controller.setKeyRefs key (bump pressed (c.keyRefs key))) w.controllers) =
        before++(input c).setKeyRefs key (bump pressed (c.keyRefs key)) :: after := by
      have hid' : (c.setKeyRefs key (bump pressed (c.keyRefs key))).instanceId = which := hid
      rw [hid,hcs,modifyController_append _ hb hid,modifyController_append _ hb hid',hi.setKeyRefs]
    refine (changeControllerKey_spec env hS hv c pressed hle hrel).andThen _ ?_ ?_
    · rintro w' ⟨hfull,hk⟩
      have hkeys : (updateController which input w').toKeys = { w.toKeys with
          controllers := before++(input c).setKeyRefs key (bump pressed (c.keyRefs key)) :: after
          keyRefs := Function.update w.keyRefs key (bump pressed (w.keyRefs key)) } := by
        simp only [updateController,hk,hboth]
      rw [hkeys]
      exact ⟨hC.changeKey hcs (hi.refs c) hv hfull hheld,_,findController_append _ hb (hinput _),rfl⟩
    · intro w' _ hs
      exact hs.withKeys { w'.toKeys with controllers := modifyController which input w'.controllers } rfl

theorem handleButton_kept {w : World} (hC : Counted w.toKeys) (hS : Sound w) (which button : ℤ) (pressed : Bool) :
    Kept (handleButton env which button pressed w) := by
  unfold handleButton
  cases hfind : findController w which with
  | none => exact kept_ok hC hS 0
  | some c =>
    dsimp only
    split
    · rename_i hb
      split
      · exact kept_ok hC hS 0
      · rename_i hne
        have hdown : c.buttonDown button = !pressed := by
          cases pressed <;> simpa using hne
        refine (changeInput_spec env hC hS hfind (inputChange_setButton button pressed) (w.buttonMap button) pressed
          ?_).kept hC fun k hk => hk.1
        intro sc _
        have h := held_setButton w.toKeys c hb pressed sc
        rw [hdown] at h
        simpa using h
    · exact kept_ok hC hS 0

theorem changeAxisKey_eq {w : World} {which : ℤ} {c : Controller} (hfind : findController w which = some c)
    (axis direction : ℤ) (pressed : Bool) :
    changeAxisKey env which axis direction pressed w =
      changeControllerKey env c (directionKey w.toKeys axis direction) pressed w := by
  simp only [changeAxisKey,hfind,directionKey]
  split
  · simp [changeControllerKey,validScancode]
  · rfl

theorem changeAxis_spec {w : World} (hC : Counted w.toKeys) (hS : Sound w) {which : ℤ} {c : Controller}
    (hfind : findController w which = some c) {axis : ℤ} (ha : 0 ≤ axis ∧ axis < axisMax) (direction : ℤ)
    (pressed : Bool) (hdir : if pressed then c.axisDirection axis = 0 else direction = 0) :
    Gives ((changeAxisKey env which axis (if pressed then direction else c.axisDirection axis) pressed w).andThen
      fun w => (.ok 0,updateController which (Controller.setAxis axis direction) w)) w
      fun k => Counted k ∧
        ∃ c', k.controllers.find? (fun c => c.instanceId == which) = some c' ∧
          c'.axisDirection = (c.setAxis axis direction).axisDirection := by
  rw [changeAxisKey_eq env hfind]
  refine changeInput_spec env hC hS hfind (inputChange_setAxis axis direction) _ pressed ?_
  intro sc hsc
  have h := held_setAxis w.toKeys c ha direction sc
  rw [axisHeld_eq _ _ _ hsc,axisHeld_eq _ _ _ hsc] at h
  have hcentre : directionKey w.toKeys axis 0 ≠ sc := by
    have h0 := (validScancode_iff.mp hsc).1
    simp only [directionKey,if_true,scancodeUnknown]
    omega
  cases pressed with
  | true =>
    simp only [if_true] at hdir
    rw [hdir,if_neg hcentre] at h
    simpa using h
  | false =>
    simp only [Bool.false_eq_true,if_false] at hdir
    rw [hdir,if_neg hcentre] at h
    simpa [hdir] using h

theorem handleAxis_kept {w : World} (hC : Counted w.toKeys) (hS : Sound w) (which axis value : ℤ) :
    Kept (handleAxis env which axis value w) := by
  unfold handleAxis
  cases hfind : findController w which with
  | none => exact kept_ok hC hS 0
  | some c =>
    dsimp only
    split
    · exact kept_ok hC hS 0
    rename_i hrange
    have ha : 0 ≤ axis ∧ axis < axisMax := by omega
    split
    · exact kept_ok hC hS 0
    have hfirst := changeAxis_spec env hC hS hfind ha 0 false rfl
    simp only [Bool.false_eq_true,if_false] at hfirst
    have hhalves := andThen_map (changeAxisKey env which axis (c.axisDirection axis) false w)
      (updateController which (Controller.setAxis axis 0)) fun w =>
        (changeAxisKey env which axis (newDirection (c.axisDirection axis) value) true w).andThen fun w =>
          (.ok 0,updateController which (Controller.setAxis axis (newDirection (c.axisDirection axis) value)) w)
    rw [← hhalves]
    obtain ⟨hs,⟨e,hne,he,hk⟩ | ⟨hok,hC',c',hfind',hdir'⟩⟩ := hfirst
    · rw [andThen_error _ he]
      exact ⟨by rw [hk]; exact hC,hs,by simpa using hne⟩
    · rw [andThen_ok _ hok]
      have hzero : c'.axisDirection axis = 0 := by rw [hdir']; simp [Controller.setAxis]
      exact (changeAxis_spec env hC' hs hfind' ha (newDirection (c.axisDirection axis) value) true hzero).kept hC'
        fun k hk => hk.1

end Inputs

end Machismo.Sword3Input
