import Machismo.Sword3.InputCalls

/-! # Giving keys back in bulk

Three loops over all scancodes give keys back: when a controller goes, when a mapping
changes and when everything is released.  Each reserves one place for every edge it is
going to reach before it changes anything, so it either fails and leaves the keys alone or
goes through.
-/
namespace Machismo.Sword3Input

section Sums

theorem shortSub_of_le {a b : ℕ} (h : b ≤ a) (ha : a ≤ shortMax) : shortSub a b = a-b := by
  unfold shortSub
  unfold shortMax at ha
  omega

theorem foldl_owned (cs : List Controller) (sc : ℤ) {a : ℕ} (ha : a < 2^64) :
    cs.foldl (fun owned c => (owned+c.keyRefs sc)%2^64) a = (a+keySum cs sc)%2^64 := by
  induction cs generalizing a with
  | nil => exact (Nat.mod_eq_of_lt ha).symm
  | cons c cs ih =>
    rw [List.foldl_cons,ih (Nat.mod_lt _ (by omega)),Nat.mod_add_mod]
    simp [keySum,Nat.add_assoc]

theorem ownedBy_eq {cs : List Controller} {sc : ℤ} (h : keySum cs sc ≤ shortMax) : ownedBy cs sc = keySum cs sc := by
  unfold shortMax at h
  rw [ownedBy,foldl_owned cs sc (by omega),Nat.zero_add,Nat.mod_eq_of_lt (by omega)]

theorem isEdge_sub {a b : ℕ} (h : b ≤ a) : isEdge a (a-b) = (b != 0 && b == a) := by
  rcases Nat.eq_zero_or_pos a with rfl | ha
  · obtain rfl : b = 0 := by omega
    rfl
  · rw [isEdge_of_ne_zero _ ha.ne',Bool.eq_iff_iff]
    simp only [beq_iff_eq,Bool.and_eq_true,bne_iff_ne,ne_eq]
    omega

theorem Counted.keySum_le {k : Keys} (h : Counted k) (sc : ℤ) : keySum k.controllers sc ≤ k.keyRefs sc := by
  have ht := h.total sc
  omega

theorem Counted.share_unknown {k : Keys} (h : Counted k) {c : Controller} (hmem : c ∈ k.controllers) {sc : ℤ}
    (hu : validScancode sc = false) : c.keyRefs sc = 0 :=
  Nat.le_zero.mp ((h.le_total hmem sc).trans (h.unknown sc hu).le)

end Sums

section Loops
variable (env : Env)

theorem reserve_fold {w : World} (hS : Sound w) {f : World → ℤ → World} {g : List Controller → ℤ → List Controller}
    {Q : List Controller → ℤ → Prop} {old new : ℤ → ℕ} {n : ℕ} (start : World → World)
    {L : List ℤ} (hnodup : L.Nodup) (hvalid : ∀ sc, sc ∈ L ↔ validScancode sc = true)
    (hf : ∀ w sc, w.keyRefs sc = old sc → Q w.controllers sc →
      f w sc = moveKey env sc (new sc) { w with controllers := g w.controllers sc })
    (hg : ∀ cs sc sc', sc ≠ sc' → Q cs sc' → Q (g cs sc) sc')
    (hstart : ∀ w', w'.toKeys = w.toKeys → Sound w' → Sound (start w') ∧ (start w').queue = w'.queue ∧
      (start w').keyRefs = old ∧ ∀ sc, Q (start w').controllers sc)
    (hinvalid : ∀ sc, validScancode sc = false → new sc = old sc)
    (hn : n = L.countP fun sc => isEdge (old sc) (new sc)) :
    Gives ((reserveQueue env n w).andThen fun w => (.ok 0,L.foldl f (start w))) w fun k =>
      ∃ w', w'.toKeys = w.toKeys ∧ k = { (start w').toKeys with
        controllers := L.foldl g (start w').controllers
        keyRefs := new } := by
  obtain ⟨hs,hk,-,he | ⟨hok,hroom⟩⟩ := reserveQueue_spec env hS n
  · rw [andThen_error _ he]
    exact ⟨hs,Or.inl ⟨_,by simp,rfl,hk⟩⟩
  · rw [andThen_ok _ hok]
    obtain ⟨ss,sq,sr,sQ⟩ := hstart _ hk hs
    obtain ⟨fs,fk⟩ := fold_moveKey env hf hg L hnodup (fun sc hsc => (hvalid sc).mp hsc) ss
      (fun sc _ => by rw [sr]) (fun sc _ => sQ sc) (by rw [sq,← hn]; exact hroom)
    refine ⟨fs,Or.inr ⟨rfl,_,hk,?_⟩⟩
    have hnew : (fun sc => if sc ∈ L then new sc else old sc) = new := by
      funext sc
      split
      · rfl
      · rename_i hsc
        rw [hvalid,Bool.not_eq_true] at hsc
        exact (hinvalid sc hsc).symm
    simp only [fk,sr,hnew]

/-- Clearing one scancode after the other clears a controller's share of all of them. -/
theorem foldl_setKeyRefs (L : List ℤ) (c : Controller) :
    L.foldl (fun c sc => Controller.setKeyRefs sc 0 c) c =
      { c with keyRefs := fun sc => if sc ∈ L then 0 else c.keyRefs sc } := by
  induction L generalizing c with
  | nil => simp
  | cons sc L ih =>
    rw [List.foldl_cons,ih]
    simp only [Controller.setKeyRefs,Controller.mk.injEq,true_and,and_true]
    funext sc'
    by_cases hmem : sc' ∈ L
    · simp [hmem]
    · by_cases he : sc' = sc
      · simp [he]
      · simp [hmem,he]

theorem foldl_map_setKeyRefs (L : List ℤ) (cs : List Controller) :
    L.foldl (fun cs sc => cs.map (Controller.setKeyRefs sc 0)) cs =
      cs.map fun c => { c with keyRefs := fun sc => if sc ∈ L then 0 else c.keyRefs sc } := by
  induction L generalizing cs with
  | nil => simp
  | cons sc L ih =>
    rw [List.foldl_cons,ih,List.map_map]
    refine List.map_congr_left fun c _ => ?_
    rw [← foldl_setKeyRefs,Function.comp_apply,← foldl_setKeyRefs,List.foldl_cons]

theorem foldl_modify_setKeyRefs (L : List ℤ) (state : Controller) {before : List Controller}
    (after : List Controller) {c : Controller}
    (hb : ∀ d ∈ before, d.instanceId ≠ state.instanceId) (hc : c.instanceId = state.instanceId)
    (hle : ∀ sc, state.keyRefs sc = 0 → c.keyRefs sc = 0) :
    L.foldl (fun cs sc => if state.keyRefs sc = 0 then cs
      else modifyController state.instanceId (Controller.setKeyRefs sc 0) cs) (before++c :: after) =
      before++{ c with keyRefs := fun sc => if sc ∈ L then 0 else c.keyRefs sc } :: after := by
  rw [← foldl_setKeyRefs]
  induction L generalizing c with
  | nil => rfl
  | cons sc L ih =>
    rw [List.foldl_cons,List.foldl_cons]
    by_cases h0 : state.keyRefs sc = 0
    · have hself : Controller.setKeyRefs sc 0 c = c := by
        simp [Controller.setKeyRefs,← hle sc h0]
      rw [if_pos h0,hself]
      exact ih hc hle
    · rw [if_neg h0,modifyController_append _ hb hc]
      refine ih hc fun sc' h' => ?_
      rcases eq_or_ne sc' sc with rfl | hne
      · simp [Controller.setKeyRefs]
      · simpa [Controller.setKeyRefs,hne] using hle sc' h'

end Loops

section Calls
variable (env : Env)

theorem Sound.withControllers {w : World} (h : Sound w) (cs : List Controller) : Sound { w with controllers := cs } :=
  h.withKeys { w.toKeys with controllers := cs } rfl

theorem releaseKey_eq {w : World} {c : Controller} {sc : ℤ} (hle : c.keyRefs sc ≤ w.keyRefs sc)
    (hshort : w.keyRefs sc ≤ shortMax) :
    releaseKey env c w sc = moveKey env sc (w.keyRefs sc-c.keyRefs sc) { w with
      controllers := if c.keyRefs sc = 0 then w.controllers
        else modifyController c.instanceId (Controller.setKeyRefs sc 0) w.controllers } := by
  unfold releaseKey
  split
  · rename_i h0
    rw [h0,Nat.sub_zero]
    exact (moveKey_self env sc w).symm
  · rename_i h0
    have hpos : w.keyRefs sc ≠ 0 := by omega
    rw [shortSub_of_le hle hshort]
    exact enqueue_release env (w.keyRefs sc-c.keyRefs sc) (w := updateController c.instanceId
      (Controller.setKeyRefs sc 0) w) hpos

theorem releaseOwned_eq {w : World} {sc : ℤ} (hle : keySum w.controllers sc ≤ w.keyRefs sc)
    (hshort : w.keyRefs sc ≤ shortMax) :
    releaseOwned env w sc = moveKey env sc (w.keyRefs sc-keySum w.controllers sc) { w with
      controllers := w.controllers.map (Controller.setKeyRefs sc 0) } := by
  unfold releaseOwned
  simp only [ownedBy_eq (hle.trans hshort),shortSub_of_le hle hshort]
  rcases Nat.eq_zero_or_pos (keySum w.controllers sc) with h0 | hpos
  · simp [moveKey,h0,isEdge_self,enqueueIf]
  · have hw : w.keyRefs sc ≠ 0 := by omega
    have hne : (keySum w.controllers sc != 0) = true := by simpa using hpos.ne'
    rw [hne,Bool.true_and]
    exact enqueue_release env _ (w := { w with controllers := w.controllers.map (Controller.setKeyRefs sc 0) }) hw

theorem cleared_share {L : List ℤ} (hscan : ∀ sc, sc ∈ L ↔ validScancode sc = true) {c : Controller}
    (hunknown : ∀ sc, validScancode sc = false → c.keyRefs sc = 0) :
    (fun sc => if sc ∈ L then 0 else c.keyRefs sc) = fun _ => 0 := by
  funext sc
  cases hv : validScancode sc with
  | true => rw [if_pos ((hscan sc).mpr hv)]
  | false => rw [hunknown sc hv,ite_self]

/-- `release_controller` fails with the keys as they were, or takes the controller's whole share back. -/
theorem releaseController_spec {w : World} (hC : Counted w.toKeys) (hS : Sound w) {c : Controller}
    {before after : List Controller} (hcs : w.controllers = before++c :: after)
    (hb : ∀ d ∈ before, d.instanceId ≠ c.instanceId) :
    Gives (releaseController env c w) w fun k => Counted k ∧ ∃ c', c'.instanceId = c.instanceId ∧
      (∀ sc, c'.keyRefs sc = 0) ∧ k.controllers = before++c' :: after := by
  have hmem : c ∈ w.controllers := by simp [hcs]
  have hle := hC.le_total hmem
  have hunknown : ∀ sc, validScancode sc = false → c.keyRefs sc = 0 := fun sc => hC.share_unknown hmem
  have hnodup := scancodes_nodup
  have hscan := @mem_scancodes
  have hproto : (scancodes.any fun sc => decide (w.keyRefs sc < c.keyRefs sc)) = false :=
    List.any_eq_false.mpr fun sc _ => by simpa using hle sc
  unfold releaseController
  generalize scancodes = L at *
  rw [hproto,if_neg Bool.false_ne_true]
  have hmoves : ∀ w' sc, w'.keyRefs sc = w.keyRefs sc → True →
      releaseKey env c w' sc = moveKey env sc (w.keyRefs sc-c.keyRefs sc) { w' with
        controllers := if c.keyRefs sc = 0 then w'.controllers
          else modifyController c.instanceId (Controller.setKeyRefs sc 0) w'.controllers } := by
    intro w' sc hsc _
    rw [← hsc]
    exact releaseKey_eq env (hsc ▸ hle sc) (hsc ▸ hC.short sc)
  have hloop := reserve_fold env hS (f := releaseKey env c)
    (g := fun cs sc => if c.keyRefs sc = 0 then cs
      else modifyController c.instanceId (Controller.setKeyRefs sc 0) cs)
    (Q := fun _ _ => True) id hnodup (fun sc => hscan) hmoves
    (fun _ _ _ _ _ => trivial) (fun w' hk hs => ⟨hs,rfl,congrArg Keys.keyRefs hk,fun _ => trivial⟩)
    (fun sc hu => by rw [hunknown sc hu,Nat.sub_zero]) rfl
  have hcount : (L.countP fun sc => c.keyRefs sc != 0 && c.keyRefs sc == w.keyRefs sc) =
      L.countP fun sc => isEdge (w.keyRefs sc) (w.keyRefs sc-c.keyRefs sc) :=
    List.countP_congr fun sc _ => by rw [isEdge_sub (hle sc)]
  have hclear := foldl_modify_setKeyRefs L c after hb rfl fun sc h0 => h0
  rw [hcount]
  refine (congrArg (Gives · w _) (andThen_map _ (fun w => L.foldl (releaseKey env c) w) fun w =>
    (.ok 0,updateController c.instanceId Controller.clearInputs w))).mp (hloop.andThen
    (updateController c.instanceId Controller.clearInputs) ?_ ?_)
  · rintro w' ⟨w0,hk0,hk⟩
    have hctrl : w0.controllers = before++c :: after := (congrArg Keys.controllers hk0).trans hcs
    have hzero := cleared_share (fun sc => hscan) hunknown
    have hkeys : (updateController c.instanceId Controller.clearInputs w').toKeys = { w.toKeys with
        controllers := before++c.clearKeys.clearInputs :: after
        keyRefs := fun sc => w.keyRefs sc-c.keyRefs sc } := by
      simp only [updateController,hk,id,hctrl,hclear,hzero]
      have hput := modifyController_append after hb (c := c.clearKeys) rfl Controller.clearInputs
      simp only [Controller.clearKeys] at hput
      rw [hput,hk0]
      rfl
    rw [hkeys]
    refine ⟨hC.replace hcs ?_ ?_ ?_ ?_,c.clearKeys.clearInputs,rfl,fun _ => rfl,rfl⟩
    · exact fun sc => (Nat.sub_le _ _).trans (hC.short sc)
    · exact fun sc => Nat.sub_add_cancel (hle sc)
    · exact fun sc _ => (held_clearInputs w.toKeys c.clearKeys sc).symm
    · exact fun sc hu => by rw [hC.unknown sc hu,Nat.zero_sub]
  · intro w' _ hs
    exact hs.withControllers _

theorem removeController_kept {w : World} (hC : Counted w.toKeys) (hS : Sound w) (which : ℤ) :
    Kept (removeController env which w) := by
  unfold removeController
  cases hfind : findController w which with
  | none => exact kept_ok hC hS 0
  | some c =>
    obtain ⟨hid,before,after,hcs,hb⟩ := findController_split hfind
    subst hid
    refine ((releaseController_spec env hC hS hcs hb).andThen (Q := Counted) _ ?_ ?_).kept hC fun k hk => hk
    · rintro w' ⟨hC',c',hid',hzero,hcs'⟩
      have herase := eraseController_append after hb hid'
      simp only [hcs',herase]
      exact hC'.drop hcs' hzero
    · intro w' _ hs
      exact hs.withControllers _

/-- `release_controller_inputs` leaves every controller empty-handed, or the keys as they were. -/
theorem releaseControllerInputs_spec {w : World} (hC : Counted w.toKeys) (hS : Sound w) :
    Gives (releaseControllerInputs env w) w fun k => k = { w.toKeys with
      controllers := w.controllers.map fun c => c.clearKeys.clearInputs
      keyRefs := fun sc => (w.keyboardDown sc).toNat } := by
  have hsum := hC.keySum_le
  have howned : ∀ sc, ownedBy w.controllers sc = keySum w.controllers sc :=
    fun sc => ownedBy_eq ((hsum sc).trans (hC.short sc))
  have hnodup := scancodes_nodup
  have hscan := @mem_scancodes
  have hproto : (scancodes.any fun sc => decide (w.keyRefs sc < ownedBy w.controllers sc)) = false :=
    List.any_eq_false.mpr fun sc _ => by simpa [howned] using hsum sc
  unfold releaseControllerInputs
  generalize scancodes = L at *
  rw [hproto,if_neg Bool.false_ne_true]
  have hmoves : ∀ w' sc, w'.keyRefs sc = w.keyRefs sc → keySum w'.controllers sc = keySum w.controllers sc →
      releaseOwned env w' sc = moveKey env sc (w.keyRefs sc-keySum w.controllers sc) { w' with
        controllers := w'.controllers.map (Controller.setKeyRefs sc 0) } := by
    intro w' sc hsc hq
    rw [← hsc,← hq]
    exact releaseOwned_eq env (by rw [hsc,hq]; exact hsum sc) (hsc ▸ hC.short sc)
  have hother : ∀ (cs : List Controller) sc sc', sc ≠ sc' → keySum cs sc' = keySum w.controllers sc' →
      keySum (cs.map (Controller.setKeyRefs sc 0)) sc' = keySum w.controllers sc' := by
    intro cs sc sc' hne hq
    rw [← hq,keySum,List.map_map]
    exact congrArg List.sum (List.map_congr_left fun c _ => Function.update_of_ne hne.symm _ _)
  have hloop := reserve_fold env hS (f := releaseOwned env)
    (g := fun cs sc => cs.map (Controller.setKeyRefs sc 0))
    (Q := fun cs sc => keySum cs sc = keySum w.controllers sc) id hnodup (fun sc => hscan) hmoves
    hother (fun w' hk hs => ⟨hs,rfl,congrArg Keys.keyRefs hk,fun sc => by rw [id,hk]⟩)
    (fun sc hu => by
      have h0 := hC.unknown sc hu
      omega) rfl
  have hcount : (L.countP fun sc => ownedBy w.controllers sc != 0 && ownedBy w.controllers sc == w.keyRefs sc) =
      L.countP fun sc => isEdge (w.keyRefs sc) (w.keyRefs sc-keySum w.controllers sc) :=
    List.countP_congr fun sc _ => by rw [isEdge_sub (hsum sc),howned]
  have hsplit := andThen_map (reserveQueue env (L.countP fun sc =>
    isEdge (w.keyRefs sc) (w.keyRefs sc-keySum w.controllers sc)) w) (fun w => L.foldl (releaseOwned env) w) fun w =>
      (.ok 0,clearAllInputs w)
  simp only [id] at hloop
  rw [hcount,← hsplit]
  refine hloop.andThen clearAllInputs ?_ ?_
  · rintro w' ⟨w0,hk0,hk⟩
    have hctrl : w0.controllers = w.controllers := congrArg Keys.controllers hk0
    have hshare : (fun sc => w.keyRefs sc-keySum w.controllers sc) = fun sc => (w.keyboardDown sc).toNat := by
      funext sc
      rw [hC.total,Nat.add_sub_cancel]
    have hclear : ∀ c ∈ w.controllers,
        ({ c with keyRefs := fun sc => if sc ∈ L then 0 else c.keyRefs sc } : Controller) = c.clearKeys := by
      intro c hmem
      simp only [Controller.clearKeys,Controller.mk.injEq,true_and,and_true]
      exact cleared_share (fun sc => hscan) fun sc => hC.share_unknown hmem
    simp only [clearAllInputs,hk,hctrl,foldl_map_setKeyRefs,List.map_congr_left hclear,hshare,List.map_map]
    rw [hk0]
    rfl
  · intro w' _ hs
    exact hs.withControllers _

theorem counted_released {k : Keys} (hC : Counted k) (buttonMap axisNegative axisPositive : ℤ → ℤ) :
    Counted ⟨k.controllers.map fun c => c.clearKeys.clearInputs,fun sc => (k.keyboardDown sc).toNat,k.keyboardDown,
      buttonMap,axisNegative,axisPositive⟩ := by
  refine counted_cleared ?_ (fun _ => rfl) ?_
  · intro c hc
    obtain ⟨d,-,rfl⟩ := List.mem_map.mp hc
    exact ⟨fun _ => rfl,rfl⟩
  · intro sc hu
    have h0 := hC.unknown sc hu
    have ht := hC.total sc
    show (k.keyboardDown sc).toNat = 0
    omega

theorem mapButton_kept {w : World} (hC : Counted w.toKeys) (hS : Sound w) (button sc : ℤ) :
    Kept (mapButton env button sc w) := by
  unfold mapButton
  split
  · exact kept_error hC hS (by simp)
  · refine ((releaseControllerInputs_spec env hC hS).andThen (Q := Counted) _ ?_ ?_).kept hC fun k hk => hk
    · intro w' hk
      simp only [hk]
      exact counted_released hC _ _ _
    · intro w' _ hs
      exact hs.withKeys { w'.toKeys with buttonMap := Function.update w'.buttonMap button sc } rfl

theorem mapAxis_kept {w : World} (hC : Counted w.toKeys) (hS : Sound w) (axis negative positive : ℤ) :
    Kept (mapAxis env axis negative positive w) := by
  unfold mapAxis
  split
  · exact kept_error hC hS (by simp)
  · refine ((releaseControllerInputs_spec env hC hS).andThen (Q := Counted) _ ?_ ?_).kept hC fun k hk => hk
    · intro w' hk
      simp only [hk]
      exact counted_released hC _ _ _
    · intro w' _ hs
      exact hs.withKeys { w'.toKeys with
        axisNegative := Function.update w'.axisNegative axis negative
        axisPositive := Function.update w'.axisPositive axis positive } rfl

theorem releaseAll_spec {w : World} (hC : Counted w.toKeys) (hS : Sound w) :
    Gives (releaseAll env w) w fun k => Counted k ∧ ∀ sc, k.keyRefs sc = 0 := by
  have hnodup := scancodes_nodup
  have hscan := @mem_scancodes
  unfold releaseAll
  generalize scancodes = L at *
  have hmoves : ∀ w' sc, w'.keyRefs sc = w.keyRefs sc → True →
      clearKey env w' sc = moveKey env sc 0 { w' with controllers := w'.controllers } := by
    intro w' sc hsc _
    unfold clearKey
    split
    · rename_i h0
      exact h0 ▸ (moveKey_self env sc w').symm
    · rename_i h0
      have hrel := enqueue_release env 0 h0
      simpa [enqueueIf,setKeyRefs] using hrel
  have hcount : (L.countP fun sc => w.keyRefs sc != 0) = L.countP fun sc => isEdge (w.keyRefs sc) 0 :=
    List.countP_congr fun sc _ => by
      rcases Nat.eq_zero_or_pos (w.keyRefs sc) with h0 | hpos
      · simp [h0,isEdge]
      · simp [isEdge_of_ne_zero 0 hpos.ne',hpos.ne']
  refine (reserve_fold env hS (f := clearKey env) (g := fun cs _ => cs) (Q := fun _ _ => True) (fun w => { w with
      keyboardDown := fun _ => false
      controllers := w.controllers.map fun c => c.clearKeys.clearInputs }) hnodup (fun sc => hscan) hmoves
    (fun _ _ _ _ _ => trivial) ?_ (fun sc hu => (hC.unknown sc hu).symm) hcount).mono ?_
  · intro w' hk hs
    have hrefs : w'.keyRefs = w.keyRefs := congrArg Keys.keyRefs hk
    exact ⟨hs.withKeys { w'.toKeys with
      keyboardDown := fun _ => false
      controllers := w'.controllers.map fun c => c.clearKeys.clearInputs } rfl,rfl,hrefs,fun _ => trivial⟩
  · rintro k ⟨w',hk',rfl⟩
    refine ⟨counted_cleared ?_ (fun _ => rfl) (fun _ _ => rfl),fun _ => rfl⟩
    intro c hc
    simp only [List.foldl_fixed] at hc
    obtain ⟨d,-,rfl⟩ := List.mem_map.mp hc
    exact ⟨fun _ => rfl,rfl⟩

theorem addController_kept {w : World} (hC : Counted w.toKeys) (hS : Sound w) (device : Opened) :
    Kept (addController env device w) := by
  cases device with
  | notController => exact kept_ok hC hS 0
  | openFailed => exact kept_error hC hS (by simp)
  | noJoystick => exact kept_error hC hS (by simp)
  | joystick instanceId =>
    unfold addController
    dsimp only
    split
    · exact kept_error hC hS (by simp)
    split
    · exact kept_ok hC hS 0
    split
    · exact ⟨hC.add instanceId,⟨hS.valid,hS.capacity,hS.fifo,hS.alternating,hS.last⟩,by simp⟩
    · exact ⟨hC,⟨hS.valid,hS.capacity,hS.fifo,hS.alternating,hS.last⟩,by simp⟩

end Calls

end Machismo.Sword3Input
