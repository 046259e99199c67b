import Machismo.Sword3.InputReleases

/-! # Runs of the input layer

From `sword3_input_create` on, whatever is called and whichever allocations fail: the
counts agree after every call, no call ever meets the inconsistency `EPROTO` stands for,
and the events queued for a key are presses and releases in turn.
-/
namespace Machismo.Sword3Input
variable (env : Env)

theorem consumed_kept {r : Result} (h : Kept r) : Kept r.consumed := by
  unfold Result.consumed
  cases hr : r.1 with
  | error e =>
    rw [andThen_error _ hr]
    exact ⟨h.counted,h.sound,by rw [← hr]; exact h.noProto⟩
  | ok n =>
    rw [andThen_ok _ hr]
    exact ⟨h.counted,h.sound,by simp⟩

theorem releaseAll_kept {w : World} (hC : Counted w.toKeys) (hS : Sound w) : Kept (releaseAll env w) :=
  (releaseAll_spec env hC hS).kept hC fun _ hk => hk.1

theorem call_kept (c : Call) {w : World} (hC : Counted w.toKeys) (hS : Sound w) : Kept (call env c w) := by
  cases c with
  | key scancode pressed repeated => exact consumed_kept (handleKeyboard_kept env hC hS scancode pressed repeated)
  | deviceAdded device => exact consumed_kept (addController_kept env hC hS device)
  | deviceRemoved which => exact consumed_kept (removeController_kept env hC hS which)
  | button which button pressed => exact consumed_kept (handleButton_kept env hC hS which button pressed)
  | axisMotion which axis value => exact consumed_kept (handleAxis_kept env hC hS which axis value)
  | window focusLost =>
    cases focusLost with
    | true =>
      rw [call,if_pos rfl]
      exact consumed_kept (releaseAll_kept env hC hS)
    | false => exact kept_ok hC hS 0
  | other => exact kept_ok hC hS 0
  | mapButton button scancode => exact mapButton_kept env hC hS button scancode
  | mapAxis axis negative positive => exact mapAxis_kept env hC hS axis negative positive
  | releaseAll => exact releaseAll_kept env hC hS
  | poll =>
    obtain ⟨hs,hk,-,-,-⟩ := poll_spec hS
    refine ⟨?_,hs,by simp [call]⟩
    show Counted (poll w).2.toKeys
    rw [hk]
    exact hC

theorem run_kept (calls : List Call) {w : World} (hC : Counted w.toKeys) (hS : Sound w) :
    Counted (run env w calls).toKeys ∧ Sound (run env w calls) := by
  induction calls generalizing w with
  | nil => exact ⟨hC,hS⟩
  | cons c calls ih =>
    have h := call_kept env c hC hS
    exact ih h.counted h.sound

theorem blank_counted : Counted blank.toKeys :=
  counted_cleared (fun c hc => by simp [blank] at hc) (fun _ => rfl) (fun _ _ => rfl)

theorem blank_sound : Sound blank := by
  refine ⟨⟨le_rfl,Or.inl rfl⟩,Nat.zero_le _,rfl,fun _ => alternating_nil,fun sc => ?_⟩
  simp [isDown,blank,flags,lastPressed]

theorem addControllers_kept (devices : List Opened) {w : World} (hC : Counted w.toKeys) (hS : Sound w) :
    Kept (addControllers env devices w) := by
  induction devices generalizing w with
  | nil => exact kept_ok hC hS 0
  | cons device devices ih =>
    have h := addController_kept env hC hS device
    unfold addControllers
    cases hr : (addController env device w).1 with
    | error e =>
      rw [andThen_error _ hr]
      exact ⟨h.counted,h.sound,by rw [← hr]; exact h.noProto⟩
    | ok n =>
      rw [andThen_ok _ hr]
      exact ih h.counted h.sound

theorem create_kept {joysticks : Option (List Opened)} {w : World} (h : create env joysticks = some w) :
    Counted w.toKeys ∧ Sound w := by
  unfold create at h
  split at h
  · cases joysticks with
    | none => simp at h
    | some devices =>
      have hk := addControllers_kept env devices blank_counted blank_sound
      dsimp only at h
      split at h
      · simp at h
      · rename_i n w' heq
        rw [heq] at hk
        obtain rfl : w' = w := by simpa using h
        exact ⟨hk.counted,hk.sound⟩
  · simp at h

/-- In every state a run reaches the counts agree, and no call from there fails with `EPROTO`. -/
theorem key_counts_agree (joysticks : Option (List Opened)) {w₀ : World} (h : create env joysticks = some w₀)
    (calls : List Call) :
    (∀ sc, (run env w₀ calls).keyRefs sc =
      ((run env w₀ calls).keyboardDown sc).toNat+keySum (run env w₀ calls).controllers sc) ∧
    (∀ c ∈ (run env w₀ calls).controllers, ∀ sc, validScancode sc = true →
      c.keyRefs sc = held (run env w₀ calls).toKeys c sc) ∧
    ∀ next, (call env next (run env w₀ calls)).1 ≠ .error .eproto := by
  obtain ⟨hC₀,hS₀⟩ := create_kept env h
  obtain ⟨hC,hS⟩ := run_kept env calls hC₀ hS₀
  exact ⟨hC.total,hC.held,fun next => (call_kept env next hC hS).noProto⟩

/-- With one controller, memory that runs out, and a key held by the keyboard and by a button. -/
theorem key_counts_agree_shared :
    let env : Env := ⟨fun n => decide (n < 4),fun n => n%2⟩
    let w₀ : World := { blank with controllers := [newController 7], mallocs := 2 }
    let w := run env w₀ [.key 40 true false,.button 7 0 true,.key 40 false false,.axisMotion 7 0 (-20000)]
    create env (some [.joystick 7]) = some w₀ ∧
      w.keyRefs 40 = (w.keyboardDown 40).toNat+keySum w.controllers 40 :=
  ⟨rfl,(key_counts_agree _ (some [.joystick 7]) rfl _).1 40⟩

/-- Every press of the key that was queued has a release behind it. -/
def Released (w : World) (sc : ℤ) : Prop :=
  ∀ before after, w.queued = before++⟨sc,true⟩ :: after → ⟨sc,false⟩ ∈ after

theorem Sound.released {w : World} (h : Sound w) {sc : ℤ} (hup : isDown w sc = false) : Released w sc := by
  intro before after hsplit
  by_contra hnone
  have hlast := h.last sc
  rw [hup,hsplit] at hlast
  have hflags : flags (before++⟨sc,true⟩ :: after) sc = flags before sc++true :: flags after sc := by
    simp [flags]
  have hall : ∀ b ∈ true :: flags after sc, b = true := by
    intro b hb
    rcases List.mem_cons.mp hb with rfl | hb
    · rfl
    · obtain ⟨e,he,rfl⟩ := List.mem_map.mp hb
      obtain ⟨hmem,hsc⟩ := List.mem_filter.mp he
      cases hp : e.pressed with
      | true => rfl
      | false =>
        have hev : e = ⟨sc,false⟩ := by
          cases e
          simp_all
        exact absurd (hev ▸ hmem) hnone
  have hne : true :: flags after sc ≠ [] := List.cons_ne_nil _ _
  rw [hflags,lastPressed,List.getLast?_append_of_ne_nil _ hne,List.getLast?_eq_some_getLast hne,Option.getD_some,
    hall _ (List.getLast_mem hne)] at hlast
  exact absurd hlast (by simp)

/-- The events for a key are presses and releases in turn, the last one a press exactly while the key
is down; what was queued is what was polled and what is still there.  After focus is lost, and for
a key no device holds any more, every press has its release. -/
theorem key_events_alternate (joysticks : Option (List Opened)) {w₀ : World} (h : create env joysticks = some w₀)
    (calls : List Call) :
    (run env w₀ calls).queued = (run env w₀ calls).polled++(run env w₀ calls).queue.contents ∧
    (∀ sc, Alternating (flags (run env w₀ calls).queued sc) ∧
      ((flags (run env w₀ calls).queued sc).getLast? = some true ↔ isDown (run env w₀ calls) sc = true)) ∧
    (∀ w', call env (.window true) (run env w₀ calls) = (.ok 1,w') → ∀ sc, Released w' sc) ∧
    ∀ sc, (run env w₀ calls).keyboardDown sc = false →
      (∀ c ∈ (run env w₀ calls).controllers, c.keyRefs sc = 0) → Released (run env w₀ calls) sc := by
  obtain ⟨hC₀,hS₀⟩ := create_kept env h
  obtain ⟨hC,hS⟩ := run_kept env calls hC₀ hS₀
  generalize run env w₀ calls = w at hC hS ⊢
  refine ⟨hS.fifo,fun sc => ⟨hS.alternating sc,?_⟩,?_,?_⟩
  · rw [← hS.last sc,lastPressed]
    cases (flags w.queued sc).getLast? <;> simp
  · intro w' hcall sc
    obtain ⟨hs,⟨e,-,he,-⟩ | ⟨hok,-,hzero⟩⟩ := releaseAll_spec env hC hS
    · rw [call,if_pos rfl,Result.consumed,andThen_error _ he,Prod.mk.injEq] at hcall
      exact absurd hcall.1 (by simp)
    · rw [call,if_pos rfl,Result.consumed,andThen_ok _ hok,Prod.mk.injEq] at hcall
      rw [← hcall.2]
      exact hs.released (by simp [isDown,hzero])
  · intro sc hkb hnone
    have hsum : keySum w.controllers sc = 0 := by
      refine List.sum_eq_zero fun n hn => ?_
      obtain ⟨c,hmem,rfl⟩ := List.mem_map.mp hn
      exact hnone c hmem
    exact hS.released (by simp [isDown,hC.total sc,hkb,hsum])

/-- A key of the keyboard, with a callback that polls. -/
theorem key_events_alternate_keyboard :
    let env : Env := ⟨fun _ => true,fun n => n%2⟩
    let w₀ : World := { blank with controllers := [newController 7], mallocs := 2 }
    let w := run env w₀ [.key 40 true false,.button 7 0 true,.window true]
    create env (some [.joystick 7]) = some w₀ ∧ Alternating (flags w.queued 40) :=
  ⟨rfl,((key_events_alternate _ (some [.joystick 7]) rfl _).2.1 40).1⟩

end Machismo.Sword3Input
