import Machismo.Sword3.InputQueue

/-! # Changing one key

What `change_global_key` and `change_controller_key` do, said once: they leave the keys
alone and fail, or move one count by one, with the event for an edge.  The controllers'
list is read and written at the first entry with an identifier.
-/
namespace Machismo.Sword3Input

section Results

theorem andThen_ok {r : Result} {n : ℕ} (f : World → Result) (h : r.1 = .ok n) : r.andThen f = f r.2 := by
  simp only [Result.andThen,h]

theorem andThen_error {r : Result} {e : Errno} (f : World → Result) (h : r.1 = .error e) :
    r.andThen f = (.error e,r.2) := by
  simp only [Result.andThen,h]

/-- A call fails, not with `EPROTO`, and leaves the keys alone, or succeeds with keys as `P` says. -/
def Gives (r : Result) (w : World) (P : Keys → Prop) : Prop :=
  Sound r.2 ∧ ((∃ e,e ≠ .eproto ∧ r.1 = .error e ∧ r.2.toKeys = w.toKeys) ∨ r.1 = .ok 0 ∧ P r.2.toKeys)

theorem Gives.mono {r : Result} {w : World} {P Q : Keys → Prop} (h : Gives r w P) (hPQ : ∀ k, P k → Q k) :
    Gives r w Q :=
  ⟨h.1,h.2.imp_right fun hok => ⟨hok.1,hPQ _ hok.2⟩⟩

end Results

section Edges

/-- A count after a press or a release. -/
def bump (pressed : Bool) (n : ℕ) : ℕ := if pressed then n+1 else n-1

theorem isEdge_succ (n : ℕ) : isEdge n (n+1) = (n == 0) := by
  simp [isEdge]

theorem isEdge_of_ne_zero {m : ℕ} (n : ℕ) (h : m ≠ 0) : isEdge m n = (n == 0) := by
  have hm : (m == 0) = false := by simpa using h
  simp [isEdge,hm]

theorem isEdge_self (n : ℕ) : isEdge n n = false := by
  simp [isEdge]

variable (env : Env)

theorem enqueue_press (sc : ℤ) (w : World) :
    enqueueIf env ((setKeyRefs sc (w.keyRefs sc+1) w).keyRefs sc == 1) sc true
      (setKeyRefs sc (w.keyRefs sc+1) w) = moveKey env sc (w.keyRefs sc+1) w := by
  unfold moveKey
  rw [isEdge_succ]
  simp [setKeyRefs]

theorem enqueue_release {sc : ℤ} (n : ℕ) {w : World} (h : w.keyRefs sc ≠ 0) :
    enqueueIf env ((setKeyRefs sc n w).keyRefs sc == 0) sc false (setKeyRefs sc n w) =
      moveKey env sc n w := by
  unfold moveKey
  rw [isEdge_of_ne_zero n h]
  rcases Nat.eq_zero_or_pos n with rfl | hpos
  · simp [setKeyRefs]
  · simp [setKeyRefs,hpos.ne',enqueueIf]

theorem moveKey_self (sc : ℤ) (w : World) : moveKey env sc (w.keyRefs sc) w = w := by
  simp [moveKey,isEdge_self,enqueueIf,setKeyRefs]

theorem reserve_move {w : World} (h : Sound w) {sc : ℤ} (hv : validScancode sc = true) (n : ℕ)
    (cs : List Controller → List Controller) (f : World → Result)
    (hf : ∀ w', w'.toKeys = w.toKeys →
      f w' = (.ok 0,moveKey env sc n { w' with controllers := cs w'.controllers })) :
    Gives ((reserveIf env (isEdge (w.keyRefs sc) n) w).andThen f) w fun k => k = { w.toKeys with
      controllers := cs w.controllers
      keyRefs := Function.update w.keyRefs sc n } := by
  have hmove : ∀ w', Sound w' → w'.toKeys = w.toKeys →
      w'.queue.count+(isEdge (w.keyRefs sc) n).toNat ≤ w'.queue.capacity →
      Gives (f w') w fun k => k = { w.toKeys with
        controllers := cs w.controllers
        keyRefs := Function.update w.keyRefs sc n } := by
    intro w' hs hk hroom
    have hs' : Sound { w' with controllers := cs w'.controllers } :=
      hs.withKeys { w'.toKeys with controllers := cs w'.controllers } rfl
    obtain ⟨ms,mk,-,-⟩ := moveKey_spec env hs' hv n (by simpa only [hk] using hroom)
    rw [hf w' hk]
    refine ⟨ms,Or.inr ⟨rfl,mk.trans ?_⟩⟩
    simp only [setKeyRefs,hk]
  unfold reserveIf
  cases he : isEdge (w.keyRefs sc) n with
  | false => exact hmove w h rfl (by simpa [he] using h.valid.fits)
  | true =>
    obtain ⟨hs,hk,-,herr | ⟨hok,hroom⟩⟩ := reserveQueue_spec env h 1
    · simp only [if_true,andThen_error f herr]
      exact ⟨hs,Or.inl ⟨_,by simp,rfl,hk⟩⟩
    · simp only [if_true,andThen_ok f hok]
      exact hmove _ hs hk (by simpa [he] using hroom)

theorem isEdge_pred {n : ℕ} (h : n ≠ 0) : isEdge n (n-1) = (n == 1) := by
  rw [isEdge_of_ne_zero _ h,Bool.eq_iff_iff]
  simp only [beq_iff_eq]
  omega

end Edges

section Keys
variable (env : Env)

theorem changeGlobalKey_spec {w : World} (h : Sound w) {sc : ℤ} (hv : validScancode sc = true) (pressed : Bool)
    (hrel : pressed = false → w.keyRefs sc ≠ 0) :
    Gives (changeGlobalKey env sc pressed w) w fun k => (pressed = true → w.keyRefs sc ≠ shortMax) ∧
      k = { w.toKeys with keyRefs := Function.update w.keyRefs sc (bump pressed (w.keyRefs sc)) } := by
  unfold changeGlobalKey
  simp only [hv,Bool.not_true,Bool.false_eq_true,if_false]
  cases pressed with
  | true =>
    by_cases hfull : w.keyRefs sc = shortMax
    · simp only [if_true,if_pos hfull]
      exact ⟨h,Or.inl ⟨_,by simp,rfl,rfl⟩⟩
    · simp only [if_true,if_neg hfull,← isEdge_succ]
      refine (reserve_move env h hv (w.keyRefs sc+1) id _ ?_).mono fun k hk => ⟨fun _ => hfull,hk⟩
      intro w' hk
      have hrefs : w'.keyRefs sc = w.keyRefs sc := congrArg (Keys.keyRefs · sc) hk
      rw [enqueue_press,hrefs]
      rfl
  | false =>
    have h0 := hrel rfl
    simp only [Bool.false_eq_true,if_false,if_neg h0,← isEdge_pred h0]
    refine (reserve_move env h hv (w.keyRefs sc-1) id _ ?_).mono fun k hk => ⟨fun hp => absurd hp (by simp),hk⟩
    intro w' hk
    have hrefs : w'.keyRefs sc = w.keyRefs sc := congrArg (Keys.keyRefs · sc) hk
    rw [enqueue_release env _ (by rw [hk]; exact h0),hrefs]
    rfl

theorem changeControllerKey_spec {w : World} (h : Sound w) {sc : ℤ} (hv : validScancode sc = true)
    (state : Controller) (pressed : Bool) (hle : state.keyRefs sc ≤ w.keyRefs sc)
    (hrel : pressed = false → state.keyRefs sc ≠ 0) :
    Gives (changeControllerKey env state sc pressed w) w fun k => (pressed = true → w.keyRefs sc ≠ shortMax) ∧
      k = { w.toKeys with
        controllers := modifyController state.instanceId
          (Controller.setKeyRefs sc (bump pressed (state.keyRefs sc))) w.controllers
        keyRefs := Function.update w.keyRefs sc (bump pressed (w.keyRefs sc)) } := by
  unfold changeControllerKey
  simp only [hv,Bool.not_true,Bool.false_eq_true,if_false]
  cases pressed with
  | true =>
    by_cases hfull : state.keyRefs sc = shortMax ∨ w.keyRefs sc = shortMax
    · simp only [if_true,if_pos hfull]
      exact ⟨h,Or.inl ⟨_,by simp,rfl,rfl⟩⟩
    · simp only [if_true,if_neg hfull,← isEdge_succ]
      refine (reserve_move env h hv (w.keyRefs sc+1)
        (modifyController state.instanceId (Controller.setKeyRefs sc (state.keyRefs sc+1))) _ ?_).mono
        fun k hk => ⟨fun _ he => hfull (Or.inr he),hk⟩
      intro w' hk
      rw [enqueue_press]
      simp only [hk,updateController]
  | false =>
    have h0 := hrel rfl
    have hw0 : w.keyRefs sc ≠ 0 := by omega
    simp only [Bool.false_eq_true,if_false,if_neg h0,if_neg hle.not_gt,← isEdge_pred hw0]
    refine (reserve_move env h hv (w.keyRefs sc-1)
      (modifyController state.instanceId (Controller.setKeyRefs sc (state.keyRefs sc-1))) _ ?_).mono
      fun k hk => ⟨fun hp => absurd hp (by simp),hk⟩
    intro w' hk
    rw [enqueue_release env _ (by simp only [updateController,hk]; exact hw0)]
    simp only [hk,updateController]

end Keys

section Controllers
variable {before : List Controller} (after : List Controller) {instanceId : ℤ} {c : Controller}

theorem findController_split {cs : List Controller} (h : cs.find? (fun c => c.instanceId == instanceId) = some c) :
    c.instanceId = instanceId ∧ ∃ before after, cs = before++c :: after ∧
      ∀ d ∈ before, d.instanceId ≠ instanceId := by
  obtain ⟨hc,before,after,hcs,hb⟩ := List.find?_eq_some_iff_append.mp h
  exact ⟨by simpa using hc,before,after,hcs,fun d hd => by simpa using hb d hd⟩

theorem findController_append (hb : ∀ d ∈ before, d.instanceId ≠ instanceId) (hc : c.instanceId = instanceId) :
    (before++c :: after).find? (fun c => c.instanceId == instanceId) = some c :=
  List.find?_eq_some_iff_append.mpr ⟨by simpa using hc,before,after,rfl,fun d hd => by simpa using hb d hd⟩

theorem modifyController_append (hb : ∀ d ∈ before, d.instanceId ≠ instanceId) (hc : c.instanceId = instanceId)
    (f : Controller → Controller) :
    modifyController instanceId f (before++c :: after) = before++f c :: after := by
  induction before with
  | nil => simp [modifyController,hc]
  | cons d before ih =>
    have hd : d.instanceId ≠ instanceId := hb d (by simp)
    simp [modifyController,hd,ih fun d hd => hb d (by simp [hd])]

theorem eraseController_append (hb : ∀ d ∈ before, d.instanceId ≠ instanceId) (hc : c.instanceId = instanceId) :
    (before++c :: after).eraseP (fun c => c.instanceId == instanceId) = before++after := by
  rw [List.eraseP_append_right _ fun d hd => by simpa using hb d hd,List.eraseP_cons_of_pos (by simpa using hc)]

end Controllers

end Machismo.Sword3Input
