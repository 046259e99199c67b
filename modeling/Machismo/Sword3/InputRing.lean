import Machismo.Sword3.InputReleases

/-! # The ring of events as a queue

Calls are made of a few moves on the ring: a reservation, an insertion, a poll.  An
insertion is a move only where the ring has a free cell, a reservation and a poll only
where it holds no more than its capacity, so that the cell written is never an unread one
and no index is taken modulo zero.  From any ring that is well formed every call is made
of such moves, and over any moves what comes out is what went in, in order.
-/
namespace Machismo.Sword3Input
open Machismo.Data Relation

/-- A ring that is well formed, and counts that fit an `unsigned short`. -/
structure Ready (w : World) : Prop where
  valid : w.queue.Valid
  short : ∀ sc, w.keyRefs sc ≤ shortMax

inductive Move (env : Env) : World → World → Prop where
  | keys (k : Keys) {w : World} (hk : ∀ sc, k.keyRefs sc ≤ shortMax) : Move env w { w with toKeys := k }
  | malloc (w : World) : Move env w { w with mallocs := w.mallocs+1 }
  | reserve (n : ℕ) {w : World} (h : w.queue.count ≤ w.queue.capacity) : Move env w (reserveQueue env n w).2
  | poll {w : World} (h : w.queue.count ≤ w.queue.capacity) : Move env w (Sword3Input.poll w).2
  | enqueue (scancode : ℤ) (pressed : Bool) {w : World} (h : w.queue.count < w.queue.capacity) :
      Move env w (enqueueReserved env scancode pressed w)

/-- Made of moves. -/
abbrev Moves (env : Env) : World → World → Prop := ReflTransGen (Move env)

/-- What was in the ring and what was put in since is what was taken out and what is in it now. -/
def Fifo (w w' : World) : Prop :=
  ∃ queued polled, w'.queued = w.queued++queued ∧ w'.polled = w.polled++polled ∧
    w.queue.contents++queued = polled++w'.queue.contents

theorem Fifo.of_contents {w w' : World} (hq : w'.queued = w.queued) (hp : w'.polled = w.polled)
    (hc : w'.queue.contents = w.queue.contents) : Fifo w w' :=
  ⟨[],[],by simpa using hq,by simpa using hp,by simpa using hc.symm⟩

theorem Fifo.trans {w w' w'' : World} (h : Fifo w w') (h' : Fifo w' w'') : Fifo w w'' := by
  obtain ⟨q,p,hq,hp,hc⟩ := h
  obtain ⟨q',p',hq',hp',hc'⟩ := h'
  refine ⟨q++q',p++p',by rw [hq',hq,List.append_assoc],by rw [hp',hp,List.append_assoc],?_⟩
  rw [← List.append_assoc,hc,List.append_assoc,hc',List.append_assoc]

section Ring
variable (env : Env)

theorem reserveQueue_moveTo (n : ℕ) (w : World) :
    (reserveQueue env n w).2.toKeys = w.toKeys ∧ (reserveQueue env n w).2.queued = w.queued ∧
    (reserveQueue env n w).2.polled = w.polled ∧
    ((reserveQueue env n w).2.queue = w.queue ∨
      ∃ capacity,w.queue.count+n ≤ capacity ∧ (reserveQueue env n w).2.queue = w.queue.moveTo capacity) := by
  unfold reserveQueue
  split_ifs
  · exact ⟨rfl,rfl,rfl,Or.inl rfl⟩
  · exact ⟨rfl,rfl,rfl,Or.inl rfl⟩
  · exact ⟨rfl,rfl,rfl,Or.inl rfl⟩
  · exact ⟨rfl,rfl,rfl,Or.inr ⟨_,le_newCapacity _ _,rfl⟩⟩
  · exact ⟨rfl,rfl,rfl,Or.inl rfl⟩

theorem reserveQueue_room (n : ℕ) {m : ℕ} {w : World} (h : (reserveQueue env n w).1 = .ok m) :
    (reserveQueue env n w).2.queue.count+n ≤ (reserveQueue env n w).2.queue.capacity := by
  unfold reserveQueue at h ⊢
  split_ifs at h ⊢ with h1 h2 h3 h4
  · exact h2
  · exact le_newCapacity _ _

theorem poll_fifo {w : World} : Fifo w (poll w).2 := by
  unfold poll
  split
  · exact Fifo.of_contents rfl rfl rfl
  · rename_i hcount
    exact ⟨[],[w.queue.event 0],by simp,rfl,by simpa using Circular.contents_eq_cons _ hcount⟩

theorem poll_head (w : World) : (poll w).1 = w.queue.contents.head? := by
  unfold poll
  split
  · rename_i hcount
    simp [Circular.contents,hcount]
  · rename_i hcount
    rw [Circular.contents_eq_cons _ hcount,List.head?_cons]

theorem poll_ready {w : World} (h : Ready w) : Ready (poll w).2 := by
  unfold poll
  split
  · exact h
  · exact ⟨Circular.pop_valid h.valid,h.short⟩

theorem polls_ready (n : ℕ) {w : World} (h : Ready w) :
    Ready ((fun w => (poll w).2)^[n] w) ∧ Fifo w ((fun w => (poll w).2)^[n] w) ∧
      ((fun w => (poll w).2)^[n] w).queue.capacity = w.queue.capacity ∧
      ((fun w => (poll w).2)^[n] w).queue.count ≤ w.queue.count ∧
      ((fun w => (poll w).2)^[n] w).toKeys = w.toKeys := by
  induction n generalizing w with
  | zero => exact ⟨h,Fifo.of_contents rfl rfl rfl,rfl,le_rfl,rfl⟩
  | succ n ih =>
    obtain ⟨hr,hf,hcap,hcount,hk⟩ := ih (poll_ready h)
    have hpoll : (poll w).2.queue.capacity = w.queue.capacity ∧ (poll w).2.queue.count ≤ w.queue.count ∧
        (poll w).2.toKeys = w.toKeys := by
      unfold poll
      split
      · exact ⟨rfl,le_rfl,rfl⟩
      · exact ⟨rfl,Nat.sub_le _ _,rfl⟩
    rw [Function.iterate_succ_apply]
    exact ⟨hr,poll_fifo.trans hf,hcap.trans hpoll.1,hcount.trans hpoll.2.1,hk.trans hpoll.2.2⟩

theorem enqueueReserved_ready (sc : ℤ) (pressed : Bool) {w : World} (h : Ready w)
    (hroom : w.queue.count < w.queue.capacity) :
    Ready (enqueueReserved env sc pressed w) ∧ Fifo w (enqueueReserved env sc pressed w) ∧
      (enqueueReserved env sc pressed w).queue.capacity = w.queue.capacity ∧
      (enqueueReserved env sc pressed w).queue.count ≤ w.queue.count+1 ∧
      (enqueueReserved env sc pressed w).toKeys = w.toKeys := by
  have hpushed : Ready { w with
      queue := w.queue.push ⟨sc,pressed⟩
      queued := w.queued++[⟨sc,pressed⟩] } := ⟨Circular.push_valid h.valid _ hroom,h.short⟩
  obtain ⟨hr,hf,hcap,hcount,hk⟩ := polls_ready (env.polls w.queued.length) hpushed
  refine ⟨hr,Fifo.trans ⟨[⟨sc,pressed⟩],[],rfl,by simp,?_⟩ hf,hcap,hcount,hk⟩
  simpa using (Circular.push_contents w.queue ⟨sc,pressed⟩ hroom).symm

theorem Move.keeps {w w' : World} (h : Move env w w') (hw : Ready w) : Ready w' ∧ Fifo w w' := by
  cases h with
  | keys k hk => exact ⟨⟨hw.valid,hk⟩,Fifo.of_contents rfl rfl rfl⟩
  | malloc => exact ⟨⟨hw.valid,hw.short⟩,Fifo.of_contents rfl rfl rfl⟩
  | reserve n hle =>
    obtain ⟨hk,hq,hp,hsame | ⟨capacity,hcap,hmoved⟩⟩ := reserveQueue_moveTo env n w
    · exact ⟨⟨by rw [hsame]; exact hw.valid,by rw [hk]; exact hw.short⟩,Fifo.of_contents hq hp (by rw [hsame])⟩
    · have hle : w.queue.count ≤ capacity := by omega
      refine ⟨⟨by rw [hmoved]; exact Circular.moveTo_valid _ hle,by rw [hk]; exact hw.short⟩,?_⟩
      exact Fifo.of_contents hq hp (by rw [hmoved]; exact Circular.moveTo_contents _ hle)
  | poll => exact ⟨poll_ready hw,poll_fifo⟩
  | enqueue sc pressed hroom =>
    obtain ⟨hr,hf,-⟩ := enqueueReserved_ready env sc pressed hw hroom
    exact ⟨hr,hf⟩

theorem Moves.keeps {w w' : World} (h : Moves env w w') (hw : Ready w) : Ready w' ∧ Fifo w w' := by
  induction h with
  | refl => exact ⟨hw,Fifo.of_contents rfl rfl rfl⟩
  | tail _ hmove ih =>
    obtain ⟨hr,hf⟩ := Move.keeps env hmove ih.1
    exact ⟨hr,ih.2.trans hf⟩

end Ring

section Calls
variable (env : Env)

theorem moves_andThen {w : World} {r : Result} {f : World → Result} (h : Moves env w r.2)
    (hf : ∀ n, r.1 = .ok n → Moves env r.2 (f r.2).2) : Moves env w (r.andThen f).2 := by
  cases hr : r.1 with
  | error e =>
    rw [andThen_error _ hr]
    exact h
  | ok n =>
    rw [andThen_ok _ hr]
    exact h.trans (hf n hr)

theorem reserve_moves (n : ℕ) {w : World} (h : Ready w) : Moves env w (reserveQueue env n w).2 :=
  ReflTransGen.single (Move.reserve n h.valid.fits)

theorem keys_moves (k : Keys) {w : World} (hk : ∀ sc, k.keyRefs sc ≤ shortMax) :
    Moves env w { w with toKeys := k } :=
  ReflTransGen.single (Move.keys k hk)

theorem enqueueIf_moves {edge : Bool} (sc : ℤ) (pressed : Bool) {w : World}
    (hroom : edge = true → w.queue.count < w.queue.capacity) : Moves env w (enqueueIf env edge sc pressed w) := by
  cases edge with
  | false => exact ReflTransGen.refl
  | true => exact ReflTransGen.single (Move.enqueue sc pressed (hroom rfl))

theorem reserve_insert_moves (edge : Bool) (sc : ℤ) (pressed : Bool) {w : World} (h : Ready w) (k : World → Keys)
    (hk : ∀ w', w'.toKeys = w.toKeys → ∀ sc, (k w').keyRefs sc ≤ shortMax) {f : World → Result}
    (hf : ∀ w', w'.toKeys = w.toKeys → (f w').2 = enqueueIf env edge sc pressed { w' with toKeys := k w' }) :
    Moves env w ((reserveIf env edge w).andThen f).2 := by
  cases edge with
  | false =>
    refine moves_andThen env ReflTransGen.refl fun _ _ => ?_
    rw [show (reserveIf env false w).2 = w from rfl,hf w rfl]
    exact keys_moves env _ (hk w rfl)
  | true =>
    refine moves_andThen env (reserve_moves env 1 h) fun n hok => ?_
    have hkeys : (reserveQueue env 1 w).2.toKeys = w.toKeys := (reserveQueue_moveTo env 1 w).1
    have hroom := reserveQueue_room env 1 hok
    rw [show reserveIf env true w = reserveQueue env 1 w from rfl,hf _ hkeys]
    exact (keys_moves env _ (hk _ hkeys)).trans (enqueueIf_moves env sc pressed fun _ => hroom)

/-- A loop that changes keys and inserts on the edges it was reserved for.  What `Q` says of a
scancode, its own step may end and no other's. -/
theorem fold_moves {f : World → ℤ → World} {Q : Keys → ℤ → Prop} {edge : ℤ → Bool}
    (hf : ∀ (w : World) (sc : ℤ), Ready w → Q w.toKeys sc → ∃ k : Keys, (∀ sc, k.keyRefs sc ≤ shortMax) ∧
      (∀ sc', sc' ≠ sc → Q w.toKeys sc' → Q k sc') ∧ f w sc = enqueueIf env (edge sc) sc false { w with toKeys := k })
    (L : List ℤ) (hnodup : L.Nodup) {w : World} (hw : Ready w) (hQ : ∀ sc ∈ L, Q w.toKeys sc)
    (hroom : w.queue.count+L.countP edge ≤ w.queue.capacity) : Moves env w (L.foldl f w) := by
  induction L generalizing w with
  | nil => exact ReflTransGen.refl
  | cons sc L ih =>
    obtain ⟨hnew,hnodup⟩ := List.nodup_cons.mp hnodup
    obtain ⟨k,hk,hother,hstep⟩ := hf w sc hw (hQ sc (by simp))
    have hready : Ready { w with toKeys := k } := ⟨hw.valid,hk⟩
    have hQ' : ∀ sc' ∈ L, Q k sc' := fun sc' hmem =>
      hother sc' (fun e => hnew (e ▸ hmem)) (hQ sc' (by simp [hmem]))
    rw [List.countP_cons] at hroom
    rw [List.foldl_cons,hstep]
    refine (keys_moves env k hk).trans ?_
    cases hedge : edge sc with
    | false => exact ih hnodup hready hQ' (by simpa [hedge] using hroom)
    | true =>
      simp only [hedge,if_true] at hroom
      have hfree : w.queue.count < w.queue.capacity := by omega
      obtain ⟨hr,-,hcap,hcount,hkeys⟩ := enqueueReserved_ready env sc false hready hfree
      refine ReflTransGen.trans (ReflTransGen.single (Move.enqueue sc false hfree)) (ih hnodup hr ?_ ?_)
      · intro sc' hmem
        rw [hkeys]
        exact hQ' sc' hmem
      · rw [hcap]
        have hcount : (enqueueReserved env sc false { w with toKeys := k }).queue.count ≤ w.queue.count+1 := hcount
        show _ ≤ w.queue.capacity
        omega

theorem update_short {refs : ℤ → ℕ} (h : ∀ sc, refs sc ≤ shortMax) {n : ℕ} (hn : n ≤ shortMax) (sc sc' : ℤ) :
    Function.update refs sc n sc' ≤ shortMax := by
  rcases eq_or_ne sc' sc with rfl | hne
  · rw [Function.update_self]
    exact hn
  · rw [Function.update_of_ne hne]
    exact h sc'

/-- What a press or a release makes of the keys, given what it makes of the controllers. -/
def withKey (sc : ℤ) (n : ℕ) (controllers : List Controller → List Controller) (k : Keys) : Keys :=
  { k with controllers := controllers k.controllers, keyRefs := Function.update k.keyRefs sc n }

theorem press_moves (sc : ℤ) (cs : List Controller → List Controller) {w : World} (h : Ready w)
    (hfull : w.keyRefs sc ≠ shortMax) :
    Moves env w ((reserveIf env (w.keyRefs sc == 0) w).andThen fun w =>
      (.ok 0,enqueueIf env ((setKeyRefs sc (w.keyRefs sc+1) { w with controllers := cs w.controllers }).keyRefs sc == 1)
        sc true (setKeyRefs sc (w.keyRefs sc+1) { w with controllers := cs w.controllers }))).2 := by
  have hlt : w.keyRefs sc+1 ≤ shortMax := lt_of_le_of_ne (h.short sc) hfull
  refine reserve_insert_moves env (w.keyRefs sc == 0) sc true h
    (fun w' => withKey sc (w'.keyRefs sc+1) cs w'.toKeys) ?_ ?_
  · intro w' hk
    rw [hk]
    exact update_short h.short hlt sc
  · intro w' hk
    have hedge : (w.keyRefs sc+1 == 1) = (w.keyRefs sc == 0) := by simp
    simp only [setKeyRefs,withKey,Function.update_self,hk,hedge]

theorem release_moves (sc : ℤ) (cs : List Controller → List Controller) {w : World} (h : Ready w)
    (h0 : w.keyRefs sc ≠ 0) :
    Moves env w ((reserveIf env (w.keyRefs sc == 1) w).andThen fun w =>
      (.ok 0,enqueueIf env ((setKeyRefs sc (w.keyRefs sc-1) { w with controllers := cs w.controllers }).keyRefs sc == 0)
        sc false (setKeyRefs sc (w.keyRefs sc-1) { w with controllers := cs w.controllers }))).2 := by
  refine reserve_insert_moves env (w.keyRefs sc == 1) sc false h
    (fun w' => withKey sc (w'.keyRefs sc-1) cs w'.toKeys) ?_ ?_
  · intro w' hk
    rw [hk]
    exact update_short h.short ((Nat.sub_le _ _).trans (h.short sc)) sc
  · intro w' hk
    have hedge : (w.keyRefs sc-1 == 0) = (w.keyRefs sc == 1) := by
      rw [← isEdge_of_ne_zero _ h0,isEdge_pred h0]
    simp only [setKeyRefs,withKey,Function.update_self,hk,hedge]

theorem changeGlobalKey_moves (sc : ℤ) (pressed : Bool) {w : World} (h : Ready w) :
    Moves env w (changeGlobalKey env sc pressed w).2 := by
  unfold changeGlobalKey
  split
  · exact ReflTransGen.refl
  split
  · split
    · exact ReflTransGen.refl
    · rename_i hfull
      exact press_moves env sc id h hfull
  · split
    · exact ReflTransGen.refl
    · rename_i h0
      exact release_moves env sc id h h0

theorem changeControllerKey_moves (state : Controller) (sc : ℤ) (pressed : Bool) {w : World} (h : Ready w) :
    Moves env w (changeControllerKey env state sc pressed w).2 := by
  unfold changeControllerKey
  split
  · exact ReflTransGen.refl
  split
  · split
    · exact ReflTransGen.refl
    · rename_i hfull
      exact press_moves env sc
        (modifyController state.instanceId (Controller.setKeyRefs sc (state.keyRefs sc+1))) h fun e => hfull (Or.inr e)
  · split
    · exact ReflTransGen.refl
    split
    · exact ReflTransGen.refl
    · rename_i h0 hle
      exact release_moves env sc
        (modifyController state.instanceId (Controller.setKeyRefs sc (state.keyRefs sc-1))) h (by omega)

theorem moves_ready {w w' : World} (hm : Moves env w w') (h : Ready w) : Ready w' := (Moves.keeps env hm h).1

theorem moves_andThen_keys {w : World} {r : Result} (hm : Moves env w r.2) (h : Ready w) (k : Keys → Keys)
    (hk : ∀ k₀, (k k₀).keyRefs = k₀.keyRefs) :
    Moves env w (r.andThen fun w' => (.ok 0,{ w' with toKeys := k w'.toKeys })).2 := by
  refine moves_andThen env hm fun n _ => keys_moves env (k r.2.toKeys) fun sc => ?_
  rw [hk]
  exact (moves_ready env hm h).short sc

theorem shortSub_le (a b : ℕ) : shortSub a b ≤ shortMax :=
  Nat.le_of_lt_succ (Nat.mod_lt _ (by omega))

theorem reserve_andThen_moves (n : ℕ) {w : World} (h : Ready w) {f : World → Result}
    (hf : ∀ w', Ready w' → w'.toKeys = w.toKeys → w'.queue.count+n ≤ w'.queue.capacity → Moves env w' (f w').2) :
    Moves env w ((reserveQueue env n w).andThen f).2 := by
  have hreserve := reserve_moves env n h
  exact moves_andThen env hreserve fun _ hok =>
    hf _ (moves_ready env hreserve h) (reserveQueue_moveTo env n w).1 (reserveQueue_room env n hok)

theorem releaseController_moves (state : Controller) {w : World} (h : Ready w) :
    Moves env w (releaseController env state w).2 := by
  have hnodup := scancodes_nodup
  unfold releaseController
  generalize scancodes = L at *
  split
  · exact ReflTransGen.refl
  rename_i hle
  simp only [List.any_eq_true,decide_eq_true_eq,not_exists,not_and,not_lt] at hle
  refine reserve_andThen_moves env _ h fun w₁ hready hkeys hroom => ?_
  have hloop := fold_moves env (f := releaseKey env state)
    (Q := fun k sc => state.keyRefs sc ≤ w.keyRefs sc ∧ k.keyRefs sc = w.keyRefs sc) ?_ L hnodup hready
    (fun sc hsc => ⟨hle sc hsc,by rw [hkeys]⟩) hroom
  · have hend := moves_ready env hloop hready
    exact hloop.trans (keys_moves env
      (updateController state.instanceId Controller.clearInputs (L.foldl (releaseKey env state) w₁)).toKeys hend.short)
  · rintro w' sc hw' ⟨hsc,hold⟩
    by_cases h0 : state.keyRefs sc = 0
    · refine ⟨w'.toKeys,hw'.short,fun _ _ hq => hq,?_⟩
      simp [releaseKey,h0,enqueueIf]
    · refine ⟨withKey sc (shortSub (w'.keyRefs sc) (state.keyRefs sc))
        (modifyController state.instanceId (Controller.setKeyRefs sc 0)) w'.toKeys,
        update_short hw'.short (shortSub_le _ _) sc,?_,?_⟩
      · intro sc' hne hq
        refine ⟨hq.1,?_⟩
        rw [← hq.2]
        exact Function.update_of_ne hne _ _
      · have hedge : (shortSub (w.keyRefs sc) (state.keyRefs sc) == 0) =
            (state.keyRefs sc != 0 && state.keyRefs sc == w.keyRefs sc) := by
          rw [shortSub_of_le hsc (by rw [← hold]; exact hw'.short sc),← isEdge_sub hsc,isEdge_of_ne_zero _ (by omega)]
        simp only [releaseKey,if_neg h0,setKeyRefs,updateController,Function.update_self,hold,hedge,withKey]

theorem removeController_moves (which : ℤ) {w : World} (h : Ready w) :
    Moves env w (removeController env which w).2 := by
  unfold removeController
  split
  · exact ReflTransGen.refl
  · rename_i state _
    have hm := releaseController_moves env state h
    exact moves_andThen_keys env hm h
      (fun k => { k with controllers := k.controllers.eraseP fun c => c.instanceId == which }) fun _ => rfl

theorem addController_moves (device : Opened) {w : World} (h : Ready w) :
    Moves env w (addController env device w).2 := by
  cases device with
  | notController => exact ReflTransGen.refl
  | openFailed => exact ReflTransGen.refl
  | noJoystick => exact ReflTransGen.refl
  | joystick instanceId =>
    unfold addController
    dsimp only
    split_ifs
    · exact ReflTransGen.refl
    · exact ReflTransGen.refl
    · exact (keys_moves env { w.toKeys with controllers := newController instanceId :: w.controllers } h.short).trans
        (ReflTransGen.single (Move.malloc _))
    · exact ReflTransGen.single (Move.malloc w)

theorem handleKeyboard_moves (sc : ℤ) (pressed repeated : Bool) {w : World} (h : Ready w) :
    Moves env w (handleKeyboard env sc pressed repeated w).2 := by
  unfold handleKeyboard
  split_ifs
  · exact ReflTransGen.refl
  · exact ReflTransGen.refl
  · have hm := changeGlobalKey_moves env sc pressed h
    exact moves_andThen_keys env hm h
      (fun k => { k with keyboardDown := Function.update k.keyboardDown sc pressed }) fun _ => rfl

theorem updateController_moves (which : ℤ) (f : Controller → Controller) {w : World} (h : Ready w) :
    Moves env w (updateController which f w) :=
  keys_moves env { w.toKeys with controllers := modifyController which f w.controllers } h.short

theorem handleButton_moves (which button : ℤ) (pressed : Bool) {w : World} (h : Ready w) :
    Moves env w (handleButton env which button pressed w).2 := by
  unfold handleButton
  split
  · exact ReflTransGen.refl
  · rename_i state _
    split_ifs
    · exact ReflTransGen.refl
    · have hm := changeControllerKey_moves env state (w.buttonMap button) pressed h
      exact moves_andThen env hm fun n _ => updateController_moves env which _ (moves_ready env hm h)
    · exact ReflTransGen.refl

theorem changeAxisKey_moves (which axis direction : ℤ) (pressed : Bool) {w : World} (h : Ready w) :
    Moves env w (changeAxisKey env which axis direction pressed w).2 := by
  unfold changeAxisKey
  split
  · exact ReflTransGen.refl
  · split_ifs
    · exact ReflTransGen.refl
    · exact changeControllerKey_moves env _ _ pressed h

theorem handleAxis_moves (which axis value : ℤ) {w : World} (h : Ready w) :
    Moves env w (handleAxis env which axis value w).2 := by
  unfold handleAxis
  split
  · exact ReflTransGen.refl
  · rename_i state _
    split_ifs
    · exact ReflTransGen.refl
    · exact ReflTransGen.refl
    · have hrelease := changeAxisKey_moves env which axis (state.axisDirection axis) false h
      refine moves_andThen env hrelease fun n _ => ?_
      have hcentre := updateController_moves env which (Controller.setAxis axis 0) (moves_ready env hrelease h)
      have hready := moves_ready env (hrelease.trans hcentre) h
      have hpress := changeAxisKey_moves env which axis (newDirection (state.axisDirection axis) value) true hready
      refine hcentre.trans (moves_andThen env hpress fun m _ => ?_)
      exact updateController_moves env which _ (moves_ready env hpress hready)

theorem releaseAll_moves {w : World} (h : Ready w) : Moves env w (releaseAll env w).2 := by
  have hnodup := scancodes_nodup
  unfold releaseAll
  generalize scancodes = L at *
  refine reserve_andThen_moves env _ h fun w₁ hready hkeys hroom => ?_
  have hclear : Moves env w₁ { w₁ with
      keyboardDown := fun _ => false
      controllers := w₁.controllers.map fun c => c.clearKeys.clearInputs } :=
    keys_moves env { w₁.toKeys with
      keyboardDown := fun _ => false
      controllers := w₁.controllers.map fun c => c.clearKeys.clearInputs } hready.short
  refine hclear.trans (fold_moves env (Q := fun k sc => k.keyRefs sc = w.keyRefs sc) ?_ L hnodup
    (moves_ready env hclear hready) (fun sc _ => by rw [hkeys]) hroom)
  intro w' sc hw' hold
  by_cases h0 : w.keyRefs sc = 0
  · refine ⟨w'.toKeys,hw'.short,fun _ _ hq => hq,?_⟩
    simp [clearKey,hold,h0,enqueueIf]
  · refine ⟨withKey sc 0 id w'.toKeys,update_short hw'.short (Nat.zero_le _) sc,?_,?_⟩
    · intro sc' hne hq
      rw [← hq]
      exact Function.update_of_ne hne _ _
    · simp [clearKey,hold,h0,enqueueIf,withKey,setKeyRefs]

theorem ownedBy_setKeyRefs (cs : List Controller) {sc sc' : ℤ} (hne : sc' ≠ sc) :
    ownedBy (cs.map (Controller.setKeyRefs sc 0)) sc' = ownedBy cs sc' := by
  have hkey : (fun (owned : ℕ) c => (owned+(Controller.setKeyRefs sc 0 c).keyRefs sc')%2^64) =
      fun (owned : ℕ) c => (owned+Controller.keyRefs c sc')%2^64 := by
    funext owned c
    simp [Controller.setKeyRefs,hne]
  rw [ownedBy,List.foldl_map,hkey,ownedBy]

theorem clearAllInputs_moves {w : World} (h : Ready w) : Moves env w (clearAllInputs w) :=
  keys_moves env { w.toKeys with controllers := w.controllers.map Controller.clearInputs } h.short

theorem releaseControllerInputs_moves {w : World} (h : Ready w) : Moves env w (releaseControllerInputs env w).2 := by
  have hnodup := scancodes_nodup
  obtain ⟨owned,howned⟩ : ∃ owned : ℤ → ℕ, ∀ sc, ownedBy w.controllers sc = owned sc := ⟨_,fun _ => rfl⟩
  unfold releaseControllerInputs
  generalize scancodes = L at *
  simp only [howned]
  split
  · exact ReflTransGen.refl
  rename_i hle
  simp only [List.any_eq_true,decide_eq_true_eq,not_exists,not_and,not_lt] at hle
  refine reserve_andThen_moves env _ h fun w₁ hready hkeys hroom => ?_
  have hloop := fold_moves env (f := releaseOwned env)
    (Q := fun k sc => owned sc ≤ w.keyRefs sc ∧ k.keyRefs sc = w.keyRefs sc ∧ ownedBy k.controllers sc = owned sc)
    ?_ L hnodup hready (fun sc hsc => ⟨hle sc hsc,by rw [hkeys],by rw [hkeys,howned]⟩) hroom
  · have hend := moves_ready env hloop hready
    generalize L.foldl (releaseOwned env) w₁ = w₂ at hloop hend ⊢
    exact hloop.trans (clearAllInputs_moves env hend)
  · rintro w' sc hw' ⟨hsc,hold,hown⟩
    refine ⟨withKey sc (shortSub (w'.keyRefs sc) (owned sc)) (List.map (Controller.setKeyRefs sc 0)) w'.toKeys,
      update_short hw'.short (shortSub_le _ _) sc,?_,?_⟩
    · rintro sc' hne ⟨hsc',hold',hown'⟩
      refine ⟨hsc',?_,?_⟩
      · rw [← hold']
        exact Function.update_of_ne hne _ _
      · rw [← hown']
        exact ownedBy_setKeyRefs w'.controllers hne
    · have hedge : (owned sc != 0 && shortSub (w.keyRefs sc) (owned sc) == 0) =
          (owned sc != 0 && owned sc == w.keyRefs sc) := by
        rw [shortSub_of_le hsc (by rw [← hold]; exact hw'.short sc),Bool.eq_iff_iff]
        simp only [Bool.and_eq_true,bne_iff_ne,beq_iff_eq,and_congr_right_iff]
        omega
      simp only [releaseOwned,setKeyRefs,Function.update_self,hold,hown,hedge,withKey]

theorem mapButton_moves (button sc : ℤ) {w : World} (h : Ready w) : Moves env w (mapButton env button sc w).2 := by
  unfold mapButton
  split
  · exact ReflTransGen.refl
  · have hm := releaseControllerInputs_moves env h
    exact moves_andThen_keys env hm h
      (fun k => { k with buttonMap := Function.update k.buttonMap button sc }) fun _ => rfl

theorem mapAxis_moves (axis negative positive : ℤ) {w : World} (h : Ready w) :
    Moves env w (mapAxis env axis negative positive w).2 := by
  unfold mapAxis
  split
  · exact ReflTransGen.refl
  · have hm := releaseControllerInputs_moves env h
    exact moves_andThen_keys env hm h (fun k => { k with
      axisNegative := Function.update k.axisNegative axis negative
      axisPositive := Function.update k.axisPositive axis positive }) fun _ => rfl

theorem consumed_moves {w : World} {r : Result} (h : Moves env w r.2) : Moves env w r.consumed.2 :=
  moves_andThen env h fun _ _ => ReflTransGen.refl

theorem call_moves (c : Call) {w : World} (h : Ready w) : Moves env w (call env c w).2 := by
  cases c with
  | key scancode pressed repeated => exact consumed_moves env (handleKeyboard_moves env scancode pressed repeated h)
  | deviceAdded device => exact consumed_moves env (addController_moves env device h)
  | deviceRemoved which => exact consumed_moves env (removeController_moves env which h)
  | button which button pressed => exact consumed_moves env (handleButton_moves env which button pressed h)
  | axisMotion which axis value => exact consumed_moves env (handleAxis_moves env which axis value h)
  | window focusLost =>
    cases focusLost with
    | true =>
      rw [call,if_pos rfl]
      exact consumed_moves env (releaseAll_moves env h)
    | false => exact ReflTransGen.refl
  | other => exact ReflTransGen.refl
  | mapButton button scancode => exact mapButton_moves env button scancode h
  | mapAxis axis negative positive => exact mapAxis_moves env axis negative positive h
  | releaseAll => exact releaseAll_moves env h
  | poll => exact ReflTransGen.single (Move.poll h.valid.fits)

theorem run_moves (calls : List Call) {w : World} (h : Ready w) : Moves env w (run env w calls) := by
  induction calls generalizing w with
  | nil => exact ReflTransGen.refl
  | cons c calls ih =>
    have hm := call_moves env c h
    exact hm.trans (ih (moves_ready env hm h))

end Calls

/-- From any ring and any counts that fit, whatever is called and whichever allocations fail: every insertion finds a
free cell, a poll returns the oldest event, and the events that come out, in polls of the caller and of the callback,
are those that were there and those put in since, each once and in order. -/
theorem poll_returns_queued (env : Env) {w : World} (hvalid : w.queue.Valid) (hshort : ∀ sc, w.keyRefs sc ≤ shortMax)
    (calls : List Call) :
    Moves env w (run env w calls) ∧ (run env w calls).queue.Valid ∧
      (poll (run env w calls)).1 = (run env w calls).queue.contents.head? ∧
      ∃ queued polled, (run env w calls).queued = w.queued++queued ∧ (run env w calls).polled = w.polled++polled ∧
        w.queue.contents++queued = polled++(run env w calls).queue.contents := by
  have hm := run_moves env calls ⟨hvalid,hshort⟩
  obtain ⟨hready,hfifo⟩ := Moves.keeps env hm ⟨hvalid,hshort⟩
  exact ⟨hm,hready.valid,poll_head _,hfifo⟩

/-- A full ring of two cells whose second cell comes first: it grows on the next press, and the callback polls. -/
theorem poll_returns_queued_grown :
    let env : Env := ⟨fun _ => true,fun n => n+1⟩
    let w : World := { blank with queue := ⟨fun i => ⟨i,true⟩,2,1,2⟩ }
    let w' := run env w [.key 40 true false,.key 41 true false,.poll]
    w'.polled = [⟨1,true⟩,⟨0,true⟩,⟨40,true⟩,⟨41,true⟩] ∧ w'.queue.Valid :=
  ⟨by decide +kernel,(poll_returns_queued _ ⟨le_rfl,Or.inr (by decide)⟩ (fun _ => Nat.zero_le _) _).2.1⟩

end Machismo.Sword3Input
