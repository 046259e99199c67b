import Machismo.Sword3.Movie

/-! # Runs of the movie player

What holds after any steps of the player and the game. A movie that is played while a callback runs cannot be
closed: `closing` is still set, every `movie_close(1)` returns at once, and the loop of that movie has no end.
-/
namespace Machismo.Sword3.Movie
namespace State

/-- What is asked for a movie from the time on that it was to be closed with notice. -/
structure Closed (s : State) (m : ℕ) : Prop where
  released : ∀ kind, (kind,m) ∉ s.live
  done : s.invoked.count m = (s.plays.getD m false).toNat
  exits : s.stack.head? = some (.loop m) → (step s .loopExits).isSome

/-- The step that closes a movie leaves the slot empty. -/
def RightStep (s s' : State) : Prop :=
  (s'.asked ≠ s.asked → s'.movie = emptySlot) ∧ ∀ m ∈ s'.asked, s'.Closed m

def RightRun (s : State) : List Event → Prop
  | [] => True
  | e :: events => ∀ s', step s e = some s' → s.RightStep s' ∧ s'.RightRun events

/-- No movie reaches its end, is skipped or is stopped while a callback runs. -/
def EndsOutside (s : State) : List Event → Prop
  | [] => True
  | e :: events => ∀ s', step s e = some s' →
      (s'.asked ≠ s.asked → ∀ frame ∈ s.stack, frame.isCallback = false) ∧ s'.EndsOutside events

end State

def Slot.resources (x : Slot) : List Resource :=
  x.audio.toList.map (.audio,·) ++ (x.texture.toList.map (.texture,·) ++ x.video.toList.map (.video,·))

namespace State

/-- The movie that is on is the one whose loop is on top, and it has not been closed before. -/
structure On (s : State) (m : ℕ) : Prop where
  top : s.stack.head? = some (.loop m)
  video : s.movie.video = some m
  owned : ∀ r ∈ s.movie.resources, r.2 = m
  done : s.movie.done = if s.plays.getD m false then some m else none
  known : m < s.plays.length
  new : m ∉ s.asked

structure Inv (s : State) : Prop where
  closing : s.stack.countP Frame.isCallback = s.closing.toNat
  live : s.live.Perm s.movie.resources
  inactive : s.movie.active = false → s.movie = emptySlot
  active : s.movie.active = true → ∃ m, s.On m
  known : ∀ m ∈ s.asked, m < s.plays.length
  invoked : ∀ m ∈ s.invoked, m ∈ s.asked
  once : ∀ m ∈ s.asked, s.invoked.count m = (s.plays.getD m false).toNat

theorem start_inv : start.Inv where
  closing := rfl
  live := .nil
  inactive := fun _ => rfl
  active := nofun
  known := nofun
  invoked := nofun
  once := nofun

variable {s : State}

theorem Inv.closed (h : s.Inv) {m : ℕ} (hm : m ∈ s.asked) : s.Closed m := by
  have hoff : ∀ n, s.On n → m ≠ n := by
    rintro n hn rfl
    exact hn.new hm
  refine ⟨?_,h.once m hm,?_⟩
  · intro kind hmem
    have hres := h.live.mem_iff.mp hmem
    cases hactive : s.movie.active with
    | true =>
      obtain ⟨n,hn⟩ := h.active hactive
      exact hoff n hn (hn.owned _ hres)
    | false =>
      rw [h.inactive hactive] at hres
      exact absurd hres List.not_mem_nil
  · intro htop
    cases hactive : s.movie.active with
    | true =>
      obtain ⟨n,hn⟩ := h.active hactive
      have hloop := Option.some.inj (htop.symm.trans hn.top)
      exact absurd (Frame.loop.inj hloop) (hoff n hn)
    | false =>
      obtain ⟨stack,hstack⟩ := List.head?_eq_some_iff.mp htop
      simp [step,hstack,hactive]

theorem release_perm {k : Kind} {movie : Option ℕ} {live rest : List Resource}
    (h : live.Perm (movie.toList.map (k,·) ++ rest)) : (release k movie live).Perm rest := by
  cases movie with
  | none => exact h
  | some m =>
    have herase := h.erase (k,m)
    rwa [Option.toList_some,List.map_singleton,List.singleton_append,List.erase_cons_head] at herase

theorem cleared_live (h : s.live.Perm s.movie.resources) : s.cleared.live = [] := by
  have haudio := release_perm (k := .audio) h
  have htexture := release_perm (k := .texture) haudio
  rw [← List.append_nil (s.movie.video.toList.map _)] at htexture
  exact (release_perm (k := .video) htexture).eq_nil

theorem Inv.off (h : s.Inv) {m : ℕ} (hon : s.On m) {s' : State} (hmovie : s'.movie = emptySlot) (hlive : s'.live = [])
    (hplays : s'.plays = s.plays) (hasked : s'.asked = m :: s.asked)
    (hinvoked : s'.invoked = if s.plays.getD m false then m :: s.invoked else s.invoked)
    (hclosing : s'.stack.countP Frame.isCallback = s'.closing.toNat) : s'.Inv := by
  have hnever : s.invoked.count m = 0 := List.count_eq_zero.mpr fun hm => hon.new (h.invoked m hm)
  refine ⟨hclosing,?_,fun _ => hmovie,?_,?_,?_,?_⟩
  · rw [hlive,hmovie]
    exact .nil
  · intro hactive
    rw [hmovie] at hactive
    exact nomatch hactive
  · intro n hn
    rw [hplays]
    rw [hasked] at hn
    rcases List.mem_cons.mp hn with rfl | hn
    · exact hon.known
    · exact h.known n hn
  · intro n hn
    rw [hasked]
    have hor : n = m ∨ n ∈ s.invoked := by
      rw [hinvoked] at hn
      split at hn
      · exact List.mem_cons.mp hn
      · exact .inr hn
    rcases hor with rfl | hn
    · exact List.mem_cons_self
    · exact List.mem_cons_of_mem m (h.invoked n hn)
  · intro n hn
    rw [hplays,hinvoked]
    rw [hasked] at hn
    rcases List.mem_cons.mp hn with rfl | hn
    · cases hdone : s.plays.getD n false with
      | true => simp [hnever]
      | false => simpa using hnever
    · have hne : m ≠ n := by
        rintro rfl
        exact hon.new hn
      split
      · rw [List.count_cons_of_ne hne]
        exact h.once n hn
      · exact h.once n hn

/-- What comes of a step, and of each part of one. -/
inductive Outcome (s s' : State) : Prop where
  | keeps (hinv : s'.Inv) (hasked : s'.asked = s.asked)
  | closes (hinv : s'.Inv) (hslot : s'.movie = emptySlot) (hopen : s.closing = false)
  | stuck (hasked : s'.asked ≠ s.asked) (hactive : s'.movie.active = true) (hclosing : s.closing = true)

theorem Outcome.after {t s' : State} (hasked : t.asked = s.asked) (hclosing : t.closing = s.closing)
    (h : Outcome t s') : Outcome s s' := by
  cases h with
  | keeps hinv h => exact .keeps hinv (h.trans hasked)
  | closes hinv hslot hopen => exact .closes hinv hslot (hclosing ▸ hopen)
  | stuck h hactive hset => exact .stuck (hasked ▸ h) hactive (hclosing ▸ hset)

theorem movieEnd_inactive (h : s.Inv) (hactive : s.movie.active = false) : s.movieEnd = s := by
  have hvideo : s.movie.video = none := by rw [h.inactive hactive]; rfl
  unfold movieEnd movieClose
  simp [hactive,hvideo]

section On
variable {m : ℕ} (hon : s.On m) (hactive : s.movie.active = true)
include hon hactive

theorem movieEnd_closing (hclosing : s.closing = true) : s.movieEnd = { s with asked := m :: s.asked } := by
  simp [movieEnd,movieClose,hon.video,hactive,hclosing]

theorem movieEnd_notify (hclosing : s.closing = false) (hplay : s.plays.getD m false = true) :
    s.movieEnd = { s.cleared with
      asked := m :: s.asked, closing := true, stack := .callback m :: s.stack, invoked := m :: s.invoked } := by
  have hdone := hon.done
  rw [hplay] at hdone
  simp [movieEnd,movieClose,hon.video,hactive,hclosing,hdone,cleared]

theorem movieEnd_silent (hclosing : s.closing = false) (hplay : s.plays.getD m false = false) :
    s.movieEnd = { s.cleared with asked := m :: s.asked, closing := false } := by
  have hdone := hon.done
  rw [hplay] at hdone
  simp [movieEnd,movieClose,hon.video,hactive,hclosing,hdone,cleared]

end On

theorem movieEnd_outcome (h : s.Inv) : Outcome s s.movieEnd := by
  cases hactive : s.movie.active with
  | false =>
    rw [movieEnd_inactive h hactive]
    exact .keeps h rfl
  | true =>
    obtain ⟨m,hon⟩ := h.active hactive
    rcases Bool.eq_false_or_eq_true s.closing with hclosing | hclosing
    · rw [movieEnd_closing hon hactive hclosing]
      exact .stuck (List.cons_ne_self m s.asked) hactive hclosing
    · cases hplay : s.plays.getD m false with
      | true =>
        rw [movieEnd_notify hon hactive hclosing hplay]
        refine .closes (h.off hon rfl (cleared_live h.live) rfl rfl ?_ ?_) rfl hclosing
        · rw [hplay]
          rfl
        · have hnone := h.closing
          rw [hclosing] at hnone
          exact (List.countP_cons_of_pos rfl).trans (congrArg (·+1) hnone)
      | false =>
        rw [movieEnd_silent hon hactive hclosing hplay]
        refine .closes (h.off hon rfl (cleared_live h.live) rfl rfl ?_ ?_) rfl hclosing
        · rw [hplay]
          rfl
        · exact h.closing.trans (congrArg Bool.toNat hclosing)

theorem Inv.shown (h : s.Inv) {m : ℕ} (hon : s.On m) (s' : State) (hactive : s'.movie.active = true)
    (hvideo : s'.movie.video = s.movie.video) (haudio : s'.movie.audio = s.movie.audio)
    (htexture : ∀ n, s'.movie.texture = some n → n = m) (hdone : s'.movie.done = s.movie.done)
    (hlive : s'.live.Perm s'.movie.resources) (hclosing : s'.closing = s.closing) (hstack : s'.stack = s.stack)
    (hplays : s'.plays = s.plays) (hasked : s'.asked = s.asked) (hinvoked : s'.invoked = s.invoked) :
    s'.Inv ∧ s'.On m := by
  have howned : ∀ r ∈ s'.movie.resources, r.2 = m := by
    intro r hr
    unfold Slot.resources at hr
    have hold : ∀ r ∈ s.movie.resources, r.2 = m := hon.owned
    unfold Slot.resources at hold
    rw [haudio,hvideo] at hr
    rcases List.mem_append.mp hr with hr | hr
    · exact hold r (List.mem_append_left _ hr)
    · rcases List.mem_append.mp hr with hr | hr
      · obtain ⟨n,hn,rfl⟩ := List.mem_map.mp hr
        exact htexture n (Option.mem_toList.mp hn)
      · exact hold r (List.mem_append_right _ (List.mem_append_right _ hr))
  have hon' : s'.On m :=
    ⟨hstack ▸ hon.top,hvideo ▸ hon.video,howned,by rw [hdone,hplays]; exact hon.done,hplays ▸ hon.known,
      hasked ▸ hon.new⟩
  refine ⟨⟨?_,hlive,?_,fun _ => ⟨m,hon'⟩,?_,?_,?_⟩,hon'⟩
  · rw [hclosing,hstack]
    exact h.closing
  · intro hoff
    exact nomatch hactive.symm.trans hoff
  · rw [hasked,hplays]
    exact h.known
  · rw [hinvoked,hasked]
    exact h.invoked
  · rw [hinvoked,hasked,hplays]
    exact h.once

theorem movieEnsureTexture_inv (h : s.Inv) {m : ℕ} (hon : s.On m) (hactive : s.movie.active = true)
    (width height : ℤ) (created : Bool) :
    let s' := (s.movieEnsureTexture m width height created).2
    s'.Inv ∧ s'.On m ∧ s'.movie.active = true ∧ s'.asked = s.asked ∧ s'.closing = s.closing := by
  have hrest : (release .texture s.movie.texture s.live).Perm
      (s.movie.audio.toList.map (.audio,·) ++ s.movie.video.toList.map (.video,·)) := by
    apply release_perm (h.live.trans _)
    unfold Slot.resources
    rw [← List.append_assoc,← List.append_assoc]
    exact List.perm_append_comm.append_right _
  unfold movieEnsureTexture
  dsimp only
  split
  next => exact ⟨h,hon,hactive,rfl,rfl⟩
  next =>
    split
    next =>
      obtain ⟨hinv,hon'⟩ := h.shown hon { s with
        movie := { s.movie with texture := some m, texW := width, texH := height }
        live := (.texture,m) :: release .texture s.movie.texture s.live }
        hactive rfl rfl (fun n hn => (Option.some.inj hn).symm) rfl
        ((hrest.cons (.texture,m)).trans List.perm_middle.symm) rfl rfl rfl rfl rfl
      exact ⟨hinv,hon',hactive,rfl,rfl⟩
    next =>
      obtain ⟨hinv,hon'⟩ := h.shown hon { s with
        movie := { s.movie with texture := none }
        live := release .texture s.movie.texture s.live }
        hactive rfl rfl nofun rfl hrest rfl rfl rfl rfl rfl
      exact ⟨hinv,hon',hactive,rfl,rfl⟩

theorem presentDue_outcome {m : ℕ} (due : List Decoded) (h : s.Inv) (hon : s.On m) (hactive : s.movie.active = true) :
    Outcome s (presentDue m due s) := by
  induction due generalizing s with
  | nil => exact .keeps h rfl
  | cons d due ih =>
    cases d with
    | finished => exact movieEnd_outcome h
    | frame width height created updated =>
      have htexture : ∀ n, s.movie.texture = some n → n = m := by
        intro n hn
        apply hon.owned (.texture,n)
        simp [Slot.resources,hn]
      obtain ⟨hinv,hon⟩ := h.shown hon { s with movie := { s.movie with haveFrame := true } }
        hactive rfl rfl htexture rfl h.live rfl rfl rfl rfl rfl
      obtain ⟨hinv,hon,hactive,hasked,hclosing⟩ := movieEnsureTexture_inv hinv hon hactive width height created
      unfold presentDue
      dsimp only
      split
      next => exact (movieEnd_outcome hinv).after hasked hclosing
      next =>
        split
        next => exact (ih hinv hon hactive).after hasked hclosing
        next => exact (movieEnd_outcome hinv).after hasked hclosing

theorem moviePresent_outcome (due : List Decoded) (h : s.Inv) : Outcome s (s.moviePresent due) := by
  unfold moviePresent
  split
  next m hactive hvideo =>
    obtain ⟨n,hon⟩ := h.active hactive
    obtain rfl := Option.some.inj (hvideo.symm.trans hon.video)
    exact presentDue_outcome due h hon hactive
  next => exact .keeps h rfl

theorem Inv.swallow (h : s.Inv) (b : Bool) : ({ s with swallowAUp := b } : State).Inv :=
  ⟨h.closing,h.live,h.inactive,fun hactive => (h.active hactive).imp fun _ hon =>
    ⟨hon.top,hon.video,hon.owned,hon.done,hon.known,hon.new⟩,h.known,h.invoked,h.once⟩

theorem movieConsumeSkip_outcome (button : Button) (down : Bool) (h : s.Inv) :
    Outcome s (s.movieConsumeSkip button down).2 := by
  unfold movieConsumeSkip
  split
  next =>
    dsimp only
    split
    next => exact .keeps h rfl
    next => exact .keeps (h.swallow false) rfl
  next =>
    split
    next => exact .keeps h rfl
    next =>
      split
      next => exact .keeps h rfl
      next =>
        split
        next => exact .keeps h rfl
        next =>
          have hend := movieEnd_outcome (h.swallow (s.swallowAUp || button == .a))
          apply hend.after
          · rfl
          · rfl

theorem sword3HostStopVideo_outcome (h : s.Inv) : Outcome s s.sword3HostStopVideo := by
  unfold sword3HostStopVideo
  split
  · exact .keeps h rfl
  · exact movieEnd_outcome h

theorem Inv.idle (h : s.Inv) (htop : ∀ m, s.stack.head? ≠ some (.loop m)) : s.movie = emptySlot := by
  cases hactive : s.movie.active with
  | false => exact h.inactive hactive
  | true =>
    obtain ⟨m,hon⟩ := h.active hactive
    exact absurd hon.top (htop m)

theorem movieClose_idle (hslot : s.movie = emptySlot) (notify : Bool) : s.movieClose notify = s := by
  unfold movieClose
  simp [hslot,emptySlot]

/-- A movie that starts in an empty slot has the next number and its own video and audio. -/
theorem Inv.plays (h : s.Inv) (hslot : s.movie = emptySlot) (audio done : Bool) :
    ({ s with
      movie := { s.movie with
        video := some s.plays.length
        audio := if audio then some s.plays.length else none
        done := if done then some s.plays.length else none
        haveFrame := false
        active := true }
      live := (.video,s.plays.length) :: if audio then (.audio,s.plays.length) :: s.live else s.live
      plays := s.plays ++ [done]
      stack := .loop s.plays.length :: s.stack } : State).Inv := by
  have hlive : s.live = [] := by
    have hperm := h.live
    rw [hslot] at hperm
    exact hperm.eq_nil
  have hknown : ∀ m ∈ s.asked, (s.plays ++ [done]).getD m false = s.plays.getD m false :=
    fun m hm => List.getD_append _ _ _ _ (h.known m hm)
  refine ⟨h.closing,?_,nofun,fun _ => ⟨s.plays.length,rfl,rfl,?_,?_,?_,?_⟩,?_,h.invoked,?_⟩
  · rw [hlive,hslot]
    cases audio with
    | true => exact .swap _ _ _
    | false => exact .refl _
  · rw [hslot]
    cases audio <;> simp [Slot.resources,emptySlot]
  · simp
  · simp
  · intro hmem
    exact lt_irrefl _ (h.known _ hmem)
  · intro m hm
    have hlt := h.known m hm
    simp only [List.length_append,List.length_singleton]
    omega
  · intro m hm
    dsimp only
    rw [hknown m hm]
    exact h.once m hm

theorem sword3HostPlayVideoFile_outcome (h : s.Inv) (htop : ∀ m, s.stack.head? ≠ some (.loop m))
    (path : Option (List Char)) (renderer opened audio done : Bool) :
    Outcome s (s.sword3HostPlayVideoFile path renderer opened audio done).2 := by
  have hslot := h.idle htop
  unfold sword3HostPlayVideoFile
  rw [movieClose_idle hslot]
  cases path with
  | none => exact .keeps h rfl
  | some path =>
    dsimp only
    split
    next => exact .keeps h rfl
    next =>
      split
      next => exact .keeps (h.plays hslot audio done) rfl
      next =>
        obtain ⟨movie⟩ := s
        dsimp only at hslot
        subst hslot
        exact .keeps h rfl

theorem Inv.pops (h : s.Inv) {stack : List Frame} {closing : Bool} (hactive : s.movie.active = false)
    (hclosing : stack.countP Frame.isCallback = closing.toNat) :
    ({ s with stack := stack, closing := closing } : State).Inv where
  closing := hclosing
  live := h.live
  inactive := h.inactive
  active := fun hon => nomatch hactive.symm.trans hon
  known := h.known
  invoked := h.invoked
  once := h.once

theorem callbackReturns_outcome (h : s.Inv) {m : ℕ} {stack : List Frame} (hstack : s.stack = .callback m :: stack) :
    Outcome s { s with stack := stack, closing := false } := by
  have hcount := h.closing
  rw [hstack,List.countP_cons_of_pos rfl] at hcount
  have hlt := Bool.toNat_lt s.closing
  have hactive : s.movie.active = false := by
    apply Bool.eq_false_of_not_eq_true
    intro hactive
    obtain ⟨n,hon⟩ := h.active hactive
    have htop := hon.top
    rw [hstack] at htop
    exact nomatch htop
  exact .keeps (h.pops hactive (by change _ = 0; omega)) rfl

theorem loopExits_outcome (h : s.Inv) {m : ℕ} {stack : List Frame} (hstack : s.stack = .loop m :: stack)
    (hactive : s.movie.active = false) : Outcome s { s with stack := stack } := by
  have hcount := h.closing
  rw [hstack,List.countP_cons_of_neg Bool.false_ne_true] at hcount
  exact .keeps (h.pops hactive hcount) rfl

theorem step_outcome (h : s.Inv) {e : Event} {s' : State} (hstep : step s e = some s') : Outcome s s' := by
  cases e with
  | play path renderer opened audio done =>
    dsimp only [step] at hstep
    split at hstep
    next => exact nomatch hstep
    next htop =>
      obtain rfl := Option.some.inj hstep
      exact sword3HostPlayVideoFile_outcome h htop path renderer opened audio done
  | present due =>
    obtain rfl := Option.some.inj hstep
    exact moviePresent_outcome due h
  | button button down =>
    obtain rfl := Option.some.inj hstep
    exact movieConsumeSkip_outcome button down h
  | quit =>
    obtain rfl := Option.some.inj hstep
    exact movieEnd_outcome h
  | stop =>
    obtain rfl := Option.some.inj hstep
    exact sword3HostStopVideo_outcome h
  | callbackReturns =>
    dsimp only [step] at hstep
    split at hstep
    next m stack hstack =>
      obtain rfl := Option.some.inj hstep
      exact callbackReturns_outcome h hstack
    next => exact nomatch hstep
  | loopExits =>
    dsimp only [step] at hstep
    split at hstep
    next m stack hstack =>
      split at hstep
      next => exact nomatch hstep
      next hactive =>
        obtain rfl := Option.some.inj hstep
        exact loopExits_outcome h hstack (Bool.eq_false_of_not_eq_true hactive)
    next => exact nomatch hstep

theorem Inv.outside_iff (h : s.Inv) : (∀ frame ∈ s.stack, frame.isCallback = false) ↔ s.closing = false := by
  have hcount := h.closing
  constructor
  · intro hnone
    rw [List.countP_eq_zero.mpr fun frame hmem => by simp [hnone frame hmem]] at hcount
    cases hclosing : s.closing with
    | true => rw [hclosing] at hcount; exact nomatch hcount
    | false => rfl
  · intro hclosing frame hmem
    rw [hclosing] at hcount
    exact Bool.eq_false_of_not_eq_true (List.countP_eq_zero.mp hcount frame hmem)

/-- One step: it is right just if it ends no movie while a callback runs, and then the invariant goes on. -/
theorem Outcome.rightStep_iff (h : s.Inv) {s' : State} (hout : Outcome s s') :
    (s.RightStep s' ↔ s'.asked ≠ s.asked → ∀ frame ∈ s.stack, frame.isCallback = false) ∧
      (s.RightStep s' → s'.Inv) := by
  cases hout with
  | keeps hinv hasked =>
    have hright : s.RightStep s' := ⟨fun hne => absurd hasked hne,fun m hm => hinv.closed hm⟩
    exact ⟨⟨fun _ hne => absurd hasked hne,fun _ => hright⟩,fun _ => hinv⟩
  | closes hinv hslot hopen =>
    have hright : s.RightStep s' := ⟨fun _ => hslot,fun m hm => hinv.closed hm⟩
    exact ⟨⟨fun _ _ => h.outside_iff.mpr hopen,fun _ => hright⟩,fun _ => hinv⟩
  | stuck hasked hactive hclosing =>
    have hwrong : ¬s.RightStep s' := by
      intro hright
      rw [hright.1 hasked] at hactive
      exact nomatch hactive
    refine ⟨⟨fun hright => absurd hright hwrong,fun hmeets => ?_⟩,fun hright => absurd hright hwrong⟩
    exact nomatch hclosing.symm.trans (h.outside_iff.mp (hmeets hasked))

theorem Inv.everyStep_iff (h : s.Inv) (events : List Event) : s.RightRun events ↔ s.EndsOutside events := by
  induction events generalizing s with
  | nil => exact Iff.rfl
  | cons e events ih =>
    unfold RightRun EndsOutside
    apply forall_congr'
    intro s'
    apply imp_congr_right
    intro hstep
    obtain ⟨hiff,hinv⟩ := (step_outcome h hstep).rightStep_iff h
    constructor
    · rintro ⟨hright,hrest⟩
      exact ⟨hiff.mp hright,(ih (hinv hright)).mp hrest⟩
    · rintro ⟨hmeets,hrest⟩
      have hright := hiff.mpr hmeets
      exact ⟨hright,(ih (hinv hright)).mpr hrest⟩

end State

/-- In every run each movie that ends, is skipped or is stopped is closed then, with its callback made once,
just if none of them is played and ends while a callback runs. -/
theorem everyMovieCloses_iff (events : List Event) : start.RightRun events ↔ start.EndsOutside events :=
  State.start_inv.everyStep_iff events

/-- The callback of the first movie plays a second, which comes to its end and stays on. -/
theorem not_everyMovieCloses_nested : ¬start.RightRun
    [.play (some ['a']) true true true true,.present [.finished],.play (some ['b']) true true true true,
      .present [.finished]] := by
  intro h
  have h1 := (h _ rfl).2
  have h2 := (h1 _ rfl).2
  have h3 := (h2 _ rfl).2
  have hslot := (h3 _ rfl).1.1 (by decide)
  exact nomatch congrArg Slot.active hslot

end Machismo.Sword3.Movie
