import Machismo.Sword3.AudioBridge

/-! # Runs of the audio bridge

What holds of the handles, the current music and the mixer after any calls. Only the volume can go wrong:
it is set before the mixer has said whether the new music starts.
-/
namespace Machismo.Sword3.Audio
open A64 (Addr)

/-- The calls with the answers they get, and what ends by itself. -/
inductive AudioCall where
  | openFile (kind : Option AudioKind) (path : Option (List Char)) (handle media : Addr)
  | openMemory (kind : Option AudioKind) (data : Option (List A64.Byte)) (rw : Bool) (handle media : Addr)
  | play (handle : Addr) (loops : ℤ) (channel : Option ℕ) (started : Bool)
  | stop (handle : Addr)
  | setVolume (handle : Addr) (volume : ℤ)
  | close (handle : Addr)
  | musicEnds
  | channelEnds (i : ℕ)

namespace Bridge

def call (b : Bridge) : AudioCall → Option Bridge
  | .openFile kind path handle media => some (b.sword3AudioOpenFile kind path handle media).2
  | .openMemory kind data rw handle media => some (b.sword3AudioOpenMemory kind data rw handle media).2
  | .play handle loops channel started => some (b.sword3AudioPlay handle loops channel started).2
  | .stop handle => some (b.sword3AudioStop handle)
  | .setVolume handle volume => some (b.sword3AudioSetVolume handle volume).2
  | .close handle => b.sword3AudioClose handle
  | .musicEnds => some { b with mixer := { b.mixer with playing := none } }
  | .channelEnds i => some { b with mixer := { b.mixer with
      channels := b.mixer.channels.modify i fun c => { c with playing := false } } }

/-- New blocks and media are not among those in use, and handles are null or have not been closed. -/
def Legal (b : Bridge) : AudioCall → Prop
  | .openFile kind _ handle media => handle ∉ b.handles ∧ ∀ k, kind = some k → (k,media) ∉ b.mixer.live
  | .openMemory kind _ _ handle media => handle ∉ b.handles ∧ ∀ k, kind = some k → (k,media) ∉ b.mixer.live
  | .play handle _ _ _ => handle = 0 ∨ handle ∈ b.handles
  | .stop handle => handle = 0 ∨ handle ∈ b.handles
  | .setVolume handle _ => handle = 0 ∨ handle ∈ b.handles
  | .close handle => handle = 0 ∨ handle ∈ b.handles
  | _ => True

def LegalRun (b : Bridge) : List AudioCall → Prop
  | [] => True
  | c :: calls => b.Legal c ∧ ∀ b', b.call c = some b' → b'.LegalRun calls

/-- The volume of music is the current music's whenever music plays. -/
def VolumeRight (b : Bridge) : Prop :=
  b.mixer.playing.isSome → ∃ handle, b.currentMusic = some handle ∧ b.mixer.musicVolume = (b.handle handle).volume

/-- What is asked of every state: the current music is an open handle, the volume is right, and every medium
loaded is either that of one open handle or has been freed, once. -/
structure Right (b : Bridge) : Prop where
  current : ∀ handle, b.currentMusic = some handle → handle ∈ b.handles
  volume : b.VolumeRight
  once : b.mixer.loaded.Perm (b.handles.map (fun handle => (b.handle handle).key) ++ b.mixer.freed)

/-- Every state is right, and no call frees a medium that is not loaded or that is still played. -/
def RightRun (b : Bridge) : List AudioCall → Prop
  | [] => b.Right
  | c :: calls => b.Right ∧ ∃ b', b.call c = some b' ∧ b'.RightRun calls

/-- Music that does not start while other music plays has the volume of that. -/
def Meets (b : Bridge) : AudioCall → Prop
  | .play handle loops _ started => handle ≠ 0 → -1 ≤ loops → (b.handle handle).kind = .music → started = false →
      b.mixer.playing.isSome → ∀ current, b.currentMusic = some current →
      (b.handle handle).volume = (b.handle current).volume
  | _ => True

def EachMeets (b : Bridge) : List AudioCall → Prop
  | [] => True
  | c :: calls => b.Meets c ∧ ∀ b', b.call c = some b' → b'.EachMeets calls

/-- The invariant of the bridge and its mixer. -/
structure Inv (b : Bridge) : Prop where
  nodup : b.handles.Nodup
  current : ∀ handle, b.currentMusic = some handle → handle ∈ b.handles ∧ (b.handle handle).kind = .music
  playing : ∀ music, b.mixer.playing = some music →
    ∃ handle, b.currentMusic = some handle ∧ (b.handle handle).media = music
  live : b.mixer.live.Perm (b.handles.map fun handle => (b.handle handle).key)
  liveNodup : b.mixer.live.Nodup
  once : b.mixer.loaded.Perm (b.mixer.live ++ b.mixer.freed)

variable {b : Bridge}

theorem Inv.right (hinv : b.Inv) (hvolume : b.VolumeRight) : b.Right :=
  ⟨fun handle h => (hinv.current handle h).1,hvolume,hinv.once.trans (hinv.live.append_right _)⟩

/-- The invariant is about neither channels nor volumes. -/
theorem Inv.congr (hinv : b.Inv) {b' : Bridge} (hhandles : b'.handles = b.handles)
    (hkey : ∀ handle, (b'.handle handle).key = (b.handle handle).key) (hcurrent : b'.currentMusic = b.currentMusic)
    (hplaying : b'.mixer.playing = b.mixer.playing) (hlive : b'.mixer.live = b.mixer.live)
    (hloaded : b'.mixer.loaded = b.mixer.loaded) (hfreed : b'.mixer.freed = b.mixer.freed) : b'.Inv := by
  have hkind : ∀ handle, (b'.handle handle).kind = (b.handle handle).kind :=
    fun handle => congrArg Prod.fst (hkey handle)
  have hmedia : ∀ handle, (b'.handle handle).media = (b.handle handle).media :=
    fun handle => congrArg Prod.snd (hkey handle)
  refine ⟨hhandles ▸ hinv.nodup,?_,?_,?_,hlive ▸ hinv.liveNodup,?_⟩
  · intro handle h
    rw [hcurrent] at h
    rw [hhandles,hkind]
    exact hinv.current handle h
  · intro music h
    rw [hplaying] at h
    obtain ⟨handle,hcur,hmusic⟩ := hinv.playing music h
    exact ⟨handle,hcurrent.trans hcur,(hmedia handle).trans hmusic⟩
  · rw [hlive,hhandles,funext hkey]
    exact hinv.live
  · rw [hloaded,hlive,hfreed]
    exact hinv.once

theorem Inv.key_injective (hinv : b.Inv) {h k : Addr} (hh : h ∈ b.handles) (hk : k ∈ b.handles)
    (heq : (b.handle h).key = (b.handle k).key) : h = k :=
  List.inj_on_of_nodup_map (hinv.live.nodup_iff.mp hinv.liveNodup) hh hk heq

theorem openWith_inv (hinv : b.Inv) {kind : Option AudioKind} {handle media : Addr} (hfresh : handle ∉ b.handles)
    (hmedia : ∀ k, kind = some k → (k,media) ∉ b.mixer.live) :
    (b.openWith kind handle media).2.Inv ∧ ((b.openWith kind handle media).2.VolumeRight ↔ b.VolumeRight) := by
  unfold openWith
  cases kind with
  | none => exact ⟨hinv,Iff.rfl⟩
  | some kind =>
    dsimp only
    split
    next => exact ⟨hinv,Iff.rfl⟩
    next =>
      have hother : ∀ h ∈ b.handles, Function.update b.handle handle ⟨kind,media,clampVolume 128⟩ h = b.handle h := by
        intro h hh
        apply Function.update_of_ne
        rintro rfl
        exact hfresh hh
      have hcurrent : ∀ h, b.currentMusic = some h →
          Function.update b.handle handle ⟨kind,media,clampVolume 128⟩ h = b.handle h :=
        fun h hh => hother h (hinv.current h hh).1
      have hnodup := List.nodup_cons.mpr ⟨hfresh,hinv.nodup⟩
      have hliveNodup := List.nodup_cons.mpr ⟨hmedia kind rfl,hinv.liveNodup⟩
      refine ⟨⟨hnodup,?_,?_,?_,hliveNodup,?_⟩,?_⟩
      · intro h hh
        obtain ⟨hmem,hkind⟩ := hinv.current h hh
        refine ⟨List.mem_cons_of_mem handle hmem,?_⟩
        dsimp only
        rw [hcurrent h hh]
        exact hkind
      · intro music hmusic
        obtain ⟨h,hh,hm⟩ := hinv.playing music hmusic
        refine ⟨h,hh,?_⟩
        dsimp only
        rw [hcurrent h hh]
        exact hm
      · have hmap : (b.handles.map fun h => (Function.update b.handle handle ⟨kind,media,clampVolume 128⟩ h).key) =
            b.handles.map fun h => (b.handle h).key :=
          List.map_congr_left fun h hh => by rw [hother h hh]
        dsimp only
        rw [List.map_cons,hmap,Function.update_self]
        exact hinv.live.cons (kind,media)
      · exact hinv.once.cons (kind,media)
      · apply forall_congr'
        intro hplaying
        apply exists_congr
        intro h
        apply and_congr_right
        intro hh
        dsimp only
        rw [hcurrent h hh]
        exact Iff.rfl

theorem play_inv (hinv : b.Inv) {handle : Addr} (hopen : handle = 0 ∨ handle ∈ b.handles) (loops : ℤ)
    (channel : Option ℕ) (started : Bool) : (b.sword3AudioPlay handle loops channel started).2.Inv := by
  unfold sword3AudioPlay
  split
  next => exact hinv
  next hgo =>
    have hmem := hopen.resolve_left (not_or.mp hgo).1
    dsimp only
    cases hkind : (b.handle handle).kind with
    | effect =>
      cases channel with
      | none => exact hinv.congr rfl (fun _ => rfl) rfl rfl rfl rfl rfl
      | some i => exact hinv.congr rfl (fun _ => rfl) rfl rfl rfl rfl rfl
    | music =>
      cases started with
      | false => exact hinv.congr rfl (fun _ => rfl) rfl rfl rfl rfl rfl
      | true =>
        refine ⟨hinv.nodup,?_,?_,hinv.live,hinv.liveNodup,hinv.once⟩
        · intro h hh
          obtain rfl := Option.some.inj hh
          exact ⟨hmem,hkind⟩
        · intro music hmusic
          exact ⟨handle,rfl,Option.some.inj hmusic⟩

theorem play_volume (hright : b.VolumeRight) (handle : Addr) (loops : ℤ) (channel : Option ℕ) (started : Bool) :
    (b.sword3AudioPlay handle loops channel started).2.VolumeRight ↔ b.Meets (.play handle loops channel started) := by
  unfold sword3AudioPlay Meets
  split
  next hno =>
    refine iff_of_true hright ?_
    intro hne hloops
    exact absurd (hno.resolve_left hne) (not_lt.mpr hloops)
  next hgo =>
    rw [not_or,not_lt] at hgo
    dsimp only
    cases hkind : (b.handle handle).kind with
    | effect =>
      refine iff_of_true ?_ (fun _ _ hmusic => by cases hmusic)
      cases channel with
      | none => exact hright
      | some i => exact hright
    | music =>
      cases started with
      | true =>
        refine iff_of_true ?_ (fun _ _ _ hstarted => by cases hstarted)
        exact fun _ => ⟨handle,rfl,rfl⟩
      | false =>
        constructor
        · intro hvolume _ _ _ _ hplaying current hcurrent
          obtain ⟨h,hh,hvol⟩ := hvolume hplaying
          obtain rfl := Option.some.inj (hcurrent.symm.trans hh)
          exact hvol
        · intro hmeets hplaying
          obtain ⟨h,hh,-⟩ := hright hplaying
          exact ⟨h,hh,hmeets hgo.1 hgo.2 rfl rfl hplaying h hh⟩

section Stop
variable {handle : Addr}

theorem stopLocked_effect (hkind : (b.handle handle).kind = .effect) :
    b.stopLocked handle = { b with mixer := b.mixer.haltChunk (b.handle handle).media } := by
  simp only [stopLocked,hkind]

theorem stopLocked_current (hkind : (b.handle handle).kind = .music) (hcurrent : b.currentMusic = some handle) :
    b.stopLocked handle = { b with mixer := { b.mixer with playing := none }, currentMusic := none } := by
  simp only [stopLocked,hkind,if_pos hcurrent]

theorem stopLocked_other (hkind : (b.handle handle).kind = .music) (hcurrent : b.currentMusic ≠ some handle) :
    b.stopLocked handle = b := by
  simp only [stopLocked,hkind,if_neg hcurrent]

theorem references_haltChunk (x : Mixer) (chunk : Addr) : (x.haltChunk chunk).references (.effect,chunk) = false := by
  refine Bool.eq_false_iff.mpr fun hany => ?_
  obtain ⟨c,hc,hplays⟩ := List.any_eq_true.mp hany
  obtain ⟨d,-,rfl⟩ := List.mem_map.mp hc
  by_cases hchunk : d.chunk = some chunk
  · simp [hchunk] at hplays
  · simp [hchunk] at hplays

/-- What the handle has is not played after it has been stopped, and nothing else has changed. -/
structure Stopped (b b' : Bridge) (handle : Addr) : Prop where
  inv : b'.Inv
  volume : b.VolumeRight → b'.VolumeRight
  silent : b'.mixer.references (b.handle handle).key = false
  current : b'.currentMusic ≠ some handle
  handle_eq : b'.handle = b.handle
  handles_eq : b'.handles = b.handles

theorem stopLocked_stopped (hinv : b.Inv) (hmem : handle ∈ b.handles) : Stopped b (b.stopLocked handle) handle := by
  cases hkind : (b.handle handle).kind with
  | effect =>
    rw [stopLocked_effect hkind]
    refine ⟨hinv.congr rfl (fun _ => rfl) rfl rfl rfl rfl rfl,id,?_,?_,rfl,rfl⟩
    · rw [AudioHandle.key,hkind]
      exact references_haltChunk b.mixer (b.handle handle).media
    · intro hcurrent
      rw [(hinv.current handle hcurrent).2] at hkind
      cases hkind
  | music =>
    by_cases hcurrent : b.currentMusic = some handle
    · rw [stopLocked_current hkind hcurrent]
      refine ⟨⟨hinv.nodup,?_,?_,hinv.live,hinv.liveNodup,hinv.once⟩,?_,?_,?_,rfl,rfl⟩
      · intro h hh
        cases hh
      · intro music hmusic
        cases hmusic
      · intro _ hplaying
        cases hplaying
      · rw [AudioHandle.key,hkind]
        rfl
      · intro hnone
        cases hnone
    · rw [stopLocked_other hkind hcurrent]
      refine ⟨hinv,id,?_,hcurrent,rfl,rfl⟩
      rw [AudioHandle.key,hkind]
      refine Bool.eq_false_iff.mpr fun hplays => hcurrent ?_
      -- music that plays is the current handle's, and no other handle has it
      obtain ⟨h,hh,hmusic⟩ := hinv.playing _ (eq_of_beq hplays)
      obtain ⟨hin,hk⟩ := hinv.current h hh
      have hkey : (b.handle h).key = (b.handle handle).key := by
        rw [AudioHandle.key,AudioHandle.key,hk,hkind,hmusic]
      rw [hh,hinv.key_injective hin hmem hkey]

end Stop

theorem stop_inv (hinv : b.Inv) {handle : Addr} (hopen : handle = 0 ∨ handle ∈ b.handles) :
    (b.sword3AudioStop handle).Inv ∧ (b.VolumeRight → (b.sword3AudioStop handle).VolumeRight) := by
  unfold sword3AudioStop
  split
  next => exact ⟨hinv,id⟩
  next hne =>
    have hstopped := stopLocked_stopped hinv (hopen.resolve_left hne)
    exact ⟨hstopped.inv,hstopped.volume⟩

theorem setVolume_inv (hinv : b.Inv) (handle : Addr) (volume : ℤ) :
    (b.sword3AudioSetVolume handle volume).2.Inv ∧
      (b.VolumeRight → (b.sword3AudioSetVolume handle volume).2.VolumeRight) := by
  unfold sword3AudioSetVolume
  split
  next => exact ⟨hinv,id⟩
  next hne =>
    dsimp only
    generalize clampVolume volume = v
    have hnewKey : ({ b.handle handle with volume := v } : AudioHandle).key = (b.handle handle).key := rfl
    have hnewVolume : ({ b.handle handle with volume := v } : AudioHandle).volume = v := rfl
    generalize ({ b.handle handle with volume := v } : AudioHandle) = new at hnewKey hnewVolume
    have hkey : ∀ h, (Function.update b.handle handle new h).key = (b.handle h).key := by
      intro h
      by_cases hh : h = handle
      · rw [hh,Function.update_self,hnewKey]
      · rw [Function.update_of_ne hh]
    have hother : ∀ h, h ≠ handle → (Function.update b.handle handle new h).volume = (b.handle h).volume := by
      intro h hh
      rw [Function.update_of_ne hh]
    cases hkind : (b.handle handle).kind with
    | effect =>
      refine ⟨hinv.congr rfl hkey rfl rfl rfl rfl rfl,?_⟩
      intro hright hplaying
      obtain ⟨h,hh,hvol⟩ := hright hplaying
      refine ⟨h,hh,hvol.trans (hother h ?_).symm⟩
      rintro rfl
      rw [(hinv.current h hh).2] at hkind
      cases hkind
    | music =>
      dsimp only
      split
      next hcurrent =>
        refine ⟨hinv.congr rfl hkey rfl rfl rfl rfl rfl,?_⟩
        intro _ _
        refine ⟨handle,hcurrent,?_⟩
        dsimp only
        rw [Function.update_self,hnewVolume]
      next hcurrent =>
        refine ⟨hinv.congr rfl hkey rfl rfl rfl rfl rfl,?_⟩
        intro hright hplaying
        obtain ⟨h,hh,hvol⟩ := hright hplaying
        refine ⟨h,hh,hvol.trans (hother h ?_).symm⟩
        rintro rfl
        exact hcurrent hh

/-- A handle that is taken out of the list is freed: what it has is loaded and not played, and is not loaded
any more afterwards. -/
theorem freeHandle_inv (hinv : b.Inv) {handle : Addr} (hmem : handle ∈ b.handles) :
    ∃ b', ({ b with handles := b.handles.erase handle } : Bridge).freeHandleLocked handle = some b' ∧ b'.Inv ∧
      (b.VolumeRight → b'.VolumeRight) ∧ b'.handles = b.handles.erase handle := by
  have hstopped := stopLocked_stopped hinv hmem
  have hsame : ({ b with handles := b.handles.erase handle } : Bridge).stopLocked handle =
      { b.stopLocked handle with handles := b.handles.erase handle } := by
    cases hkind : (b.handle handle).kind with
    | effect =>
      rw [stopLocked_effect hkind]
      exact stopLocked_effect hkind
    | music =>
      by_cases hcurrent : b.currentMusic = some handle
      · rw [stopLocked_current hkind hcurrent]
        exact stopLocked_current hkind hcurrent
      · rw [stopLocked_other hkind hcurrent]
        exact stopLocked_other hkind hcurrent
  rw [freeHandleLocked,hsame]
  generalize b.stopLocked handle = c at hstopped
  obtain ⟨hcinv,hvolume,hsilent,hcurrent,hhandle,hhandles⟩ := hstopped
  rw [← hhandle] at hsilent
  rw [← hhandles] at hmem ⊢
  have hperm : c.mixer.live.Perm ((c.handle handle).key :: (c.handles.erase handle).map fun h => (c.handle h).key) :=
    hcinv.live.trans ((List.perm_cons_erase hmem).map fun h => (c.handle h).key)
  have hlive : (c.handle handle).key ∈ c.mixer.live := hperm.mem_iff.mpr List.mem_cons_self
  have hfree : c.mixer.free (c.handle handle).key = some { c.mixer with
      live := c.mixer.live.erase (c.handle handle).key, freed := (c.handle handle).key :: c.mixer.freed } := by
    rw [Mixer.free,List.contains_iff_mem.mpr hlive,hsilent]
    rfl
  dsimp only
  rw [hfree,Option.map_some]
  refine ⟨_,rfl,⟨hcinv.nodup.erase handle,?_,hcinv.playing,?_,hcinv.liveNodup.erase _,?_⟩,hvolume,rfl⟩
  · intro h hh
    obtain ⟨hin,hkind⟩ := hcinv.current h hh
    refine ⟨(List.mem_erase_of_ne ?_).mpr hin,hkind⟩
    rintro rfl
    exact hcurrent hh
  · have herase := hperm.erase (c.handle handle).key
    rwa [List.erase_cons_head] at herase
  · have hmove := (List.perm_cons_erase hlive).append_right c.mixer.freed
    exact hcinv.once.trans (hmove.trans List.perm_middle.symm)

theorem close_inv (hinv : b.Inv) (handle : Addr) :
    ∃ b', b.sword3AudioClose handle = some b' ∧ b'.Inv ∧ (b.VolumeRight → b'.VolumeRight) := by
  unfold sword3AudioClose
  split
  next => exact ⟨b,rfl,hinv,id⟩
  next =>
    split
    next hin =>
      obtain ⟨b',hfree,hinv',hvolume,-⟩ := freeHandle_inv hinv (List.contains_iff_mem.mp hin)
      exact ⟨b',hfree,hinv',hvolume⟩
    next => exact ⟨b,rfl,hinv,id⟩

/-- Every call has a result and keeps the invariant; the volume stays right just when the call meets its
condition. -/
theorem call_inv (hinv : b.Inv) (hright : b.VolumeRight) {c : AudioCall} (hlegal : b.Legal c) :
    ∃ b', b.call c = some b' ∧ b'.Inv ∧ (b'.VolumeRight ↔ b.Meets c) := by
  cases c with
  | openFile kind path handle media =>
    refine ⟨_,rfl,?_⟩
    cases path with
    | none => exact ⟨hinv,iff_of_true hright trivial⟩
    | some path =>
      obtain ⟨hopen,hvolume⟩ := openWith_inv hinv hlegal.1 hlegal.2
      exact ⟨hopen,iff_of_true (hvolume.mpr hright) trivial⟩
  | openMemory kind data rw handle media =>
    refine ⟨_,rfl,?_⟩
    cases data with
    | none => exact ⟨hinv,iff_of_true hright trivial⟩
    | some bytes =>
      unfold sword3AudioOpenMemory
      dsimp only
      split
      next => exact ⟨hinv,iff_of_true hright trivial⟩
      next =>
        obtain ⟨hopen,hvolume⟩ := openWith_inv hinv hlegal.1 hlegal.2
        exact ⟨hopen,iff_of_true (hvolume.mpr hright) trivial⟩
  | play handle loops channel started =>
    exact ⟨_,rfl,play_inv hinv hlegal loops channel started,play_volume hright handle loops channel started⟩
  | stop handle =>
    obtain ⟨hstop,hvolume⟩ := stop_inv hinv hlegal
    exact ⟨_,rfl,hstop,iff_of_true (hvolume hright) trivial⟩
  | setVolume handle volume =>
    obtain ⟨hset,hvolume⟩ := setVolume_inv hinv handle volume
    exact ⟨_,rfl,hset,iff_of_true (hvolume hright) trivial⟩
  | close handle =>
    obtain ⟨b',hclose,hinv',hvolume⟩ := close_inv hinv handle
    exact ⟨b',hclose,hinv',iff_of_true (hvolume hright) trivial⟩
  | musicEnds =>
    refine ⟨_,rfl,⟨hinv.nodup,hinv.current,?_,hinv.live,hinv.liveNodup,hinv.once⟩,iff_of_true ?_ trivial⟩
    · intro music hmusic
      cases hmusic
    · intro hplaying
      cases hplaying
  | channelEnds i =>
    refine ⟨_,rfl,?_,iff_of_true hright trivial⟩
    exact hinv.congr rfl (fun _ => rfl) rfl rfl rfl rfl rfl

/-- A bridge just opened: no handles, and no music plays. -/
structure Opened (b : Bridge) : Prop where
  handles : b.handles = []
  current : b.currentMusic = none
  playing : b.mixer.playing = none
  live : b.mixer.live = []
  loaded : b.mixer.loaded = []
  freed : b.mixer.freed = []

theorem Opened.inv (h : b.Opened) : b.Inv := by
  refine ⟨?_,?_,?_,?_,?_,?_⟩
  · rw [h.handles]
    exact List.nodup_nil
  · intro handle hcurrent
    rw [h.current] at hcurrent
    cases hcurrent
  · intro music hmusic
    rw [h.playing] at hmusic
    cases hmusic
  · rw [h.live,h.handles]
    exact List.Perm.nil
  · rw [h.live]
    exact List.nodup_nil
  · rw [h.loaded,h.live,h.freed]
    exact List.Perm.nil

theorem Opened.volumeRight (h : b.Opened) : b.VolumeRight := by
  intro hplaying
  rw [h.playing] at hplaying
  cases hplaying

theorem rightRun_iff_of_inv (hinv : b.Inv) (hright : b.VolumeRight) {calls : List AudioCall}
    (hlegal : b.LegalRun calls) : b.RightRun calls ↔ b.EachMeets calls := by
  induction calls generalizing b with
  | nil => exact iff_of_true (hinv.right hright) trivial
  | cons c calls ih =>
    obtain ⟨b',hcall,hinv',hvolume⟩ := call_inv hinv hright hlegal.1
    constructor
    · rintro ⟨-,b'',hcall'',hrun⟩
      obtain rfl := Option.some.inj (hcall.symm.trans hcall'')
      have hright' : b'.VolumeRight := by
        cases calls with
        | nil => exact hrun.volume
        | cons d calls => exact hrun.1.volume
      refine ⟨hvolume.mp hright',?_⟩
      intro b'' hcall''
      obtain rfl := Option.some.inj (hcall.symm.trans hcall'')
      exact (ih hinv' hright' (hlegal.2 b' hcall)).mp hrun
    · rintro ⟨hmeets,hrest⟩
      have hright' := hvolume.mpr hmeets
      exact ⟨hinv.right hright,b',hcall,(ih hinv' hright' (hlegal.2 b' hcall)).mpr (hrest b' hcall)⟩

theorem bridgeClose_frees (hinv : b.Inv) : ∃ b', b.sword3AudioBridgeClose = some b' ∧ b'.mixer.live = [] ∧
    b'.mixer.loaded.Perm b'.mixer.freed ∧ b'.mixer.playing = none := by
  have hall : ∀ n, ∀ b : Bridge, b.Inv → b.handles.length = n →
      ∃ b', closeAll n b = some b' ∧ b'.Inv ∧ b'.handles = [] := by
    intro n
    induction n with
    | zero => exact fun b hinv hlen => ⟨b,rfl,hinv,List.length_eq_zero_iff.mp hlen⟩
    | succ n ih =>
      intro b hinv hlen
      obtain ⟨handle,rest,hhandles⟩ := List.exists_cons_of_length_eq_add_one hlen
      obtain ⟨b1,hfree,hinv1,-,hrest⟩ := freeHandle_inv hinv (hhandles ▸ List.mem_cons_self)
      rw [hhandles,List.erase_cons_head] at hfree hrest
      rw [hhandles,List.length_cons] at hlen
      obtain ⟨b',hclose,hinv',hempty⟩ := ih b1 hinv1 (by rw [hrest]; omega)
      refine ⟨b',?_,hinv',hempty⟩
      rw [closeAll,hhandles]
      dsimp only
      rw [hfree]
      exact hclose
  obtain ⟨b',hclose,hinv',hempty⟩ := hall b.handles.length b hinv rfl
  have hlive : b'.mixer.live = [] := by
    have hperm := hinv'.live
    rw [hempty,List.map_nil] at hperm
    exact hperm.eq_nil
  refine ⟨b',hclose,hlive,?_,?_⟩
  · have honce := hinv'.once
    rwa [hlive,List.nil_append] at honce
  · cases hplaying : b'.mixer.playing with
    | none => rfl
    | some music =>
      obtain ⟨handle,hcurrent,-⟩ := hinv'.playing music hplaying
      have hin := (hinv'.current handle hcurrent).1
      rw [hempty] at hin
      cases hin

/-- From a bridge just opened, all states of a run are right just when music fails to start only at the volume of
the music that plays. -/
theorem rightRun_iff (hopened : b.Opened) {calls : List AudioCall} (hlegal : b.LegalRun calls) :
    b.RightRun calls ↔ b.EachMeets calls := rightRun_iff_of_inv hopened.inv hopened.volumeRight hlegal

/-- A bridge with two channels. -/
def freshBridge : Bridge where
  mixer := ⟨[],[],[],[⟨none,false⟩,⟨none,false⟩],clampVolume 128,none,fun _ => clampVolume 128⟩
  handles := []
  handle := fun _ => ⟨.effect,0,clampVolume 0⟩
  currentMusic := none

theorem opened_freshBridge : freshBridge.Opened := ⟨rfl,rfl,rfl,rfl,rfl,rfl⟩

/-- A second piece of music does not start; it has the volume of the first, which goes on. -/
theorem rightRun_iff_same_volume : freshBridge.RightRun
    [.openFile (some .music) (some ['a']) 16 160,.openFile (some .music) (some ['b']) 32 320,.play 16 (-1) none true,
      .play 32 0 none false] := by
  refine (rightRun_iff opened_freshBridge ?_).mpr ?_
  · refine ⟨⟨by decide,fun k _ => List.not_mem_nil⟩,fun b1 h1 => ?_⟩
    obtain rfl := Option.some.inj h1
    refine ⟨⟨by decide,fun k hk => ?_⟩,fun b2 h2 => ?_⟩
    · obtain rfl := Option.some.inj hk
      decide
    obtain rfl := Option.some.inj h2
    refine ⟨.inr (by decide),fun b3 h3 => ?_⟩
    obtain rfl := Option.some.inj h3
    exact ⟨.inr (by decide),fun _ _ => trivial⟩
  · refine ⟨trivial,fun b1 h1 => ?_⟩
    obtain rfl := Option.some.inj h1
    refine ⟨trivial,fun b2 h2 => ?_⟩
    obtain rfl := Option.some.inj h2
    refine ⟨fun _ _ _ hfails => absurd hfails (by decide),fun b3 h3 => ?_⟩
    obtain rfl := Option.some.inj h3
    refine ⟨fun _ _ _ _ _ current hcurrent => ?_,fun _ _ => trivial⟩
    obtain rfl := Option.some.inj hcurrent
    decide

/-- A second piece of music, set to a tenth, does not start: the first goes on at a tenth. -/
theorem not_rightRun_second_fails : ¬freshBridge.RightRun
    [.openFile (some .music) (some ['a']) 16 160,.openFile (some .music) (some ['b']) 32 320,.setVolume 32 12,
      .play 16 (-1) none true,.play 32 0 none false] := by
  rintro ⟨-,b1,h1,-,b2,h2,-,b3,h3,-,b4,h4,-,b5,h5,hright⟩
  obtain rfl := Option.some.inj h1
  obtain rfl := Option.some.inj h2
  obtain rfl := Option.some.inj h3
  obtain rfl := Option.some.inj h4
  obtain rfl := Option.some.inj h5
  obtain ⟨handle,hcurrent,hvolume⟩ := hright.volume rfl
  obtain rfl : 16 = handle := Option.some.inj hcurrent
  exact absurd hvolume (by decide)

end Bridge

end Machismo.Sword3.Audio
