import Mathlib
import Machismo.A64.Memory

/-! # The audio bridge

Handles for effects and music over SDL_mixer. The mixer is what its documentation says of the calls the
bridge makes: which chunks and pieces of music are loaded, what its channels and its music player play, and
the volume of music. Freeing something that is not loaded, or that is still played, has no result. A call has
the answers of `calloc` and of the mixer.
-/
namespace Machismo.Sword3.Audio
open A64 (Addr)

inductive AudioKind where
  | effect
  | music
  deriving DecidableEq, Repr

/-- `MIX_MAX_VOLUME` is 128. -/
abbrev Volume := Fin 129

def clampVolume (volume : ℤ) : Volume := ⟨(max 0 (min volume 128)).toNat,by omega⟩

abbrev Media := AudioKind × Addr

/-- A channel has the chunk it was last given, also after that has ended. -/
structure Channel where
  chunk : Option Addr
  playing : Bool
  deriving DecidableEq

/-- `live` is what is loaded now; `loaded` and `freed` keep account. -/
structure Mixer where
  live : List Media
  loaded : List Media
  freed : List Media
  channels : List Channel
  musicVolume : Volume
  playing : Option Addr
  chunkVolume : Addr → Volume

namespace Mixer
variable (x : Mixer)

def load (m : Media) : Mixer := { x with live := m :: x.live, loaded := m :: x.loaded }

def haltChunk (chunk : Addr) : Mixer :=
  { x with channels := x.channels.map fun c => if c.chunk = some chunk then { c with playing := false } else c }

def references : Media → Bool
  | (.effect,chunk) => x.channels.any fun c => c.playing && c.chunk == some chunk
  | (.music,music) => x.playing == some music

/-- `Mix_FreeChunk` and `Mix_FreeMusic` -/
def free (m : Media) : Option Mixer :=
  if x.live.contains m && !x.references m then some { x with live := x.live.erase m, freed := m :: x.freed } else none

/-- `Mix_PlayChannel(-1,...)`, with the channel it finds. -/
def playChannel (chunk : Addr) : Option ℕ → ℤ × Mixer
  | none => (-1,x)
  | some i => (i,{ x with channels := x.channels.set i ⟨some chunk,true⟩ })

/-- `Mix_PlayMusic`; where it fails the music that plays goes on. -/
def playMusic (music : Addr) (started : Bool) : ℤ × Mixer :=
  if started then (0,{ x with playing := some music }) else (-1,x)

end Mixer

structure AudioHandle where
  kind : AudioKind
  media : Addr
  volume : Volume
  deriving DecidableEq

def AudioHandle.key (handle : AudioHandle) : Media := (handle.kind,handle.media)

/-- `handles` is the bridge's list from its head on, `handle` what is at the address of a handle. -/
structure Bridge where
  mixer : Mixer
  handles : List Addr
  handle : Addr → AudioHandle
  currentMusic : Option Addr

namespace Bridge
variable (b : Bridge)

/-- What both ways to open do once the mixer has answered: `handle` is from `calloc`, `media` from the
mixer, each null where that failed. -/
def openWith (kind : Option AudioKind) (handle media : Addr) : Addr × Bridge :=
  match kind with
  | none => (0,b)
  | some kind =>
    if handle = 0 ∨ media = 0 then (0,b)
    else (handle,{ b with
      mixer := b.mixer.load (kind,media)
      handles := handle :: b.handles
      handle := Function.update b.handle handle ⟨kind,media,clampVolume 128⟩ })

def sword3AudioOpenFile (kind : Option AudioKind) (path : Option (List Char)) (handle media : Addr) : Addr × Bridge :=
  match path with
  | none => (0,b)
  | some _ => b.openWith kind handle media

def intMax : ℕ := 2^31-1

/-- `rw` tells whether the copy of the data and its stream could be made. -/
def sword3AudioOpenMemory (kind : Option AudioKind) (data : Option (List A64.Byte)) (rw : Bool) (handle media : Addr) :
    Addr × Bridge :=
  match data with
  | none => (0,b)
  | some bytes =>
    if bytes.length = 0 ∨ bytes.length > intMax ∨ rw = false then (0,b) else b.openWith kind handle media

/-- `channel` is what the mixer answers for an effect, `started` for music. -/
def sword3AudioPlay (handle : Addr) (loops : ℤ) (channel : Option ℕ) (started : Bool) : ℤ × Bridge :=
  if handle = 0 ∨ loops < -1 then (-1,b)
  else
    let h := b.handle handle
    match h.kind with
    | .effect =>
      let x := { b.mixer with chunkVolume := Function.update b.mixer.chunkVolume h.media h.volume }
      let (rc,x) := x.playChannel h.media channel
      (if rc < 0 then -1 else 0,{ b with mixer := x })
    | .music =>
      let x := { b.mixer with musicVolume := h.volume }
      let (rc,x) := x.playMusic h.media started
      (if rc < 0 then -1 else 0,
        { b with mixer := x, currentMusic := if rc = 0 then some handle else b.currentMusic })

def stopLocked (handle : Addr) : Bridge :=
  let h := b.handle handle
  match h.kind with
  | .effect => { b with mixer := b.mixer.haltChunk h.media }
  | .music =>
    if b.currentMusic = some handle then { b with mixer := { b.mixer with playing := none }, currentMusic := none }
    else b

def sword3AudioStop (handle : Addr) : Bridge := if handle = 0 then b else b.stopLocked handle

def sword3AudioSetVolume (handle : Addr) (volume : ℤ) : ℤ × Bridge :=
  if handle = 0 then (-1,b)
  else
    let volume := clampVolume volume
    let h := b.handle handle
    let b := { b with handle := Function.update b.handle handle { h with volume := volume } }
    (volume.val,match h.kind with
      | .effect =>
        { b with mixer := { b.mixer with chunkVolume := Function.update b.mixer.chunkVolume h.media volume } }
      | .music =>
        if b.currentMusic = some handle then { b with mixer := { b.mixer with musicVolume := volume } } else b)

def freeHandleLocked (handle : Addr) : Option Bridge :=
  let b := b.stopLocked handle
  (b.mixer.free (b.handle handle).key).map fun x => { b with mixer := x }

def sword3AudioClose (handle : Addr) : Option Bridge :=
  if handle = 0 then some b
  else if b.handles.contains handle then
    let b := { b with handles := b.handles.erase handle }
    b.freeHandleLocked handle
  else some b

def closeAll : ℕ → Bridge → Option Bridge
  | 0, b => some b
  | n + 1, b =>
    match b.handles with
    | [] => some b
    | handle :: rest => (({ b with handles := rest } : Bridge).freeHandleLocked handle).bind (closeAll n)

def sword3AudioBridgeClose : Option Bridge := closeAll b.handles.length b

end Bridge

end Machismo.Sword3.Audio
