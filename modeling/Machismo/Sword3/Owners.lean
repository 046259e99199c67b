import Machismo.Data.SwapRemove

/-! # The owner tables of the SDL bridge

The game was built against one SDL and runs against another, so the bridge notes which
windows, renderers, textures, surfaces and RWops the host's SDL has made, and aborts when it
is handed any other.  The tables are a second view of what the host holds.  Beside them
stands that first view: the objects that the host has made for the wrappers and not freed,
and the renderer of each texture.
-/
namespace Machismo.Sword3Owners
open Machismo.Data

abbrev Ptr := BitVec 64

inductive SdlKind
  | window
  | renderer
  | texture
  | surface
  | rwops
  deriving DecidableEq

def ownerCap : ℕ := 4096

/-- The first `owner_count` entries of each row of `owners`, the movie's texture and its size, and the host's
objects. -/
structure Bridge where
  owners : SdlKind → List Ptr
  movieTexture : Ptr
  movieSize : ℤ×ℤ
  live : SdlKind → Finset Ptr
  rendererOf : Ptr → Ptr

def Bridge.start : Bridge := ⟨fun _ => [],0,(0,0),fun _ => ∅,fun _ => 0⟩

def ownerRegister (kind : SdlKind) (pointer : Ptr) (b : Bridge) : Option Bridge :=
  if pointer = 0 then some b
  else if ownerCap ≤ (b.owners kind).length then none
  else some {b with owners := Function.update b.owners kind (b.owners kind++[pointer])}

def ownerContains (kind : SdlKind) (pointer : Ptr) (b : Bridge) : Bool := (b.owners kind).contains pointer

/-- `owner_check`: nothing is returned when it aborts. -/
def ownerCheck (kind : SdlKind) (pointer : Ptr) (b : Bridge) : Option Bridge :=
  if pointer = 0 then some b else if ownerContains kind pointer b then some b else none

/-- The first entry that is the pointer gives its place to the last one. -/
def removeEntry (kind : SdlKind) (pointer : Ptr) (b : Bridge) : Bridge :=
  {b with owners :=
    Function.update b.owners kind (swapRemove (b.owners kind) ((b.owners kind).idxOf pointer))}

def ownerUnregister (kind : SdlKind) (pointer : Ptr) (b : Bridge) : Option Bridge :=
  if pointer = 0 then some b
  else if ownerContains kind pointer b then some (removeEntry kind pointer b)
  else none

def ownerHas (kind : SdlKind) (pointer : Ptr) (b : Bridge) : Bool :=
  if pointer = 0 then false else ownerContains kind pointer b

def ownerDrop (kind : SdlKind) (pointer : Ptr) (b : Bridge) : Bridge :=
  if pointer = 0 then b
  else if ownerContains kind pointer b then removeEntry kind pointer b
  else b

/-- The host has made an object, or answered NULL. -/
def Bridge.made (kind : SdlKind) (pointer : Ptr) (b : Bridge) : Bridge :=
  if pointer = 0 then b
  else {b with live := Function.update b.live kind (insert pointer (b.live kind))}

/-- The host has freed an object, or was given NULL. -/
def Bridge.freed (kind : SdlKind) (pointer : Ptr) (b : Bridge) : Bridge :=
  if pointer = 0 then b
  else {b with live := Function.update b.live kind ((b.live kind).erase pointer)}

def Bridge.madeTexture (renderer texture : Ptr) (b : Bridge) : Bridge :=
  b.made .texture texture |> fun b => {b with rendererOf := Function.update b.rendererOf texture renderer}

/-- `SDL_DestroyRenderer` frees the textures of the renderer as well. -/
def Bridge.freedRenderer (renderer : Ptr) (b : Bridge) : Bridge :=
  if renderer = 0 then b
  else
    let b := b.freed .renderer renderer
    {b with live := Function.update b.live .texture ((b.live .texture).filter (b.rendererOf · ≠ renderer))}

/-- `SDL_VideoQuit` destroys every window. -/
def Bridge.freedWindows (b : Bridge) : Bridge := {b with live := Function.update b.live .window ∅}

/-! ## The wrappers

A wrapper takes the answers of the host after its own arguments.
-/

/-- The attempts of a wrapper that tries again after NULL. -/
def firstMade (answers : List Ptr) : Ptr := (answers.find? (· ≠ 0)).getD 0

def createWindow (fullscreenDesktop fullscreen : Ptr) (b : Bridge) : Option Bridge :=
  let window := firstMade [fullscreenDesktop,fullscreen]
  ownerRegister .window window (b.made .window window)

/-- `sword3_SDL_DestroyWindow` leaves the window. -/
def destroyWindow (window : Ptr) (b : Bridge) : Option Bridge := ownerCheck .window window b

def videoQuit (b : Bridge) : Option Bridge := some b.freedWindows

def createRenderer (window asked software default : Ptr) (b : Bridge) : Option Bridge := do
  let b ← ownerCheck .window window b
  let renderer := firstMade [asked,software,default]
  ownerRegister .renderer renderer (b.made .renderer renderer)

def destroyRenderer (renderer : Ptr) (b : Bridge) : Option Bridge := do
  let b ← ownerUnregister .renderer renderer b
  some (b.freedRenderer renderer)

def createTexture (renderer texture : Ptr) (b : Bridge) : Option Bridge := do
  let b ← ownerCheck .renderer renderer b
  ownerRegister .texture texture (b.madeTexture renderer texture)

def createTextureFromSurface (renderer surface texture : Ptr) (b : Bridge) : Option Bridge := do
  let b ← ownerCheck .renderer renderer b
  let b ← ownerCheck .surface surface b
  ownerRegister .texture texture (b.madeTexture renderer texture)

def destroyTexture (texture : Ptr) (b : Bridge) : Option Bridge := do
  let b ← ownerUnregister .texture texture b
  some (b.freed .texture texture)

/-- `sword3_SDL_CreateRGBSurface`, `sword3_SDL_CreateRGBSurfaceFrom`, `sword3_SDL_CreateRGBSurfaceWithFormat`,
`sword3_SDL_CreateRGBSurfaceWithFormatFrom` and `sword3_IMG_Load` -/
def createSurface (surface : Ptr) (b : Bridge) : Option Bridge :=
  ownerRegister .surface surface (b.made .surface surface)

def convertSurfaceFormat (src surface : Ptr) (b : Bridge) : Option Bridge := do
  let b ← ownerCheck .surface src b
  ownerRegister .surface surface (b.made .surface surface)

def convertSurface (src : Ptr) (hasFormat : Bool) (surface : Ptr) (b : Bridge) : Option Bridge := do
  let b ← ownerCheck .surface src b
  if hasFormat then ownerRegister .surface surface (b.made .surface surface) else some b

def freeSurface (surface : Ptr) (b : Bridge) : Option Bridge := do
  let b ← ownerUnregister .surface surface b
  some (b.freed .surface surface)

def rwFromFile (rw : Ptr) (b : Bridge) : Option Bridge := ownerRegister .rwops rw (b.made .rwops rw)

/-- The game calls the close function of an RWops. -/
def closeRw (rw : Ptr) (b : Bridge) : Option Bridge := some (b.freed .rwops rw)

def guestRwClose (rw : Ptr) (freesrc : Bool) (b : Bridge) : Bridge :=
  if rw = 0 ∨ freesrc = false then b else (ownerDrop .rwops rw b).freed .rwops rw

/-- `load_typed_rw`: a host RWops is read and closed by the host's SDL_image, another through its own
functions. -/
def loadTypedRw (rw : Ptr) (freesrc : Bool) (surface : Ptr) (b : Bridge) : Bridge :=
  if rw = 0 then b.made .surface surface
  else if ownerHas .rwops rw b then
    if freesrc then ownerDrop .rwops rw ((b.made .surface surface).freed .rwops rw)
    else b.made .surface surface
  else (guestRwClose rw freesrc b).made .surface surface

def imgLoadRw (rw : Ptr) (freesrc : Bool) (surface : Ptr) (b : Bridge) : Option Bridge :=
  ownerRegister .surface surface (loadTypedRw rw freesrc surface b)

/-- The texture of the movie is destroyed in `movie_ensure_texture` and `movie_close`. -/
def movieDestroyTexture (b : Bridge) : Option Bridge :=
  if b.movieTexture = 0 then some b
  else do
    let b' ← ownerUnregister .texture b.movieTexture b
    some {b'.freed .texture b.movieTexture with movieTexture := 0}

def movieEnsureTexture (renderer : Ptr) (width height : ℤ) (texture : Ptr) (b : Bridge) : Option Bridge :=
  if b.movieTexture ≠ 0 ∧ b.movieSize = (width,height) then some b
  else do
    let b ← movieDestroyTexture b
    let b := {b.madeTexture renderer texture with movieTexture := texture}
    if texture = 0 then some b
    else do
      let b ← ownerRegister .texture texture b
      some {b with movieSize := (width,height)}

def movieClose (b : Bridge) : Option Bridge := do
  let b ← movieDestroyTexture b
  some {b with movieSize := (0,0)}

def checkOwners (objects : List (SdlKind×Ptr)) (b : Bridge) : Option Bridge :=
  objects.foldlM (fun b object => ownerCheck object.1 object.2 b) b

end Machismo.Sword3Owners
