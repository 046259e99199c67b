import Mathlib

/-! # The movie player

One slot holds the movie that is on. To play a movie is to run a loop that returns once the slot is inactive,
and to close one is to call back into the game, which may play the next from there; so loops and callbacks
are kept on a stack. Movies are numbered as they are opened, and what is opened or created for a movie bears
its number.
-/
namespace Machismo.Sword3.Movie

inductive Kind where
  | video
  | audio
  | texture
  deriving DecidableEq

abbrev Resource := Kind × ℕ

/-- `g_movie`; `done` is the movie its callback was given for. -/
structure Slot where
  video : Option ℕ
  audio : Option ℕ
  texture : Option ℕ
  texW : ℤ
  texH : ℤ
  done : Option ℕ
  haveFrame : Bool
  active : Bool

def emptySlot : Slot := ⟨none,none,none,0,0,none,false,false⟩

inductive Frame where
  | loop (movie : ℕ)
  | callback (movie : ℕ)
  deriving DecidableEq

def Frame.isCallback : Frame → Bool
  | .loop _ => false
  | .callback _ => true

/-- `swallowAUp` is `g_swallow_a_up`. The last four keep account: what is open, for every movie whether it came
with a callback, the movies that were to be closed with notice, and the callbacks made. -/
structure State where
  movie : Slot
  closing : Bool
  swallowAUp : Bool
  stack : List Frame
  live : List Resource
  plays : List Bool
  asked : List ℕ
  invoked : List ℕ

def start : State := ⟨emptySlot,false,false,[],[],[],[],[]⟩

def release (kind : Kind) (movie : Option ℕ) (live : List Resource) : List Resource :=
  match movie with
  | none => live
  | some m => live.erase (kind,m)

namespace State
variable (s : State)

/-- The slot and what is open after `movie_close` has let go of everything. -/
def cleared : State :=
  { s with
    movie := emptySlot
    live := release .video s.movie.video (release .texture s.movie.texture (release .audio s.movie.audio s.live)) }

/-- A callback is pushed; what is left of `movie_close` comes after it. -/
def movieClose (notify : Bool) : State :=
  if s.closing then s
  else if !s.movie.active && s.movie.video.isNone then s
  else
    match notify,s.movie.done with
    | true,some m => { s.cleared with closing := true, stack := .callback m :: s.stack, invoked := m :: s.invoked }
    | _,_ => { s.cleared with closing := false }

/-- `movie_close(1)`, with the movie that is on put on record. -/
def movieEnd : State :=
  ({ s with asked := if s.movie.active then s.movie.video.toList ++ s.asked else s.asked } : State).movieClose true

/-- For the movie `m` that is on; `created` is the answer of `SDL_CreateTexture` where that is called. -/
def movieEnsureTexture (m : ℕ) (width height : ℤ) (created : Bool) : ℤ × State :=
  if s.movie.texture.isSome && s.movie.texW == width && s.movie.texH == height then (0,s)
  else
    let live := release .texture s.movie.texture s.live
    if created then
      (0,{ s with
        movie := { s.movie with texture := some m, texW := width, texH := height }
        live := (.texture,m) :: live })
    else (-1,{ s with movie := { s.movie with texture := none }, live := live })

end State

/-- What the decoder has for a frame that is due, with the answers of the renderer. -/
inductive Decoded where
  | finished
  | frame (width height : ℤ) (created updated : Bool)
  deriving DecidableEq

/-- The loop of `movie_present` over the frames that are due. -/
def presentDue (m : ℕ) : List Decoded → State → State
  | [], s => s
  | .finished :: _, s => s.movieEnd
  | .frame width height created updated :: due, s =>
    let s := { s with movie := { s.movie with haveFrame := true } }
    let (rc,s) := s.movieEnsureTexture m width height created
    if rc ≠ 0 then s.movieEnd
    else if updated then presentDue m due s
    else s.movieEnd

inductive Button where
  | a
  | start
  | other
  deriving DecidableEq

namespace State
variable (s : State)

def moviePresent (due : List Decoded) : State :=
  match s.movie.active,s.movie.video with
  | true,some m => presentDue m due s
  | _,_ => s

def movieConsumeSkip (button : Button) (down : Bool) : Bool × State :=
  if s.swallowAUp && button == .a then (true,if down then s else { s with swallowAUp := false })
  else if !s.movie.active then (false,s)
  else if !down then (false,s)
  else if button ≠ .a ∧ button ≠ .start then (false,s)
  else (true,({ s with swallowAUp := s.swallowAUp || button == .a } : State).movieEnd)

def sword3HostStopVideo : State := if !s.movie.active then s else s.movieEnd

/-- Up to the call of `movie_run_until_done`, which is the loop pushed. `opened` and `audio` tell whether the
video and its audio could be opened. -/
def sword3HostPlayVideoFile (path : Option (List Char)) (renderer opened audio done : Bool) : ℤ × State :=
  match path with
  | none => (-1,s)
  | some path =>
    if path = [] ∨ renderer = false then (-1,s)
    else
      let s := s.movieClose false
      if opened then
        let m := s.plays.length
        (0,{ s with
          movie := { s.movie with
            video := some m
            audio := if audio then some m else none
            done := if done then some m else none
            haveFrame := false
            active := true }
          live := (.video,m) :: if audio then (.audio,m) :: s.live else s.live
          plays := s.plays ++ [done]
          stack := .loop m :: s.stack })
      else (-1,{ s with movie := { s.movie with video := none } })

end State

/-- The loop pumps `quit`, buttons and touches, which skip as the A button does, and presents. Buttons and
presents also come from the game, and so does `stop`. -/
inductive Event where
  | play (path : Option (List Char)) (renderer opened audio done : Bool)
  | present (due : List Decoded)
  | button (button : Button) (down : Bool)
  | quit
  | stop
  | callbackReturns
  | loopExits
  deriving DecidableEq

/-- The game has control, and may play a movie, where no loop is on top. -/
def step (s : State) : Event → Option State
  | .play path renderer opened audio done =>
    match s.stack.head? with
    | some (.loop _) => none
    | _ => some (s.sword3HostPlayVideoFile path renderer opened audio done).2
  | .present due => some (s.moviePresent due)
  | .button button down => some (s.movieConsumeSkip button down).2
  | .quit => some s.movieEnd
  | .stop => some s.sword3HostStopVideo
  | .callbackReturns =>
    match s.stack with
    | .callback _ :: stack => some { s with stack := stack, closing := false }
    | _ => none
  | .loopExits =>
    match s.stack with
    | .loop _ :: stack => if s.movie.active then none else some { s with stack := stack }
    | _ => none

end Machismo.Sword3.Movie
