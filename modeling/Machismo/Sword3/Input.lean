import Mathlib
import Machismo.Data.Circular

/-! # The game's input layer

The port's keyboard and controller front end keeps, for every scancode, how many
inputs hold it: one for the keyboard and one for each pressed button or deflected
axis mapped to it.  An edge of that count queues an event.  Arrays are functions of
their index, `unsigned short` counters are naturals with the source's own overflow
checks, and a pointer to a controller is the identifier it was found by.

What is outside the module is an oracle: whether the n-th allocation succeeds, how
many events the callback polls on the n-th event it is told of, and what SDL answers
when a device is opened.
-/
namespace Machismo.Sword3Input
open Machismo.Data

def numScancodes : ℤ := 512
def buttonMax : ℤ := 21
def axisMax : ℤ := 6
def axisPressThreshold : ℤ := 16000
def axisReleaseThreshold : ℤ := 10000
def shortMax : ℕ := 65535
def sizeMax : ℕ := 2^64-1
/-- Two `int`-sized enumerations. -/
def eventSize : ℕ := 8

def scancodeUnknown : ℤ := 0

def validScancode (scancode : ℤ) : Bool :=
  decide (scancodeUnknown < scancode) && decide (scancode < numScancodes)

/-- What the loops from one up to `SDL_NUM_SCANCODES` visit. -/
def scancodes : List ℤ := (List.range 511).map fun i : ℕ => (i : ℤ)+1

structure Event where
  scancode : ℤ
  pressed : Bool
deriving DecidableEq, Repr, Inhabited

structure Controller where
  instanceId : ℤ
  keyRefs : ℤ → ℕ
  buttonDown : ℤ → Bool
  axisDirection : ℤ → ℤ

structure Env where
  malloc : ℕ → Bool
  polls : ℕ → ℕ

/-- The part of `struct Sword3Input` that is not its queue. -/
structure Keys where
  controllers : List Controller
  keyRefs : ℤ → ℕ
  keyboardDown : ℤ → Bool
  buttonMap : ℤ → ℤ
  axisNegative : ℤ → ℤ
  axisPositive : ℤ → ℤ

/-- `struct Sword3Input`, with the number of allocations tried so far and the events
that were ever queued and ever polled. -/
structure World extends Keys where
  queue : Circular Event
  mallocs : ℕ
  queued : List Event
  polled : List Event

inductive Errno where
  | enomem | eoverflow | eproto | eio | einval | sdl
deriving DecidableEq, Repr

/-- What a call returns, `-1` with an error number or a value, and the state it leaves. -/
abbrev Result := Except Errno ℕ × World

/-- Go on unless the call before returned `-1`; what it did to the state stays. -/
def Result.andThen (r : Result) (f : World → Result) : Result :=
  match r.1 with
  | .error e => (.error e,r.2)
  | .ok _ => f r.2

section Queue

/-- The doubling loop of `reserve_queue`.  The capacity it starts from is not zero. -/
def growCapacity (required capacity : ℕ) : ℕ :=
  if h : capacity < required ∧ 0 < capacity then
    if sizeMax/2 < capacity then required else growCapacity required (capacity*2)
  else capacity
termination_by required-capacity

def newCapacity (q : Circular Event) (required : ℕ) : ℕ :=
  let doubled := if q.capacity = 0 then 32 else q.capacity*2%2^64
  growCapacity required (if doubled < q.capacity then required else doubled)

def reserveQueue (env : Env) (additional : ℕ) (w : World) : Result :=
  if sizeMax-w.queue.count < additional then (.error .enomem,w)
  else if w.queue.count+additional ≤ w.queue.capacity then (.ok 0,w)
  else if sizeMax/eventSize < newCapacity w.queue (w.queue.count+additional) then (.error .enomem,w)
  else if env.malloc w.mallocs then
    (.ok 0,{ w with
      queue := w.queue.moveTo (newCapacity w.queue (w.queue.count+additional))
      mallocs := w.mallocs+1 })
  else (.error .enomem,{ w with mallocs := w.mallocs+1 })

/-- `sword3_input_poll`: the event it returns, if there is one, is also put on record. -/
def poll (w : World) : Option Event × World :=
  if w.queue.count = 0 then (none,w)
  else
    (some (w.queue.event 0),{ w with
      queue := w.queue.pop
      polled := w.polled++[w.queue.event 0] })

/-- `enqueue_reserved`.  The callback may poll and query, and nothing else. -/
def enqueueReserved (env : Env) (scancode : ℤ) (pressed : Bool) (w : World) : World :=
  (fun w => (poll w).2)^[env.polls w.queued.length]
    { w with
      queue := w.queue.push ⟨scancode,pressed⟩
      queued := w.queued++[⟨scancode,pressed⟩] }

end Queue

section Keys

/-- A reservation made only on the edge of a count. -/
def reserveIf (env : Env) (edge : Bool) (w : World) : Result :=
  if edge then reserveQueue env 1 w else (.ok 0,w)

def enqueueIf (env : Env) (edge : Bool) (scancode : ℤ) (pressed : Bool) (w : World) : World :=
  if edge then enqueueReserved env scancode pressed w else w

def setKeyRefs (scancode : ℤ) (n : ℕ) (w : World) : World :=
  { w with keyRefs := Function.update w.keyRefs scancode n }

def changeGlobalKey (env : Env) (scancode : ℤ) (pressed : Bool) (w : World) : Result :=
  if !validScancode scancode then (.ok 0,w)
  else if pressed then
    if w.keyRefs scancode = shortMax then (.error .eoverflow,w)
    else
      (reserveIf env (w.keyRefs scancode == 0) w).andThen fun w =>
        let w := setKeyRefs scancode (w.keyRefs scancode+1) w
        (.ok 0,enqueueIf env (w.keyRefs scancode == 1) scancode true w)
  else if w.keyRefs scancode = 0 then (.ok 0,w)
  else
    (reserveIf env (w.keyRefs scancode == 1) w).andThen fun w =>
      let w := setKeyRefs scancode (w.keyRefs scancode-1) w
      (.ok 0,enqueueIf env (w.keyRefs scancode == 0) scancode false w)

def findController (w : World) (instanceId : ℤ) : Option Controller :=
  w.controllers.find? fun c => c.instanceId == instanceId

/-- A write through the pointer `find_controller` gave for this identifier. -/
def modifyController (instanceId : ℤ) (f : Controller → Controller) : List Controller → List Controller
  | [] => []
  | c :: cs => if c.instanceId == instanceId then f c :: cs else c :: modifyController instanceId f cs

def updateController (instanceId : ℤ) (f : Controller → Controller) (w : World) : World :=
  { w with controllers := modifyController instanceId f w.controllers }

def Controller.setKeyRefs (scancode : ℤ) (n : ℕ) (c : Controller) : Controller :=
  { c with keyRefs := Function.update c.keyRefs scancode n }

/-- `change_controller_key`, for a controller that is in the list. -/
def changeControllerKey (env : Env) (state : Controller) (scancode : ℤ) (pressed : Bool) (w : World) : Result :=
  if !validScancode scancode then (.ok 0,w)
  else if pressed then
    if state.keyRefs scancode = shortMax ∨ w.keyRefs scancode = shortMax then (.error .eoverflow,w)
    else
      (reserveIf env (w.keyRefs scancode == 0) w).andThen fun w =>
        let w := updateController state.instanceId (Controller.setKeyRefs scancode (state.keyRefs scancode+1)) w
        let w := setKeyRefs scancode (w.keyRefs scancode+1) w
        (.ok 0,enqueueIf env (w.keyRefs scancode == 1) scancode true w)
  else if state.keyRefs scancode = 0 then (.ok 0,w)
  else if w.keyRefs scancode < state.keyRefs scancode then (.error .eproto,w)
  else
    (reserveIf env (w.keyRefs scancode == 1) w).andThen fun w =>
      let w := updateController state.instanceId (Controller.setKeyRefs scancode (state.keyRefs scancode-1)) w
      let w := setKeyRefs scancode (w.keyRefs scancode-1) w
      (.ok 0,enqueueIf env (w.keyRefs scancode == 0) scancode false w)

/-- Subtraction in an `unsigned short`. -/
def shortSub (a b : ℕ) : ℕ := (a+2^16-b%2^16)%2^16

/-- The two `memset`s over a controller's buttons and axes. -/
def Controller.clearInputs (c : Controller) : Controller :=
  { c with buttonDown := fun _ => false, axisDirection := fun _ => 0 }

def Controller.clearKeys (c : Controller) : Controller :=
  { c with keyRefs := fun _ => 0 }

end Keys

section Devices

/-- What SDL answers when a device is opened: `SDL_IsGameController`,
`SDL_GameControllerOpen`, `SDL_GameControllerGetJoystick`, `SDL_JoystickInstanceID`. -/
inductive Opened where
  | notController
  | openFailed
  | noJoystick
  | joystick (instanceId : ℤ)
deriving DecidableEq, Repr

def newController (instanceId : ℤ) : Controller :=
  ⟨instanceId,fun _ => 0,fun _ => false,fun _ => 0⟩

def addController (env : Env) (device : Opened) (w : World) : Result :=
  match device with
  | .notController => (.ok 0,w)
  | .openFailed => (.error .sdl,w)
  | .noJoystick => (.error .eio,w)
  | .joystick instanceId =>
    if instanceId < 0 then (.error .sdl,w)
    else if (findController w instanceId).isSome then (.ok 0,w)
    else if env.malloc w.mallocs then
      (.ok 0,{ w with
        controllers := newController instanceId :: w.controllers
        mallocs := w.mallocs+1 })
    else (.error .enomem,{ w with mallocs := w.mallocs+1 })

def releaseKey (env : Env) (state : Controller) (w : World) (scancode : ℤ) : World :=
  if state.keyRefs scancode = 0 then w
  else
    let w := setKeyRefs scancode (shortSub (w.keyRefs scancode) (state.keyRefs scancode)) w
    let w := updateController state.instanceId (Controller.setKeyRefs scancode 0) w
    enqueueIf env (w.keyRefs scancode == 0) scancode false w

def releaseController (env : Env) (state : Controller) (w : World) : Result :=
  if scancodes.any fun sc => decide (w.keyRefs sc < state.keyRefs sc) then (.error .eproto,w)
  else
    (reserveQueue env
      (scancodes.countP fun sc => state.keyRefs sc != 0 && state.keyRefs sc == w.keyRefs sc) w).andThen fun w =>
        (.ok 0,updateController state.instanceId Controller.clearInputs
          (scancodes.foldl (releaseKey env state) w))

def removeController (env : Env) (instanceId : ℤ) (w : World) : Result :=
  match findController w instanceId with
  | none => (.ok 0,w)
  | some state =>
    (releaseController env state w).andThen fun w =>
      (.ok 0,{ w with controllers := w.controllers.eraseP fun c => c.instanceId == instanceId })

end Devices

section Events

def handleKeyboard (env : Env) (scancode : ℤ) (pressed repeated : Bool) (w : World) : Result :=
  if !validScancode scancode || (pressed && repeated) then (.ok 0,w)
  else if w.keyboardDown scancode = pressed then (.ok 0,w)
  else
    (changeGlobalKey env scancode pressed w).andThen fun w =>
      (.ok 0,{ w with keyboardDown := Function.update w.keyboardDown scancode pressed })

def Controller.setButton (button : ℤ) (pressed : Bool) (c : Controller) : Controller :=
  { c with buttonDown := Function.update c.buttonDown button pressed }

/-- The button cases of `sword3_input_handle_event`. -/
def handleButton (env : Env) (which button : ℤ) (pressed : Bool) (w : World) : Result :=
  match findController w which with
  | none => (.ok 0,w)
  | some state =>
    if 0 ≤ button ∧ button < buttonMax then
      if state.buttonDown button = pressed then (.ok 0,w)
      else
        (changeControllerKey env state (w.buttonMap button) pressed w).andThen fun w =>
          (.ok 0,updateController which (Controller.setButton button pressed) w)
    else (.ok 0,w)

/-- Where the stick of an axis that was at `old` is, once it reports `value`. -/
def newDirection (old value : ℤ) : ℤ :=
  let released :=
    if old < 0 ∧ -axisReleaseThreshold < value then 0
    else if 0 < old ∧ value < axisReleaseThreshold then 0
    else old
  if released = 0 then
    if value ≤ -axisPressThreshold then -1
    else if axisPressThreshold ≤ value then 1
    else released
  else released

def axisKey (w : World) (axis direction : ℤ) : ℤ :=
  if direction < 0 then w.axisNegative axis else w.axisPositive axis

def Controller.setAxis (axis direction : ℤ) (c : Controller) : Controller :=
  { c with axisDirection := Function.update c.axisDirection axis direction }

/-- The call of `change_controller_key` for a direction, if there is one. -/
def changeAxisKey (env : Env) (which axis direction : ℤ) (pressed : Bool) (w : World) : Result :=
  match findController w which with
  | none => (.ok 0,w)
  | some state =>
    if direction = 0 then (.ok 0,w)
    else changeControllerKey env state (axisKey w axis direction) pressed w

def handleAxis (env : Env) (which axis value : ℤ) (w : World) : Result :=
  match findController w which with
  | none => (.ok 0,w)
  | some state =>
    if axis < 0 ∨ axisMax ≤ axis then (.ok 0,w)
    else if newDirection (state.axisDirection axis) value = state.axisDirection axis then (.ok 0,w)
    else
      ((changeAxisKey env which axis (state.axisDirection axis) false w).andThen fun w =>
        (changeAxisKey env which axis (newDirection (state.axisDirection axis) value) true
          (updateController which (Controller.setAxis axis 0) w)).andThen fun w =>
            (.ok 0,updateController which
              (Controller.setAxis axis (newDirection (state.axisDirection axis) value)) w))

def clearKey (env : Env) (w : World) (scancode : ℤ) : World :=
  if w.keyRefs scancode = 0 then w
  else enqueueReserved env scancode false (setKeyRefs scancode 0 w)

def releaseAll (env : Env) (w : World) : Result :=
  (reserveQueue env (scancodes.countP fun sc => w.keyRefs sc != 0) w).andThen fun w =>
    (.ok 0,scancodes.foldl (clearKey env) { w with
      keyboardDown := fun _ => false
      controllers := w.controllers.map fun c => c.clearKeys.clearInputs })

/-- A `size_t` sum over the list of controllers. -/
def ownedBy (controllers : List Controller) (scancode : ℤ) : ℕ :=
  controllers.foldl (fun owned c => (owned+c.keyRefs scancode)%2^64) 0

def releaseOwned (env : Env) (w : World) (scancode : ℤ) : World :=
  let owned := ownedBy w.controllers scancode
  let w := { w with controllers := w.controllers.map (Controller.setKeyRefs scancode 0) }
  let w := setKeyRefs scancode (shortSub (w.keyRefs scancode) owned) w
  enqueueIf env (owned != 0 && w.keyRefs scancode == 0) scancode false w

/-- The last loop of `release_controller_inputs`. -/
def clearAllInputs (w : World) : World :=
  { w with controllers := w.controllers.map Controller.clearInputs }

def releaseControllerInputs (env : Env) (w : World) : Result :=
  if scancodes.any fun sc => decide (w.keyRefs sc < ownedBy w.controllers sc) then (.error .eproto,w)
  else
    (reserveQueue env (scancodes.countP fun sc =>
      ownedBy w.controllers sc != 0 && ownedBy w.controllers sc == w.keyRefs sc) w).andThen fun w =>
        (.ok 0,clearAllInputs (scancodes.foldl (releaseOwned env) w))

def mapButton (env : Env) (button scancode : ℤ) (w : World) : Result :=
  if button < 0 ∨ buttonMax ≤ button ∨ (scancode ≠ scancodeUnknown ∧ !validScancode scancode) then
    (.error .einval,w)
  else
    (releaseControllerInputs env w).andThen fun w =>
      (.ok 0,{ w with buttonMap := Function.update w.buttonMap button scancode })

def mapAxis (env : Env) (axis negative positive : ℤ) (w : World) : Result :=
  if axis < 0 ∨ axisMax ≤ axis ∨ (negative ≠ scancodeUnknown ∧ !validScancode negative) ∨
      (positive ≠ scancodeUnknown ∧ !validScancode positive) then
    (.error .einval,w)
  else
    (releaseControllerInputs env w).andThen fun w =>
      (.ok 0,{ w with
        axisNegative := Function.update w.axisNegative axis negative
        axisPositive := Function.update w.axisPositive axis positive })

def isDown (w : World) (scancode : ℤ) : Bool :=
  validScancode scancode && w.keyRefs scancode != 0

end Events

section Runs

inductive Call where
  | key (scancode : ℤ) (pressed repeated : Bool)
  | deviceAdded (device : Opened)
  | deviceRemoved (which : ℤ)
  | button (which button : ℤ) (pressed : Bool)
  | axisMotion (which axis value : ℤ)
  | window (focusLost : Bool)
  | other
  | mapButton (button scancode : ℤ)
  | mapAxis (axis negative positive : ℤ)
  | releaseAll
  | poll

/-- What `sword3_input_handle_event` makes of a handler's answer. -/
def Result.consumed (r : Result) : Result := r.andThen fun w => (.ok 1,w)

/-- One call; the events come through `sword3_input_handle_event`. -/
def call (env : Env) : Call → World → Result
  | .key scancode pressed repeated,w => Result.consumed (handleKeyboard env scancode pressed repeated w)
  | .deviceAdded device,w => Result.consumed (addController env device w)
  | .deviceRemoved which,w => Result.consumed (removeController env which w)
  | .button which button pressed,w => Result.consumed (handleButton env which button pressed w)
  | .axisMotion which axis value,w => Result.consumed (handleAxis env which axis value w)
  | .window focusLost,w => if focusLost then Result.consumed (releaseAll env w) else (.ok 0,w)
  | .other,w => (.ok 0,w)
  | .mapButton button scancode,w => mapButton env button scancode w
  | .mapAxis axis negative positive,w => mapAxis env axis negative positive w
  | .releaseAll,w => releaseAll env w
  | .poll,w => (.ok (if (poll w).1.isSome then 1 else 0),(poll w).2)

def run (env : Env) (w : World) (calls : List Call) : World :=
  calls.foldl (fun w c => (call env c w).2) w

/-- `set_default_mappings` for buttons, by the codes of SDL's enumerations. -/
def defaultButtonMap (button : ℤ) : ℤ :=
  if button = 0 then 40        -- A, return
  else if button = 1 then 41   -- B, escape
  else if button = 2 then 27   -- X
  else if button = 3 then 28   -- Y
  else if button = 4 then 43   -- back, tab
  else if button = 6 then 44   -- start, space
  else if button = 9 then 20   -- left shoulder, Q
  else if button = 10 then 8   -- right shoulder, E
  else if button = 11 then 82  -- up
  else if button = 12 then 81  -- down
  else if button = 13 then 80  -- left
  else if button = 14 then 79  -- right
  else scancodeUnknown

def defaultAxisNegative (axis : ℤ) : ℤ :=
  if axis = 0 then 80 else if axis = 1 then 82 else scancodeUnknown

def defaultAxisPositive (axis : ℤ) : ℤ :=
  if axis = 0 then 79 else if axis = 1 then 81 else scancodeUnknown

/-- What `calloc` and `set_default_mappings` leave; the first allocation was the block itself. -/
def blank : World where
  controllers := []
  keyRefs _ := 0
  keyboardDown _ := false
  buttonMap := defaultButtonMap
  axisNegative := defaultAxisNegative
  axisPositive := defaultAxisPositive
  queue := ⟨fun _ => ⟨0,false⟩,0,0,0⟩
  mallocs := 1
  queued := []
  polled := []

def addControllers (env : Env) : List Opened → World → Result
  | [],w => (.ok 0,w)
  | device :: devices,w => (addController env device w).andThen (addControllers env devices)

/-- `sword3_input_create`, given the answers for the joysticks SDL counts, or none where
`SDL_NumJoysticks` fails. -/
def create (env : Env) (joysticks : Option (List Opened)) : Option World :=
  if env.malloc 0 then
    match joysticks with
    | none => none
    | some devices =>
      match addControllers env devices blank with
      | (.error _,_) => none
      | (.ok _,w) => some w
  else none

end Runs

end Machismo.Sword3Input
