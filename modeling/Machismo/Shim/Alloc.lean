import Mathlib
import Machismo.Data.SwapRemove

/-! # The allocation wrappers

The wrappers hand out memory of four kinds: a static buffer while the real functions are not
resolved, the router's, registered mappings, and the real heap's.  They keep no table of who
gave what; `free` and `realloc` look the origin up each time.  Beside the wrappers' own
variables the state has the blocks that are live with their origins, the memory, and the
calls that hit a live block of another origin.

What the system answers is an environment: `dlsym`, the router and the heap are asked in
turn.  An allocator's answer that is not free memory counts as a refusal.
-/
namespace Machismo.Shim.Alloc

inductive Origin where
  | bootstrap
  | routed
  | mapped
  | heap
deriving DecidableEq, Repr

/-- A live allocation with the size it was asked for. -/
structure Block where
  addr : ℕ
  size : ℕ
  origin : Origin
deriving DecidableEq, Repr

/-- Which of the real functions are known. -/
structure Resolved where
  malloc : Bool
  free : Bool
  calloc : Bool
  realloc : Bool
deriving DecidableEq, Repr

/-- A call that releases or resizes memory. -/
inductive Deed where
  | routerFree (p : ℕ)
  | munmap (p size : ℕ)
  | realFree (p : ℕ)
  | realRealloc (p : ℕ)
deriving DecidableEq, Repr

structure Env where
  bootstrapBuf : ℕ
  buf_pos : 0 < bootstrapBuf
  dlsym : ℕ → Resolved
  router : ℕ → ℕ
  heap : ℕ → ℕ

structure State where
  real : Resolved
  router : Bool
  registry : List (ℕ × ℕ)
  bootstrapPos : ℤ
  mem : ℕ → UInt8
  live : List Block
  asked : ℕ
  misdirected : List Deed

def State.start : State := ⟨⟨false,false,false,false⟩,false,[],0,fun _ => 0,[],0,[]⟩

def bootstrapBufSize : ℕ := 4096
def mmapRegistryMax : ℕ := 512

section Facilities

/-- Whatever is live at the pointer came from the facility that is called. -/
def Deed.Rightful (live : List Block) : Deed → Prop
  | .routerFree p => ∀ b ∈ live, b.addr = p → b.origin = .routed
  | .munmap p size => ∀ b ∈ live, b.addr = p → b.origin = .mapped ∧ b.size = size
  | .realFree p => ∀ b ∈ live, b.addr = p → b.origin = .heap
  | .realRealloc p => ∀ b ∈ live, b.addr = p → b.origin = .heap

instance (live : List Block) (d : Deed) : Decidable (d.Rightful live) :=
  match d with
  | .routerFree p => inferInstanceAs (Decidable (∀ b ∈ live, b.addr = p → b.origin = .routed))
  | .munmap p size => inferInstanceAs (Decidable (∀ b ∈ live, b.addr = p → b.origin = .mapped ∧ b.size = size))
  | .realFree p => inferInstanceAs (Decidable (∀ b ∈ live, b.addr = p → b.origin = .heap))
  | .realRealloc p => inferInstanceAs (Decidable (∀ b ∈ live, b.addr = p → b.origin = .heap))

def State.note (s : State) (d : Deed) : State :=
  if d.Rightful s.live then s else { s with misdirected := s.misdirected++[d] }

def State.blockAt (s : State) (p : ℕ) (origin : Origin) : Option Block :=
  s.live.find? fun b => b.addr == p && b.origin == origin

def State.release (s : State) (p : ℕ) (origin : Origin) : State :=
  { s with live := s.live.filter fun b => !(b.addr == p && b.origin == origin) }

/-- Memory an allocator may give: no live block and not the static buffer.  An empty block has an address of its own. -/
def State.Fresh (env : Env) (s : State) (a n : ℕ) : Prop :=
  a ≠ 0 ∧ (a+max n 1 ≤ env.bootstrapBuf ∨ env.bootstrapBuf+bootstrapBufSize ≤ a) ∧
    ∀ b ∈ s.live, a+max n 1 ≤ b.addr ∨ b.addr+max b.size 1 ≤ a

instance (env : Env) (s : State) (a n : ℕ) : Decidable (s.Fresh env a n) :=
  inferInstanceAs (Decidable (_ ∧ _ ∧ _))

def State.hand (env : Env) (s : State) (origin : Origin) (a n : ℕ) : ℕ × State :=
  if s.Fresh env a n then (a,{ s with live := ⟨a,n,origin⟩::s.live }) else (0,s)

def State.ask (s : State) : State := { s with asked := s.asked+1 }

def State.memset (s : State) (p n : ℕ) : State :=
  { s with mem := fun a => if p ≤ a ∧ a < p+n then 0 else s.mem a }

def State.memcpy (s : State) (p q n : ℕ) : State :=
  { s with mem := fun a => if p ≤ a ∧ a < p+n then s.mem (q+(a-p)) else s.mem a }

variable (env : Env)

def realMalloc (n : ℕ) (s : State) : ℕ × State := s.ask.hand env .heap (env.heap s.asked) n

def realCalloc (nmemb size : ℕ) (s : State) : ℕ × State :=
  if nmemb*size < 2^64 then
    let r := s.ask.hand env .heap (env.heap s.asked) (nmemb*size)
    if r.1 = 0 then r else (r.1,r.2.memset r.1 (nmemb*size))
  else (0,s)

def realFree (p : ℕ) (s : State) : State := (s.note (.realFree p)).release p .heap

-- the bytes are read before the old block is given back, so the new one may lie over it
def realRealloc (p n : ℕ) (s : State) : ℕ × State :=
  if p = 0 then realMalloc env n s
  else
    let s' := s.note (.realRealloc p)
    match s.blockAt p .heap with
    | none => (0,s')
    | some b =>
      if n = 0 then (0,s'.release p .heap)
      else
        let r := (s'.release p .heap).ask.hand env .heap (env.heap s.asked) n
        if r.1 = 0 then (0,s'.ask) else (r.1,r.2.memcpy r.1 p (min b.size n))

/-- `alloc_router`: zeroed memory, or a refusal. -/
def allocRouter (n : ℕ) (s : State) : ℕ × State :=
  let r := s.ask.hand env .routed (env.router s.asked) n
  if r.1 = 0 then r else (r.1,r.2.memset r.1 n)

/-- `free_router`: nonzero if the pointer was routed and has been released. -/
def freeRouter (p : ℕ) (s : State) : Bool × State :=
  match s.blockAt p .routed with
  | none => (false,s)
  | some _ => (true,(s.note (.routerFree p)).release p .routed)

/-- `usable_router`: the size a routed allocation was asked for, 0 if not routed. -/
def usableRouter (p : ℕ) (s : State) : ℕ :=
  match s.blockAt p .routed with
  | none => 0
  | some b => b.size

def munmap (p size : ℕ) (s : State) : State := (s.note (.munmap p size)).release p .mapped

end Facilities

section Registry

def mmapRegistryAdd (registry : List (ℕ × ℕ)) (addr size : ℕ) : List (ℕ × ℕ) :=
  if registry.length ≥ mmapRegistryMax then registry else registry++[(addr,size)]

/-- The entry is overwritten with the last one.  Size 0 says that there was none. -/
def mmapRegistryRemove (registry : List (ℕ × ℕ)) (addr : ℕ) : ℕ × List (ℕ × ℕ) :=
  match registry.findIdx? fun e => e.1 == addr with
  | none => (0,registry)
  | some i => ((registry.getD i (0,0)).2,Data.swapRemove registry i)

end Registry

section Wrappers
variable (env : Env)

def resolveRealFuncs (s : State) : State :=
  if s.real.malloc then s else { s.ask with real := env.dlsym s.asked }

-- `(bootstrap_pos + 15) & ~15`
def State.aligned (s : State) : ℤ := (s.bootstrapPos+15)/16*16

def bootstrapAlloc (size : ℕ) (s : State) : ℕ × State :=
  let stop := Int.bmod (s.aligned+size) (2^32)
  if stop ≤ bootstrapBufSize then
    let p := (env.bootstrapBuf+s.aligned).toNat
    (p,{ s.memset p size with
      bootstrapPos := stop
      live := ⟨p,size,.bootstrap⟩::s.live })
  else (0,s)

def shimMalloc (size : ℕ) (s : State) : ℕ × State :=
  let s := resolveRealFuncs env s
  if s.real.malloc then
    let r := if s.router then allocRouter env size s else (0,s)
    if r.1 = 0 then
      let h := realMalloc env size r.2
      if h.1 = 0 then h else (h.1,h.2.memset h.1 size)
    else r
  else bootstrapAlloc env size s

def shimFree (p : ℕ) (s : State) : State :=
  if p = 0 then s
  else if env.bootstrapBuf ≤ p ∧ p < env.bootstrapBuf+bootstrapBufSize then s
  else
    let r := if s.router then freeRouter p s else (false,s)
    if r.1 then r.2
    else
      let m := mmapRegistryRemove s.registry p
      let s := { s with registry := m.2 }
      if m.1 = 0 then
        let s := if s.real.free then s else resolveRealFuncs env s
        if s.real.free then realFree p s else s
      else munmap p m.1 s

def shimCalloc (nmemb size : ℕ) (s : State) : ℕ × State :=
  let s := if s.real.calloc then s else resolveRealFuncs env s
  if s.real.calloc then realCalloc env nmemb size s
  else shimMalloc env (nmemb*size%2^64) s

def shimRealloc (p size : ℕ) (s : State) : ℕ × State :=
  let old := if s.router && p != 0 then usableRouter p s else 0
  if old = 0 then
    let s := if s.real.realloc then s else resolveRealFuncs env s
    if s.real.realloc then realRealloc env p size s else (0,s)
  else
    let r := shimMalloc env size s
    let s := if r.1 ≠ 0 ∧ size ≠ 0 then r.2.memcpy r.1 p (min old size) else r.2
    (r.1,if r.1 ≠ 0 ∨ size = 0 then shimFree env p s else s)

/-- A call of the program, or a write of its own.  What it registers is a mapping it has just made. -/
inductive Call where
  | malloc (size : ℕ)
  | calloc (nmemb size : ℕ)
  | realloc (p size : ℕ)
  | free (p : ℕ)
  | mmapRegistryAdd (addr size : ℕ)
  | setAllocRouter
  | write (a : ℕ) (v : UInt8)
deriving DecidableEq

def exec : Call → State → State
  | .malloc size,s => (shimMalloc env size s).2
  | .calloc nmemb size,s => (shimCalloc env nmemb size s).2
  | .realloc p size,s => (shimRealloc env p size s).2
  | .free p,s => shimFree env p s
  | .mmapRegistryAdd addr size,s =>
    if s.Fresh env addr size then
      { s with
        registry := Alloc.mmapRegistryAdd s.registry addr size
        live := ⟨addr,size,.mapped⟩::s.live }
    else s
  | .setAllocRouter,s => { s with router := true }
  | .write a v,s => { s with mem := Function.update s.mem a v }

end Wrappers

end Machismo.Shim.Alloc
