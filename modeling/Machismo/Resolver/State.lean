import Machismo.A64.Memory
import Machismo.Resolver.Names

/-! # The state of the resolver

The process around the resolver is an environment of fixed answers: what `dlsym`, `dlopen` and the
two Mach-O symbol tables say, where the four anonymous pools are mapped, where the resolver's own
functions lie. A resolved import is a target, which remembers what is at its address: a definition
that was found, an adapter around one, a hook of the resolver, a zeroed slot or a stub.
-/
namespace Machismo.Resolver
open A64

abbrev Handle := BitVec 64

def rtldDefault : Handle := 0

inductive DylibAction where
  | map | stub | skip | macho | deferred
  deriving DecidableEq, Repr

structure DylibEntry where
  name : Name
  action : DylibAction
  soPath : Name
  handle : Handle
  machoInfo : Handle
  deriving DecidableEq, Repr

def maxDylibs : ℕ := 64
def maxDeferredBinds : ℕ := 512

structure SegInfo where
  vmaddr : BitVec 64
  vmsize : BitVec 64
  deriving DecidableEq, Repr

/-- What is known of an image once its load commands are read and its libraries opened. Entries of
`dylibs` from `maxDylibs` on are whatever memory follows the table. -/
structure Image where
  slide : Addr
  mhAddr : Addr
  dylibs : ℕ → DylibEntry
  ndylibs : ℕ
  segments : List SegInfo

/-- Functions of the resolver that are bound in place of a symbol. -/
inductive Hook where
  | operatorNew | operatorDelete | luaopenJit | luaClose | luaPcall | createContext | setAttribute
  deriving DecidableEq, Repr

inductive Pool where
  | ctor | variadic | weak | return0
  deriving DecidableEq, Repr

def Pool.slotSize : Pool → ℕ
  | .ctor => 32
  | .variadic => 56
  | .weak => 128
  | .return0 => 128

structure Env where
  dlsym : Handle → Name → Addr
  dlopen : Name → Handle
  machoSymbol : Name → Addr
  dylibLookup : Handle → Name → Addr
  dylibLoad : Name → Handle
  hookAddr : Hook → Addr
  mmap : Pool → Option Addr
  pageSize : ℕ

def Env.capacity (E : Env) : Pool → ℕ
  | .ctor => E.pageSize*4
  | .variadic => E.pageSize*2
  | .weak => 64*4096
  | .return0 => 256*4096

/-- A value for a bind slot, with what lies there. -/
inductive Target where
  | null
  | found (sym : Addr) (addend : BitVec 64)
  | ctorAdapter (slot sym : Addr) (addend : BitVec 64)
  | variadicThunk (slot vFunc : Addr) (info : VariadicInfo)
  | hook (h : Hook)
  | zeroSlot (slot : Addr)
  | return0 (slot : Addr)
  deriving DecidableEq

def Target.addr (E : Env) : Target → Addr
  | .null => 0
  | .found sym addend => sym + addend
  | .ctorAdapter slot _ _ => slot
  | .variadicThunk slot _ _ => slot
  | .hook h => E.hookAddr h
  | .zeroSlot slot => slot
  | .return0 slot => slot

structure DeferredBind where
  gotSlot : Addr
  symName : Name
  libOrdinal : ℤ
  weak : Bool
  addend : BitVec 64
  deriving DecidableEq

/-- The binds waiting for a deferred library, and the copy of the table their ordinals refer to. -/
structure Deferred where
  binds : List DeferredBind
  active : Bool
  resolved : Bool
  dylibs : ℕ → DylibEntry
  ndylibs : ℕ

/-- Memory, the counters of the image at hand, and what outlives it: the pools, the deferred binds
and the functions behind the two `SDL_GL` hooks. `written` lists the addresses of the 8-byte words
written, `touched` the indices at which a table of dylibs has been read. -/
structure ResolverState where
  mem : Memory
  bindsResolved : ℕ
  bindsStubbed : ℕ
  bindsFailed : ℕ
  rebasesApplied : ℕ
  used : Pool → ℕ
  deferred : Deferred
  realSDL : Hook → Option Target
  written : List Addr
  touched : List ℕ

def freshState (mem : Memory) : ResolverState where
  mem := mem
  bindsResolved := 0
  bindsStubbed := 0
  bindsFailed := 0
  rebasesApplied := 0
  used := fun _ => 0
  deferred := ⟨[],false,false,fun _ => ⟨[],.map,[],0,0⟩,0⟩
  realSDL := fun _ => none
  written := []
  touched := []

namespace ResolverState
variable (st : ResolverState)

def countResolved : ResolverState := { st with bindsResolved := st.bindsResolved + 1 }
def countStubbed : ResolverState := { st with bindsStubbed := st.bindsStubbed + 1 }
def countFailed : ResolverState := { st with bindsFailed := st.bindsFailed + 1 }

/-- A weak miss counts as stubbed, any other as failed. -/
def countMiss (weak : Bool) : ResolverState := if weak then st.countStubbed else st.countFailed

def touch (i : ℕ) : ResolverState := { st with touched := st.touched ++ [i] }

def write (a : Addr) (v : BitVec 64) : ResolverState :=
  { st with mem := store st.mem a 8 v, written := st.written ++ [a] }

end ResolverState

/-- The next slot of a pool, unless it cannot be mapped or is full. -/
def alloc (E : Env) (p : Pool) (st : ResolverState) : Option (Addr × ResolverState) :=
  (E.mmap p).bind fun base =>
    if st.used p + p.slotSize ≤ E.capacity p then
      some (base + BitVec.ofNat 64 (st.used p),
        { st with used := Function.update st.used p (st.used p + p.slotSize) })
    else none

def allocReturn0Stub (E : Env) (st : ResolverState) : Target × ResolverState :=
  match alloc E .return0 st with
  | some (slot,st') => (.return0 slot,st')
  | none => (.null,st)

def wrapCtorForAppleAbi (E : Env) (sym : Addr) (addend : BitVec 64) (st : ResolverState) : Target × ResolverState :=
  match alloc E .ctor st with
  | some (slot,st') => (.ctorAdapter slot sym addend,st')
  | none => (.found sym addend,st)

def createVariadicThunk (E : Env) (vFunc : Addr) (info : VariadicInfo) (st : ResolverState) :
    Option (Target × ResolverState) :=
  (alloc E .variadic st).map fun (slot,st') => (.variadicThunk slot vFunc info,st')

/-- A definition, behind an adapter if it is a constructor or destructor. -/
def bindCtor (E : Env) (name : Name) (sym : Addr) (addend : BitVec 64) (st : ResolverState) :
    Target × ResolverState :=
  if adapted name then wrapCtorForAppleAbi E sym addend st else (.found sym addend,st)

/-- A variadic function is replaced by a thunk to its `va_list` counterpart, where that exists. -/
def bindVariadic (E : Env) (lookup : Name) (r : Target × ResolverState) : Target × ResolverState :=
  match lookupVariadic lookup with
  | none => r
  | some info =>
    let vFunc := E.dlsym rtldDefault info.vName
    if vFunc = 0 then r else (createVariadicThunk E vFunc info r.2).getD r

/-- While a library is deferred, the two `SDL_GL` functions are hooked. -/
def hookSDL (lookup : Name) (r : Target × ResolverState) : Target × ResolverState :=
  if r.2.deferred.active && !r.2.deferred.resolved then
    if lookup = "SDL_GL_CreateContext".toList then
      (.hook .createContext,{ r.2 with realSDL := Function.update r.2.realSDL .createContext (some r.1) })
    else if lookup = "SDL_GL_SetAttribute".toList then
      (.hook .setAttribute,{ r.2 with realSDL := Function.update r.2.realSDL .setAttribute (some r.1) })
    else r
  else r

def hookOf (name : Name) : Option Hook :=
  if name = "__Znwm".toList ∨ name = "__Znam".toList then some .operatorNew
  else if name = "__ZdlPv".toList ∨ name = "__ZdaPv".toList then some .operatorDelete
  else if name = "_luaopen_jit".toList then some .luaopenJit
  else if name = "_lua_close".toList then some .luaClose
  else if name = "_lua_pcall".toList then some .luaPcall
  else none

def tryManglingVariants (dlsym : Name → Addr) (name : Name) : Addr :=
  (((variants 'y' 'm' name ++ variants 'm' 'y' name).map dlsym).find? (· ≠ 0)).getD 0

def lookupMapped (E : Env) (handle : Handle) (lookup : Name) : Addr :=
  let addr := E.dlsym handle lookup
  if addr = 0 ∧ "_ZN".toList <+: lookup then tryManglingVariants (E.dlsym handle) lookup else addr

def lookupMacho (E : Env) (info : Handle) (name : Name) : Addr :=
  let addr := E.dylibLookup info name
  if addr = 0 ∧ "_ZN".toList <:+: name then E.dylibLookup info (exchangeFirst name) else addr

/-- A bind to the library of a table entry. -/
def resolveInDylib (E : Env) (de : DylibEntry) (name lookup : Name) (weak : Bool) (addend : BitVec 64)
    (st : ResolverState) : Target × ResolverState :=
  match de.action with
  | .map =>
    let addr := lookupMapped E de.handle lookup
    if addr ≠ 0 then
      let (t,st) := hookSDL lookup (bindVariadic E lookup (bindCtor E name addr addend st))
      (t,st.countResolved)
    else
      let addr := E.dlsym rtldDefault lookup
      if addr ≠ 0 then (.found addr addend,st.countResolved) else allocReturn0Stub E (st.countMiss weak)
  | .macho =>
    let addr := lookupMacho E de.machoInfo name
    if addr ≠ 0 then (.found addr addend,st.countResolved) else allocReturn0Stub E (st.countMiss weak)
  | .stub => allocReturn0Stub E st.countStubbed
  | .skip => allocReturn0Stub E (st.countMiss weak)
  | .deferred => allocReturn0Stub E st.countStubbed

/-- A positive library ordinal indexes the table. -/
def resolveOrdinal (E : Env) (I : Image) (libOrdinal : ℤ) (name lookup : Name) (weak : Bool) (addend : BitVec 64)
    (st : ResolverState) : Target × ResolverState :=
  if libOrdinal < 1 ∨ I.ndylibs < libOrdinal then allocReturn0Stub E st.countFailed
  else
    let i := (libOrdinal - 1).toNat
    resolveInDylib E (I.dylibs i) name lookup weak addend (st.touch i)

/-- The index an ordinal in range stands for. -/
def Image.ordinalIndex (I : Image) (libOrdinal : ℤ) : List ℕ :=
  if 1 ≤ libOrdinal ∧ libOrdinal ≤ I.ndylibs then [(libOrdinal - 1).toNat] else []

/-- The flat lookup of ordinal -2. -/
def resolveFlat (E : Env) (name lookup : Name) (weak : Bool) (addend : BitVec 64) (st : ResolverState) :
    Target × ResolverState :=
  let addr := E.dlsym rtldDefault lookup
  if addr ≠ 0 then
    let (t,st) := bindVariadic E lookup (bindCtor E name addr addend st)
    (t,st.countResolved)
  else allocReturn0Stub E (if weak then st else st.countFailed)

/-- Memory, rebases and deferred binds are kept; the table of dylibs is read at the indices `l`. -/
structure Quiet (l : List ℕ) (st st' : ResolverState) : Prop where
  mem : st'.mem = st.mem
  rebases : st'.rebasesApplied = st.rebasesApplied
  deferred : st'.deferred = st.deferred
  written : st'.written = st.written
  touched : st'.touched = st.touched ++ l

namespace Quiet
variable {E : Env} {st st' st'' : ResolverState}

theorem refl (st : ResolverState) : Quiet [] st st := ⟨rfl,rfl,rfl,rfl,(List.append_nil _).symm⟩

theorem trans {l l' : List ℕ} (h : Quiet l st st') (h' : Quiet l' st' st'') : Quiet (l ++ l') st st'' :=
  ⟨h'.mem.trans h.mem,h'.rebases.trans h.rebases,h'.deferred.trans h.deferred,h'.written.trans h.written,
    by rw [h'.touched, h.touched, List.append_assoc]⟩

theorem countMiss (st : ResolverState) (weak : Bool) : Quiet [] st (st.countMiss weak) := by
  cases weak <;> exact ⟨rfl,rfl,rfl,rfl,(List.append_nil _).symm⟩

theorem alloc {p : Pool} {a : Addr} (h : Resolver.alloc E p st = some (a,st')) : Quiet [] st st' := by
  obtain ⟨base,-,h⟩ := Option.bind_eq_some_iff.mp h
  split at h
  · cases h
    exact ⟨rfl,rfl,rfl,rfl,(List.append_nil _).symm⟩
  · cases h

theorem allocReturn0Stub (E : Env) (st : ResolverState) : Quiet [] st (allocReturn0Stub E st).2 := by
  unfold Resolver.allocReturn0Stub
  split
  next h => exact .alloc h
  next => exact .refl st

theorem bindCtor (E : Env) (name : Name) (sym : Addr) (addend : BitVec 64) (st : ResolverState) :
    Quiet [] st (bindCtor E name sym addend st).2 := by
  unfold Resolver.bindCtor wrapCtorForAppleAbi
  split
  · split
    next h => exact .alloc h
    next => exact .refl st
  · exact .refl st

theorem bindVariadic {r : Target × ResolverState} (E : Env) (lookup : Name) (h : Quiet [] st r.2) :
    Quiet [] st (bindVariadic E lookup r).2 := by
  unfold Resolver.bindVariadic
  split
  · exact h
  · dsimp only
    split
    · exact h
    · unfold createVariadicThunk
      cases ha : Resolver.alloc E .variadic r.2 with
      | none => exact h
      | some p => exact h.trans (.alloc ha)

theorem hookSDL {r : Target × ResolverState} (lookup : Name) (h : Quiet [] st r.2) :
    Quiet [] st (hookSDL lookup r).2 := by
  unfold Resolver.hookSDL
  split
  · split
    · exact ⟨h.mem,h.rebases,h.deferred,h.written,h.touched⟩
    · split
      · exact ⟨h.mem,h.rebases,h.deferred,h.written,h.touched⟩
      · exact h
  · exact h

theorem countResolved {l : List ℕ} (h : Quiet l st st') : Quiet l st st'.countResolved :=
  ⟨h.mem,h.rebases,h.deferred,h.written,h.touched⟩

theorem miss (E : Env) (weak : Bool) : Quiet [] st (Resolver.allocReturn0Stub E (st.countMiss weak)).2 :=
  (countMiss st weak).trans (allocReturn0Stub E _)

theorem stubbed (E : Env) : Quiet [] st (Resolver.allocReturn0Stub E st.countStubbed).2 :=
  (countMiss st true).trans (allocReturn0Stub E _)

theorem failed (E : Env) : Quiet [] st (Resolver.allocReturn0Stub E st.countFailed).2 :=
  (countMiss st false).trans (allocReturn0Stub E _)

theorem resolveInDylib (E : Env) (de : DylibEntry) (name lookup : Name) (weak : Bool) (addend : BitVec 64)
    (st : ResolverState) : Quiet [] st (resolveInDylib E de name lookup weak addend st).2 := by
  unfold Resolver.resolveInDylib
  split
  · dsimp only
    split
    · exact (hookSDL lookup (bindVariadic E lookup (bindCtor E name _ addend st))).countResolved
    · split
      · exact (refl st).countResolved
      · exact .miss E weak
  · dsimp only
    split
    · exact (refl st).countResolved
    · exact .miss E weak
  · exact .stubbed E
  · exact .miss E weak
  · exact .stubbed E

theorem resolveOrdinal (E : Env) (I : Image) (libOrdinal : ℤ) (name lookup : Name) (weak : Bool) (addend : BitVec 64)
    (st : ResolverState) :
    Quiet (I.ordinalIndex libOrdinal) st (resolveOrdinal E I libOrdinal name lookup weak addend st).2 := by
  by_cases h : libOrdinal < 1 ∨ (I.ndylibs : ℤ) < libOrdinal
  · rw [Resolver.resolveOrdinal, if_pos h, Image.ordinalIndex, if_neg (by omega)]
    exact .failed E
  · rw [Resolver.resolveOrdinal, if_neg h, Image.ordinalIndex, if_pos (by omega)]
    have ht : Quiet [(libOrdinal - 1).toNat] st (st.touch (libOrdinal - 1).toNat) := ⟨rfl,rfl,rfl,rfl,rfl⟩
    exact ht.trans (resolveInDylib E _ name lookup weak addend _)

theorem resolveFlat (E : Env) (name lookup : Name) (weak : Bool) (addend : BitVec 64) (st : ResolverState) :
    Quiet [] st (resolveFlat E name lookup weak addend st).2 := by
  unfold Resolver.resolveFlat
  dsimp only
  split
  · exact (bindVariadic E lookup (bindCtor E name _ addend st)).countResolved
  · cases weak with
    | true => exact allocReturn0Stub E st
    | false => exact .failed E

end Quiet

end Machismo.Resolver
