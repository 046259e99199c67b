import Mathlib.Algebra.Group.Nat.Defs
import Mathlib.Data.List.Infix

/-! # Symbol names

What the resolver reads off a mangled Mach-O name: the name to ask the Linux libraries for, whether
it is a C++ constructor or destructor, whether such a constructor takes parameters on the stack,
the variadic functions of the C library, and the spellings tried when a name is not found.
-/
namespace Machismo.Resolver

/-- A C string, without its terminator. -/
abbrev Name := List Char

def dropUnderscore : Name → Name
  | '_' :: p => p
  | p => p

/-- The Itanium name behind the Mach-O underscore. -/
def itanium (name : Name) : Option Name :=
  match dropUnderscore name with
  | '_' :: 'Z' :: p => some ('_' :: 'Z' :: p)
  | _ => none

/-- What follows the first `C0E` … `D2E`. -/
def ctorParams : Name → Option Name
  | [] => none
  | c :: p =>
    match p with
    | k :: 'E' :: params =>
      if (c = 'C' ∨ c = 'D') ∧ (k = '0' ∨ k = '1' ∨ k = '2') then some params else ctorParams p
    | _ => ctorParams p

def isCtorOrDtor (name : Name) : Bool := ((itanium name).bind ctorParams).isSome

/-- Counts the simple parameter types, up to the first complex one. -/
def stackParams (floatCount intCount : ℕ) : Name → Bool
  | [] => floatCount > 8 ∨ intCount > 7
  | c :: p =>
    if c ∈ ['f','d'] then stackParams (floatCount+1) intCount p
    else if c ∈ ['i','j','l','m','x','y','c','s','b','a','h','t','w'] then stackParams floatCount (intCount+1) p
    else floatCount > 8 ∨ intCount > 7

def ctorHasStackParams (name : Name) : Bool :=
  match (itanium name).bind ctorParams with
  | none => false
  | some [] => false
  | some ('v' :: _) => false
  | some params => stackParams 0 0 params

def adapted (name : Name) : Bool := isCtorOrDtor name && !ctorHasStackParams name

structure VariadicInfo where
  name : Name
  vName : Name
  destReg : ℕ
  isVaList : Bool
  sourceReg : ℕ
  deriving DecidableEq, Repr

def variadicFunctions : List VariadicInfo := [
  ⟨"printf".toList,"vprintf".toList,1,false,0⟩,
  ⟨"fprintf".toList,"vfprintf".toList,2,false,0⟩,
  ⟨"sprintf".toList,"vsprintf".toList,2,false,0⟩,
  ⟨"snprintf".toList,"vsnprintf".toList,3,false,0⟩,
  ⟨"asprintf".toList,"vasprintf".toList,2,false,0⟩,
  ⟨"fscanf".toList,"vfscanf".toList,2,false,0⟩,
  ⟨"sscanf".toList,"vsscanf".toList,2,false,0⟩,
  ⟨"__sprintf_chk".toList,"__vsprintf_chk".toList,4,false,0⟩,
  ⟨"vsprintf".toList,"vsprintf".toList,2,true,2⟩,
  ⟨"vsnprintf".toList,"vsnprintf".toList,3,true,3⟩,
  ⟨"vsscanf".toList,"vsscanf".toList,2,true,2⟩,
  ⟨"__vsnprintf_chk".toList,"__vsnprintf_chk".toList,5,true,5⟩]

def lookupVariadic (name : Name) : Option VariadicInfo := variadicFunctions.find? fun vi => vi.name = name

def darwinSuffixes : List Name :=
  ["$DARWIN_EXTSN".toList,"$UNIX2003".toList,"$NOCANCEL".toList,"$INODE64".toList]

/-- The name without its underscore and the first Darwin suffix that fits the buffer. -/
def linuxLookupName (machoName : Name) (storageSize : ℕ) : Name :=
  let lookup := dropUnderscore machoName
  let strip (s : Name) : Option Name :=
    if s.length < lookup.length ∧ s <:+ lookup ∧ lookup.length - s.length < storageSize then
      some (lookup.take (lookup.length - s.length))
    else none
  (darwinSuffixes.findSome? strip).getD lookup

/-- The first 16 positions of a character. -/
def positions (c : Char) (name : Name) : List ℕ :=
  ((List.range name.length).filter fun i => name[i]? = some c).take 16

def substitute (name : Name) (pos : List ℕ) (mask : ℕ) (c : Char) : Name :=
  name.mapIdx fun i d => if (List.range pos.length).any fun j => pos[j]? = some i && mask.testBit j then c else d

/-- All names with a non-empty set of the first 16 `a` replaced by `b`, by mask. -/
def variants (a b : Char) (name : Name) : List Name :=
  let pos := positions a name
  ((List.range (2^pos.length)).drop 1).map fun mask => substitute name pos mask b

/-- The other spelling tried in a Mach-O dylib: the first `y` or `m` is exchanged. -/
def exchangeFirst : Name → Name
  | [] => []
  | 'y' :: p => 'm' :: p
  | 'm' :: p => 'y' :: p
  | c :: p => c :: exchangeFirst p

end Machismo.Resolver
