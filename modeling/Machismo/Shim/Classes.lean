import Machismo.A64.Memory

/-! # Classes of the runtime

The class structures the shim reads in place: the first word of any object, a class too, is its class,
and `data_bits` gives the read-only part.
-/
namespace Machismo.Shim
open A64

structure ClassRo where
  flags : BitVec 32
  instanceStart : BitVec 32
  instanceSize : BitVec 32
  name : Option (List Char)
  deriving DecidableEq

structure ClassGraph where
  isa : Addr → Addr
  dataBits : Addr → BitVec 64
  roAt : Addr → ClassRo

def roMeta : BitVec 32 := 0x1
def roRoot : BitVec 32 := 0x2

namespace ClassGraph
variable (G : ClassGraph)

def classRo (cls : Addr) : Option ClassRo :=
  if cls = 0 then none
  else
    let data := G.dataBits cls &&& ~~~7
    if data = 0 ∨ data.toNat % 8 ≠ 0 then none else some (G.roAt data)

def rawClassName (cls : Addr) : Option (List Char) := (G.classRo cls).bind ClassRo.name

def classIsMetaClass (cls : Addr) : Bool :=
  match G.classRo cls with
  | some ro => ro.flags &&& roMeta ≠ 0
  | none => false

/-- The size rounded up to pointers; the sum does not overflow, as the size has 32 bits. -/
def alignedInstanceSize : Option ClassRo → Option ℕ
  | some ro => some ((ro.instanceSize.toNat+7)/8*8)
  | none => none

end ClassGraph

def nsobjectName : List Char := ['N','S','O','b','j','e','c','t']

def nsobjectClassRo : ClassRo := ⟨roRoot,0,8,some nsobjectName⟩

/-- The classes of a process, with the one the shim brings. -/
structure Runtime extends ClassGraph where
  nsobject : Addr
  nsobject_ne : nsobject ≠ 0
  nsobject_ro : toClassGraph.classRo nsobject = some nsobjectClassRo

end Machismo.Shim
