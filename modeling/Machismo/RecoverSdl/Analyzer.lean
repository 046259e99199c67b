import Machismo.RecoverSdl.MachO

/-! # Summaries of functions

What the tool finds out about a function from its instructions: the strings it refers to, the
functions it calls, and its first bytes.  The disassembler is a parameter.
-/
namespace Machismo.RecoverSdl
open Machismo.A64 (Byte)
open Machismo.Resolver (Name)

inductive Operand where
  | reg (r : ℕ)
  | imm (v : ℤ) (shift : ℕ)
  | mem (base : ℕ) (index : Option ℕ) (disp : ℤ)
  | other
  deriving DecidableEq, Repr

structure Insn where
  address : ℕ
  size : ℕ
  mnemonic : Name
  operands : List Operand
  deriving DecidableEq, Repr

/-- The instructions of some bytes at an address. -/
abbrev Disassembler := List Byte → ℕ → List Insn

structure Reference where
  instruction : ℕ
  address : ℤ
  string : List Char
  deriving DecidableEq

/-- A call with a target in the instruction. -/
structure DirectCall where
  site : ℕ
  target : ℕ
  deriving DecidableEq

/-- What `summarize_function` and the searches report of a function. -/
structure Candidate where
  address : ℕ
  endAddress : ℕ
  expected : List Byte
  directCalls : List DirectCall
  evidence : List (List Char)

def Operand.reg? : Operand → Option ℕ
  | .reg r => some r
  | _ => none

namespace Insn
variable (i : Insn)

def destination : Option ℕ := i.operands[0]?.bind Operand.reg?

def sourceRegister : Option ℕ := i.operands[1]?.bind Operand.reg?

/-- `immediate_target`: the last immediate operand. -/
def immediateTarget : Option ℕ := i.operands.reverse.findSome? fun
  | .imm v _ => some (v%2^64).toNat
  | _ => none

end Insn

namespace MachO
variable (X : MachO)

/-- The entry of `string_by_address`; the last string at an address is kept. -/
def stringForAddress (address : ℤ) : Option StringEntry :=
  (X.strings.filter fun entry => (entry.address : ℤ) = address).getLast?

def importedTarget (address : ℕ) : Option (List Char) :=
  (X.stubs.lookup address).bind fun symbol => if symbol = [] then none else some symbol

/-- What is known of the registers, and the references so far. -/
abbrev Known := (Option ℕ → Option ℤ) × List Reference

def assign (known : Known) (register : Option ℕ) (value : ℤ) (site : ℕ) : Known :=
  (Function.update known.1 register (some value),
    match X.stringForAddress value with
    | some entry => known.2++[⟨site,value,entry.value⟩]
    | none => known.2)

/-- One round of the loop of `string_references`. -/
def track (known : Known) (i : Insn) : Known :=
  let sourceValue := known.1 i.sourceRegister
  let popped : Known := match i.destination with
    | some r => (Function.update known.1 (some r) none,known.2)
    | none => known
  if i.mnemonic = "adr".toList ∨ i.mnemonic = "adrp".toList then
    match i.operands with
    | _::.imm v _::_ => X.assign popped i.destination v i.address
    | _ => popped
  else if i.mnemonic = "add".toList then
    match i.operands, sourceValue with
    | _::.reg _::.imm v shift::_, some value => X.assign popped i.destination (value+v*2^shift) i.address
    | _, _ => popped
  else if i.mnemonic = "mov".toList then
    match i.operands, sourceValue with
    | _::.reg _::_, some value => X.assign popped i.destination value i.address
    | _, _ => popped
  else if "ldr".toList <+: i.mnemonic then
    match (match i.operands with
      | _::.imm v _::_ => some v
      | _::.mem base _ disp::_ => (popped.1 (some base)).map (·+disp)
      | _ => none) with
    | some location =>
      match X.pointerAt location with
      | some pointer => X.assign popped i.destination pointer i.address
      | none => popped
    | none => popped
  else popped

def stringReferences (insns : List Insn) : List Reference := (insns.foldl X.track (fun _ => none,[])).2

/-- The calls of `control_flow_and_calls` that stay in the image. -/
def directCalls (insns : List Insn) : List DirectCall := insns.filterMap fun i =>
  if i.mnemonic = "bl".toList then
    i.immediateTarget.bind fun target =>
      if (X.importedTarget target).isSome then none else some ⟨i.address,target⟩
  else none

variable (D : Disassembler)

def instructions (start finish : ℕ) : Option (List Insn) :=
  if finish < start then none
  else (X.bytesAt start (finish-start)).bind fun raw =>
    if ((D raw start).map Insn.size).sum = raw.length then some (D raw start) else none

def summarizeFunction (start : ℕ) : Option Candidate :=
  (X.functionBounds start).bind fun (start,finish) => (X.instructions D start finish).bind fun insns =>
    (X.bytesAt start (min 16 (finish-start))).map fun expected => ⟨start,finish,expected,X.directCalls insns,[]⟩

/-- A string that one of the patterns `^anchor$` finds; the dollar sign also stands before a last newline. -/
def matchesAnchor (anchors : List (List Char)) (value : List Char) : Bool :=
  anchors.any fun anchor => value = anchor ∨ value = anchor++['\n']

/-- The candidate of a start with references to matching strings. -/
def anchoredCandidate (anchors : List (List Char)) (start : ℕ) : Option (Option Candidate) :=
  (X.functionBounds start).bind fun (begin,finish) => (X.instructions D begin finish).bind fun insns =>
    let matching := (X.strings.filter fun entry => matchesAnchor anchors entry.value).map
      fun entry => (entry.address : ℤ)
    let refs := (X.stringReferences insns).filter fun reference => reference.address ∈ matching
    if refs = [] then some none
    else (X.summarizeFunction D start).map fun summary => some { summary with evidence := refs.map Reference.string }

def anchoredCandidates (anchors : List (List Char)) : Option (List Candidate) :=
  (X.starts.mapM (X.anchoredCandidate D anchors)).map fun found => found.filterMap id

end MachO

end Machismo.RecoverSdl
