import Machismo.Trampoline.FunctionStarts

/-! # Redirecting the symbols of a library

The exported symbols of `__TEXT` whose name starts with one of the prefixes of a library are sent to the
functions of its native build. In stub mode they return zero; a symbol without a native function
reports its name and aborts. An override library replaces single symbols by name.
-/
namespace Machismo.Trampoline
open A64 Resolver

structure Override where
  symbolName : Name
  target : Addr

def matchesPrefix (name : Name) (prefixes : List Name) : Bool := prefixes.any fun p => p.isPrefixOf name

/-- The target of the first override of a name, zero if there is none. -/
def findOverride (name : Name) (overrides : List Override) : Addr :=
  match overrides.find? fun o => o.symbolName = name with
  | some o => o.target
  | none => 0

/-- The first spelling the library knows. Without a `y` in the name nothing is tried. -/
def tryManglingVariants (dlsym : Name → Addr) (name : Name) : Addr :=
  if positions 'y' name = [] then 0
  else (((variants 'y' 'm' name ++ variants 'm' 'y' name).map dlsym).find? fun a => a ≠ 0).getD 0

namespace Nlist
variable (sym : Nlist)

def isDefined : Bool := sym.nType &&& 0x0e = 0x0e#8
def isExternal : Bool := sym.nType &&& 0x01 ≠ 0#8
def isStab : Bool := sym.nType &&& 0xe0 ≠ 0#8

end Nlist

/-- The range of pages that was made writable. -/
def State.inText (st : State) (a : Addr) : Bool := st.textBase ≤ a ∧ a < st.textBase + st.textSize

/-- The first symbol table. -/
def MachO.symtab (M : MachO) : Option (Option (List Nlist)) := M.commands.findSome? fun
  | .symtab syms => some syms
  | _ => none

def MachO.symbols (M : MachO) : List Nlist := ((M.symtab.bind id).getD [])

section Model
variable (E : Env) (M : MachO) (slide : Addr)

def nativeSymbol (lib : Handle) (name : Name) : Addr :=
  let lookupName := dropUnderscore name
  let target := E.dlsym lib lookupName
  if target = 0 ∧ "_ZN".toList <+: lookupName then tryManglingVariants (E.dlsym lib) lookupName else target

/-- One turn of the loop over the symbols: whether the symbol is counted as patched. -/
def patchLibSymbol (stubMode : Bool) (lib : Handle) (prefixes : List Name) (overrides : List Override)
    (sym : Nlist) (st : State) : Bool × State :=
  if ¬sym.isDefined ∨ ¬sym.isExternal ∨ sym.isStab then (false,st)
  else match sym.name with
    | none => (false,st)
    | some name =>
      if ¬matchesPrefix name prefixes then (false,st)
      else
        let func := sym.nValue + slide
        if ¬st.inText func then (false,st)
        else
          let target := findOverride name overrides
          if target ≠ 0 then writeTrampoline func target st
          else if stubMode then
            match getStubIsland st with
            | (none,st) => (false,st)
            | (some stub,st) => writeTrampoline func stub st
          else
            let target := nativeSymbol E lib name
            if target ≠ 0 then writeTrampoline func target st
            else match makeAbortIsland E sym.nameAddr st with
              | (none,st) => (false,st)
              | (some island,st) => (false,(writeTrampoline func island st).2)

def patchOverridesSymbol (handle : Handle) (matchLocal : Bool) (sym : Nlist) (st : State) : Bool × State :=
  if ¬sym.isDefined ∨ (¬matchLocal ∧ ¬sym.isExternal) ∨ sym.isStab then (false,st)
  else match sym.name with
    | none => (false,st)
    | some name =>
      let func := sym.nValue + slide
      if ¬st.inText func then (false,st)
      else
        let target := E.dlsym handle (dropUnderscore name)
        if target = 0 then (false,st) else writeTrampoline func target st

def patchSymbols (step : Nlist → State → Bool × State) : List Nlist → State → ℤ × State
  | [], st => (0,st)
  | sym :: syms, st =>
    let r := step sym st
    let rest := patchSymbols step syms r.2
    (rest.1 + (if r.1 then 1 else 0),rest.2)

def patchLib (libPath : Name) (prefixes : List Name) (overrides : List Override) (st : State) : ℤ × State :=
  match M.symtab with
  | none => (-1,st)
  | some symtab =>
    let stubMode : Bool := libPath = "STUB".toList
    let lib := if stubMode then 0 else E.dlopen libPath
    if ¬stubMode ∧ lib = 0 then (-1,st)
    else match symtab with
      | none => (-1,st)
      | some syms =>
        match makeTextWritable E M slide st with
        | (false,st) => (-1,st)
        | (true,st) => patchSymbols (patchLibSymbol E slide stubMode lib prefixes overrides) syms st

def patchOverrides (handle : Handle) (matchLocal : Bool) (st : State) : ℤ × State :=
  match M.symtab with
  | none => (-1,st)
  | some none => (-1,st)
  | some (some syms) =>
    match makeTextWritable E M slide st with
    | (false,st) => (-1,st)
    | (true,st) => patchSymbols (patchOverridesSymbol E slide handle matchLocal) syms st

end Model

end Machismo.Trampoline
