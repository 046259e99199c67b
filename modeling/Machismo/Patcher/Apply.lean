import Machismo.Patcher.Parse
import Machismo.Trampoline.PatchLib

/-! # Applying a patch file

The lines of a file are resolved and encoded against memory as it is, and only then written, each word
behind a page made writable. Labels are registered before any is resolved, so that the name of a later
one is known but has no address yet.
-/
namespace Machismo.Patcher
open A64 IsaEmul
open Trampoline (MachO Nlist)

/-- The process around the patcher: the image, if there is one, the order in which `qsort` puts symbols,
the page size, and whether a page can be made writable. -/
structure Env where
  image : Option MachO
  slide : Addr
  qsort : List Nlist → List Nlist
  pageSize : BitVec 64
  protect : Addr → Bool

/-- The last symbol table, if it is mapped. -/
def lastSymtab (M : MachO) : Option (List Nlist) := M.commands.foldl (fun r c => match c with
  | .symtab syms => syms
  | _ => r) none

def sectSymbols (M : MachO) : List Nlist :=
  ((lastSymtab M).getD []).filter fun nl => !nl.isStab && nl.isDefined && nl.name.isSome

/-- The address of the first symbol with a name, zero if there is none. -/
def resolverLookupSymbol (E : Env) (M : MachO) (name : Name) : Addr :=
  match (sectSymbols M).find? fun nl => nl.name = some name with
  | some nl => nl.nValue + E.slide
  | none => 0

def sectionEnd (M : MachO) (sect : ℕ) : BitVec 64 :=
  if sect = 0 then 0 else (M.sections[sect - 1]?.map fun sec => sec.addr + sec.size).getD 0

/-- From a symbol to the next one of its section, or to the end of the section. -/
def extentOf (E : Env) (M : MachO) (nl : Nlist) (rest : List Nlist) : Option (Addr × Addr) :=
  let next := ((rest.find? fun nl' => nl'.nSect = nl.nSect).map Nlist.nValue).getD 0
  let stop := if next = 0 ∧ nl.nSect.toNat < M.sections.length + 1 then sectionEnd M nl.nSect.toNat else next
  if stop ≤ nl.nValue then none else some (nl.nValue + E.slide,stop + E.slide)

def resolverSymbolExtent (E : Env) (M : MachO) (name : Name) : Option (Addr × Addr) :=
  match (E.qsort (sectSymbols M)).dropWhile fun nl => nl.name ≠ some name with
  | nl :: rest => extentOf E M nl rest
  | [] => none

/-- Why a file is given up. Only the last failure happens after something may have been written. -/
inductive Failure where
  | cannotOpen
  | parse
  | unresolvedLabel
  | noImage
  | symbolNotFound
  | noExtent
  | patternNotFound
  | patternAmbiguous
  | branchOutOfRange
  | expectMismatch
  | writeFailed
  deriving DecidableEq, Repr

/-- A label, with its address once it is resolved. -/
structure Label where
  name : Name
  addr : Option Addr

def findLabel (labels : List Label) (name : Name) : Option Addr :=
  (labels.find? fun label => label.name = name).bind Label.addr

def matchesAt (mem : Memory) : List Pattern → Addr → Bool
  | [], _ => true
  | pat :: pats, a => load mem a 4 &&& pat.mask = pat.value && matchesAt mem pats (a + 4)

/-- The places between two addresses where the patterns match. -/
def patternHits (mem : Memory) (start stop : Addr) (pats : List Pattern) : List Addr :=
  let need := 4*pats.length
  if need = 0 ∨ stop < start ∨ (stop - start).toNat < need then []
  else ((List.range (((stop - start).toNat - need)/4 + 1)).map fun k => start + BitVec.ofNat 64 (4*k)).filter
    (matchesAt mem pats)

def patternFindUnique (mem : Memory) (start stop : Addr) (pats : List Pattern) : Except Failure Addr :=
  match patternHits mem start stop pats with
  | [] => .error .patternNotFound
  | [hit] => .ok hit
  | _ :: _ :: _ => .error .patternAmbiguous

section Resolve
variable (E : Env) (mem : Memory)

def resolveFind (M : MachO) (name : Name) (pats : List Pattern) (within : BitVec 64) : Except Failure Addr :=
  match resolverSymbolExtent E M name with
  | none => .error .noExtent
  | some (start,stop) =>
    let stop := if within ≠ 0 ∧ start + within < stop then start + within else stop
    patternFindUnique mem start stop pats

def resolveSym (name : Name) (resolve : MachO → Addr → Except Failure Addr) : Except Failure Addr :=
  match E.image with
  | none => .error .noImage
  | some M =>
    let symStart := resolverLookupSymbol E M name
    if symStart = 0 then .error .symbolNotFound else resolve M symStart

/-- The offset of a symbol that is searched is not used. -/
def resolveLoc (labels : List Label) : LocExpr → Except Failure Addr
  | .abs offset => .ok (offset + E.slide)
  | .label name offset =>
    match findLabel labels name with
    | none => .error .unresolvedLabel
    | some base => .ok (base + offset)
  | .sym name offset => resolveSym E name fun _ symStart => .ok (symStart + offset)
  | .symFind name _ pats within => resolveSym E name fun M _ => resolveFind E mem M name pats within

def registerLabels (lines : List PatchLine) : List Label := lines.filterMap fun
  | .lineLet name _ => some ⟨name,none⟩
  | _ => none

/-- The first label with a name gets the address. -/
def setLabel (name : Name) (addr : Addr) : List Label → List Label
  | [] => []
  | label :: labels =>
    if label.name = name then { label with addr := some addr } :: labels else label :: setLabel name addr labels

def resolveLabels : List PatchLine → List Label → Except Failure (List Label)
  | [], labels => .ok labels
  | .lineLet name loc :: lines, labels =>
    (resolveLoc E mem labels loc).bind fun addr => resolveLabels lines (setLabel name addr labels)
  | .lineAt _ _ _ :: lines, labels => resolveLabels lines labels
  | .lineAbs _ _ :: lines, labels => resolveLabels lines labels

/-- What a line puts where, and what it expects there. -/
structure Patch where
  loc : LocExpr
  insn : InsnExpr
  expected : Option Word

def PatchLine.patch : PatchLine → Option Patch
  | .lineAbs addr insn => some ⟨.abs addr,.raw insn,none⟩
  | .lineAt loc insn expected => some ⟨loc,insn,expected⟩
  | .lineLet _ _ => none

def encBl (wordOffset : ℤ) : Word := 0x94000000#32 ||| (BitVec.ofInt 32 wordOffset &&& 0x03FFFFFF#32)

def arm64BranchInRange (byteOffset : ℤ) : Bool :=
  if byteOffset % 4 ≠ 0 then false else -2^25 ≤ byteOffset / 4 ∧ byteOffset / 4 < 2^25

def encodeBranch (enc : ℤ → Word) (addr target : Addr) : Except Failure Word :=
  let diff := (target - addr).toInt
  if arm64BranchInRange diff then .ok (enc (diff / 4)) else .error .branchOutOfRange

def encodeInsn (labels : List Label) (addr : Addr) : InsnExpr → Except Failure Word
  | .raw insn => .ok insn
  | .b target => (resolveLoc E mem labels target).bind (encodeBranch encB addr)
  | .bl target => (resolveLoc E mem labels target).bind (encodeBranch encBl addr)

def checkExpected (addr : Addr) : Option Word → Except Failure Unit
  | none => .ok ()
  | some expected => if load mem addr 4 = expected then .ok () else .error .expectMismatch

/-- The third pass on one line, whose address is known. -/
def encodePatch (labels : List Label) (p : Addr × Patch) : Except Failure (Addr × Word) :=
  (encodeInsn E mem labels p.1 p.2.insn).bind fun insn =>
    (checkExpected mem p.1 p.2.expected).map fun _ => (p.1,insn)

def resolvePatch (labels : List Label) (p : Patch) : Except Failure (Addr × Patch) :=
  (resolveLoc E mem labels p.loc).map fun addr => (addr,p)

/-- The words to be written and their places, in the order of the lines. -/
def preparePatches (lines : List PatchLine) : Except Failure (List (Addr × Word)) :=
  (resolveLabels E mem lines (registerLabels lines)).bind fun labels =>
    ((lines.filterMap PatchLine.patch).mapM (resolvePatch E mem labels)).bind fun patches =>
      patches.mapM (encodePatch E mem labels)

end Resolve

def writePatches (E : Env) : List (Addr × Word) → ℕ → Memory → Except Failure ℕ × Memory
  | [], applied, mem => (.ok applied,mem)
  | p :: ps, applied, mem =>
    if E.protect (p.1 &&& ~~~(E.pageSize - 1)) then writePatches E ps (applied+1) (store mem p.1 4 p.2)
    else (.error .writeFailed,mem)

/-- The number of patches applied, or why the file was given up, with memory afterwards. -/
def patcherApply (E : Env) (patchFile : Option Text) (mem : Memory) : Except Failure ℕ × Memory :=
  match patchFile with
  | none => (.error .cannotOpen,mem)
  | some text =>
    match parsePatchFile text with
    | none => (.error .parse,mem)
    | some lines =>
      match preparePatches E mem lines with
      | .error e => (.error e,mem)
      | .ok ps => writePatches E ps 0 mem

end Machismo.Patcher
