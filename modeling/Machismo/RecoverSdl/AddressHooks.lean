import Machismo.Data.Hex
import Machismo.RecoverSdl.Analyzer
import Machismo.Trampoline.HookFile

/-! # Generated address hooks

`generate` finds a function for each reviewed anchor in three passes and writes a line for each.
The records of the anchor file have their types already; the fields that only the report has are
left out.
-/
namespace Machismo.RecoverSdl
open Machismo.A64 (Byte)
open Machismo.Data

abbrev Text := List Char

structure Via where
  parentString : Text
  blIndex : ℤ

structure NthAfter where
  afterSymbol : Option Text
  afterString : Option Text
  n : ℤ

/-- A reviewed symbol of the anchor file. -/
structure Anchor where
  symbol : Text
  string : Option Text
  excludeStrings : List Text
  via : Option Via
  nthAfter : Option NthAfter
  hostSymbol : Option Text
  library : Option Text
  expectedAddress : Option Text

structure AnchorFile where
  binarySha256 : Text
  library : Text
  symbols : List Anchor

structure Emitted where
  symbol : Text
  hostSymbol : Text
  library : Text
  address : ℕ
  expected : List Byte
  comment : Text
  deriving DecidableEq

def hx (value : ℕ) : Text := '0' :: 'x' :: hex value

def hexText (raw : List Byte) : Text :=
  raw.flatMap fun byte => [(byte.toNat/16).digitChar,(byte.toNat%16).digitChar]

/-- The characters that `split` takes for blanks. -/
def isBlank (c : Char) : Bool :=
  c.toNat ∈ [9,10,11,12,13,28,29,30,31,32,133,160,5760,8192,8193,8194,8195,8196,8197,8198,8199,8200,8201,8202,
    8232,8233,8239,8287,12288]

/-- `" ".join(comment.split())` -/
def joinWords (comment : Text) : Text := [' '].intercalate (Trampoline.fieldsFrom isBlank [] comment)

def Emitted.line (e : Emitted) : Text :=
  hx e.address++[' ']++e.library++[' ']++e.hostSymbol++[' ']++hexText e.expected++[' ','#',' ']++e.comment

section Search

/-- `_collect_scan_strings`, `none` where it raises an error. -/
def collectScanStrings (symbols : List Anchor) : Option (List Text) :=
  if symbols.all fun entry => entry.string ≠ some [] ∧ [] ∉ entry.excludeStrings ∧
      entry.via.all fun via => via.parentString ≠ [] then
    let values := symbols.flatMap fun entry =>
      entry.string.toList++entry.excludeStrings++(entry.via.map Via.parentString).toList++
        ((entry.nthAfter.bind NthAfter.afterString).filter (· ≠ [])).toList
    if values = [] then none else some values
  else none

/-- The one candidate with the anchor and no excluded string in its evidence. -/
def uniqueFunctionForString (search : List Candidate) (anchor : Text) (exclude : List Text) : Option Candidate :=
  match search.filter fun c => anchor ∈ c.evidence ∧ ∀ s ∈ exclude, s ∉ c.evidence with
  | [c] => some c
  | _ => none

end Search

/-- The tables of `generate`: the hooks so far and the functions known by a string. -/
structure Progress where
  emitted : List Emitted
  stringToFunction : List (Text × Candidate)

def Progress.resolved (st : Progress) (symbol : Text) : Option Emitted :=
  (st.emitted.filter fun e => e.symbol = symbol).getLast?

section Generate
variable (X : MachO) (D : Disassembler) (defaultLibrary : Text)

def hostName (entry : Anchor) : Option Text :=
  match entry.hostSymbol with
  | none => some ("sword3_".toList++entry.symbol)
  | some value => if value = [] then none else some value

def libraryName (entry : Anchor) : Option Text :=
  let value := entry.library.getD defaultLibrary
  if value = [] then none else some value

def emitHook (entry : Anchor) (candidate : Candidate) (comment : Text) (st : Progress) : Option Progress :=
  (hostName entry).bind fun hostSymbol => (libraryName defaultLibrary entry).bind fun library =>
    if (entry.expectedAddress.getD []) ≠ [] ∧ some (hx candidate.address) ≠ entry.expectedAddress then none
    else if candidate.address ∈ st.emitted.map Emitted.address then none
    else some { st with emitted :=
      st.emitted++[⟨entry.symbol,hostSymbol,library,candidate.address,candidate.expected,joinWords comment⟩] }

/-- A known function of a string, or the one that the search finds. -/
def functionForString (search : List Candidate) (anchor : Text) (st : Progress) : Option (Candidate × Progress) :=
  match st.stringToFunction.lookup anchor with
  | some candidate => some (candidate,st)
  | none => (uniqueFunctionForString search anchor []).map fun candidate =>
    (candidate,{ st with stringToFunction := (anchor,candidate)::st.stringToFunction })

def summaryAt (address : ℕ) : Option Candidate :=
  if X.containingFunction address = some (some address) then X.summarizeFunction D address else none

/-- Unique references to a string. -/
def passString (search : List Candidate) (st : Progress) (entry : Anchor) : Option Progress :=
  if entry.symbol = [] then none
  else match entry.string with
    | none => some st
    | some anchor =>
      (uniqueFunctionForString search anchor entry.excludeStrings).bind fun candidate =>
        emitHook defaultLibrary entry candidate anchor
          { st with stringToFunction := (anchor,candidate)::st.stringToFunction }

/-- A call from a function known by a string. -/
def passVia (search : List Candidate) (st : Progress) (entry : Anchor) : Option Progress :=
  match entry.via with
  | none => some st
  | some via =>
    (functionForString search via.parentString st).bind fun (parent,st) =>
      (summaryAt X D parent.address).bind fun parentSummary =>
        if via.blIndex < 0 then none
        else parentSummary.directCalls[via.blIndex.toNat]?.bind fun call =>
          (summaryAt X D call.target).bind fun candidate =>
            emitHook defaultLibrary entry candidate
              ("via ".toList++via.parentString++" bl[".toList++(toString via.blIndex).toList++[']']) st

def nthOrigin (search : List Candidate) (nth : NthAfter) (st : Progress) : Option (ℕ × Text × Progress) :=
  if nth.afterSymbol.getD [] ≠ [] then
    (st.resolved (nth.afterSymbol.getD [])).map fun e => (e.address,nth.afterSymbol.getD [],st)
  else if nth.afterString.getD [] ≠ [] then
    (functionForString search (nth.afterString.getD []) st).map fun (parent,st) =>
      (parent.address,nth.afterString.getD [],st)
  else none

/-- A function some starts after one that is known. -/
def passNth (search : List Candidate) (st : Progress) (entry : Anchor) : Option Progress :=
  match entry.nthAfter with
  | none => some st
  | some nth =>
    if nth.n < 0 then none
    else (nthOrigin search nth st).bind fun (afterAddress,origin,st) =>
      (X.starts.idxOf? afterAddress).bind fun index =>
        X.starts[index+1+nth.n.toNat]?.bind fun following => (summaryAt X D following).bind fun candidate =>
          emitHook defaultLibrary entry candidate
            ("nth_after ".toList++origin++" n=".toList++(toString nth.n).toList) st

/-- The hooks of the three passes. -/
def generateHooks (symbols : List Anchor) : Option (List Emitted) :=
  (collectScanStrings symbols).bind fun anchors => (X.anchoredCandidates D anchors).bind fun search =>
    (symbols.foldlM (passString defaultLibrary search) ⟨[],[]⟩).bind fun st =>
      (symbols.foldlM (passVia X D defaultLibrary search) st).bind fun st =>
        (symbols.foldlM (passNth X D defaultLibrary search) st).bind fun st =>
          if st.emitted.length = symbols.length then some st.emitted else none

/-- The lines of the file, under a header that names the digest of the binary. -/
def hookLines (sha256 : List Byte → List Byte) (emitted : List Emitted) : List Text :=
  "# Generated by tools/generate_sdl_address_hooks.py; do not edit.".toList::
    ("# Sword3 Mach-O SHA-256: ".toList++hexText (sha256 X.data))::
    "# Coverage is intentionally partial: only reviewed unique anchors are emitted.".toList::
    emitted.map Emitted.line

/-- `generate`: the text of the hook file, with the hooks in it. -/
def generate (sha256 : List Byte → List Byte) (anchors : AnchorFile) : Option (Text × List Emitted) :=
  if hexText (sha256 X.data) ≠ anchors.binarySha256 ∨ anchors.library = [] then none
  else (generateHooks X D anchors.library anchors.symbols).map fun emitted =>
    (unlines '\n' (hookLines X sha256 emitted),emitted)

end Generate

end Machismo.RecoverSdl
