import Machismo.Data.Utf8
import Machismo.RecoverSdl.Leb128
import Machismo.Trampoline.FunctionStarts

/-! # The image as the analysis tool reads it

Load commands and file contents, from which the tool takes segments, sections, function starts and
strings.  Addresses of the tool have no width.  The trampoline reads the same commands from memory.
-/
namespace Machismo.RecoverSdl
open Machismo.A64 (Byte Addr Memory)
open Machismo.Data (decodeText)
open Machismo.Resolver (Name)

structure SectionHeader extends Trampoline.Section where
  sectname : Name
  segname : Name
  offset : BitVec 32
  deriving DecidableEq, Repr

structure SegmentCommand where
  segname : Name
  vmaddr : BitVec 64
  vmsize : BitVec 64
  fileoff : BitVec 64
  filesize : BitVec 64
  initprot : BitVec 32
  sections : List SectionHeader
  deriving DecidableEq, Repr

inductive FileCommand where
  | segment (seg : SegmentCommand)
  | functionStarts (dataoff datasize : BitVec 32)
  | other
  deriving DecidableEq, Repr

/-- A file with its load commands and the stubs that its symbol tables name. -/
structure File where
  data : List Byte
  commands : List FileCommand
  stubs : List (ℕ × List Char)

/-- A string of a section of C strings. -/
structure StringEntry where
  address : ℕ
  value : List Char
  deriving DecidableEq

def cstringLiterals : BitVec 32 := 2

def checked (data : List Byte) (offset size : ℕ) : Option (List Byte) :=
  if offset+size ≤ data.length then some ((data.drop offset).take size) else none

theorem length_checked {data raw : List Byte} {offset size : ℕ} (h : checked data offset size = some raw) :
    raw.length = size := by
  unfold checked at h
  split_ifs at h with hle
  obtain rfl := Option.some.inj h
  rw [List.length_take,List.length_drop]
  omega

def stringsFrom (address : ℕ) (text : List Byte) : List Byte → List StringEntry
  | [] => if text = [] then [] else [⟨address,decodeText text⟩]
  | byte::raw =>
    if byte = 0 then
      (if text = [] then [] else [⟨address,decodeText text⟩])++stringsFrom (address+text.length+1) [] raw
    else stringsFrom address (text++[byte]) raw

/-- The loop of `_parse_function_starts`, which wants a distance of zero at the end. -/
def functionStartsFrom : ℕ → ℕ → List Byte → Option (List ℕ)
  | 0, _, _ => none
  | n+1, current, raw => (readUleb raw).bind fun (delta,raw) =>
    if delta = 0 then some []
    else (functionStartsFrom n (current+delta) raw).map ((current+delta)::·)

namespace File
variable (F : File)

def segments : List SegmentCommand := F.commands.filterMap fun
  | .segment seg => some seg
  | _ => none

def sections : List SectionHeader := F.segments.flatMap SegmentCommand.sections

def startsCommand : Option (BitVec 32 × BitVec 32) :=
  F.commands.foldl (fun r c => match c with
    | .functionStarts dataoff datasize => some (dataoff,datasize)
    | _ => r) none

def textSegment : Option SegmentCommand := F.segments.find? fun seg => seg.segname = "__TEXT".toList

def textSection : Option SectionHeader :=
  F.sections.find? fun sec => sec.segname = "__TEXT".toList ∧ sec.sectname = "__text".toList

def addressToOffset (address size : ℕ) : Option ℕ :=
  (F.segments.find? fun seg =>
    seg.vmaddr.toNat ≤ address ∧ address+size ≤ seg.vmaddr.toNat+seg.filesize.toNat).map
      fun seg => seg.fileoff.toNat+address-seg.vmaddr.toNat

def bytesAt (address size : ℕ) : Option (List Byte) :=
  (F.addressToOffset address size).bind fun offset => checked F.data offset size

variable {F} in
theorem length_bytesAt {address size : ℕ} {raw : List Byte} (h : F.bytesAt address size = some raw) :
    raw.length = size := by
  obtain ⟨offset,-,h⟩ := Option.bind_eq_some_iff.mp h
  exact length_checked h

/-- `pointer_at`; the address may be negative. -/
def pointerAt (address : ℤ) : Option ℕ :=
  if address < 0 then none
  else (F.bytesAt address.toNat 8).map fun raw => raw.foldr (fun byte v => byte.toNat+256*v) 0

def functionStarts : Option (List ℕ) :=
  F.startsCommand.bind fun (dataoff,datasize) =>
    (checked F.data dataoff.toNat datasize.toNat).bind fun raw =>
      F.textSegment.bind fun text =>
        (functionStartsFrom raw.length text.vmaddr.toNat raw).bind fun starts =>
          if starts.Pairwise (·<·) then some starts else none

def strings : Option (List StringEntry) :=
  ((F.sections.filter fun sec => sec.flags &&& 0xff = cstringLiterals).mapM fun sec =>
    (checked F.data sec.offset.toNat sec.size.toNat).map (stringsFrom sec.addr.toNat [])).map List.flatten

end File

structure MachO extends File where
  starts : List ℕ
  starts_eq : toFile.functionStarts = some starts
  strings : List StringEntry
  strings_eq : toFile.strings = some strings

namespace MachO
variable (X : MachO)

/-- The first start from a place on that equals the given one, with the end of the function. -/
def functionBounds (start : ℕ) : Option (ℕ × ℕ) :=
  (X.starts.idxOf? start).bind fun index => X.textSection.map fun text =>
    let textEnd := text.addr.toNat+text.size.toNat
    (start,min ((X.starts[index+1]?).getD textEnd) textEnd)

/-- The binary search of `containing_function`, in at most the given number of steps. -/
def bisect (address : ℕ) : ℕ → ℕ → ℕ → ℕ
  | 0, lo, _ => lo
  | n+1, lo, hi =>
    if lo < hi then
      let mid := (lo+hi)/2
      if (X.starts[mid]?).getD 0 ≤ address then bisect address n (mid+1) hi else bisect address n lo mid
    else lo

/-- `none` where the tool raises an error. -/
def containingFunction (address : ℕ) : Option (Option ℕ) :=
  match X.bisect address X.starts.length 0 X.starts.length with
  | 0 => some none
  | lo+1 => (X.starts[lo]?).bind fun start => (X.functionBounds start).map fun (start,finish) =>
    if address < finish then some start else none

end MachO

section Loaded

def SegmentCommand.toTrampoline (seg : SegmentCommand) : Trampoline.Segment :=
  ⟨seg.segname,seg.vmaddr,seg.vmsize,seg.fileoff,seg.filesize,seg.initprot,seg.sections.map (·.toSection)⟩

/-- The commands as the trampoline finds them in memory. -/
def File.loaded (F : File) : Trampoline.MachO where
  isMachO64 := true
  commands := F.commands.map fun
    | .segment seg => .segment seg.toTrampoline
    | .functionStarts dataoff datasize => .functionStarts dataoff datasize
    | .other => .other

/-- Memory holds what the file has for the segments. -/
def File.Mapped (F : File) (slide : Addr) (m : Memory) : Prop :=
  ∀ seg ∈ F.segments, ∀ k < seg.filesize.toNat, ∀ byte, F.data[seg.fileoff.toNat+k]? = some byte →
    m (seg.vmaddr+slide+BitVec.ofNat 64 k) = byte

end Loaded

end Machismo.RecoverSdl
