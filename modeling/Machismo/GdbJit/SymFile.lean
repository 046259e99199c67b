import Machismo.GdbJit.Lookup
import Machismo.Loader.Segments
import Machismo.Data.Elf

/-! # The symbol file of an image

`gdb_jit_register_macho` up to the notification of the debugger: the function symbols of a mapped
image are collected, sorted by address and written as an ELF object file with one section of code and
no contents. `qsort` promises no order among symbols of one address and is a parameter.
-/
namespace Machismo.GdbJit
open A64 Data Loader

/-- What has been written with an `elf_writer`; `ewGrow` has its size. -/
abbrev ElfWriter := List Byte

/-- `ew_grow` for `needed` bytes in all. The size is doubled until they fit, as long as it is an `int`. -/
def ewGrow : ℕ → ℕ → ℕ → Option ℕ
  | 0, _, _ => none
  | k + 1, size, needed =>
    if needed ≤ size then some size else if 2^31 ≤ 2*size then none else ewGrow k (2*size) needed

def ewBytes (data : List Byte) (w : ElfWriter) : ElfWriter := w ++ data
def ewU8 (v : BitVec 8) (w : ElfWriter) : ElfWriter := w ++ leBytes 1 v.toNat
def ewU16 (v : BitVec 16) (w : ElfWriter) : ElfWriter := w ++ leBytes 2 v.toNat
def ewU32 (v : BitVec 32) (w : ElfWriter) : ElfWriter := w ++ leBytes 4 v.toNat
def ewU64 (v : BitVec 64) (w : ElfWriter) : ElfWriter := w ++ leBytes 8 v.toNat
def ewZero (count : ℕ) (w : ElfWriter) : ElfWriter := w ++ List.replicate count 0

def ewPad (alignment : ℕ) (w : ElfWriter) : ElfWriter :=
  w ++ List.replicate ((w.length + alignment - 1) / alignment * alignment - w.length) 0

structure SymtabCommand where
  symoff : BitVec 32
  nsyms : BitVec 32
  stroff : BitVec 32
  strsize : BitVec 32

inductive Command where
  | segment (seg : SegmentCommand)
  | symtab (cmd : SymtabCommand)
  | other

def Command.segment? : Command → Option SegmentCommand
  | .segment seg => some seg
  | _ => none

def Command.symtab? : Command → Option SymtabCommand
  | .symtab cmd => some cmd
  | _ => none

def fileoffToMem (cmds : List Command) (slide : Addr) (fileoff : BitVec 32) : Addr :=
  match (cmds.filterMap Command.segment?).find? fun seg =>
      seg.fileoff ≤ fileoff.setWidth 64 ∧ fileoff.setWidth 64 < seg.fileoff + seg.filesize with
  | none => 0
  | some seg => seg.vmaddr + slide + (fileoff.setWidth 64 - seg.fileoff)

def findTextSegment (cmds : List Command) (slide : Addr) : Option (Addr × BitVec 64) :=
  match (cmds.filterMap Command.segment?).find? fun seg => seg.segname = "__TEXT".toList with
  | none => none
  | some seg => some (seg.vmaddr + slide,seg.vmsize)

/-- `struct nlist_64`, without the section and the description that nothing reads. -/
structure Nlist where
  strx : BitVec 32
  type : BitVec 8
  value : BitVec 64

def nlistAt (m : Memory) (a : Addr) : Nlist := ⟨load m a 4,load m (a + 4) 1,load m (a + 8) 8⟩

/-- The string at an address; there is none where memory has no zero. -/
def cString (m : Memory) : ℕ → Addr → Option (List Byte)
  | 0, _ => none
  | n + 1, a => if m a = 0 then some [] else (cString m n (a + 1)).map (m a :: ·)

/-- A name without its leading underscore. -/
def elfName (m : Memory) (name : Addr) : Addr := if m name = 0x5f then name + 1 else name

/-- Where the tables of an image are, and its code. -/
structure Tables where
  slide : Addr
  nlist : Addr
  nsyms : BitVec 32
  strtab : Addr
  strsize : BitVec 32
  text : Addr
  textSize : BitVec 64

/-- The first half of `gdb_jit_register_macho`, with its messages. -/
def findTables (cmds : List Command) (slide : Addr) : Except String Tables :=
  match (cmds.filterMap Command.symtab?).getLast? with
  | none => .error "gdb_jit: no symbol table found\n"
  | some cmd =>
    if cmd.nsyms = 0 then .error "gdb_jit: no symbol table found\n"
    else if fileoffToMem cmds slide cmd.symoff = 0 ∨ fileoffToMem cmds slide cmd.stroff = 0 then
      .error "gdb_jit: cannot map symbol/string table\n"
    else
      match findTextSegment cmds slide with
      | none => .error "gdb_jit: no __TEXT segment found\n"
      | some (text,textSize) =>
        .ok ⟨slide,fileoffToMem cmds slide cmd.symoff,cmd.nsyms,fileoffToMem cmds slide cmd.stroff,cmd.strsize,text,
          textSize⟩

namespace Tables
variable (T : Tables) (m : Memory)

/-- The address and the name of a symbol that is kept: one that is defined in a section, no debug entry,
within the code, and with a name beside the leading underscore. -/
def keep (nl : Nlist) : Option (Option (Addr × List Byte)) :=
  if nl.type &&& 0xe0 ≠ 0 then some none
  else if nl.type &&& 0x0e ≠ 0x0e then some none
  else if nl.strx = 0 ∨ T.strsize ≤ nl.strx then some none
  else if m (T.strtab + nl.strx.setWidth 64) = 0 then some none
  else if nl.value + T.slide < T.text ∨ T.text + T.textSize ≤ nl.value + T.slide then some none
  else if m (elfName m (T.strtab + nl.strx.setWidth 64)) = 0 then some none
  else (cString m (2^64) (elfName m (T.strtab + nl.strx.setWidth 64))).map fun s => some (nl.value + T.slide,s)

/-- The symbols with their names in `strtab`, which has room for `size` bytes, from the table entry at `a` on. -/
def collectSymbols : ℕ → Addr → ℕ → ElfWriter → List MachoSym → Option (ElfWriter × List MachoSym)
  | 0, _, _, strtab, syms => some (strtab,syms)
  | n + 1, a, size, strtab, syms =>
    match T.keep m (nlistAt m a) with
    | none => none
    | some none => collectSymbols n (a + 16) size strtab syms
    | some (some (addr,name)) =>
      match ewGrow 31 size (strtab.length + (name.length + 1)) with
      | none => none
      | some size => collectSymbols n (a + 16) size (strtab |> ewBytes (name ++ [0]))
          (syms ++ [⟨addr,BitVec.ofNat 32 strtab.length⟩])

/-- Up to the next symbol or the end of the code, if that can be; else one instruction. -/
def funcSize (sym : MachoSym) (rest : List MachoSym) : BitVec 64 :=
  let size :=
    match rest with
    | next :: _ => next.addr - sym.addr
    | [] => T.text + T.textSize - sym.addr
  if size = 0 ∨ 0x100000 < size then 4 else size

def writeSymbols : List MachoSym → ElfWriter → ElfWriter
  | [], w => w
  | sym :: rest, w =>
    w |> ewU32 sym.strtabOffset |> ewU8 (1#8 <<< 4 ||| 2#8 &&& 0xf) |> ewU8 0 |> ewU16 1 |> ewU64 (sym.addr - T.text)
      |> ewU64 (T.funcSize sym rest) |> writeSymbols rest

end Tables

def literal (s : String) : List Byte := s.toList.map fun c => BitVec.ofNat 8 c.toNat

/-- `.shstrtab`, whose names begin at 1, 7, 15 and 23. -/
def shstrtab : ElfWriter :=
  [] |> ewU8 0 |> ewBytes (literal ".text" ++ [0]) |> ewBytes (literal ".symtab" ++ [0])
    |> ewBytes (literal ".strtab" ++ [0]) |> ewBytes (literal ".shstrtab" ++ [0])

/-- The section headers begin at the next multiple of 8. -/
def shdrOffset (symCount strtabSize : ℕ) : ℕ :=
  (64 + (1 + symCount)*24 + strtabSize + shstrtab.length + 7) / 8 * 8

def writeEhdr (shdrOffset : BitVec 64) (w : ElfWriter) : ElfWriter :=
  w |> ewBytes (0x7f :: literal "ELF") |> ewU8 2 |> ewU8 1 |> ewU8 1 |> ewU8 0 |> ewZero 8 |> ewU16 1 |> ewU16 183
    |> ewU32 1 |> ewU64 0 |> ewU64 0 |> ewU64 shdrOffset |> ewU32 0 |> ewU16 64 |> ewU16 0 |> ewU16 0 |> ewU16 64
    |> ewU16 5 |> ewU16 4

def writeShdr (name type : BitVec 32) (flags addr offset size : BitVec 64) (link info : BitVec 32)
    (addralign entsize : BitVec 64) (w : ElfWriter) : ElfWriter :=
  w |> ewU32 name |> ewU32 type |> ewU64 flags |> ewU64 addr |> ewU64 offset |> ewU64 size |> ewU32 link |> ewU32 info
    |> ewU64 addralign |> ewU64 entsize

def Tables.writeSections (T : Tables) (symCount strtabSize : ℕ) (w : ElfWriter) : ElfWriter :=
  let symtabSize := (1 + symCount)*24
  w |> ewZero 64
    |> writeShdr 1 8 6 T.text 0 T.textSize 0 0 16 0
    |> writeShdr 7 2 0 0 64 (BitVec.ofNat 64 symtabSize) 3 1 8 24
    |> writeShdr 15 3 0 0 (BitVec.ofNat 64 (64 + symtabSize)) (BitVec.ofNat 64 strtabSize) 0 0 1 0
    |> writeShdr 23 3 0 0 (BitVec.ofNat 64 (64 + symtabSize + strtabSize)) (BitVec.ofNat 64 shstrtab.length) 0 0 1 0

/-- The object file for symbols in the order of their addresses. -/
def Tables.symFile (T : Tables) (strtab : ElfWriter) (syms : List MachoSym) : ElfWriter :=
  [] |> writeEhdr (BitVec.ofNat 64 (shdrOffset syms.length strtab.length)) |> ewZero 24 |> T.writeSymbols syms
    |> ewBytes strtab |> ewBytes shstrtab |> ewPad 8 |> T.writeSections syms.length strtab.length

/-- What is registered of an image: the symbol file, and the sorted symbols with their strings. -/
structure Registration where
  symfile : List Byte
  syms : List MachoSym
  strtab : List Byte

/-- `gdb_jit_register_macho` before the registration with the debugger. It has no result where the name of
a symbol does not end, or where the size of a writer is no `int`: the one of the file begins with 64 bytes
more than the file takes. -/
def gdbJitRegisterMacho (qsort : List MachoSym → List MachoSym) (m : Memory) (cmds : List Command) (slide : Addr) :
    Option (Except String Registration) :=
  match findTables cmds slide with
  | .error e => some (.error e)
  | .ok T =>
    match T.collectSymbols m T.nsyms.toNat T.nlist 0x40000 ([] |> ewU8 0) [] with
    | none => none
    | some (strtab,syms) =>
      if syms = [] then some (.error "gdb_jit: no symbols to register\n")
      else if 2^31 ≤ shdrOffset syms.length strtab.length + 5*64 + 64 then none
      else some (.ok ⟨T.symFile strtab (qsort syms),qsort syms,strtab⟩)

end Machismo.GdbJit
