import Machismo.Data.Bytes

/-! # Reading a native `__eh_frame`

The section of the image is walked by the length fields of its records.  For an FDE the CIE is looked up
through the distance that stands in it, and the encoding of the initial location in that CIE.  A pointer
with its limit is the list of the bytes from the pointer to the end of the array, and the distance to the
limit, which may lie past the array; a byte past the array has no value.
-/
namespace Machismo.EhFrame
open A64 (Byte)
open Data

/-- The array with its address; `deref` is what is stored where an indirect pointer points.  An array
lies in the lower part of the address space. -/
structure NativeSection where
  base : ℕ
  bytes : List Byte
  deref : BitVec 64 → BitVec 64
  fits : base + bytes.length + 2^33 < 2^64

def NativeSection.size (E : NativeSection) : ℕ := E.bytes.length

def NativeSection.word (E : NativeSection) (n off : ℕ) : ℕ := leNat ((E.bytes.drop off).take n)

structure HdrEntry where
  initialLocation : BitVec 64
  fdePtr : BitVec 64
  deriving DecidableEq, Repr

/-- A pointer `p` before `end`. -/
structure Cursor where
  rest : List Byte
  room : ℕ

/-- `*p++` -/
def Cursor.next (c : Cursor) : Option (Byte×Cursor) :=
  match c.rest with
  | [] => none
  | b :: rest => some (b,⟨rest,c.room-1⟩)

/-- `p += n` -/
def Cursor.skip (n : ℕ) (c : Cursor) : Cursor := ⟨c.rest.drop n,c.room-n⟩

def ulebFrom (shift : ℕ) (result : BitVec 64) : List Byte → ℕ → Option (BitVec 64×Cursor)
  | rest, 0 => some (result,⟨rest,0⟩)
  | [], _+1 => none
  | byte :: rest, room+1 =>
    let result := result ||| (byte &&& 0x7F).setWidth 64 <<< (shift % 64)
    if byte &&& 0x80 = 0 then some (result,⟨rest,room⟩) else ulebFrom (shift+7) result rest room

def ehReadUleb128 (c : Cursor) : Option (BitVec 64×Cursor) := ulebFrom 0 0 c.rest c.room

def slebFrom : List Byte → ℕ → Option Cursor
  | rest, 0 => some ⟨rest,0⟩
  | [], _+1 => none
  | byte :: rest, room+1 => if byte &&& 0x80 = 0 then some ⟨rest,room⟩ else slebFrom rest room

/-- `eh_read_sleb128`, whose value is not used. -/
def ehReadSleb128 (c : Cursor) : Option Cursor := slebFrom c.rest c.room

def dwEhPePcrel : Byte := 0x10
def dwEhPeIndirect : Byte := 0x80
def dwEhPeOmit : Byte := 0xff

/-- The widths of the formats, by the low four bits, and whether they are signed. -/
def pointerFormat (encoding : Byte) : Option (ℕ×Bool) :=
  match (encoding &&& 0x0F).toNat with
  | 0x00 => some (8,false)
  | 0x02 => some (2,false)
  | 0x03 => some (4,false)
  | 0x04 => some (8,false)
  | 0x0a => some (2,true)
  | 0x0b => some (4,true)
  | 0x0c => some (8,true)
  | _ => none

/-- A number of `n` bytes as one of 64 bits. -/
def extend (n : ℕ) (signed : Bool) (v : ℕ) : BitVec 64 :=
  if signed then (BitVec.ofNat (8*n) v).signExtend 64 else (BitVec.ofNat (8*n) v).setWidth 64

/-- `eh_read_encoded_ptr`, where `address` is that of `*p`. -/
def ehReadEncodedPtr (deref : BitVec 64 → BitVec 64) (address : ℕ) (c : Cursor) (encoding : Byte) :
    Option (BitVec 64×Cursor) :=
  if encoding = dwEhPeOmit then some (0,c)
  else
    match pointerFormat encoding with
    | none => some (0,c)
    | some (n,signed) =>
      if c.room < n then some (0,c)
      else if c.rest.length < n then none
      else
        let value := extend n signed (leNat (c.rest.take n))
        let value := if encoding &&& 0x70 = dwEhPePcrel then value + BitVec.ofNat 64 address else value
        let value := if encoding &&& dwEhPeIndirect ≠ 0 then deref value else value
        some (value,c.skip n)

def dwEhPeAbs : Byte := 0x00

/-- The scan over the augmentation string, which is returned with the pointer behind it. -/
def augScan : List Byte → ℕ → Option (List Byte×Cursor)
  | rest, 0 => some ([],⟨rest,0⟩)
  | [], _+1 => none
  | b :: rest, room+1 =>
    if b = 0 then some ([],⟨b :: rest,room+1⟩) else (augScan rest room).map fun r => (b :: r.1,r.2)

/-- The loop over the letters; the limit is the end of the augmentation data. -/
def augLoop (E : NativeSection) : List Byte → Cursor → Option Byte
  | [], _ => some dwEhPeAbs
  | letter :: letters, c =>
    if c.room = 0 then some dwEhPeAbs
    else if letter = 0x4c then augLoop E letters (c.skip 1)
    else if letter = 0x50 then
      c.next.bind fun enc =>
      (ehReadEncodedPtr E.deref (E.base + E.size - enc.2.rest.length) enc.2 enc.1).bind fun r => augLoop E letters r.2
    else if letter = 0x52 then c.next.map Prod.fst
    else some dwEhPeAbs

/-- The distance to the end of the augmentation data, as far as the CIE reaches; the sum of a pointer and
a length is one of 64 bits. -/
def augRoom (E : NativeSection) (c : Cursor) (augLen : BitVec 64) : ℕ :=
  let p := E.base + E.size - c.rest.length
  let augEnd := (p + augLen.toNat) % 2^64
  if p + c.room < augEnd then c.room else augEnd - p

def parseCieFdeEncoding (E : NativeSection) (cieData : List Byte) (cieLength : ℕ) : Option Byte :=
  if cieLength < 4 then some dwEhPeAbs
  else
    let c := Cursor.skip 4 ⟨cieData,cieLength⟩
    if c.room = 0 then some dwEhPeAbs
    else
      c.next.bind fun version =>
      (augScan version.2.rest version.2.room).bind fun augStr =>
      if augStr.2.room = 0 then some dwEhPeAbs
      else
        (ehReadUleb128 (augStr.2.skip 1)).bind fun codeAlign =>
        (ehReadSleb128 codeAlign.2).bind fun c =>
        (if version.1 = 1 then some (if c.room = 0 then c else c.skip 1)
          else (ehReadUleb128 c).map Prod.snd).bind fun c =>
        if augStr.1.head? ≠ some 0x7a then some dwEhPeAbs
        else
          (ehReadUleb128 c).bind fun augLen => augLoop E augStr.1.tail ⟨augLen.2.rest,augRoom E augLen.2 augLen.1⟩

/-- Where the data of the record at `pos` start and end; there is no record where the loop ends. -/
def NativeSection.record (E : NativeSection) (pos : ℕ) : Option (ℕ×ℕ) :=
  if E.size < pos + 4 then none
  else
    let length := E.word 4 pos
    if length = 0 then none
    else if length = 0xFFFFFFFF then
      if E.size < pos + 12 then none
      else
        let dataEnd := (pos + 12 + E.word 8 (pos+4)) % 2^64
        if E.size < dataEnd then none else some (pos+12,dataEnd)
    else if E.size < pos + 4 + length then none
    else some (pos+4,pos+4+length)

def NativeSection.fdeEntry (E : NativeSection) (pos dataStart dataEnd : ℕ) : Option (Option HdrEntry) :=
  if E.size < dataStart + 4 then none
  else
    let ciePtr := E.word 4 dataStart
    if ciePtr = 0 then some none
    else
      let ciePos := (dataStart + 2^64 - ciePtr) % 2^64
      if E.size ≤ ciePos then some none
      else if E.size < ciePos + 4 then none
      else
        (parseCieFdeEncoding E (E.bytes.drop (ciePos+4)) (E.word 4 ciePos)).bind fun fdeEnc =>
        (ehReadEncodedPtr E.deref (E.base + dataStart + 4) ⟨E.bytes.drop (dataStart+4),dataEnd - (dataStart+4)⟩
          fdeEnc).map fun initLoc =>
        if initLoc.1 ≠ 0 then some ⟨initLoc.1,BitVec.ofNat 64 (E.base + pos)⟩ else none

inductive Parsed
  | running
  | outside
  | done (entries : List HdrEntry)
  deriving DecidableEq

/-- `parse_native_eh_frame_fdes` for at most `n` rounds of its loop. -/
def parseNativeEhFrameFdes (E : NativeSection) : ℕ → ℕ → List HdrEntry → Parsed
  | 0, _, _ => .running
  | n+1, pos, entries =>
    match E.record pos with
    | none => .done entries
    | some (dataStart,dataEnd) =>
      match E.fdeEntry pos dataStart dataEnd with
      | none => .outside
      | some entry => parseNativeEhFrameFdes E n dataEnd (entries ++ entry.toList)

end Machismo.EhFrame
