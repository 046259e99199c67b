import Machismo.Dwarf.Cfi

/-! # Encoded pointers and the sections that hold them

An `.eh_frame` section may write its pointers in several encodings: a format in the low four bits, what
the value is relative to in the next three, and a bit for a pointer to the pointer.  A CIE names the
encoding of the locations of its FDEs by a letter of its augmentation.  A section is given by its
records, with the bytes that encode them; an FDE names its CIE by the offset of that record.
-/
namespace Machismo.Dwarf
open A64 (Byte)
open Data

inductive Format
  | fixed (width : ℕ) (signed : Bool)
  | uleb
  | sleb
  deriving DecidableEq, Repr

/-- The format of a pointer, by the low four bits of its encoding. -/
def format (encoding : Byte) : Option Format :=
  match encoding.toNat % 16 with
  | 0x0 => some (.fixed 8 false)
  | 0x1 => some .uleb
  | 0x2 => some (.fixed 2 false)
  | 0x3 => some (.fixed 4 false)
  | 0x4 => some (.fixed 8 false)
  | 0x9 => some .sleb
  | 0xa => some (.fixed 2 true)
  | 0xb => some (.fixed 4 true)
  | 0xc => some (.fixed 8 true)
  | _ => none

/-- No pointer at all. -/
def omitted : Byte := 0xff

/-- The value is an address, or the distance from where it stands. -/
def Direct (encoding : Byte) : Prop := encoding.toNat < 0x20

instance (encoding : Byte) : Decidable (Direct encoding) := inferInstanceAs (Decidable (_ < _))

/-- A complete variable-length number: each byte but the last one continues it. -/
def IsLeb : List Byte → Prop
  | [] => False
  | [b] => b.toNat < 128
  | b :: b' :: l => 128 ≤ b.toNat ∧ IsLeb (b' :: l)

def PointerBytes (encoding : Byte) (bytes : List Byte) : Prop :=
  if encoding = omitted then bytes = []
  else
    match format encoding with
    | none => False
    | some (.fixed width _) => bytes.length = width
    | some .uleb => IsLeb bytes
    | some .sleb => IsLeb bytes

/-- The number that the bytes of a pointer hold, before it is made relative. -/
def rawPointer (encoding : Byte) (bytes : List Byte) : BitVec 64 :=
  match format encoding with
  | none => 0
  | some (.fixed width true) => (BitVec.ofNat (8*width) (leNat bytes)).signExtend 64
  | some (.fixed width false) => (BitVec.ofNat (8*width) (leNat bytes)).setWidth 64
  | some .uleb => BitVec.ofNat 64 (((readUleb bytes).map Prod.fst).getD 0)
  | some .sleb => BitVec.ofInt 64 (((readSleb bytes).map Prod.fst).getD 0)

/-- The value of a pointer that stands at an address; zero for none. -/
def pointerValue (encoding : Byte) (address : BitVec 64) (bytes : List Byte) : BitVec 64 :=
  if encoding = omitted then 0
  else if encoding.toNat / 16 = 1 then rawPointer encoding bytes + address
  else rawPointer encoding bytes

/-- What a letter of the augmentation after `z` stands for, with its data. -/
inductive AugItem
  | lsda (encoding : Byte)
  | personality (encoding : Byte) (pointer : List Byte)
  | fdePointer (encoding : Byte)
  | flag (letter : Byte)
  deriving DecidableEq

def AugItem.letter : AugItem → Byte
  | .lsda _ => 0x4c
  | .personality _ _ => 0x50
  | .fdePointer _ => 0x52
  | .flag letter => letter

def AugItem.data : AugItem → List Byte
  | .lsda encoding => [encoding]
  | .personality encoding pointer => encoding :: pointer
  | .fdePointer encoding => [encoding]
  | .flag _ => []

/-- The signal frame and the key of the return address have no data. -/
def AugItem.WellFormed : AugItem → Prop
  | .personality encoding pointer =>
    encoding = omitted ∧ pointer = [] ∨ encoding.toNat % 128 < 0x50 ∧ ∃ width signed,
      format encoding = some (.fixed width signed) ∧ pointer.length = width
  | .flag letter => letter = 0x53 ∨ letter = 0x42
  | _ => True

/-- An augmentation with `z` and its letters, the length of their data in the given bytes, or another one. -/
inductive Augmentation
  | sized (items : List AugItem) (length : List Byte)
  | other (string : List Byte)
  deriving DecidableEq

structure CieRecord where
  version : Byte
  augmentation : Augmentation
  codeAlign : List Byte
  dataAlign : List Byte
  returnReg : List Byte
  insns : List Byte

def Augmentation.string : Augmentation → List Byte
  | .sized items _ => 0x7a :: items.map AugItem.letter
  | .other string => string

def Augmentation.data : Augmentation → List Byte
  | .sized items length => length ++ items.flatMap AugItem.data
  | .other _ => []

def Augmentation.WellFormed : Augmentation → Prop
  | .sized items length => (∀ item ∈ items, item.WellFormed) ∧ IsLeb length ∧ length.length ≤ 9 ∧
      readUleb length = some ((items.flatMap AugItem.data).length,[])
  | .other string => (∀ b ∈ string, b ≠ 0) ∧ string.head? ≠ some 0x7a

/-- The encoding of the locations: that of the first `R`, or an absolute address. -/
def AugItem.encoding : List AugItem → Byte
  | [] => 0
  | .fdePointer encoding :: _ => encoding
  | _ :: items => encoding items

def Augmentation.encoding : Augmentation → Byte
  | .sized items _ => AugItem.encoding items
  | .other _ => 0

def CieRecord.body (c : CieRecord) : List Byte :=
  [0,0,0,0] ++ (c.version :: c.augmentation.string ++ (0 :: (c.codeAlign ++ (c.dataAlign ++ (c.returnReg ++
    (c.augmentation.data ++ c.insns))))))

structure CieRecord.WellFormed (c : CieRecord) : Prop where
  version : c.version = 1 ∨ c.version = 3
  augmentation : c.augmentation.WellFormed
  codeAlign : IsLeb c.codeAlign
  dataAlign : IsLeb c.dataAlign
  returnReg : if c.version = 1 then c.returnReg.length = 1 else IsLeb c.returnReg
  short : c.body.length < 2^32 - 1

/-- A record, with its length in four bytes or in the extended form; `ofCie` is the offset of the CIE. -/
inductive Record
  | cie (extended : Bool) (c : CieRecord)
  | fde (extended : Bool) (ofCie : ℕ) (location rest : List Byte)

def Record.extended : Record → Bool
  | .cie extended _ => extended
  | .fde extended _ _ _ => extended

def headerSize (extended : Bool) : ℕ := if extended then 12 else 4

def header (extended : Bool) (length : ℕ) : List Byte :=
  if extended then leBytes 4 0xFFFFFFFF ++ leBytes 8 length else leBytes 4 length

def Record.body (off : ℕ) : Record → List Byte
  | .cie _ c => c.body
  | .fde extended ofCie location rest => leBytes 4 (off + headerSize extended - ofCie) ++ (location ++ rest)

def Record.bytes (off : ℕ) (r : Record) : List Byte := header r.extended (r.body off).length ++ r.body off

def recordBytes : ℕ → List Record → List Byte
  | _, [] => []
  | off, r :: l => r.bytes off ++ recordBytes (off + (r.bytes off).length) l

def placed : ℕ → List Record → List (ℕ×Record)
  | _, [] => []
  | off, r :: l => (off,r) :: placed (off + (r.bytes off).length) l

/-- A section: its records, and what follows a zero length, if there is one. -/
structure EhSection where
  records : List Record
  tail : Option (List Byte)

def EhSection.bytes (S : EhSection) : List Byte :=
  recordBytes 0 S.records ++ (S.tail.map fun t => leBytes 4 0 ++ t).getD []

def EhSection.placed (S : EhSection) : List (ℕ×Record) := Dwarf.placed 0 S.records

/-- The length of a body fits in its form. -/
def lengthFits (extended : Bool) (length : ℕ) : Prop := if extended then length < 2^64 else length < 2^32 - 1

/-- An FDE follows its CIE at a distance of 32 bits, and its location is encoded as the CIE says. -/
def EhSection.RecordOk (S : EhSection) : ℕ×Record → Prop
  | (_,.cie _ c) => c.WellFormed
  | (off,.fde extended ofCie location rest) =>
    lengthFits extended ((Record.fde extended ofCie location rest).body off).length ∧
    ofCie < off ∧ off + headerSize extended - ofCie < 2^32 ∧
    ∃ form c, (ofCie,Record.cie form c) ∈ S.placed ∧ PointerBytes c.augmentation.encoding location ∧
      (c.augmentation.encoding = omitted ∨ Direct c.augmentation.encoding)

def EhSection.WellFormed (S : EhSection) : Prop := ∀ r ∈ S.placed, S.RecordOk r

/-- The encoding that the CIE at an offset gives the locations of its FDEs. -/
def EhSection.encodingAt (S : EhSection) (off : ℕ) : Byte :=
  match S.placed.find? fun r => r.1 = off with
  | some (_,.cie _ c) => c.augmentation.encoding
  | _ => 0

def EhSection.location (S : EhSection) (base : ℕ) : ℕ×Record → BitVec 64
  | (_,.cie _ _) => 0
  | (off,.fde extended ofCie location _) =>
    pointerValue (S.encodingAt ofCie) (BitVec.ofNat 64 (base + off + headerSize extended + 4)) location

/-- The locations of the FDEs that are not zero, in order, each with the offset of its record. -/
def EhSection.locations (S : EhSection) (base : ℕ) : List (BitVec 64×ℕ) :=
  S.placed.filterMap fun r => if S.location base r ≠ 0 then some (S.location base r,r.1) else none

@[simp] theorem length_header (extended : Bool) (n : ℕ) : (header extended n).length = headerSize extended := by
  cases extended <;> simp [header,headerSize]

theorem length_bytes (off : ℕ) (r : Record) :
    (r.bytes off).length = headerSize r.extended + (r.body off).length := by
  rw [Record.bytes,List.length_append,length_header]

theorem headerSize_pos (extended : Bool) : 4 ≤ headerSize extended := by
  cases extended <;> simp [headerSize]

theorem placed_le {off : ℕ} {l : List Record} {r : ℕ×Record} (h : r ∈ placed off l) : off ≤ r.1 := by
  induction l generalizing off with
  | nil => cases h
  | cons x l ih =>
    rcases List.mem_cons.mp h with rfl | h
    · exact le_rfl
    · exact (Nat.le_add_right _ _).trans (ih h)

theorem placed_pairwise (off : ℕ) (l : List Record) : (placed off l).Pairwise fun r r' => r.1 < r'.1 := by
  induction l generalizing off with
  | nil => exact .nil
  | cons x l ih =>
    refine List.pairwise_cons.mpr ⟨fun r hr => ?_,ih _⟩
    have hle := placed_le hr
    have hlen := length_bytes off x
    have hpos := headerSize_pos x.extended
    dsimp only
    omega

theorem EhSection.nodup_offsets (S : EhSection) : (S.placed.map Prod.fst).Nodup :=
  List.pairwise_map.mpr ((placed_pairwise 0 S.records).imp ne_of_lt)

theorem EhSection.eq_of_offset {S : EhSection} {r r' : ℕ×Record} (h : r ∈ S.placed) (h' : r' ∈ S.placed)
    (hoff : r.1 = r'.1) : r = r' := List.inj_on_of_nodup_map S.nodup_offsets h h' hoff

theorem drop_recordBytes {off : ℕ} {l : List Record} {r : ℕ×Record} (h : r ∈ placed off l) :
    ∃ p, (recordBytes off l).drop (r.1 - off) = r.2.bytes r.1 ++ p := by
  induction l generalizing off with
  | nil => cases h
  | cons x l ih =>
    rcases List.mem_cons.mp h with rfl | h
    · exact ⟨recordBytes (off + (x.bytes off).length) l,by simp [recordBytes]⟩
    · obtain ⟨p,hp⟩ := ih h
      have hle := placed_le h
      refine ⟨p,?_⟩
      have hsplit : r.1 - off = (x.bytes off).length + (r.1 - (off + (x.bytes off).length)) := by omega
      rw [recordBytes,hsplit,← List.drop_drop,List.drop_left,hp]

theorem EhSection.drop_bytes {S : EhSection} {r : ℕ×Record} (h : r ∈ S.placed) :
    ∃ p, S.bytes.drop r.1 = r.2.bytes r.1 ++ p := by
  obtain ⟨p,hp⟩ := drop_recordBytes h
  rw [Nat.sub_zero] at hp
  have hlen : r.1 ≤ (recordBytes 0 S.records).length := by
    have hsum := congrArg List.length hp
    have hbytes := length_bytes r.1 r.2
    have hpos := headerSize_pos r.2.extended
    rw [List.length_drop,List.length_append] at hsum
    omega
  refine ⟨p ++ (S.tail.map fun t => leBytes 4 0 ++ t).getD [],?_⟩
  rw [EhSection.bytes,List.drop_append_of_le_length hlen,hp,List.append_assoc]

theorem EhSection.encodingAt_eq {S : EhSection} {off : ℕ} {extended : Bool} {c : CieRecord}
    (h : (off,Record.cie extended c) ∈ S.placed) : S.encodingAt off = c.augmentation.encoding := by
  unfold EhSection.encodingAt
  cases hfind : S.placed.find? fun r => r.1 = off with
  | none =>
    have hne := List.find?_eq_none.mp hfind _ h
    simp at hne
  | some r =>
    have hoff : r.1 = off := by simpa using List.find?_some hfind
    obtain rfl := S.eq_of_offset (List.mem_of_find?_eq_some hfind) h hoff
    rfl

end Machismo.Dwarf
