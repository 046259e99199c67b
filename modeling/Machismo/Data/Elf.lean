import Machismo.Data.Bytes
import Mathlib.Data.List.Range

/-! # Object files

What a reader of 64-bit little-endian ELF object files sees of one: the names of its sections and the
functions of its symbol table. Records are sequences of fields of fixed widths, tables are sequences
of records of one size, and strings end at a zero byte within their section.
-/
namespace Machismo.Data.Elf
open A64 (Byte)

def readFields (bs : List Byte) : List ℕ → ℕ → Option (List ℕ)
  | [], _ => some []
  | w :: ws, off =>
    if off + w ≤ bs.length then (readFields bs ws (off + w)).map (leNat ((bs.drop off).take w) :: ·) else none

def fieldBytes (fs : List (ℕ × ℕ)) : List Byte := fs.flatMap fun f => leBytes f.1 f.2

theorem length_fieldBytes (fs : List (ℕ × ℕ)) : (fieldBytes fs).length = (fs.map Prod.fst).sum := by
  simp [fieldBytes,List.length_flatMap]

theorem readFields_at (before after : List Byte) (fs : List (ℕ × ℕ)) :
    readFields (before ++ (fieldBytes fs ++ after)) (fs.map Prod.fst) before.length =
      some (fs.map fun f => f.2 % 256^f.1) := by
  induction fs generalizing before with
  | nil => rfl
  | cons f fs ih =>
    have hbytes : before ++ (fieldBytes (f :: fs) ++ after) =
        before ++ leBytes f.1 f.2 ++ (fieldBytes fs ++ after) := by
      simp [fieldBytes]
    have hlen : (before ++ leBytes f.1 f.2).length = before.length + f.1 := by simp
    have hnext := ih (before ++ leBytes f.1 f.2)
    rw [hlen] at hnext
    rw [hbytes,List.map_cons,readFields,if_pos (by simp),hnext,Option.map_some,List.append_assoc,List.drop_left,
      List.take_append_of_le_length (by simp),List.take_of_length_le (by simp),leNat_leBytes,List.map_cons]

def readTable {R : Type} (rd : ℕ → Option R) (off size n : ℕ) : Option (List R) :=
  (List.range n).mapM fun i => rd (off + size*i)

theorem mapM_range_succ {R : Type} (f : ℕ → Option R) (n : ℕ) :
    (List.range (n + 1)).mapM f = (f 0).bind fun r => ((List.range n).mapM fun i => f (i + 1)).map (r :: ·) := by
  rw [List.range_succ_eq_map,List.mapM_cons,List.mapM_map]
  cases f 0 with
  | none => rfl
  | some r =>
    simp only [Option.bind_eq_bind,Option.bind_some,Option.pure_def,Option.map_eq_bind]
    rfl

theorem readTable_at {R : Type} {rd : List Byte → ℕ → Option R} {enc : R → List Byte} {size : ℕ}
    (before after : List Byte) (hsize : ∀ r, (enc r).length = size) {rs : List R}
    (hrd : ∀ r ∈ rs, ∀ before after, rd (before ++ (enc r ++ after)) before.length = some r) :
    readTable (rd (before ++ (rs.flatMap enc ++ after))) before.length size rs.length = some rs := by
  induction rs generalizing before with
  | nil => rfl
  | cons r rs ih =>
    rw [List.forall_mem_cons] at hrd
    have hbytes : before ++ ((r :: rs).flatMap enc ++ after) = before ++ (enc r ++ (rs.flatMap enc ++ after)) := by
      simp
    have hmoved : before ++ (enc r ++ (rs.flatMap enc ++ after)) = before ++ enc r ++ (rs.flatMap enc ++ after) := by
      simp
    have hrest := ih (before ++ enc r) hrd.2
    rw [readTable,← hmoved,List.length_append,hsize] at hrest
    rw [readTable,hbytes,List.length_cons,mapM_range_succ,Nat.mul_zero,Nat.add_zero,hrd.1,Option.bind_some]
    simp only [Nat.mul_succ,Nat.add_comm _ size,← Nat.add_assoc]
    simp only [Nat.add_comm size] at hrest ⊢
    rw [hrest,Option.map_some]

/-- The string at an offset, which ends within the next `size` bytes. -/
def readString (bs : List Byte) (off size : ℕ) : Option (List Byte) :=
  if (bs.drop off).take size |>.contains 0 then some (((bs.drop off).take size).takeWhile (· ≠ 0)) else none

theorem takeWhile_ne_zero {s : List Byte} (h : 0 ∉ s) (rest : List Byte) :
    (s ++ 0 :: rest).takeWhile (· ≠ 0) = s := by
  rw [List.takeWhile_append_of_pos fun b hb => by simpa using fun heq : b = 0 => h (heq ▸ hb)]
  simp

theorem readString_at {before after s : List Byte} (h : 0 ∉ s) {size : ℕ} (hsize : s.length < size) :
    readString (before ++ (s ++ 0 :: after)) before.length size = some s := by
  obtain ⟨k,rfl⟩ : ∃ k, size = s.length + (k + 1) := ⟨size - s.length - 1,by omega⟩
  rw [readString,List.drop_left,List.take_length_add_append,List.take_succ_cons,if_pos (by simp),takeWhile_ne_zero h]

structure Section where
  name : ℕ
  type : ℕ
  flags : ℕ
  addr : ℕ
  offset : ℕ
  size : ℕ
  link : ℕ
  info : ℕ
  addralign : ℕ
  entsize : ℕ
deriving DecidableEq

def Section.fields (s : Section) : List (ℕ × ℕ) :=
  [(4,s.name),(4,s.type),(8,s.flags),(8,s.addr),(8,s.offset),(8,s.size),(4,s.link),(4,s.info),(8,s.addralign),
    (8,s.entsize)]

def readSection (bs : List Byte) (off : ℕ) : Option Section :=
  match readFields bs [4,4,8,8,8,8,4,4,8,8] off with
  | some [name,type,flags,addr,offset,size,link,info,addralign,entsize] =>
    some ⟨name,type,flags,addr,offset,size,link,info,addralign,entsize⟩
  | _ => none

structure Symbol where
  name : ℕ
  info : ℕ
  other : ℕ
  shndx : ℕ
  value : ℕ
  size : ℕ
deriving DecidableEq

def Symbol.fields (s : Symbol) : List (ℕ × ℕ) :=
  [(4,s.name),(1,s.info),(1,s.other),(2,s.shndx),(8,s.value),(8,s.size)]

def readSymbol (bs : List Byte) (off : ℕ) : Option Symbol :=
  match readFields bs [4,1,1,2,8,8] off with
  | some [name,info,other,shndx,value,size] => some ⟨name,info,other,shndx,value,size⟩
  | _ => none

def FitsFields (fs : List (ℕ × ℕ)) : Prop := ∀ f ∈ fs, f.2 < 256^f.1

theorem map_mod_fields {fs : List (ℕ × ℕ)} (h : FitsFields fs) : (fs.map fun f => f.2 % 256^f.1) = fs.map Prod.snd :=
  List.map_congr_left fun f hf => Nat.mod_eq_of_lt (h f hf)

theorem readSection_at {s : Section} (h : FitsFields s.fields) (before after : List Byte) :
    readSection (before ++ (fieldBytes s.fields ++ after)) before.length = some s := by
  have hread := readFields_at before after s.fields
  rw [map_mod_fields h] at hread
  rw [readSection]
  exact hread ▸ rfl

theorem readSymbol_at {s : Symbol} (h : FitsFields s.fields) (before after : List Byte) :
    readSymbol (before ++ (fieldBytes s.fields ++ after)) before.length = some s := by
  have hread := readFields_at before after s.fields
  rw [map_mod_fields h] at hread
  rw [readSymbol]
  exact hread ▸ rfl

/-- A function with the addresses that it takes. -/
structure Function where
  name : List Byte
  addr : BitVec 64
  size : BitVec 64
deriving DecidableEq

/-- What the reader makes of a file: the names of its sections, and its functions. -/
structure View where
  sections : List (List Byte)
  functions : List Function
deriving DecidableEq

/-- The offset of the section headers, their number, and the place of the section that names them. -/
def readHeader (bs : List Byte) : Option (ℕ × ℕ × ℕ) :=
  match readFields bs [4,1,1,1,1,8,2,2,4,8,8,8,4,2,2,2,2,2,2] 0 with
  | some [magic,cls,data,_,_,_,_,_,_,_,_,shoff,_,_,_,_,shentsize,shnum,shstrndx] =>
    if magic = 0x464c457f ∧ cls = 2 ∧ data = 1 ∧ shentsize = 64 then some (shoff,shnum,shstrndx) else none
  | _ => none

/-- A symbol of the table, whose value counts from where its section is. -/
def resolve (bs : List Byte) (sections : List Section) (strings : Section) (s : Symbol) : Option Function :=
  match sections[s.shndx]?,readString bs (strings.offset + s.name) (strings.size - s.name) with
  | some sec,some name => some ⟨name,BitVec.ofNat 64 (sec.addr + s.value),BitVec.ofNat 64 s.size⟩
  | _,_ => none

/-- The symbol table is the section of type 2; its first symbol names nothing. -/
def read (bs : List Byte) : Option View :=
  match readHeader bs with
  | none => none
  | some (shoff,shnum,shstrndx) =>
    match readTable (readSection bs) shoff 64 shnum with
    | none => none
    | some sections =>
      match sections[shstrndx]?,sections.find? fun s => s.type = 2 with
      | some names,some symtab =>
        match sections[symtab.link]?,readTable (readSymbol bs) symtab.offset 24 (symtab.size / 24),
            sections.mapM fun s => readString bs (names.offset + s.name) (names.size - s.name) with
        | some strings,some symbols,some titles =>
          ((symbols.drop 1).mapM (resolve bs sections strings)).map (View.mk titles)
        | _,_,_ => none
      | _,_ => none

end Machismo.Data.Elf
