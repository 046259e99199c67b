import Machismo.GdbJit.SymFile

/-! # Reading the symbol file back

A reader of object files finds in the symbol file of an image exactly the symbols that are kept of it:
each with its name, its address and the space up to the next one.
-/
namespace Machismo.GdbJit
open A64 Data Loader Elf

variable {w : ElfWriter} {T : Tables}

theorem ewU8_eq (v : BitVec 8) : ewU8 v w = w ++ fieldBytes [(1,v.toNat)] := by simp [ewU8,fieldBytes]
theorem ewU16_eq (v : BitVec 16) : ewU16 v w = w ++ fieldBytes [(2,v.toNat)] := by simp [ewU16,fieldBytes]
theorem ewU32_eq (v : BitVec 32) : ewU32 v w = w ++ fieldBytes [(4,v.toNat)] := by simp [ewU32,fieldBytes]
theorem ewU64_eq (v : BitVec 64) : ewU64 v w = w ++ fieldBytes [(8,v.toNat)] := by simp [ewU64,fieldBytes]

theorem fieldBytes_append (fs gs : List (ℕ × ℕ)) : fieldBytes (fs ++ gs) = fieldBytes fs ++ fieldBytes gs :=
  List.flatMap_append

def ehdrFields (shdrOffset : BitVec 64) : List (ℕ × ℕ) :=
  [(4,0x464c457f),(1,2),(1,1),(1,1),(1,0),(8,0),(2,1),(2,183),(4,1),(8,0),(8,0),(8,shdrOffset.toNat),(4,0),(2,64),
    (2,0),(2,0),(2,64),(2,5),(2,4)]

theorem writeEhdr_eq (shdrOffset : BitVec 64) : writeEhdr shdrOffset w = w ++ fieldBytes (ehdrFields shdrOffset) := by
  have hmagic : (0x7f :: literal "ELF" : List Byte) = fieldBytes [(4,0x464c457f)] := by decide
  have hzero : (List.replicate 8 0 : List Byte) = fieldBytes [(8,0)] := by decide
  simp only [writeEhdr,ewBytes,ewZero,ewU8_eq,ewU16_eq,ewU32_eq,ewU64_eq,hmagic,hzero,List.append_assoc,
    ← fieldBytes_append]
  rfl

theorem writeShdr_eq (name type : BitVec 32) (flags addr offset size : BitVec 64) (link info : BitVec 32)
    (addralign entsize : BitVec 64) : writeShdr name type flags addr offset size link info addralign entsize w =
      w ++ fieldBytes (Section.fields ⟨name.toNat,type.toNat,flags.toNat,addr.toNat,offset.toNat,size.toNat,link.toNat,
        info.toNat,addralign.toNat,entsize.toNat⟩) := by
  simp only [writeShdr,ewU32_eq,ewU64_eq,List.append_assoc,← fieldBytes_append]
  rfl

def Tables.records (T : Tables) : List MachoSym → List Symbol
  | [] => []
  | sym :: rest =>
    ⟨sym.strtabOffset.toNat,0x12,0,1,(sym.addr - T.text).toNat,(T.funcSize sym rest).toNat⟩ :: T.records rest

theorem length_records (syms : List MachoSym) : (T.records syms).length = syms.length := by
  induction syms with
  | nil => rfl
  | cons sym rest ih => rw [Tables.records,List.length_cons,List.length_cons,ih]

theorem writeSymbols_eq (syms : List MachoSym) :
    T.writeSymbols syms w = w ++ (T.records syms).flatMap fun s => fieldBytes s.fields := by
  induction syms generalizing w with
  | nil => simp [Tables.writeSymbols,Tables.records]
  | cons sym rest ih =>
    rw [Tables.writeSymbols,ih]
    simp only [ewU8_eq,ewU16_eq,ewU32_eq,ewU64_eq,List.append_assoc,← fieldBytes_append,Tables.records,
      List.flatMap_cons]
    rfl

def Tables.sections (T : Tables) (symCount strtabSize : ℕ) : List Elf.Section :=
  let symtabSize := (1 + symCount)*24
  [⟨0,0,0,0,0,0,0,0,0,0⟩,⟨1,8,6,T.text.toNat,0,T.textSize.toNat,0,0,16,0⟩,⟨7,2,0,0,64,symtabSize,3,1,8,24⟩,
    ⟨15,3,0,0,64 + symtabSize,strtabSize,0,0,1,0⟩,⟨23,3,0,0,64 + symtabSize + strtabSize,shstrtab.length,0,0,1,0⟩]

theorem writeSections_eq {symCount strtabSize : ℕ} (h : 64 + (1 + symCount)*24 + strtabSize < 2^64) :
    T.writeSections symCount strtabSize w =
      w ++ (T.sections symCount strtabSize).flatMap fun s => fieldBytes s.fields := by
  have hzero : (List.replicate 64 0 : List Byte) = fieldBytes (Section.fields ⟨0,0,0,0,0,0,0,0,0,0⟩) := by decide
  have hnat : ∀ n, n ≤ 64 + (1 + symCount)*24 + strtabSize → (BitVec.ofNat 64 n).toNat = n :=
    fun n hn => Nat.mod_eq_of_lt (by omega)
  simp only [Tables.writeSections,Tables.sections,writeShdr_eq,ewZero,hzero,List.append_assoc,List.flatMap_cons,
    List.flatMap_nil,List.append_nil]
  rw [hnat _ (by omega),hnat _ (by omega),hnat _ (by omega),hnat _ (by omega)]
  rfl

def headerPart (symCount strtabSize : ℕ) : List Byte :=
  fieldBytes (ehdrFields (BitVec.ofNat 64 (shdrOffset symCount strtabSize)))

def Tables.symbols (T : Tables) (syms : List MachoSym) : List Symbol := ⟨0,0,0,0,0,0⟩ :: T.records syms

def symbolsPart (T : Tables) (syms : List MachoSym) : List Byte :=
  (T.symbols syms).flatMap fun s => fieldBytes s.fields

def padding (symCount strtabSize : ℕ) : List Byte :=
  List.replicate (shdrOffset symCount strtabSize - (64 + (1 + symCount)*24 + strtabSize + shstrtab.length)) 0

def sectionsPart (T : Tables) (symCount strtabSize : ℕ) : List Byte :=
  (T.sections symCount strtabSize).flatMap fun s => fieldBytes s.fields

theorem length_symbolBytes (s : Symbol) : (fieldBytes s.fields).length = 24 := by rw [length_fieldBytes]; rfl

theorem length_sectionBytes (s : Elf.Section) : (fieldBytes s.fields).length = 64 := by rw [length_fieldBytes]; rfl

theorem length_ehdrBytes (shdrOffset : BitVec 64) : (fieldBytes (ehdrFields shdrOffset)).length = 64 := by
  rw [length_fieldBytes]
  simp only [ehdrFields,List.map_cons,List.map_nil,List.sum_cons,List.sum_nil]
  rfl

theorem length_headerPart (symCount strtabSize : ℕ) : (headerPart symCount strtabSize).length = 64 :=
  length_ehdrBytes _

theorem length_symbolsPart (syms : List MachoSym) : (symbolsPart T syms).length = (1 + syms.length)*24 := by
  simp only [symbolsPart,List.length_flatMap,length_symbolBytes,Tables.symbols,List.map_cons,List.map_const',
    List.sum_cons,List.sum_replicate,length_records,smul_eq_mul,Nat.add_mul]

theorem length_shstrtab : shstrtab.length = 33 := rfl

theorem symFile_eq {strtab : ElfWriter} {syms : List MachoSym}
    (h : 64 + (1 + syms.length)*24 + strtab.length < 2^64) :
    T.symFile strtab syms = headerPart syms.length strtab.length ++ (symbolsPart T syms ++ (strtab ++ (shstrtab ++
      (padding syms.length strtab.length ++ sectionsPart T syms.length strtab.length)))) := by
  have hnull : (List.replicate 24 0 : List Byte) = fieldBytes (Symbol.fields ⟨0,0,0,0,0,0⟩) := by decide
  have hlen : ([] ++ fieldBytes (ehdrFields (BitVec.ofNat 64 (shdrOffset syms.length strtab.length))) ++
      fieldBytes (Symbol.fields ⟨0,0,0,0,0,0⟩) ++ (T.records syms).flatMap (fun s : Symbol => fieldBytes s.fields) ++
      strtab ++ shstrtab).length = 64 + (1 + syms.length)*24 + strtab.length + shstrtab.length := by
    have hheader := length_headerPart syms.length strtab.length
    have hsymbols := length_symbolsPart (T := T) syms
    rw [headerPart] at hheader
    rw [symbolsPart,Tables.symbols,List.flatMap_cons,List.length_append] at hsymbols
    simp only [List.nil_append,List.length_append,hheader]
    omega
  rw [Tables.symFile]
  simp only [writeEhdr_eq,ewZero,hnull,writeSymbols_eq,ewBytes,writeSections_eq h,ewPad]
  rw [hlen]
  simp only [List.nil_append,List.append_assoc,headerPart,symbolsPart,Tables.symbols,List.flatMap_cons,padding,
    sectionsPart,shdrOffset]
  rfl

theorem length_symFile {strtab : ElfWriter} {syms : List MachoSym}
    (h : 64 + (1 + syms.length)*24 + strtab.length < 2^64) :
    (T.symFile strtab syms).length = shdrOffset syms.length strtab.length + 5*64 := by
  have hsections : (sectionsPart T syms.length strtab.length).length = 5*64 := by
    have hcount : (T.sections syms.length strtab.length).length = 5 := rfl
    simp only [sectionsPart,List.length_flatMap,length_sectionBytes,List.map_const',List.sum_replicate,hcount,
      smul_eq_mul]
  rw [symFile_eq h]
  simp only [List.length_append,length_headerPart,length_symbolsPart,length_shstrtab,padding,List.length_replicate,
    hsections,shdrOffset]
  omega

theorem readString_within {before after s : List Byte} {k size : ℕ} (h : k + size ≤ s.length) :
    readString (before ++ (s ++ after)) (before.length + k) size = readString s k size := by
  have hdrop : ((before ++ (s ++ after)).drop (before.length + k)).take size = (s.drop k).take size := by
    rw [List.drop_length_add_append,List.drop_append_of_le_length (by omega),
      List.take_append_of_le_length (by rw [List.length_drop]; omega)]
  rw [readString,readString,hdrop]

theorem readHeader_eq {symCount strtabSize : ℕ} (h : shdrOffset symCount strtabSize < 2^64) (rest : List Byte) :
    readHeader (headerPart symCount strtabSize ++ rest) = some (shdrOffset symCount strtabSize,5,4) := by
  have hread := readFields_at [] rest
    (ehdrFields (BitVec.ofNat 64 (shdrOffset symCount strtabSize)))
  have hoff : (BitVec.ofNat 64 (shdrOffset symCount strtabSize)).toNat = shdrOffset symCount strtabSize :=
    Nat.mod_eq_of_lt h
  have hmod : shdrOffset symCount strtabSize % 256^8 = shdrOffset symCount strtabSize := Nat.mod_eq_of_lt h
  simp only [ehdrFields,List.map_cons,List.map_nil,hoff,hmod,List.nil_append,List.length_nil] at hread
  rw [readHeader,headerPart,ehdrFields,hoff,hread]
  rfl

theorem sections_fit {symCount strtabSize : ℕ} (h : 64 + (1 + symCount)*24 + strtabSize < 2^64) :
    ∀ s ∈ T.sections symCount strtabSize, FitsFields s.fields := by
  have htext := T.text.isLt
  have hsize := T.textSize.isLt
  have hwords : ∀ a b c d e f : ℕ, a < 256^4 → b < 256^8 → c < 256^8 → d < 256^8 → e < 256^4 → f < 256^4 →
      ∀ flags align ent type, flags < 256^8 → align < 256^8 → ent < 256^8 → type < 256^4 →
      FitsFields (Section.fields ⟨a,type,flags,b,c,d,e,f,align,ent⟩) := by
    intro a b c d e f ha hb hc hd he hf flags align ent type hflags halign hent htype
    simp only [FitsFields,Section.fields,List.forall_mem_cons,List.not_mem_nil,false_imp_iff,implies_true,and_true]
    exact ⟨ha,htype,hflags,hb,hc,hd,he,hf,halign,hent⟩
  simp only [Tables.sections,List.forall_mem_cons,List.not_mem_nil,false_imp_iff,implies_true,and_true,length_shstrtab]
  refine ⟨?_,?_,?_,?_,?_⟩
  all_goals
    apply hwords
    all_goals omega

theorem symbols_fit (syms : List MachoSym) : ∀ s ∈ T.symbols syms, FitsFields s.fields := by
  have hrecords : ∀ syms, ∀ s ∈ T.records syms, FitsFields s.fields := by
    intro syms
    induction syms with
    | nil => exact fun s hs => absurd hs List.not_mem_nil
    | cons sym rest ih =>
      rw [Tables.records,List.forall_mem_cons]
      refine ⟨?_,ih⟩
      simp only [FitsFields,Symbol.fields,List.forall_mem_cons,List.not_mem_nil,false_imp_iff,implies_true,and_true]
      exact ⟨sym.strtabOffset.isLt,by decide,by decide,by decide,BitVec.isLt _,BitVec.isLt _⟩
  rw [Tables.symbols,List.forall_mem_cons]
  refine ⟨?_,hrecords syms⟩
  simp only [FitsFields,Symbol.fields,List.forall_mem_cons,List.not_mem_nil,false_imp_iff,implies_true,and_true]
  decide

def sectionNames : List (List Byte) := [[],literal ".text",literal ".symtab",literal ".strtab",literal ".shstrtab"]

theorem readString_shstrtab :
    ([0,1,7,15,23].mapM fun k => readString shstrtab k (33 - k)) = some sectionNames := by decide

def symbolName (strtab : List Byte) (sym : MachoSym) : Option (List Byte) :=
  readString strtab sym.strtabOffset.toNat (strtab.length - sym.strtabOffset.toNat)

/-- Up to the next symbol or the end of the code, if that is no more than 1 MB; else one instruction. -/
def sizeUpTo (start stop : Addr) : BitVec 64 := if stop - start = 0 ∨ 0x100000 < stop - start then 4 else stop - start

def Tables.functions (T : Tables) : List (Addr × List Byte) → List Function
  | [] => []
  | [s] => [⟨s.2,s.1,sizeUpTo s.1 (T.text + T.textSize)⟩]
  | s :: next :: rest => ⟨s.2,s.1,sizeUpTo s.1 next.1⟩ :: T.functions (next :: rest)

theorem ofNat_add_sub (a b : Addr) : BitVec.ofNat 64 (b.toNat + (a - b).toNat) = a := by
  apply BitVec.eq_of_toNat_eq
  rw [BitVec.toNat_ofNat,BitVec.toNat_sub]
  have ha := a.isLt
  have hb := b.isLt
  omega

theorem resolve_records {file strtab : List Byte} {secs : List Elf.Section} {strings code : Elf.Section}
    (hcode : secs[1]? = some code) (haddr : code.addr = T.text.toNat) (hsize : strings.size = strtab.length)
    (hstrings : ∀ k, readString file (strings.offset + k) (strtab.length - k) = readString strtab k (strtab.length - k))
    {syms : List MachoSym} {named : List (Addr × List Byte)}
    (hnamed : List.Forall₂ (fun sym s => sym.addr = s.1 ∧ symbolName strtab sym = some s.2) syms named) :
    (T.records syms).mapM (resolve file secs strings) = some (T.functions named) := by
  induction hnamed with
  | nil => rfl
  | @cons sym s syms named hsym hrest ih =>
    obtain ⟨haddr',hname⟩ := hsym
    have hresolve : ∀ size : BitVec 64, resolve file secs strings
        ⟨sym.strtabOffset.toNat,0x12,0,1,(sym.addr - T.text).toNat,size.toNat⟩ = some ⟨s.2,s.1,size⟩ := by
      intro size
      rw [resolve,hcode,hsize,hstrings]
      change readString strtab _ _ = _ at hname
      rw [hname]
      simp only [haddr,ofNat_add_sub,haddr',BitVec.ofNat_toNat,BitVec.setWidth_eq]
    rw [Tables.records,List.mapM_cons,hresolve,ih]
    cases hrest with
    | nil => simp [Tables.functions,Tables.funcSize,sizeUpTo,haddr']
    | cons hnext _ => simp [Tables.functions,Tables.funcSize,sizeUpTo,haddr',hnext.1]

section Parts
variable {strtab : ElfWriter} {syms : List MachoSym}

theorem shdrOffset_bounds (symCount strtabSize : ℕ) :
    64 + (1 + symCount)*24 + strtabSize + 33 ≤ shdrOffset symCount strtabSize := by
  rw [shdrOffset,length_shstrtab]
  omega

theorem read_sections (hbound : shdrOffset syms.length strtab.length < 2^64) :
    readTable (readSection (T.symFile strtab syms)) (shdrOffset syms.length strtab.length) 64 5 =
      some (T.sections syms.length strtab.length) := by
  have hoff := shdrOffset_bounds syms.length strtab.length
  have hfit : ∀ s ∈ T.sections syms.length strtab.length, FitsFields s.fields := sections_fit (by omega)
  have hread := readTable_at (headerPart syms.length strtab.length ++ (symbolsPart T syms ++
    (strtab ++ (shstrtab ++ padding syms.length strtab.length)))) [] length_sectionBytes
    fun s hs => readSection_at (hfit s hs)
  have hbefore : (headerPart syms.length strtab.length ++ (symbolsPart T syms ++ (strtab ++ (shstrtab ++
      padding syms.length strtab.length)))).length = shdrOffset syms.length strtab.length := by
    simp only [List.length_append,length_headerPart,length_symbolsPart,length_shstrtab,padding,List.length_replicate]
    omega
  have hcount : (T.sections syms.length strtab.length).length = 5 := rfl
  rw [hbefore,hcount] at hread
  rw [symFile_eq (by omega)]
  simpa only [List.append_assoc,List.append_nil,sectionsPart] using hread

theorem read_symbols (hbound : shdrOffset syms.length strtab.length < 2^64) :
    readTable (readSymbol (T.symFile strtab syms)) 64 24 ((1 + syms.length)*24 / 24) = some (T.symbols syms) := by
  have hoff := shdrOffset_bounds syms.length strtab.length
  have hread := readTable_at (headerPart syms.length strtab.length)
    (strtab ++ (shstrtab ++ (padding syms.length strtab.length ++ sectionsPart T syms.length strtab.length)))
    length_symbolBytes fun s hs => readSymbol_at (symbols_fit (T := T) syms s hs)
  have hcount : (T.symbols syms).length = (1 + syms.length)*24 / 24 := by
    rw [Tables.symbols,List.length_cons,length_records]
    omega
  rw [length_headerPart,hcount] at hread
  rw [symFile_eq (by omega)]
  exact hread

theorem read_titles (hbound : shdrOffset syms.length strtab.length < 2^64) :
    (T.sections syms.length strtab.length).mapM (fun s => readString (T.symFile strtab syms)
      (64 + (1 + syms.length)*24 + strtab.length + s.name) (33 - s.name)) = some sectionNames := by
  have hoff := shdrOffset_bounds syms.length strtab.length
  have hbefore : (headerPart syms.length strtab.length ++ (symbolsPart T syms ++ strtab)).length =
      64 + (1 + syms.length)*24 + strtab.length := by
    simp only [List.length_append,length_headerPart,length_symbolsPart]
    omega
  have hfile : T.symFile strtab syms = headerPart syms.length strtab.length ++ (symbolsPart T syms ++ strtab) ++
      (shstrtab ++ (padding syms.length strtab.length ++ sectionsPart T syms.length strtab.length)) := by
    rw [symFile_eq (by omega)]
    simp only [List.append_assoc]
  have hone : ∀ k, k ≤ 33 → readString (T.symFile strtab syms) (64 + (1 + syms.length)*24 + strtab.length + k)
      (33 - k) = readString shstrtab k (33 - k) := by
    intro k hk
    rw [hfile,← hbefore,readString_within (by rw [length_shstrtab]; omega)]
  have hnames : (T.sections syms.length strtab.length).map Elf.Section.name = [0,1,7,15,23] := rfl
  have hmap := List.mapM_map (m := Option) (f := Elf.Section.name) (l := T.sections syms.length strtab.length)
    (g := fun k => readString (T.symFile strtab syms) (64 + (1 + syms.length)*24 + strtab.length + k) (33 - k))
  rw [hnames] at hmap
  rw [← readString_shstrtab]
  refine hmap.symm.trans ?_
  simp only [List.mapM_cons,List.mapM_nil,hone 0 (by decide),hone 1 (by decide),hone 7 (by decide),
    hone 15 (by decide),hone 23 (by decide)]

theorem read_strings (hbound : shdrOffset syms.length strtab.length < 2^64) (k : ℕ) :
    readString (T.symFile strtab syms) (64 + (1 + syms.length)*24 + k) (strtab.length - k) =
      readString strtab k (strtab.length - k) := by
  have hoff := shdrOffset_bounds syms.length strtab.length
  by_cases hk : k ≤ strtab.length
  · have hbefore : (headerPart syms.length strtab.length ++ symbolsPart T syms).length = 64 + (1 + syms.length)*24 := by
      rw [List.length_append,length_headerPart,length_symbolsPart]
    rw [symFile_eq (by omega),← List.append_assoc,← hbefore,readString_within (by omega)]
  · rw [Nat.sub_eq_zero_of_le (by omega)]
    simp [readString]

theorem read_symFile {named : List (Addr × List Byte)} (hbound : shdrOffset syms.length strtab.length < 2^64)
    (hnamed : List.Forall₂ (fun sym s => sym.addr = s.1 ∧ symbolName strtab sym = some s.2) syms named) :
    Elf.read (T.symFile strtab syms) = some ⟨sectionNames,T.functions named⟩ := by
  have hoff := shdrOffset_bounds syms.length strtab.length
  have hheader : readHeader (T.symFile strtab syms) = some (shdrOffset syms.length strtab.length,5,4) := by
    rw [symFile_eq (by omega)]
    exact readHeader_eq hbound _
  have hfind : (T.sections syms.length strtab.length).find? (fun s => s.type = 2) =
      some ⟨7,2,0,0,64,(1 + syms.length)*24,3,1,8,24⟩ := rfl
  have hresolve : (T.records syms).mapM (resolve (T.symFile strtab syms) (T.sections syms.length strtab.length)
      ⟨15,3,0,0,64 + (1 + syms.length)*24,strtab.length,0,0,1,0⟩) = some (T.functions named) :=
    resolve_records rfl rfl rfl (read_strings hbound) hnamed
  have hnames : (T.sections syms.length strtab.length)[4]? =
      some ⟨23,3,0,0,64 + (1 + syms.length)*24 + strtab.length,33,0,0,1,0⟩ := rfl
  have hstrings : (T.sections syms.length strtab.length)[3]? =
      some ⟨15,3,0,0,64 + (1 + syms.length)*24,strtab.length,0,0,1,0⟩ := rfl
  rw [Elf.read,hheader]
  dsimp only
  rw [read_sections hbound]
  dsimp only
  rw [hnames,hfind]
  dsimp only
  rw [hstrings,read_symbols hbound,read_titles hbound]
  dsimp only
  rw [Tables.symbols,List.drop_succ_cons,List.drop_zero,hresolve,Option.map_some]

end Parts

end Machismo.GdbJit
