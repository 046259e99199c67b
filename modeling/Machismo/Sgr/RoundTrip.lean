import Machismo.Sgr.Archive

/-! # Reading back what was packed

The reader finds the header strings and the entries of a packed archive again, with one
exception: an entry without data is stored as its four-byte trailer, which the reader takes
for data that is too short to be encrypted.  A second limit is the four-byte size in front
of the compressed bytes.
-/
namespace Machismo.Sgr
open Machismo.A64 (Byte)
open Machismo.Data

/-- The strings the tools handle: no terminator inside. -/
def IsString (s : List Byte) : Prop := 0#8 ∉ s

theorem cstring_eq {s : List Byte} (h : IsString s) : cstring s = s :=
  List.takeWhile_eq_self_iff.mpr fun b hb => by simpa using fun e : b = 0#8 => h (e ▸ hb)

section Strings

theorem appendStr_eq {s : List Byte} (h : s.length < 2^16) : appendStr s = writeBe16 s.length++s := by
  rw [appendStr,Nat.mod_eq_of_lt h,List.take_length]

theorem readHeader_appendStr {s : List Byte} (hs : IsString s) (hlen : s.length ≤ 255) (rest : List Byte) :
    readHeader (appendStr s++rest) = some (s,rest) := by
  have hread : readBe16 (appendStr s++rest) = s.length := by
    rw [appendStr_eq (by omega),List.append_assoc,readBe16_writeBe16,Nat.mod_eq_of_lt (by omega)]
  have hdrop : (appendStr s++rest).drop 2 = s++rest := by
    rw [appendStr_eq (by omega),List.append_assoc]
    exact List.drop_left' (length_writeBe16 _)
  have hall : (appendStr s++rest).drop (2+s.length) = rest := by
    rw [← List.drop_drop,hdrop,List.drop_left]
  have hlong : ¬(appendStr s++rest).length < 2+s.length := by
    rw [appendStr_eq (by omega)]
    simp only [List.length_append,length_writeBe16]
    omega
  rw [readHeader,hread,if_neg hlong,hdrop,hall,min_eq_left hlen,List.take_left,cstring_eq hs]

end Strings

section Entries

/-- An entry as the reader finds it. -/
def asRead (e : Entry) (seed : BitVec 32) : Entry :=
  if e.data = [] then { e with data := trailer seed } else e

theorem asRead_eq_iff (e : Entry) (seed : BitVec 32) : asRead e seed = e ↔ e.data ≠ [] := by
  unfold asRead
  split
  · rename_i h
    simp only [h,ne_eq,not_true_eq_false,iff_false]
    intro heq
    have hdata : trailer seed = [] := (congrArg Entry.data heq).trans h
    have hlen := length_trailer seed
    rw [hdata] at hlen
    exact absurd hlen (by simp)
  · rename_i h
    simp [h]

@[simp] theorem length_encData (data : List Byte) (seed : BitVec 32) : (encData data seed).length = data.length+4 := by
  simp [encData]

/-- What is stored for an entry is read as its data, or as the trailer when there is none. -/
theorem entryData_encData (data : List Byte) (seed : BitVec 32) :
    entryData (encData data seed) = if data = [] then trailer seed else data := by
  unfold entryData
  rw [length_encData]
  split_ifs with hlong hnil hnil
  · exact absurd hlong (by simp [hnil])
  · rw [encData,decodeBuffer_encodeBuffer,Nat.add_sub_cancel,List.take_left]
  · rw [encData,hnil]
    rfl
  · have hpos := List.length_pos_of_ne_nil hnil
    omega

/-- A name that an entry can be stored under and read again: not empty, at most 511 bytes, no terminator. -/
def GoodName (name : List Byte) : Prop := name ≠ [] ∧ name.length ≤ 511 ∧ IsString name

theorem length_entryBytes {e : Entry} (hname : GoodName e.name) (seed : BitVec 32) :
    (entryBytes e seed).length = e.name.length+e.data.length+11 := by
  have hlen := hname.2.1
  rw [entryBytes,appendStr_eq (by omega)]
  simp only [List.length_append,length_writeBe16,length_writeBe32,length_encData,List.length_singleton]
  omega

theorem readEntries_entryBytes {e : Entry} {seed : BitVec 32} (hname : GoodName e.name)
    (hdata : e.data.length+4 < 2^32) (rest : List Byte) :
    readEntries (entryBytes e seed++rest) = asRead e seed :: readEntries rest := by
  obtain ⟨hne,hlen,hstr⟩ := hname
  have hpos := List.length_pos_of_ne_nil hne
  have hbytes : entryBytes e seed++rest = writeBe16 e.name.length++
      (e.name++(e.type :: (writeBe32 (encData e.data seed).length++(encData e.data seed++rest)))) := by
    rw [entryBytes,appendStr_eq (by omega)]
    simp
  have hnameLen : readBe16 (entryBytes e seed++rest) = e.name.length := by
    rw [hbytes,readBe16_writeBe16,Nat.mod_eq_of_lt (by omega)]
  have hbody : (entryBytes e seed++rest).drop 2 =
      e.name++(e.type :: (writeBe32 (encData e.data seed).length++(encData e.data seed++rest))) := by
    rw [hbytes]
    exact List.drop_left' (length_writeBe16 _)
  have hlong : ¬(entryBytes e seed++rest).length ≤ 7 := by
    rw [List.length_append,length_entryBytes ⟨hne,hlen,hstr⟩]
    omega
  have hfits : ¬(e.name.length = 0 ∨ 2000 < e.name.length ∨
      (e.name++(e.type :: (writeBe32 (encData e.data seed).length++(encData e.data seed++rest)))).length <
        e.name.length+5) := by
    simp only [List.length_append,List.length_cons,length_writeBe32]
    omega
  have hstored : (e.type :: (writeBe32 (encData e.data seed).length++(encData e.data seed++rest))).drop 5 =
      encData e.data seed++rest := by
    rw [List.drop_succ_cons]
    exact List.drop_left' (length_writeBe32 _)
  have hsize : readBe32 (writeBe32 (encData e.data seed).length++(encData e.data seed++rest)) =
      (encData e.data seed).length := by
    rw [readBe32_writeBe32,Nat.mod_eq_of_lt (by rw [length_encData]; omega)]
  have henough : ¬(encData e.data seed++rest).length < (encData e.data seed).length := by
    rw [List.length_append]
    omega
  rw [readEntries,if_neg hlong]
  simp only [hnameLen,hbody,dif_neg hfits,List.drop_left,List.drop_succ_cons,List.drop_zero,hsize,hstored]
  rw [if_neg henough,min_eq_left (by omega),List.take_left,List.take_left,cstring_eq hstr,entryData_encData,
    List.headD_cons]
  congr 1
  unfold asRead
  split <;> rfl

theorem readEntries_flatMap (entries : List (Entry × BitVec 32)) (hnames : ∀ e ∈ entries, GoodName e.1.name)
    (hdata : ∀ e ∈ entries, e.1.data.length+4 < 2^32) :
    readEntries (entries.flatMap fun e => entryBytes e.1 e.2) = entries.map fun e => asRead e.1 e.2 := by
  induction entries with
  | nil => rw [List.flatMap_nil,readEntries]; rfl
  | cons e entries ih =>
    rw [List.flatMap_cons,readEntries_entryBytes (hnames e (by simp)) (hdata e (by simp)),
      ih (fun e he => hnames e (by simp [he])) (fun e he => hdata e (by simp [he])),List.map_cons]

end Entries

section Files

/-- How many bytes the entries and the header strings come to before they are compressed. -/
def archiveSize (title dev root : List Byte) (entries : List (Entry × BitVec 32)) : ℕ :=
  6+title.length+dev.length+root.length+
    (entries.map fun e => e.1.name.length+e.1.data.length+11).sum

variable {title dev root : List Byte} {entries : List (Entry × BitVec 32)}

/-- A header string that the reader's 256 bytes take whole. -/
def GoodString (s : List Byte) : Prop := s.length ≤ 255 ∧ IsString s

theorem length_appendStr {s : List Byte} (h : s.length < 2^16) : (appendStr s).length = s.length+2 := by
  rw [appendStr_eq h,List.length_append,length_writeBe16,Nat.add_comm]

theorem length_archiveBytes (ht : GoodString title) (hd : GoodString dev) (hr : GoodString root)
    (hnames : ∀ e ∈ entries, GoodName e.1.name) :
    (archiveBytes title dev root entries).length = archiveSize title dev root entries := by
  have hentries : (entries.flatMap fun e => entryBytes e.1 e.2).length =
      (entries.map fun e => e.1.name.length+e.1.data.length+11).sum := by
    rw [List.length_flatMap]
    exact congrArg List.sum (List.map_congr_left fun e he => length_entryBytes (hnames e he) e.2)
  have := ht.1
  have := hd.1
  have := hr.1
  simp only [archiveBytes,archiveSize,List.length_append,hentries,length_appendStr (s := title) (by omega),
    length_appendStr (s := dev) (by omega),length_appendStr (s := root) (by omega)]
  omega

theorem data_lt_archiveSize (title dev root : List Byte) {e : Entry × BitVec 32} (he : e ∈ entries) :
    e.1.data.length+4 < archiveSize title dev root entries := by
  have hmem : e.1.name.length+e.1.data.length+11 ∈ entries.map fun e => e.1.name.length+e.1.data.length+11 :=
    List.mem_map.mpr ⟨e,he,rfl⟩
  have hle := List.le_sum_of_mem hmem
  unfold archiveSize
  omega

/-- The outer layer: what the reader decompresses is the archive, if its size fits four bytes. -/
theorem readArchive_repackFile (zlib : Zlib) (seed : BitVec 32) :
    readArchive zlib (repackFile zlib title dev root entries seed) =
      (zlib.uncompress ((archiveBytes title dev root entries).length%2^32)
        (zlib.compress (archiveBytes title dev root entries))).bind fun dec =>
      (readHeader dec).bind fun title => (readHeader title.2).bind fun dev => (readHeader dev.2).bind fun root =>
        some ⟨title.1,dev.1,root.1,readEntries root.2⟩ := by
  generalize hb : archiveBytes title dev root entries = bytes
  have hfile : repackFile zlib title dev root entries seed =
      encodeBuffer (writeBe32 bytes.length++zlib.compress bytes) seed++trailer seed := by
    rw [repackFile,hb]
  have hlong : ¬(repackFile zlib title dev root entries seed).length < 8 := by
    rw [hfile]
    simp only [List.length_append,length_encodeBuffer,length_writeBe32,length_trailer]
    omega
  have hraw : decodeBuffer (repackFile zlib title dev root entries seed) =
      writeBe32 bytes.length++(zlib.compress bytes++trailer seed) := by
    rw [hfile,decodeBuffer_encodeBuffer,List.append_assoc]
  have hdrop : (writeBe32 bytes.length++(zlib.compress bytes++trailer seed)).drop 4 =
      zlib.compress bytes++trailer seed := List.drop_left' (length_writeBe32 _)
  have hlen : (writeBe32 bytes.length++(zlib.compress bytes++trailer seed)).length-8 =
      (zlib.compress bytes).length := by
    simp only [List.length_append,length_writeBe32,length_trailer]
    omega
  rw [readArchive,if_neg hlong]
  simp only [hraw,readBe32_writeBe32,hdrop,hlen,List.take_left]

/-- While the size fits four bytes, the archive comes back with its entries as they are read. -/
theorem readArchive_asRead (zlib : Zlib) (ht : GoodString title) (hd : GoodString dev) (hr : GoodString root)
    (hnames : ∀ e ∈ entries, GoodName e.1.name) (hfits : archiveSize title dev root entries < 2^32)
    (seed : BitVec 32) :
    readArchive zlib (repackFile zlib title dev root entries seed) =
      some ⟨title,dev,root,entries.map fun e => asRead e.1 e.2⟩ := by
  have hsize := length_archiveBytes ht hd hr hnames
  have hparts : archiveBytes title dev root entries = appendStr title++(appendStr dev++(appendStr root++
      entries.flatMap fun e => entryBytes e.1 e.2)) := by
    simp [archiveBytes]
  have hentries := readEntries_flatMap entries hnames fun e he =>
    (data_lt_archiveSize title dev root he).trans hfits
  rw [readArchive_repackFile,zlib.lossless _ _ (by rw [Nat.mod_eq_of_lt (by omega)]),hparts]
  simp only [Option.bind_some,readHeader_appendStr ht.2 ht.1,readHeader_appendStr hd.2 hd.1,
    readHeader_appendStr hr.2 hr.1,hentries]

/-- Parsing a packed file gives the archive back exactly when no entry is empty and the size fits four bytes. -/
theorem read_repack_iff (zlib : Zlib) (ht : GoodString title) (hd : GoodString dev) (hr : GoodString root)
    (hnames : ∀ e ∈ entries, GoodName e.1.name) (seed : BitVec 32) :
    readArchive zlib (repackFile zlib title dev root entries seed) =
        some ⟨title,dev,root,entries.map Prod.fst⟩ ↔
      (∀ e ∈ entries, e.1.data ≠ []) ∧ archiveSize title dev root entries < 2^32 := by
  by_cases hfits : archiveSize title dev root entries < 2^32
  · rw [readArchive_asRead zlib ht hd hr hnames hfits]
    simp only [hfits,and_true,Option.some.injEq,Archive.mk.injEq,true_and,List.map_inj_left]
    exact forall₂_congr fun e _ => asRead_eq_iff e.1 e.2
  · -- the size in front of the compressed bytes is cut, and there is not room enough
    have hsize := length_archiveBytes ht hd hr hnames
    have hmod : (archiveBytes title dev root entries).length%2^32 < (archiveBytes title dev root entries).length := by
      omega
    rw [readArchive_repackFile,zlib.bufferError _ _ hmod]
    exact iff_of_false (by simp) fun h => hfits h.2

/-- A compressor that stores its input. -/
def storedZlib : Zlib where
  compress bytes := bytes
  uncompress n bytes := if bytes.length ≤ n then some bytes else none
  lossless _ _ h := if_pos h
  bufferError _ _ h := if_neg (by omega)

/-- One entry of two bytes comes back. -/
theorem read_repack_two_bytes :
    readArchive storedZlib (repackFile storedZlib [84#8] [] [] [(⟨[97#8],102#8,[1#8,2#8]⟩,7#32)] 9#32) =
      some ⟨[84#8],[],[],[⟨[97#8],102#8,[1#8,2#8]⟩]⟩ := by
  refine (read_repack_iff storedZlib ?_ ?_ ?_ ?_ 9#32).mpr ?_
  · exact ⟨by simp,by simp [IsString]⟩
  · exact ⟨by simp,by simp [IsString]⟩
  · exact ⟨by simp,by simp [IsString]⟩
  · simp [GoodName,IsString]
  · simp [archiveSize]

/-- An entry without data comes back with the four bytes of its trailer. -/
theorem read_repack_empty_entry :
    ¬readArchive storedZlib (repackFile storedZlib [] [] [] [(⟨[97#8],102#8,[]⟩,0#32)] 0#32) =
      some ⟨[],[],[],[⟨[97#8],102#8,[]⟩]⟩ := by
  have hgood : GoodString [] := ⟨by simp,by simp [IsString]⟩
  rw [readArchive_asRead storedZlib hgood hgood hgood (by simp [GoodName,IsString]) (by simp [archiveSize]) 0#32]
  simp [asRead,trailer,writeBe32,leBytes]

end Files

end Machismo.Sgr
