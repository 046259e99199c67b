import Mathlib
import Machismo.Data.Bytes

/-! # The cipher of the archives

Both tools carry the same generator and the same stream cipher: every other byte is xored
with the low byte of the next number.  The seed stands behind the text, xored with a
constant, so that the reader can start the generator where the writer did.
-/
namespace Machismo.Sgr
open Machismo.A64 (Byte)
open Machismo.Data

/-- `sx`, `sy`, `sz`, `sw`, `sv` -/
structure Rng where
  x : BitVec 32
  y : BitVec 32
  z : BitVec 32
  w : BitVec 32
  v : BitVec 32

def sugarSrand (seed : BitVec 32) : Rng :=
  ⟨seed,(seed >>> 1)+0x159a55e5#32,(seed >>> 3)+0x1f123bb5#32,(seed >>> 5)+0x05491333#32,
    (seed >>> 7)+0x34dad465#32⟩

def sugarRnd (g : Rng) : BitVec 32 × Rng :=
  let t := g.z
  let u := g.x ^^^ (g.x >>> 7)
  let v := u ^^^ (u <<< 13) ^^^ g.v ^^^ (g.v <<< 6)
  (v*((t <<< 1) ||| 1#32),⟨g.y,g.z,g.w,g.v,v⟩)

/-- Seeded, and the first few numbers thrown away. -/
def keyStart (seed : BitVec 32) : Rng :=
  let r := sugarRnd (sugarSrand seed)
  (fun g => (sugarRnd g).2)^[(r.1 &&& 0xf#32).toNat] r.2

/-- The loop over every other byte. -/
def xorEven (g : Rng) : List Byte → List Byte
  | [] => []
  | [b] => [b ^^^ (sugarRnd g).1.setWidth 8]
  | b :: c :: rest => (b ^^^ (sugarRnd g).1.setWidth 8) :: c :: xorEven (sugarRnd g).2 rest

def magic : BitVec 32 := 0x550f0f55#32

/-- `write_be32` and `write_be16`, the low bytes of a number, the highest first. -/
def writeBe32 (v : ℕ) : List Byte := (leBytes 4 v).reverse

def writeBe16 (v : ℕ) : List Byte := (leBytes 2 v).reverse

def readBe32 (bytes : List Byte) : ℕ := leNat (bytes.take 4).reverse

def readBe16 (bytes : List Byte) : ℕ := leNat (bytes.take 2).reverse

def encodeBuffer (bytes : List Byte) (seed : BitVec 32) : List Byte := xorEven (keyStart seed) bytes

/-- What the writer puts behind an encoded text. -/
def trailer (seed : BitVec 32) : List Byte := writeBe32 (seed ^^^ magic).toNat

def decodeBuffer (buffer : List Byte) : List Byte :=
  let dataLen := buffer.length-4
  let tail := BitVec.ofNat 32 (readBe32 (buffer.drop dataLen))
  xorEven (keyStart (tail ^^^ magic)) (buffer.take dataLen)++buffer.drop dataLen

@[simp] theorem length_writeBe32 (v : ℕ) : (writeBe32 v).length = 4 := by
  simp [writeBe32]

@[simp] theorem length_writeBe16 (v : ℕ) : (writeBe16 v).length = 2 := by
  simp [writeBe16]

@[simp] theorem length_trailer (seed : BitVec 32) : (trailer seed).length = 4 := length_writeBe32 _

theorem readBe32_writeBe32 (v : ℕ) (rest : List Byte) : readBe32 (writeBe32 v++rest) = v%2^32 := by
  have htake : (writeBe32 v++rest).take 4 = writeBe32 v := List.take_left' (length_writeBe32 v)
  rw [readBe32,htake,writeBe32,List.reverse_reverse,leNat_leBytes]
  norm_num

theorem readBe16_writeBe16 (v : ℕ) (rest : List Byte) : readBe16 (writeBe16 v++rest) = v%2^16 := by
  have htake : (writeBe16 v++rest).take 2 = writeBe16 v := List.take_left' (length_writeBe16 v)
  rw [readBe16,htake,writeBe16,List.reverse_reverse,leNat_leBytes]
  norm_num

@[simp] theorem length_xorEven (g : Rng) (bytes : List Byte) : (xorEven g bytes).length = bytes.length := by
  fun_induction xorEven g bytes with
  | case1 => rfl
  | case2 => rfl
  | case3 g b c rest ih => simp [ih]

theorem xorEven_xorEven (g : Rng) (bytes : List Byte) : xorEven g (xorEven g bytes) = bytes := by
  have hbyte : ∀ b k : Byte, b ^^^ k ^^^ k = b := by
    intro b k
    rw [BitVec.xor_assoc,BitVec.xor_self,BitVec.xor_zero]
  fun_induction xorEven g bytes with
  | case1 => rfl
  | case2 g b => simp only [xorEven,hbyte]
  | case3 g b c rest ih => simp only [xorEven,hbyte,ih]

@[simp] theorem length_encodeBuffer (bytes : List Byte) (seed : BitVec 32) :
    (encodeBuffer bytes seed).length = bytes.length := length_xorEven _ _

theorem decodeBuffer_encodeBuffer (bytes : List Byte) (seed : BitVec 32) :
    decodeBuffer (encodeBuffer bytes seed++trailer seed) = bytes++trailer seed := by
  have hlen : (encodeBuffer bytes seed++trailer seed).length-4 = (encodeBuffer bytes seed).length := by simp
  have hseed : BitVec.ofNat 32 (readBe32 (trailer seed)) = seed ^^^ magic := by
    have hread := readBe32_writeBe32 (seed ^^^ magic).toNat []
    rw [List.append_nil,Nat.mod_eq_of_lt (seed ^^^ magic).isLt] at hread
    rw [trailer,hread,BitVec.ofNat_toNat,BitVec.setWidth_eq]
  unfold decodeBuffer
  simp only [hlen,List.drop_left,List.take_left,hseed]
  rw [BitVec.xor_assoc,BitVec.xor_self,BitVec.xor_zero,encodeBuffer,xorEven_xorEven]

end Machismo.Sgr

/-! # Archives, written and read

`sgr_repack` puts the header strings and the entries one behind the other, compresses
them and encrypts the result; `sgr_extract` undoes that.  zlib is a parameter: it gives
back what was compressed wherever there is room for it.  A read beyond the end of the
bytes has no result.
-/
namespace Machismo.Sgr
open Machismo.A64 (Byte)
open Machismo.Data

structure Entry where
  name : List Byte
  type : Byte
  data : List Byte
deriving DecidableEq, Repr

structure Archive where
  title : List Byte
  dev : List Byte
  root : List Byte
  entries : List Entry
deriving DecidableEq, Repr

/-- `compress2` and `uncompress`, the latter into a buffer of the given size. -/
structure Zlib where
  compress : List Byte → List Byte
  uncompress : ℕ → List Byte → Option (List Byte)
  lossless : ∀ bytes n, bytes.length ≤ n → uncompress n (compress bytes) = some bytes
  bufferError : ∀ bytes n, n < bytes.length → uncompress n (compress bytes) = none

section Repack

def appendStr (s : List Byte) : List Byte := writeBe16 s.length++s.take (s.length%2^16)

/-- An entry's data encrypted, with its trailer. -/
def encData (data : List Byte) (seed : BitVec 32) : List Byte := encodeBuffer data seed++trailer seed

/-- What the loop of `sgr_repack` appends for an entry. -/
def entryBytes (e : Entry) (seed : BitVec 32) : List Byte :=
  appendStr e.name++[e.type]++writeBe32 (encData e.data seed).length++encData e.data seed

/-- The archive before it is compressed; each entry has the seed `rand` gave for it. -/
def archiveBytes (title dev root : List Byte) (entries : List (Entry × BitVec 32)) : List Byte :=
  appendStr title++appendStr dev++appendStr root++entries.flatMap fun e => entryBytes e.1 e.2

/-- The file `sgr_repack` writes. -/
def repackFile (zlib : Zlib) (title dev root : List Byte) (entries : List (Entry × BitVec 32))
    (seed : BitVec 32) : List Byte :=
  let archive := archiveBytes title dev root entries
  encodeBuffer (writeBe32 archive.length++zlib.compress archive) seed++trailer seed

end Repack

section Extract

def cstring (bytes : List Byte) : List Byte := bytes.takeWhile fun b => b != 0#8

/-- A header string: two bytes of length, of which a buffer of 256 bytes keeps the first 255. -/
def readHeader (bytes : List Byte) : Option (List Byte × List Byte) :=
  if bytes.length < 2+readBe16 bytes then none
  else some (cstring ((bytes.drop 2).take (min (readBe16 bytes) 255)),bytes.drop (2+readBe16 bytes))

/-- The data written for an entry: decrypted and without its trailer, or as it is when it is too short for one. -/
def entryData (stored : List Byte) : List Byte :=
  if 4 < stored.length then (decodeBuffer stored).take (stored.length-4) else stored

/-- The loop over the entries; `bytes` is what is left behind the position. -/
def readEntries (bytes : List Byte) : List Entry :=
  if bytes.length ≤ 7 then []
  else
    let nameLen := readBe16 bytes
    let body := bytes.drop 2
    if _h : nameLen = 0 ∨ 2000 < nameLen ∨ body.length < nameLen+5 then []
    else
      let after := body.drop nameLen
      let size := readBe32 (after.drop 1)
      let stored := after.drop 5
      if stored.length < size then []
      else ⟨cstring (body.take (min nameLen 4095)),after.headD 0#8,entryData (stored.take size)⟩ ::
        readEntries (stored.drop size)
termination_by bytes.length
decreasing_by
  simp only [List.length_drop]
  omega

/-- `sgr_extract` up to the files it writes. -/
def readArchive (zlib : Zlib) (file : List Byte) : Option Archive :=
  if file.length < 8 then none
  else
    let raw := decodeBuffer file
    (zlib.uncompress (readBe32 raw) ((raw.drop 4).take (raw.length-8))).bind fun dec =>
      (readHeader dec).bind fun title => (readHeader title.2).bind fun dev => (readHeader dev.2).bind fun root =>
        some ⟨title.1,dev.1,root.1,readEntries root.2⟩

end Extract

end Machismo.Sgr
