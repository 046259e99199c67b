import Mathlib.Data.List.Pairwise
import Machismo.Loader.Segments

/-! # Thread-local variables

The loader keeps where the last section of initial values is, its size, and the size of the
last section of zeros.  The first time a thread comes to a variable, `_tlv_bootstrap` gives it
a block of the two sizes together, of a page at least, with the initial values at its front.
The variable's offset counts from the first of all these sections, padding included.
-/
namespace Machismo.Shim.Tlv
open A64 Trampoline Loader

/-- The three globals of the shim. -/
structure TlvImage where
  base : Addr
  size : BitVec 64
  bss : BitVec 64
deriving DecidableEq, Repr

def isRegular (sect : Section) : Bool := sect.flags &&& 0xff == 0x11
def isZerofill (sect : Section) : Bool := sect.flags &&& 0xff == 0x12

section Setup

def recordSection (slide : Addr) (tlv : TlvImage) (sect : Section) : TlvImage :=
  let tlv := if isRegular sect then { tlv with base := sect.addr+slide, size := sect.size } else tlv
  if isZerofill sect then { tlv with bss := sect.size } else tlv

def setupTlvImage (H : MachHeader) (slide : Addr) : TlvImage :=
  H.segments.foldl (fun tlv seg => seg.sections.foldl (recordSection slide) tlv) ⟨0,0,0⟩

end Setup

section Bootstrap

/-- A descriptor; a key of 0 has not been created. -/
structure Desc where
  key : ℕ
  offset : BitVec 64

abbrev Thread := ℕ

/-- The keys that were created, and the block each thread has for one. -/
structure Keys where
  created : ℕ
  specific : Thread → ℕ → Option (List Byte)

/-- `pthread_key_create`: no thread has a block for a new key. -/
def Keys.create (keys : Keys) : Keys :=
  ⟨keys.created+1,fun t k => if k = keys.created then none else keys.specific t k⟩

def Keys.set (keys : Keys) (t : Thread) (key : ℕ) (block : List Byte) : Keys :=
  { keys with specific := Function.update keys.specific t (Function.update (keys.specific t) key (some block)) }

def memcpy (block : List Byte) (mem : Memory) (base : Addr) (size : ℕ) : List Byte :=
  (List.range size).map (fun i => mem (base+BitVec.ofNat 64 i))++block.drop size

/-- The block of a thread that has none. -/
def newBlock (tlv : TlvImage) (mem : Memory) : List Byte :=
  let total := tlv.size+tlv.bss
  let total := if total < 4096 then 4096 else total
  let block := List.replicate total.toNat 0
  if tlv.base ≠ 0 ∧ 0 < tlv.size then memcpy block mem tlv.base tlv.size.toNat else block

/-- `_tlv_bootstrap`: a block and the place in it, with the descriptor and the keys as they are then. -/
def tlvBootstrap (tlv : TlvImage) (mem : Memory) (t : Thread) (desc : Desc) (keys : Keys) :
    (List Byte × ℕ) × Desc × Keys :=
  let (desc,keys) := if desc.key = 0 then ({ desc with key := keys.created+1 },keys.create) else (desc,keys)
  let key := desc.key-1
  match keys.specific t key with
  | some block => ((block,desc.offset.toNat),desc,keys)
  | none =>
    let block := newBlock tlv mem
    ((block,desc.offset.toNat),desc,keys.set t key block)

/-- The byte at a place of a block, so far from it. -/
def byteAt (p : List Byte × ℕ) (i : ℕ) : Option Byte := p.1[p.2+i]?

/-- The thread has not come to the variable before. -/
def FirstAccess (t : Thread) (desc : Desc) (keys : Keys) : Prop :=
  desc.key ≠ 0 → keys.specific t (desc.key-1) = none

theorem tlvBootstrap_first {t : Thread} {desc : Desc} {keys : Keys} (h : FirstAccess t desc keys) (tlv : TlvImage)
    (mem : Memory) : (tlvBootstrap tlv mem t desc keys).1 = (newBlock tlv mem,desc.offset.toNat) := by
  unfold tlvBootstrap
  by_cases hkey : desc.key = 0
  · simp [hkey,Keys.create]
  · simp [hkey,h hkey]

end Bootstrap

section Block

theorem getElem?_memcpy (block : List Byte) (mem : Memory) (base : Addr) (size i : ℕ) :
    (memcpy block mem base size)[i]? =
      if i < size then some (mem (base+BitVec.ofNat 64 i)) else block[i]? := by
  unfold memcpy
  split_ifs with hi
  · rw [List.getElem?_append_left (by simpa using hi),List.getElem?_map,List.getElem?_range hi,Option.map_some]
  · rw [List.getElem?_append_right (by simpa using hi),List.length_map,List.length_range,List.getElem?_drop]
    congr 1
    omega

def blockSize (tlv : TlvImage) : ℕ := max 4096 (tlv.size.toNat+tlv.bss.toNat)

theorem total_eq {tlv : TlvImage} (hsum : tlv.size.toNat+tlv.bss.toNat < 2^64) :
    (if tlv.size+tlv.bss < 4096 then 4096 else tlv.size+tlv.bss).toNat = blockSize tlv := by
  have hadd : (tlv.size+tlv.bss).toNat = tlv.size.toNat+tlv.bss.toNat := by
    rw [BitVec.toNat_add,Nat.mod_eq_of_lt hsum]
  unfold blockSize
  by_cases hlt : tlv.size+tlv.bss < 4096
  · rw [if_pos hlt]
    rw [BitVec.lt_def,hadd] at hlt
    exact (max_eq_left hlt.le).symm
  · rw [if_neg hlt,hadd]
    rw [BitVec.lt_def,hadd] at hlt
    exact (max_eq_right (not_lt.mp hlt)).symm

theorem getElem?_newBlock {tlv : TlvImage} (mem : Memory) (hsum : tlv.size.toNat+tlv.bss.toNat < 2^64)
    (hbase : 0 < tlv.size.toNat → tlv.base ≠ 0) (i : ℕ) :
    (newBlock tlv mem)[i]? =
      if i < tlv.size.toNat then some (mem (tlv.base+BitVec.ofNat 64 i))
      else if i < blockSize tlv then some 0 else none := by
  unfold newBlock
  dsimp only
  rw [total_eq hsum]
  by_cases hsize : 0 < tlv.size.toNat
  · rw [if_pos ⟨hbase hsize,by rwa [BitVec.lt_def]⟩,getElem?_memcpy,List.getElem?_replicate]
  · rw [if_neg fun h => hsize (by simpa [BitVec.lt_def] using h.2),List.getElem?_replicate,
      if_neg (fun h : i < tlv.size.toNat => hsize (by omega))]

end Block

section Setup
variable (slide : Addr)

def regulars (sections : List Section) : List Section := sections.filter isRegular
def zerofills (sections : List Section) : List Section := sections.filter isZerofill

/-- The last of the sections, where there are any. -/
def lastSize (sections : List Section) : ℕ := (sections.getLast?.map fun sect => sect.size.toNat).getD 0

theorem not_isZerofill {sect : Section} (h : isRegular sect = true) : isZerofill sect = false := by
  unfold isRegular isZerofill at *
  rw [beq_iff_eq] at h
  rw [h]
  decide

theorem recordSections (sections : List Section) :
    let tlv := sections.foldl (recordSection slide) ⟨0,0,0⟩
    tlv.size.toNat = lastSize (regulars sections) ∧ tlv.bss.toNat = lastSize (zerofills sections) ∧
      ∀ sect, (regulars sections).getLast? = some sect → tlv.base = sect.addr+slide := by
  induction sections using List.reverseRecOn with
  | nil => exact ⟨rfl,rfl,fun _ h => absurd h (by simp [regulars])⟩
  | append_singleton sections sect ih =>
    obtain ⟨hsize,hbss,hbase⟩ := ih
    dsimp only
    rw [List.foldl_append,List.foldl_cons,List.foldl_nil]
    simp only [regulars,zerofills,List.filter_append] at *
    by_cases hreg : isRegular sect = true
    · have hzero := not_isZerofill hreg
      simp only [recordSection,hreg,hzero,if_true,Bool.false_eq_true,if_false]
      exact ⟨by simp [lastSize,hreg],by simpa [hzero] using hbss,fun _ h => by simp [hreg] at h; rw [h]⟩
    · simp only [recordSection,hreg]
      by_cases hzero : isZerofill sect = true
      · rw [if_pos hzero]
        exact ⟨by simpa [hreg] using hsize,by simp [lastSize,hzero],fun s h => hbase s (by simpa [hreg] using h)⟩
      · rw [if_neg hzero]
        exact ⟨by simpa [hreg] using hsize,by simpa [hzero] using hbss,
          fun s h => hbase s (by simpa [hreg] using h)⟩

end Setup

section Layout

/-- The sections for threads, in the order of the commands. -/
def threadSections (H : MachHeader) : List Section :=
  (H.segments.flatMap SegmentCommand.sections).filter fun sect => isRegular sect || isZerofill sect

/-- A mapped image whose sections for threads come one after the other, with gaps as they are aligned. -/
structure Image where
  header : MachHeader
  slide : Addr
  sorted : (threadSections header).Pairwise fun sect sect' => sect.addr.toNat+sect.size.toNat ≤ sect'.addr.toNat
  below : ∀ sect ∈ threadSections header, sect.addr.toNat+sect.size.toNat < 2^64
  mapped : ∀ sect ∈ threadSections header, sect.addr+slide ≠ 0

namespace Image
variable (I : Image)

def sections : List Section := threadSections I.header

/-- The start of the first section. -/
def start : ℕ := (I.sections.head?.map fun sect => sect.addr.toNat).getD 0

def tlv : TlvImage := setupTlvImage I.header I.slide

def initial (mem : Memory) (sect : Section) (addr : ℕ) : Byte :=
  if isRegular sect then mem (BitVec.ofNat 64 addr+I.slide) else 0

/-- Whatever the sections hold, a thread that comes to a variable of one of them for the first time is given
memory of its own block for it, with what the variable holds at first. -/
def Serves : Prop :=
  ∀ (mem : Memory) (t : Thread) (key : ℕ) (keys : Keys), ∀ sect ∈ I.sections, ∀ addr size : ℕ,
    sect.addr.toNat ≤ addr → addr+size ≤ sect.addr.toNat+sect.size.toNat →
      FirstAccess t ⟨key,BitVec.ofNat 64 (addr-I.start)⟩ keys → ∀ i < size,
        byteAt (tlvBootstrap I.tlv mem t ⟨key,BitVec.ofNat 64 (addr-I.start)⟩ keys).1 i =
          some (I.initial mem sect (addr+i))

/-- No section ends behind the block, and one that is not empty and has initial values is the last such
section and starts where the first section does. -/
def Fits : Prop :=
  (∀ sect ∈ I.sections, 0 < sect.size.toNat → sect.addr.toNat+sect.size.toNat-I.start ≤
      max 4096 (lastSize (regulars I.sections)+lastSize (zerofills I.sections))) ∧
    ∀ sect ∈ I.sections, isRegular sect → 0 < sect.size.toNat →
      (regulars I.sections).getLast? = some sect ∧ sect.addr.toNat = I.start

section Facts
variable {I}

theorem regulars_threadSections (H : MachHeader) :
    regulars (threadSections H) = regulars (H.segments.flatMap SegmentCommand.sections) := by
  unfold regulars threadSections
  rw [List.filter_filter]
  congr 1
  funext sect
  cases isRegular sect <;> rfl

theorem zerofills_threadSections (H : MachHeader) :
    zerofills (threadSections H) = zerofills (H.segments.flatMap SegmentCommand.sections) := by
  unfold zerofills threadSections
  rw [List.filter_filter]
  congr 1
  funext sect
  cases isZerofill sect <;> simp

theorem tlv_spec :
    I.tlv.size.toNat = lastSize (regulars I.sections) ∧ I.tlv.bss.toNat = lastSize (zerofills I.sections) ∧
      ∀ sect, (regulars I.sections).getLast? = some sect → I.tlv.base = sect.addr+I.slide := by
  unfold tlv setupTlvImage sections
  rw [← List.foldl_flatMap,regulars_threadSections,zerofills_threadSections]
  exact recordSections I.slide _

theorem start_le {sect : Section} (h : sect ∈ I.sections) : I.start ≤ sect.addr.toNat := by
  have hsorted := I.sorted
  unfold start sections at *
  cases hlist : threadSections I.header with
  | nil => simp [hlist] at h
  | cons first rest =>
    rw [hlist] at h hsorted
    simp only [List.head?_cons,Option.map_some,Option.getD_some]
    rcases List.mem_cons.mp h with rfl | hmem
    · exact le_rfl
    · exact (Nat.le_add_right _ _).trans ((List.pairwise_cons.mp hsorted).1 sect hmem)

/-- One of the two lies before the other. -/
def Apart (sect sect' : Section) : Prop :=
  sect.addr.toNat+sect.size.toNat ≤ sect'.addr.toNat ∨ sect'.addr.toNat+sect'.size.toNat ≤ sect.addr.toNat

instance : Std.Symm Apart := ⟨fun _ _ => Or.symm⟩

theorem apart {sect sect' : Section} (h : sect ∈ I.sections) (h' : sect' ∈ I.sections) (hne : sect ≠ sect') :
    Apart sect sect' := by
  have hapart : I.sections.Pairwise Apart := I.sorted.imp Or.inl
  exact hapart.forall h h' hne

theorem mem_of_getLast? {sections : List Section} {sect : Section} {p : Section → Bool}
    (h : (sections.filter p).getLast? = some sect) : sect ∈ sections ∧ p sect = true :=
  List.mem_filter.mp (List.mem_of_getLast? h)

theorem lastSize_cases (sections : List Section) :
    lastSize sections = 0 ∨ ∃ sect, sections.getLast? = some sect ∧ lastSize sections = sect.size.toNat := by
  unfold lastSize
  cases hlast : sections.getLast? with
  | none => exact Or.inl rfl
  | some sect => exact Or.inr ⟨sect,rfl,rfl⟩

theorem sizes_lt : I.tlv.size.toNat+I.tlv.bss.toNat < 2^64 := by
  have hbss := I.tlv.bss.isLt
  have hsize := I.tlv.size.isLt
  obtain ⟨hreg,hzero,-⟩ := I.tlv_spec
  rcases lastSize_cases (regulars I.sections) with h0 | ⟨r,hr,hrsize⟩
  · omega
  rcases lastSize_cases (zerofills I.sections) with h0 | ⟨z,hz,hzsize⟩
  · omega
  obtain ⟨hrmem,hrreg⟩ := mem_of_getLast? hr
  obtain ⟨hzmem,hzzero⟩ := mem_of_getLast? hz
  have hne : r ≠ z := by
    rintro rfl
    exact absurd (hzzero.symm.trans (not_isZerofill hrreg)) (by decide)
  have hrbelow := I.below r hrmem
  have hzbelow := I.below z hzmem
  rcases I.apart hrmem hzmem hne with h | h <;> omega

theorem base_ne_zero (h : 0 < I.tlv.size.toNat) : I.tlv.base ≠ 0 := by
  obtain ⟨hreg,-,hbase⟩ := I.tlv_spec
  rcases lastSize_cases (regulars I.sections) with h0 | ⟨r,hr,-⟩
  · omega
  · rw [hbase r hr]
    exact I.mapped r (mem_of_getLast? hr).1

theorem access {t : Thread} {key offset : ℕ} {keys : Keys} (hoffset : offset < 2^64)
    (h : FirstAccess t ⟨key,BitVec.ofNat 64 offset⟩ keys) (mem : Memory) (i : ℕ) :
    byteAt (tlvBootstrap I.tlv mem t ⟨key,BitVec.ofNat 64 offset⟩ keys).1 i =
      if offset+i < I.tlv.size.toNat then some (mem (I.tlv.base+BitVec.ofNat 64 (offset+i)))
      else if offset+i < blockSize I.tlv then some 0 else none := by
  rw [tlvBootstrap_first h,byteAt]
  dsimp only
  rw [BitVec.toNat_ofNat,Nat.mod_eq_of_lt hoffset,getElem?_newBlock mem I.sizes_lt I.base_ne_zero]

end Facts

section Serves
variable {I}

/-- A byte that is found where another section starts is as far from the one as the offset says. -/
theorem addr_eq {r sect : Section} {offset : ℕ} (hr : r.addr.toNat+offset < 2^64)
    (h : r.addr+I.slide+BitVec.ofNat 64 offset = sect.addr+I.slide) : r.addr.toNat+offset = sect.addr.toNat := by
  rw [BitVec.add_assoc,BitVec.add_comm I.slide,← BitVec.add_assoc,BitVec.add_left_inj] at h
  have hnat := congrArg BitVec.toNat h
  rwa [BitVec.toNat_add,BitVec.toNat_ofNat,Nat.add_mod_mod,Nat.mod_eq_of_lt hr] at hnat

theorem Serves.within (h : I.Serves) {sect : Section} (hmem : sect ∈ I.sections) (hpos : 0 < sect.size.toNat) :
    sect.addr.toNat+sect.size.toNat-I.start ≤ blockSize I.tlv := by
  have hstart := I.start_le hmem
  have hbelow := I.below sect hmem
  have hfirst : FirstAccess 0 ⟨0,BitVec.ofNat 64 (sect.addr.toNat-I.start)⟩ ⟨0,fun _ _ => none⟩ := fun h => absurd rfl h
  have hbyte := h (fun _ => 0) 0 0 _ sect hmem sect.addr.toNat sect.size.toNat le_rfl le_rfl hfirst
    (sect.size.toNat-1) (by omega)
  rw [I.access (by omega) hfirst] at hbyte
  have hsize : I.tlv.size.toNat ≤ blockSize I.tlv := (Nat.le_add_right _ _).trans (le_max_right _ _)
  split_ifs at hbyte with h1 h2
  · omega
  · omega

/-- A section of initial values whose variables are served is the last one, and the first of all. -/
theorem Serves.regular (h : I.Serves) {sect : Section} (hmem : sect ∈ I.sections) (hreg : isRegular sect = true)
    (hpos : 0 < sect.size.toNat) :
    (regulars I.sections).getLast? = some sect ∧ sect.addr.toNat = I.start := by
  have hstart := I.start_le hmem
  have hbelow := I.below sect hmem
  have hfirst : FirstAccess 0 ⟨0,BitVec.ofNat 64 (sect.addr.toNat-I.start)⟩ ⟨0,fun _ _ => none⟩ := fun h => absurd rfl h
  -- memory that tells the first byte of the section from every other one
  have hbyte := h (fun a => if a = sect.addr+I.slide then 1 else 0) 0 0 _ sect hmem sect.addr.toNat sect.size.toNat
    le_rfl le_rfl hfirst 0 hpos
  rw [I.access (by omega) hfirst] at hbyte
  simp only [initial,hreg,if_true,Nat.add_zero,BitVec.ofNat_toNat,BitVec.setWidth_eq] at hbyte
  obtain ⟨hsize,-,hbase⟩ := I.tlv_spec
  by_cases hin : sect.addr.toNat-I.start < I.tlv.size.toNat
  · rw [if_pos hin] at hbyte
    have hplace : I.tlv.base+BitVec.ofNat 64 (sect.addr.toNat-I.start) = sect.addr+I.slide := by
      by_contra hne
      rw [if_neg hne] at hbyte
      exact absurd hbyte (by decide)
    obtain h0 | ⟨r,hr,hrsize⟩ := lastSize_cases (regulars I.sections)
    · omega
    have hrmem := (mem_of_getLast? hr).1
    have hrbelow := I.below r hrmem
    rw [hbase r hr] at hplace
    have haddr := I.addr_eq (by omega) hplace
    have hrstart := I.start_le hrmem
    have heq : r = sect := by
      by_contra hne
      rcases I.apart hrmem hmem hne with h | h <;> omega
    subst heq
    exact ⟨hr,by omega⟩
  · rw [if_neg hin] at hbyte
    split_ifs at hbyte
    exact absurd hbyte (by decide)

end Serves

section Fits
variable {I}

theorem blockSize_tlv :
    blockSize I.tlv = max 4096 (lastSize (regulars I.sections)+lastSize (zerofills I.sections)) := by
  obtain ⟨hreg,hzero,-⟩ := I.tlv_spec
  rw [blockSize,hreg,hzero]

theorem Fits.regular (h : I.Fits) {sect : Section} (hmem : sect ∈ I.sections) (hreg : isRegular sect = true)
    {addr : ℕ} (hlo : sect.addr.toNat ≤ addr) (hhi : addr < sect.addr.toNat+sect.size.toNat) :
    addr-I.start < I.tlv.size.toNat ∧
      I.tlv.base+BitVec.ofNat 64 (addr-I.start) = BitVec.ofNat 64 addr+I.slide := by
  obtain ⟨hlast,hstart⟩ := h.2 sect hmem hreg (by omega)
  obtain ⟨hsize,-,hbase⟩ := I.tlv_spec
  rw [lastSize,hlast,Option.map_some,Option.getD_some] at hsize
  refine ⟨by omega,?_⟩
  have haddr : sect.addr+BitVec.ofNat 64 (addr-I.start) = BitVec.ofNat 64 addr := by
    apply BitVec.eq_of_toNat_eq
    rw [BitVec.toNat_add,BitVec.toNat_ofNat,BitVec.toNat_ofNat,Nat.add_mod_mod]
    congr 1
    omega
  rw [hbase sect hlast,← haddr,BitVec.add_assoc,BitVec.add_comm I.slide,← BitVec.add_assoc]

theorem Fits.zerofill (h : I.Fits) {sect : Section} (hmem : sect ∈ I.sections) (hreg : ¬isRegular sect = true)
    {addr : ℕ} (hlo : sect.addr.toNat ≤ addr) (hhi : addr < sect.addr.toNat+sect.size.toNat) :
    ¬addr-I.start < I.tlv.size.toNat ∧ addr-I.start < blockSize I.tlv := by
  have hstart := I.start_le hmem
  have hend := h.1 sect hmem (by omega)
  rw [← I.blockSize_tlv] at hend
  refine ⟨fun hin => ?_,by omega⟩
  obtain ⟨hsize,-,-⟩ := I.tlv_spec
  obtain h0 | ⟨r,hr,hrsize⟩ := lastSize_cases (regulars I.sections)
  · omega
  obtain ⟨hrmem,hrreg⟩ := mem_of_getLast? hr
  obtain ⟨-,hrstart⟩ := h.2 r hrmem hrreg (by omega)
  have hne : r ≠ sect := by
    rintro rfl
    exact hreg hrreg
  rcases I.apart hrmem hmem hne with h | h <;> omega

end Fits

/-- The variables of an image are served exactly when its sections fit. -/
theorem tlv_served_iff : I.Serves ↔ I.Fits := by
  constructor
  · intro h
    refine ⟨fun sect hmem hpos => ?_,fun sect hmem hreg hpos => h.regular hmem hreg hpos⟩
    rw [← I.blockSize_tlv]
    exact h.within hmem hpos
  · intro h mem t key keys sect hmem addr size hlo hhi hfirst i hi
    have hbelow := I.below sect hmem
    have hstart := I.start_le hmem
    have hoffset : addr-I.start+i = addr+i-I.start := by omega
    rw [I.access (by omega) hfirst,hoffset,initial]
    by_cases hreg : isRegular sect = true
    · obtain ⟨hin,hplace⟩ := h.regular hmem hreg (show sect.addr.toNat ≤ addr+i by omega) (by omega)
      rw [if_pos hin,if_pos hreg,hplace]
    · obtain ⟨hout,hin⟩ := h.zerofill hmem hreg (show sect.addr.toNat ≤ addr+i by omega) (by omega)
      rw [if_neg hout,if_pos hin,if_neg hreg]

end Image

/-- Eight bytes of initial values, and two pages of zeros on the next page. -/
def padded : Image where
  header := ⟨216,[⟨216,some ⟨"__DATA".toList,0x4000,0x3000,0,8,3,3,[⟨0x4000,8,0x11⟩,⟨0x5000,0x2000,0x12⟩]⟩⟩]⟩
  slide := 0
  sorted := by decide
  below := by decide
  mapped := by decide

/-- The zeros end behind the block. -/
theorem padded_not_served : ¬padded.Serves := by
  intro h
  have hend := h.within (show (⟨0x5000,0x2000,0x12⟩ : Section) ∈ padded.sections by decide) (by decide)
  exact absurd hend (by decide)

end Layout

end Machismo.Shim.Tlv
