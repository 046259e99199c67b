import Machismo.EhFrame.Register
import Mathlib.Data.List.GetD

/-! # The capacity of the buffer

The buffer has 80 bytes for each entry and 4096 more. An entry takes fewer bytes in most cases, but 88 with
an LSDA, four pairs of D registers and four or five pairs of X registers. So the writes stay inside exactly
as long as such entries are made up for by smaller ones and the bytes in reserve.
-/
namespace Machismo.EhFrame
open A64 (Byte)
open Data Dwarf

def sectionSize (I : Image) : ℕ :=
  24 + (I.personalities.map cieSize).sum + ((firstEntries I.info).map (CuEntry.fdeSize I.base)).sum + 4

theorem pos_emitSection (I : Image) :
    (emitSection I.base I.personalities (setSizes (sortEntries (firstEntries I.info)))).pos = sectionSize I := by
  obtain ⟨-,-,hpos⟩ := emitSection_spec I.base I.personalities (setSizes (sortEntries (firstEntries I.info)))
  rw [hpos, map_setSizes fun _ _ => rfl, ((sortEntries_perm (firstEntries I.info)).map _).sum_nat]
  rfl

theorem written_lt_iff (I : Image) (cap : ℕ) :
    (∀ i ∈ (emitSection I.base I.personalities (setSizes (sortEntries (firstEntries I.info)))).written, i < cap) ↔
      sectionSize I ≤ cap := by
  obtain ⟨-,hwritten,-⟩ := emitSection_spec I.base I.personalities (setSizes (sortEntries (firstEntries I.info)))
  simp only [hwritten, pos_emitSection]
  constructor
  · intro h
    have hpos : sectionSize I = sectionSize I - 1 + 1 := by
      unfold sectionSize
      omega
    have := h (sectionSize I - 1) (by omega)
    omega
  · intro h i hi
    omega

/-- Every write is below the capacity exactly if the sizes of the CIEs, of the collected entries that are not
skipped and of the terminator add up to no more. -/
theorem written_within_capacity_iff {I : Image} {cap : ℕ} {s : Ehf} (h : ehFrameRegisterMacho I = some (cap,s)) :
    (∀ i ∈ s.written, i < cap) ↔
      24 + (I.personalities.map cieSize).sum + ((firstEntries I.info).map (CuEntry.fdeSize I.base)).sum + 4 ≤
        80*(firstEntries I.info).length + 4096 := by
  obtain ⟨hversion,hcount,hne⟩ := ehFrameRegisterMacho_some h
  rw [ehFrameRegisterMacho_eq hversion hcount hne] at h
  cases h
  rw [written_lt_iff, sectionSize, ehfCapacity, Nat.mul_comm 80]

/-- A section with one regular page, whose only entry is a function with a frame pointer. -/
def oneFunction : Image where
  base := 0x100000000
  info := {
    bytes := fun x => ((List.map (leBytes 4) [1,28,0,28,0,28,2,0x1000,52,68,0x2000,0,68,2,0x10008,0x1000,
      0x04000000]).flatten).getD x 0
    size := 68 }
  got := fun _ => 0

theorem oneFunction_fits : ∃ cap s, ehFrameRegisterMacho oneFunction = some (cap,s) ∧ ∀ i ∈ s.written, i < cap := by
  have h := ehFrameRegisterMacho_eq (I := oneFunction) rfl (by decide) (by decide)
  exact ⟨_,_,h,(written_within_capacity_iff h).mpr (by decide)⟩

/-- One page of 505 functions with a personality, an LSDA and all pairs of registers. -/
def wideFrames : Image where
  base := 0x100000000
  info := {
    bytes := fun x =>
      if x < 64 then ((List.map (leBytes 4)
        [1,28,0,28,1,32,2,0x8000,0x1000,56,4104,0x9000,0,8144,2,0x1F90008]).flatten).getD x 0
      else if x < 4104 then (leBytes 4 (0x1000 + 64*((x-64)/8)) ++ leBytes 4 0x54000F1F).getD ((x-64) % 8) 0
      else (leBytes 4 (0x1000 + 64*((x-4104)/8)) ++ leBytes 4 (0x10000 + 16*((x-4104)/8))).getD ((x-4104) % 8) 0
    size := 8144 }
  got := fun _ => 0x7f0000001000

theorem u32_of_bytes {u : UnwindInfo} {off v : ℕ} (h : ∀ j < 4, u.bytes (off + j) = (leBytes 4 v).getD j 0) :
    u.u32 off = BitVec.ofNat 32 v := by
  have hbytes : bytesFrom u.bytes off 4 = leBytes 4 v := by
    apply List.ext_getElem (by simp)
    intro j hj hj'
    rw [length_bytesFrom] at hj
    simp only [bytesFrom, List.getElem_map, List.getElem_range, h j hj]
    exact List.getD_eq_getElem _ _ hj'
  rw [UnwindInfo.u32, hbytes, leNat_leBytes]
  apply BitVec.eq_of_toNat_eq
  rw [BitVec.toNat_ofNat, BitVec.toNat_ofNat]
  omega

theorem u32_of_record {u : UnwindInfo} {off v w : ℕ}
    (h : ∀ j < 8, u.bytes (off + j) = (leBytes 4 v ++ leBytes 4 w).getD j 0) :
    u.u32 off = BitVec.ofNat 32 v ∧ u.u32 (off + 4) = BitVec.ofNat 32 w := by
  constructor
  · refine u32_of_bytes fun j hj => ?_
    rw [h j (by omega), List.getD_append _ _ _ _ (by simpa using hj)]
  · refine u32_of_bytes fun j hj => ?_
    rw [Nat.add_assoc, h (4+j) (by omega), List.getD_append_right _ _ _ _ (by simp), length_leBytes,
      Nat.add_sub_cancel_left]

section WideFrames
variable {i : ℕ} (hi : i < 505)
include hi

theorem wideFrames_entry : wideFrames.info.u32 (64 + 8*i) = BitVec.ofNat 32 (0x1000 + 64*i) ∧
    wideFrames.info.u32 (64 + 8*i + 4) = BitVec.ofNat 32 0x54000F1F := by
  refine u32_of_record fun j hj => ?_
  have hdiv : (64 + 8*i + j - 64)/8 = i := by omega
  have hmod : (64 + 8*i + j - 64) % 8 = j := by omega
  simp only [wideFrames]
  rw [if_neg (by omega), if_pos (by omega), hdiv, hmod]

omit hi in
theorem wideFrames_lsda (i : ℕ) : wideFrames.info.u32 (4104 + 8*i) = BitVec.ofNat 32 (0x1000 + 64*i) ∧
    wideFrames.info.u32 (4104 + 8*i + 4) = BitVec.ofNat 32 (0x10000 + 16*i) := by
  refine u32_of_record fun j hj => ?_
  have hdiv : (4104 + 8*i + j - 4104)/8 = i := by omega
  have hmod : (4104 + 8*i + j - 4104) % 8 = j := by omega
  simp only [wideFrames]
  rw [if_neg (by omega), if_neg (by omega), hdiv, hmod]

theorem wideFrames_lsdaOffset :
    lsdaOffset wideFrames.info 0 (BitVec.ofNat 32 (0x1000 + 64*i)) (BitVec.ofNat 32 0x54000F1F) =
      BitVec.ofNat 32 (0x10000 + 16*i) := by
  have hstart : (wideFrames.info.index 0).lsdaIndexArraySectionOffset.toNat = 4104 := by decide
  have hcount : wideFrames.info.lsdaCount 0 = 505 := by decide
  have hflag : BitVec.ofNat 32 0x54000F1F &&& unwindHasLsda ≠ 0 := by decide
  rw [lsdaOffset, if_pos hflag, hstart, hcount, lsdaSearch_eq le_rfl ⟨by omega,by omega⟩ (by omega)
    (wideFrames_lsda i).1 ?_]
  · exact (wideFrames_lsda i).2
  · intro k j hkj hj
    rw [(wideFrames_lsda k).1, (wideFrames_lsda j).1, BitVec.lt_def, BitVec.toNat_ofNat, BitVec.toNat_ofNat]
    omega

theorem wideFrames_pageEntry : pageEntry wideFrames.info 0 i =
    ⟨BitVec.ofNat 32 (0x1000 + 64*i),0,BitVec.ofNat 32 0x54000F1F,BitVec.ofNat 32 (0x10000 + 16*i)⟩ := by
  have hkind : wideFrames.info.pageKind 0 = some unwindSecondLevelRegular := by decide
  have hpage : (wideFrames.info.index 0).secondLevelPagesSectionOffset.toNat = 56 := by decide
  have hentries : (wideFrames.info.u16 (56+4)).toNat = 8 := by decide
  rw [pageEntry, if_neg (by rw [hkind]; decide), regularEntry, hpage, hentries, (wideFrames_entry hi).1,
    (wideFrames_entry hi).2, wideFrames_lsdaOffset hi]

theorem wideFrames_fdeSize : (pageEntry wideFrames.info 0 i).fdeSize wideFrames.base = 88 := by
  rw [wideFrames_pageEntry hi]
  have hoff : (BitVec.ofNat 32 (0x10000 + 16*i)).toNat = 0x10000 + 16*i := by
    rw [BitVec.toNat_ofNat]
    omega
  have hlsda : (⟨BitVec.ofNat 32 (0x1000 + 64*i),0,BitVec.ofNat 32 0x54000F1F,BitVec.ofNat 32 (0x10000 + 16*i)⟩ :
      CuEntry).lsdaAddr wideFrames.base ≠ 0 := by
    have hne : BitVec.ofNat 32 (0x10000 + 16*i) ≠ 0 := by
      intro h
      have hzero : (0 : BitVec 32).toNat = 0 := rfl
      rw [h, hzero] at hoff
      omega
    have hflag : BitVec.ofNat 32 0x54000F1F &&& unwindHasLsda ≠ 0 := by decide
    have hbase : wideFrames.base.toNat = 0x100000000 := rfl
    rw [CuEntry.lsdaAddr, if_pos ⟨hflag,hne⟩]
    intro h
    have hnat := congrArg BitVec.toNat h
    rw [BitVec.toNat_add, BitVec.toNat_setWidth, hoff, hbase] at hnat
    simp at hnat
    omega
  have hskip : ∀ off size lsda, (⟨off,size,BitVec.ofNat 32 0x54000F1F,lsda⟩ : CuEntry).skipped = false := by
    have hneither : ¬(BitVec.ofNat 32 0x54000F1F &&& unwindArm64ModeMask = unwindArm64ModeDwarf ∨
        BitVec.ofNat 32 0x54000F1F &&& unwindIsNotFunctionStart ≠ 0) := by decide
    exact fun _ _ _ => decide_eq_false hneither
  have hmode : BitVec.ofNat 32 0x54000F1F &&& unwindArm64ModeMask = unwindArm64ModeFrame := by decide
  have hx : (xRegs (BitVec.ofNat 32 0x54000F1F)).length = 10 := by decide
  have hd : (dRegs (BitVec.ofNat 32 0x54000F1F)).length = 8 := by decide
  rw [CuEntry.fdeSize, if_neg hlsda, hskip, CuEntry.mode, if_neg Bool.false_ne_true, if_pos hmode, hx, hd]
  rfl

end WideFrames

theorem wideFrames_entries : compactEntries wideFrames.info = (List.range 505).map (pageEntry wideFrames.info 0) := by
  have hindex : wideFrames.info.indexCount.toNat - 1 = 1 := by decide
  have hcount : wideFrames.info.entryCount 0 = 505 := by decide
  rw [compactEntries, hindex]
  simp [pageEntries, hcount]

/-- The terminator is written past the end of the buffer. -/
theorem wideFrames_overflows :
    ∃ cap s, ehFrameRegisterMacho wideFrames = some (cap,s) ∧ ¬∀ i ∈ s.written, i < cap := by
  have hsizes : (compactEntries wideFrames.info).map (CuEntry.fdeSize wideFrames.base) = List.replicate 505 88 := by
    rw [wideFrames_entries, List.map_map, List.eq_replicate_iff]
    refine ⟨by simp,fun n hn => ?_⟩
    obtain ⟨i,hi,rfl⟩ := List.mem_map.mp hn
    exact wideFrames_fdeSize (List.mem_range.mp hi)
  have hlen : (compactEntries wideFrames.info).length = 505 := by simp [wideFrames_entries]
  have hcies : (wideFrames.personalities.map cieSize).sum = 32 := by decide
  have hall : firstEntries wideFrames.info = compactEntries wideFrames.info := firstEntries_eq (by rw [hlen]; decide)
  have hne : firstEntries wideFrames.info ≠ [] := by
    intro h
    rw [← hall, h] at hlen
    cases hlen
  refine ⟨_,_,ehFrameRegisterMacho_eq (by decide) (by rw [hlen]; decide) hne,?_⟩
  rw [written_lt_iff, sectionSize, hcies, hall, hsizes, hlen, List.sum_replicate_nat]
  decide

end Machismo.EhFrame
