import Machismo.EhFrame.Entries
import Mathlib.Data.List.Flatten
import Mathlib.Data.List.Nodup

/-! # The emitted instructions

The instructions of an entry for the mode `FRAME` are a string of bytes that encodes one rule for each
saved register, at consecutive slots: the slots are counted across the X and the D registers, whose rules
take two and three bytes. Those for the mode `FRAMELESS` define the CFA by the size of the stack.
-/
namespace Machismo.EhFrame
open A64 (Byte)
open Data Dwarf

/-- The bits of the saved pairs in the order of their slots, with the DWARF numbers of the registers. -/
def compactPairs : List (ℕ × ℕ × ℕ) :=
  [(0,19,20),(1,21,22),(2,23,24),(3,25,26),(4,27,28),(8,72,73),(9,74,75),(10,76,77),(11,78,79)]

def savedRegs (encoding : BitVec 32) : List ℕ :=
  (compactPairs.filter fun pair => encoding.getLsbD pair.1).flatMap fun pair => [pair.2.1,pair.2.2]

theorem savedRegs_sublist (encoding : BitVec 32) :
    (savedRegs encoding).Sublist (compactPairs.flatMap fun pair => [pair.2.1,pair.2.2]) :=
  List.filter_sublist.flatMap _

theorem nodup_savedRegs (encoding : BitVec 32) : (savedRegs encoding).Nodup :=
  (savedRegs_sublist encoding).nodup (by decide)

theorem length_savedRegs_le (encoding : BitVec 32) : (savedRegs encoding).length ≤ 18 :=
  (savedRegs_sublist encoding).length_le

theorem notMem_savedRegs (encoding : BitVec 32) : 29 ∉ savedRegs encoding ∧ 30 ∉ savedRegs encoding ∧
    31 ∉ savedRegs encoding := by
  have hsub := (savedRegs_sublist encoding).subset
  exact ⟨fun h => absurd (hsub h) (by decide),fun h => absurd (hsub h) (by decide),fun h => absurd (hsub h) (by decide)⟩

/-- The registers of the pairs whose bits are set. -/
def regsOf (pairs : BitVec 32) (table : List RegPair) : List Byte :=
  (table.filter fun pair => pairs &&& pair.1 ≠ 0).flatMap fun pair => [pair.2.1,pair.2.2]

def slotBytes (enc : Byte → ℕ → List Byte) : ℕ → List Byte → List Byte
  | _, [] => []
  | slot, reg :: regs => enc reg slot ++ slotBytes enc (slot+1) regs

def offsetsFrom : ℕ → List ℕ → List CfaInsn
  | _, [] => []
  | slot, reg :: regs => .offset reg slot :: offsetsFrom (slot+1) regs

theorem emitPairs_eq {emitReg : Byte → ℕ → Ehf → Ehf} {enc : Byte → ℕ → List Byte}
    (h : ∀ reg slot s, emitReg reg slot s = s.push (enc reg slot)) (pairs : BitVec 32) (table : List RegPair)
    (slot : ℕ) (s : Ehf) :
    table.foldl (emitPair emitReg pairs) (slot,s) =
      (slot + (regsOf pairs table).length,s.push (slotBytes enc slot (regsOf pairs table))) := by
  induction table generalizing slot s with
  | nil => simp [regsOf, slotBytes]
  | cons pair table ih =>
    rw [List.foldl_cons, emitPair]
    split
    next hp =>
      have hregs : regsOf pairs (pair :: table) = pair.2.1 :: pair.2.2 :: regsOf pairs table := by
        rw [regsOf, List.filter_cons_of_pos (by simpa using hp)]
        rfl
      rw [ih, hregs, h, h, push_push, push_push, slotBytes, slotBytes]
      simp [Nat.add_assoc, Nat.add_comm 2]
    next hp =>
      have hregs : regsOf pairs (pair :: table) = regsOf pairs table := by
        rw [regsOf, List.filter_cons_of_neg (by simpa using hp)]
        rfl
      rw [ih, hregs]

theorem offsetsFrom_append (slot : ℕ) (rs ts : List ℕ) :
    offsetsFrom slot (rs ++ ts) = offsetsFrom slot rs ++ offsetsFrom (slot + rs.length) ts := by
  induction rs generalizing slot with
  | nil => rfl
  | cons r rs ih => simp [offsetsFrom, ih, Nat.add_comm, Nat.add_left_comm]

theorem encodes_slotBytes {enc : Byte → ℕ → List Byte} {regs : List Byte} {slot : ℕ}
    (h : ∀ reg ∈ regs, ∀ k < slot + regs.length, Encodes (enc reg k) [.offset reg.toNat k]) :
    Encodes (slotBytes enc slot regs) (offsetsFrom slot (regs.map BitVec.toNat)) := by
  induction regs generalizing slot with
  | nil => exact .nil
  | cons reg regs ih =>
    have hreg := h reg List.mem_cons_self slot (by rw [List.length_cons]; omega)
    have hregs : Encodes (slotBytes enc (slot+1) regs) (offsetsFrom (slot+1) (regs.map BitVec.toNat)) :=
      ih fun r hr k hk => h r (List.mem_cons_of_mem _ hr) k (by rw [List.length_cons]; omega)
    exact hreg.append hregs

theorem length_slotBytes {enc : Byte → ℕ → List Byte} {regs : List Byte} {slot n : ℕ}
    (h : ∀ reg ∈ regs, ∀ k < slot + regs.length, (enc reg k).length = n) :
    (slotBytes enc slot regs).length = n * regs.length := by
  induction regs generalizing slot with
  | nil => rfl
  | cons reg regs ih =>
    have hreg := h reg List.mem_cons_self slot (by rw [List.length_cons]; omega)
    have hregs : (slotBytes enc (slot+1) regs).length = n * regs.length :=
      ih fun r hr k hk => h r (List.mem_cons_of_mem _ hr) k (by rw [List.length_cons]; omega)
    rw [slotBytes, List.length_append, hreg, hregs, List.length_cons]
    ring

def slotX (reg : Byte) (slot : ℕ) : List Byte :=
  (dwCfaOffset ||| reg) :: encodeUleb 9 (BitVec.ofNat 64 slot).toNat

def slotD (reg : Byte) (slot : ℕ) : List Byte :=
  dwCfaOffsetExtended :: (encodeUleb 9 (reg.setWidth 64).toNat ++ encodeUleb 9 (BitVec.ofNat 64 slot).toNat)

def xRegs (encoding : BitVec 32) : List Byte := regsOf (encoding &&& 0x1F) xPairs
def dRegs (encoding : BitVec 32) : List Byte := regsOf ((encoding >>> 8) &&& 0x0F) dPairs

def frameBytes (encoding : BitVec 32) : List Byte :=
  [0x41,0x0c,29,16,0x9e,1,0x9d,2] ++
    (slotBytes slotX 3 (xRegs encoding) ++ slotBytes slotD (3 + (xRegs encoding).length) (dRegs encoding))

theorem frameCfi_eq (encoding : BitVec 32) (s : Ehf) : frameCfi encoding s = s.push (frameBytes encoding) := by
  have hx : ∀ reg slot s, emitX reg slot s = s.push (slotX reg slot) := by
    intro reg slot s
    rw [emitX, ehfUleb128_eq, ehfU8_eq, push_push, slotX, List.singleton_append]
  have hd : ∀ reg slot s, emitD reg slot s = s.push (slotD reg slot) := by
    intro reg slot s
    rw [emitD, ehfUleb128_eq, ehfUleb128_eq, ehfU8_eq, push_push, push_push, slotD,
      List.singleton_append]
  have hhead : ehfUleb128 2 (ehfU8 (dwCfaOffset ||| dwarfRegFp) (ehfUleb128 1 (ehfU8 (dwCfaOffset ||| dwarfRegLr)
      (ehfUleb128 16 (ehfUleb128 29 (ehfU8 dwCfaDefCfa (ehfU8 (dwCfaAdvanceLoc ||| 1) s))))))) =
      s.push [0x41,0x0c,29,16,0x9e,1,0x9d,2] := by
    simp [ehfU8_eq, ehfUleb128_eq, encodeUleb, dwCfaOffset, dwarfRegFp, dwarfRegLr, dwCfaDefCfa, dwCfaAdvanceLoc]
  unfold frameCfi
  dsimp only
  rw [hhead, emitPairs_eq hx, emitPairs_eq hd, push_push, push_push]
  rfl

theorem and_twoPow_ne_zero {i : ℕ} (hi : i < 32) (v : BitVec 32) : v &&& BitVec.twoPow 32 i ≠ 0 ↔ v.getLsbD i := by
  rw [BitVec.and_twoPow]
  split
  next hv =>
    have hne : BitVec.twoPow 32 i ≠ 0#32 := by
      intro h
      have := congrArg (BitVec.getLsbD · i) h
      simp [hi] at this
    exact iff_of_true hne hv
  next hv => exact iff_of_false (by simp) hv

theorem map_regsOf {pairs encoding : BitVec 32} {table : List RegPair} {compact : List (ℕ × ℕ × ℕ)}
    (h : List.Forall₂ (fun p q => (pairs &&& p.1 ≠ 0 ↔ encoding.getLsbD q.1) ∧ p.2.1.toNat = q.2.1 ∧
      p.2.2.toNat = q.2.2) table compact) :
    (regsOf pairs table).map BitVec.toNat =
      (compact.filter fun q => encoding.getLsbD q.1).flatMap fun q => [q.2.1,q.2.2] := by
  induction h with
  | nil => rfl
  | @cons p q table compact hpq _ ih =>
    obtain ⟨hbit,hfst,hsnd⟩ := hpq
    by_cases hq : encoding.getLsbD q.1
    · rw [regsOf, List.filter_cons_of_pos (by simpa using hbit.mpr hq), List.filter_cons_of_pos (by simpa using hq),
        List.flatMap_cons, List.flatMap_cons, ← ih, ← hfst, ← hsnd, List.map_append]
      rfl
    · rw [regsOf, List.filter_cons_of_neg (by simpa using mt hbit.mp hq), List.filter_cons_of_neg (by simpa using hq),
        ← ih]
      rfl

theorem map_regs (encoding : BitVec 32) :
    (xRegs encoding ++ dRegs encoding).map BitVec.toNat = savedRegs encoding := by
  have hxmask : ∀ i < 5, (0x1F : BitVec 32).getLsbD i = true := by decide
  have hdmask : ∀ i < 4, (0x0F : BitVec 32).getLsbD i = true := by decide
  have hx : ∀ i < 5, ((encoding &&& 0x1F) &&& BitVec.twoPow 32 i ≠ 0 ↔ encoding.getLsbD i) := by
    intro i hi
    rw [and_twoPow_ne_zero (by omega), BitVec.getLsbD_and, hxmask i hi, Bool.and_true]
  have hd : ∀ i < 4, (((encoding >>> 8) &&& 0x0F) &&& BitVec.twoPow 32 i ≠ 0 ↔ encoding.getLsbD (8+i)) := by
    intro i hi
    rw [and_twoPow_ne_zero (by omega), BitVec.getLsbD_and, hdmask i hi, Bool.and_true, BitVec.getLsbD_ushiftRight]
  have hsaved : savedRegs encoding = ((compactPairs.take 5).filter fun q => encoding.getLsbD q.1).flatMap
      (fun q => [q.2.1,q.2.2]) ++ ((compactPairs.drop 5).filter fun q => encoding.getLsbD q.1).flatMap
      fun q => [q.2.1,q.2.2] := by
    rw [← List.flatMap_append, ← List.filter_append, List.take_append_drop]
    rfl
  rw [List.map_append, hsaved]
  congr 1
  · refine map_regsOf ?_
    exact .cons ⟨hx 0 (by decide),rfl,rfl⟩ (.cons ⟨hx 1 (by decide),rfl,rfl⟩ (.cons ⟨hx 2 (by decide),rfl,rfl⟩
      (.cons ⟨hx 3 (by decide),rfl,rfl⟩ (.cons ⟨hx 4 (by decide),rfl,rfl⟩ .nil))))
  · refine map_regsOf ?_
    exact .cons ⟨hd 0 (by decide),rfl,rfl⟩ (.cons ⟨hd 1 (by decide),rfl,rfl⟩ (.cons ⟨hd 2 (by decide),rfl,rfl⟩
      (.cons ⟨hd 3 (by decide),rfl,rfl⟩ .nil)))

theorem regsOf_subset (pairs : BitVec 32) (table : List RegPair) :
    regsOf pairs table ⊆ table.flatMap fun pair => [pair.2.1,pair.2.2] :=
  (List.filter_sublist.flatMap _).subset

theorem length_regs (encoding : BitVec 32) : (xRegs encoding).length + (dRegs encoding).length ≤ 18 := by
  rw [← List.length_append, ← List.length_map BitVec.toNat, map_regs]
  exact length_savedRegs_le encoding

theorem toNat_slot {k : ℕ} (h : k < 128) : (BitVec.ofNat 64 k).toNat = k := by
  rw [BitVec.toNat_ofNat]
  omega

theorem slotX_encodes {reg : Byte} (hreg : reg.toNat < 64) {k : ℕ} (hk : k < 128) :
    Encodes (slotX reg k) [.offset reg.toNat k] ∧ (slotX reg k).length = 2 := by
  have hall : ∀ reg : Byte, reg.toNat < 64 → (dwCfaOffset ||| reg).toNat = 128 + reg.toNat := by decide
  have hb := hall reg hreg
  have henc := encodes_offset (n := 9) (v := k) (b := dwCfaOffset ||| reg) (by omega) (by omega)
  rw [hb, Nat.add_mod, Nat.mod_eq_of_lt hreg] at henc
  rw [slotX, toNat_slot hk]
  refine ⟨by simpa [Nat.mod_eq_of_lt hreg] using henc,?_⟩
  simp [encodeUleb, hk]

theorem slotD_encodes {reg : Byte} (hreg : reg.toNat < 128) {k : ℕ} (hk : k < 128) :
    Encodes (slotD reg k) [.offset reg.toNat k] ∧ (slotD reg k).length = 3 := by
  have hreg' : (reg.setWidth 64).toNat = reg.toNat := BitVec.toNat_setWidth_of_le (by decide)
  rw [slotD, toNat_slot hk, hreg']
  exact ⟨encodes_offsetExtended (by omega) (by omega),by simp [encodeUleb, hreg, hk]⟩

theorem frameBytes_encodes (encoding : BitVec 32) :
    Encodes (frameBytes encoding)
      (.advanceLoc 1 :: .defCfa 29 16 :: .offset 30 1 :: .offset 29 2 :: offsetsFrom 3 (savedRegs encoding)) := by
  have hlen := length_regs encoding
  have hhead : Encodes [0x41,0x0c,29,16,0x9e,1,0x9d,2] [.advanceLoc 1,.defCfa 29 16,.offset 30 1,.offset 29 2] := by
    have hloc : Encodes [0x41] [.advanceLoc 1] := encodes_advanceLoc rfl
    have hcfa : Encodes (0x0c :: (encodeUleb 0 29 ++ encodeUleb 0 16)) [.defCfa 29 16] :=
      encodes_defCfa (by decide) (by decide)
    have hlr : Encodes (0x9e :: encodeUleb 0 1) [.offset 30 1] := encodes_offset rfl (by decide)
    have hfp : Encodes (0x9d :: encodeUleb 0 2) [.offset 29 2] := encodes_offset rfl (by decide)
    exact hloc.append (hcfa.append (hlr.append hfp))
  have hx : Encodes (slotBytes slotX 3 (xRegs encoding)) (offsetsFrom 3 ((xRegs encoding).map BitVec.toNat)) := by
    refine encodes_slotBytes fun reg hreg k hk => (slotX_encodes ?_ (by omega)).1
    have hall : ∀ reg ∈ xPairs.flatMap fun pair => [pair.2.1,pair.2.2], reg.toNat < 64 := by decide
    exact hall reg (regsOf_subset _ _ hreg)
  have hd : Encodes (slotBytes slotD (3 + (xRegs encoding).length) (dRegs encoding))
      (offsetsFrom (3 + (xRegs encoding).length) ((dRegs encoding).map BitVec.toNat)) := by
    refine encodes_slotBytes fun reg hreg k hk => (slotD_encodes ?_ (by omega)).1
    have hall : ∀ reg ∈ dPairs.flatMap fun pair => [pair.2.1,pair.2.2], reg.toNat < 128 := by decide
    exact hall reg (regsOf_subset _ _ hreg)
  have h := hhead.append (hx.append hd)
  rw [← map_regs, List.map_append, offsetsFrom_append, List.length_map]
  exact h

theorem length_frameBytes (encoding : BitVec 32) :
    (frameBytes encoding).length = 8 + 2 * (xRegs encoding).length + 3 * (dRegs encoding).length := by
  have hlen := length_regs encoding
  have hx : (slotBytes slotX 3 (xRegs encoding)).length = 2 * (xRegs encoding).length := by
    refine length_slotBytes fun reg hreg k hk => (slotX_encodes ?_ (by omega)).2
    have hall : ∀ reg ∈ xPairs.flatMap fun pair => [pair.2.1,pair.2.2], reg.toNat < 64 := by decide
    exact hall reg (regsOf_subset _ _ hreg)
  have hd : (slotBytes slotD (3 + (xRegs encoding).length) (dRegs encoding)).length = 3 * (dRegs encoding).length := by
    refine length_slotBytes fun reg hreg k hk => (slotD_encodes ?_ (by omega)).2
    have hall : ∀ reg ∈ dPairs.flatMap fun pair => [pair.2.1,pair.2.2], reg.toNat < 128 := by decide
    exact hall reg (regsOf_subset _ _ hreg)
  rw [frameBytes, List.length_append, List.length_append, hx, hd]
  simp only [List.length_cons, List.length_nil]
  omega

def framelessBytes (encoding : BitVec 32) : List Byte :=
  if stackSize encoding = 0 then []
  else [0x41,0x0e] ++ (encodeUleb 9 (stackSize encoding).toNat ++ [0x9e,1])

theorem toNat_stackSize (encoding : BitVec 32) :
    (stackSize encoding).toNat = encoding.toNat / 2^12 % 2^12 * 16 := by
  have hfield : ((encoding &&& 0x00FFF000) >>> 12).toNat = encoding.toNat / 2^12 % 2^12 := by
    rw [BitVec.toNat_ushiftRight, BitVec.toNat_and, Nat.shiftRight_and_distrib, Nat.shiftRight_eq_div_pow]
    exact Nat.and_two_pow_sub_one_eq_mod _ 12
  have hmul : (16 : BitVec 32).toNat = 16 := rfl
  rw [stackSize, BitVec.toNat_mul, hfield, hmul, Nat.mod_eq_of_lt (by omega)]

theorem framelessCfi_eq (encoding : BitVec 32) (s : Ehf) :
    framelessCfi encoding s = s.push (framelessBytes encoding) := by
  have hsize := toNat_stackSize encoding
  have hpos : stackSize encoding > 0 ↔ stackSize encoding ≠ 0 := by
    rw [gt_iff_lt, BitVec.lt_def, Ne, ← BitVec.toNat_inj]
    exact Nat.pos_iff_ne_zero
  unfold framelessCfi framelessBytes
  by_cases hs : stackSize encoding = 0
  · rw [if_neg (mt hpos.mp (not_not.mpr hs)), if_pos hs, push_nil]
  · have hs' : (stackSize encoding).toNat ≠ 0 := fun h => hs (BitVec.eq_of_toNat_eq h)
    have hlr : stackSize encoding ≥ 8 := by
      rw [ge_iff_le, BitVec.le_def]
      have h8 : (8 : BitVec 32).toNat = 8 := rfl
      omega
    have hwide : ((stackSize encoding).setWidth 64).toNat = (stackSize encoding).toNat :=
      BitVec.toNat_setWidth_of_le (by decide)
    have hone : encodeUleb 9 (1 : BitVec 64).toNat = [1] := rfl
    rw [if_pos (hpos.mpr hs), if_pos hlr, if_neg hs]
    simp only [ehfU8_eq, ehfUleb128_eq, push_push, hwide, hone, List.append_assoc]
    rfl

def framelessInsns (encoding : BitVec 32) : List CfaInsn :=
  if stackSize encoding = 0 then [] else [.advanceLoc 1,.defCfaOffset (stackSize encoding).toNat,.offset 30 1]

theorem framelessBytes_encodes (encoding : BitVec 32) :
    Encodes (framelessBytes encoding) (framelessInsns encoding) := by
  unfold framelessBytes framelessInsns
  split
  · exact .nil
  · have hloc : Encodes [0x41] [.advanceLoc 1] := encodes_advanceLoc rfl
    have hcfa : Encodes (0x0e :: encodeUleb 9 (stackSize encoding).toNat) [.defCfaOffset (stackSize encoding).toNat] :=
      encodes_defCfaOffset (lt_trans (stackSize encoding).isLt (by decide))
    have hlr : Encodes (0x9e :: encodeUleb 0 1) [.offset 30 1] := encodes_offset rfl (by decide)
    have h := hloc.append (hcfa.append hlr)
    exact h

theorem length_framelessBytes_le (encoding : BitVec 32) : (framelessBytes encoding).length ≤ 7 := by
  have hsize := toNat_stackSize encoding
  have hlen : (encodeUleb 9 (stackSize encoding).toNat).length ≤ 2 + 1 :=
    length_encodeUleb_le (by omega) (by decide)
  unfold framelessBytes
  split
  · simp
  · simp only [List.length_append, List.length_cons, List.length_nil]
    omega

end Machismo.EhFrame
