import Machismo.A64.Atomic
import Mathlib.Data.List.Basic
import Mathlib.Tactic.IntervalCases

/-! # Recognising the instructions to emulate

`decodeLse` and `decodeBcax` are the classifiers of the patcher, tested here against the encoding
diagrams; `pickScratch` chooses the registers an island may use. The `SWP` row of `decodeLse`
ignores the operation field, so it also accepts words that are not atomics at all.
-/
namespace Machismo.IsaEmul
open A64

inductive LseOp where
  | ldadd | ldclr | ldeor | ldset | ldsmax | ldsmin | ldumax | ldumin | swp | cas
  deriving DecidableEq, Repr

structure LseDecoded where
  op : LseOp
  size : BitVec 2
  acquire : Bool
  release : Bool
  rs : Reg
  rt : Reg
  rn : Reg
  deriving DecidableEq, Repr

def opOfOpc (opc : BitVec 3) : LseOp :=
  match opc with
  | 0#3 => .ldadd
  | 1#3 => .ldclr
  | 2#3 => .ldeor
  | 3#3 => .ldset
  | 4#3 => .ldsmax
  | 5#3 => .ldsmin
  | 6#3 => .ldumax
  | _ => .ldumin

def decodeLse (instr : Word) : Option LseDecoded :=
  if instr &&& 0x3F200C00#32 = 0x38200000#32 then
    some {
      op := if bits instr 15 1 = 1#1 then .swp else opOfOpc (bits instr 12 3)
      size := bits instr 30 2
      acquire := bits instr 23 1 = 1#1
      release := bits instr 22 1 = 1#1
      rs := bits instr 16 5
      rt := bits instr 0 5
      rn := bits instr 5 5 }
  else if instr &&& 0x3FA07C00#32 = 0x08A07C00#32 then
    some {
      op := .cas
      size := bits instr 30 2
      acquire := bits instr 23 1 = 1#1
      release := bits instr 15 1 = 1#1
      rs := bits instr 16 5
      rt := bits instr 0 5
      rn := bits instr 5 5 }
  else none

structure Bcax where
  vd : Reg
  vn : Reg
  vm : Reg
  va : Reg
  deriving DecidableEq, Repr

def decodeBcax (instr : Word) : Option Bcax :=
  if instr &&& 0xFFE08000#32 ≠ 0xCE200000#32 then none
  else some ⟨bits instr 0 5, bits instr 5 5, bits instr 16 5, bits instr 10 5⟩

theorem mask_rmw (w : Word) : w &&& 0x3F200C00#32 = 0x38200000#32 ↔
    bits w 24 6 = 0b111000#6 ∧ bits w 21 1 = 1#1 ∧ bits w 10 2 = 0#2 :=
  masked_eq_iff w (p := 24) (q := 21) (r := 10) 0b111000#6 1#1 0#2 (by decide) (by decide) (by decide)

theorem mask_cas (w : Word) : w &&& 0x3FA07C00#32 = 0x08A07C00#32 ↔
    bits w 23 7 = 0b0010001#7 ∧ bits w 21 1 = 1#1 ∧ bits w 10 5 = 0b11111#5 :=
  masked_eq_iff w (p := 23) (q := 21) (r := 10) 0b0010001#7 1#1 0b11111#5
    (by decide) (by decide) (by decide)

theorem mask_bcax (w : Word) : w &&& 0xFFE08000#32 = 0xCE200000#32 ↔ isBcax w := by
  have h : w &&& 0xFFE08000#32 = 0xCE200000#32 ↔
      bits w 21 11 = 0b11001110001#11 ∧ bits w 15 1 = 0#1 ∧ bits w 0 0 = 0#0 :=
    masked_eq_iff w (p := 21) (q := 15) (r := 0) 0b11001110001#11 0#1 0#0
      (by decide) (by decide) (by decide)
  rw [h, isBcax, decide_eq_true_eq]
  simp only [BitVec.of_length_zero, and_true]

theorem decodeBcax_isSome (w : Word) : (decodeBcax w).isSome = isBcax w := by
  unfold decodeBcax
  by_cases h : w &&& 0xFFE08000#32 = 0xCE200000#32
  · rw [if_neg (not_not.mpr h), (mask_bcax w).mp h]
    rfl
  · rw [if_pos h, Bool.eq_false_iff.mpr (mt (mask_bcax w).mpr h)]
    rfl

/-- A patched operation, where the architecture has it too. -/
def LseOp.ofRmw : RmwOp → LseOp
  | .ldadd => .ldadd
  | .ldclr => .ldclr
  | .ldeor => .ldeor
  | .ldset => .ldset
  | .ldsmax => .ldsmax
  | .ldsmin => .ldsmin
  | .ldumax => .ldumax
  | .ldumin => .ldumin
  | .swp => .swp

theorem opOfOpc_of_rmwOp {o3 : BitVec 1} {opc : BitVec 3} {op : RmwOp} (h : rmwOp o3 opc = some op) :
    (if o3 = 1#1 then .swp else opOfOpc opc) = LseOp.ofRmw op := by
  revert o3 opc
  cases op <;> decide

/-- Every read-modify-write atomic of the architecture is recognised with its own fields. -/
theorem decodeLse_of_rmw {w : Word} {op : RmwOp} {size : BitVec 2} {acquire release : Bool}
    {rs rt rn : Reg} (h : decodeAtomic w = some (.rmw op size acquire release rs rt rn)) :
    decodeLse w = some ⟨.ofRmw op,size,acquire,release,rs,rt,rn⟩ := by
  unfold decodeAtomic at h
  split at h
  next hm =>
    obtain ⟨op',ho,he⟩ := Option.map_eq_some_iff.mp h
    cases he
    simp only [decodeLse, if_pos ((mask_rmw w).mpr hm), opOfOpc_of_rmwOp ho]
  next =>
    split at h
    · cases h
    · cases h

/-- Every compare-and-swap is recognised, with the acquire flag read from the fixed bit 23. -/
theorem decodeLse_of_cas {w : Word} {size : BitVec 2} {acquire release : Bool}
    {rs rt rn : Reg} (h : decodeAtomic w = some (.cas size acquire release rs rt rn)) :
    decodeLse w = some ⟨.cas,size,true,release,rs,rt,rn⟩ := by
  unfold decodeAtomic at h
  split at h
  next => obtain ⟨op',ho,he⟩ := Option.map_eq_some_iff.mp h; cases he
  next hm =>
    split at h
    next hc =>
      cases h
      have h23 : bits w 23 1 = 1#1 := by
        have h0 : (bits w 23 7).getLsbD 0 = true := by rw [hc.1]; rfl
        apply BitVec.eq_of_getLsbD_eq
        intro i hi
        obtain rfl : i = 0 := by omega
        simpa [BitVec.getLsbD_extractLsb'] using h0
      simp only [decodeLse, if_neg (mt (mask_rmw w).mp hm), if_pos ((mask_cas w).mpr hc), h23, decide_true]
    next => cases h

def regBit (r : Reg) : Word := 1#32 <<< r.toNat

def firstChoice : List Reg := [16#5, 15#5, 14#5, 13#5, 12#5, 11#5, 10#5, 9#5]
def secondChoice : List Reg :=
  [17#5, 18#5, 19#5, 20#5, 21#5, 22#5, 23#5, 24#5, 25#5, 26#5, 27#5, 28#5]

/-- Pick a scratch register that does not conflict with the given mask. -/
def pickScratch (excludeMask : Word) : Reg :=
  match firstChoice.find? (fun r => excludeMask &&& regBit r = 0#32) with
  | some r => r
  | none =>
    match secondChoice.find? (fun r => excludeMask &&& regBit r = 0#32) with
    | some r => r
    | none => 8#5

/-- The mask excludes exactly the registers of a list. -/
def Excludes (mask : Word) (rs : List Reg) : Prop := ∀ r, mask &&& regBit r = 0#32 ↔ r ∉ rs

theorem regBit_and (q r : Reg) : regBit q &&& regBit r = 0#32 ↔ q ≠ r := by
  revert q r; decide

theorem excludes_regBit (q : Reg) : Excludes (regBit q) [q] := by
  intro r
  rw [regBit_and, List.mem_singleton, ne_comm]

theorem Excludes.or {mask : Word} {rs : List Reg} (h : Excludes mask rs) (q : Reg) :
    Excludes (mask ||| regBit q) (q :: rs) := by
  intro r
  rw [BitVec.and_comm, BitVec.and_or_distrib_left, BitVec.or_eq_zero_iff, BitVec.and_comm, h r,
    BitVec.and_comm, regBit_and, List.mem_cons, not_or, and_comm, ne_comm]

theorem pickScratch_spec {mask : Word} {rs : List Reg} (h : Excludes mask rs) (hl : rs.length < 8) :
    pickScratch mask ∉ rs ∧ pickScratch mask ∈ firstChoice := by
  cases hf : firstChoice.find? (fun r => mask &&& regBit r = 0#32) with
  | some r =>
    have hp : pickScratch mask = r := by simp only [pickScratch, hf]
    rw [hp]
    exact ⟨(h r).mp (by simpa using List.find?_some hf),List.mem_of_find?_eq_some hf⟩
  | none =>
    have hsub : firstChoice ⊆ rs := by
      intro r hr
      have := List.find?_eq_none.mp hf r hr
      rw [decide_eq_true_eq, h r, not_not] at this
      exact this
    have hnd : firstChoice.Nodup := by decide
    have := (hnd.subperm hsub).length_le
    have h8 : firstChoice.length = 8 := rfl
    omega

end Machismo.IsaEmul
