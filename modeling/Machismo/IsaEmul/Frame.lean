import Machismo.IsaEmul.RmwRun
import Machismo.IsaEmul.CasRun

/-! # What an island leaves alone

An island keeps its scratch registers and the flags in 8-byte slots, 16 bytes apart, below the
entry stack pointer. Where the accessed cell does not overlap these slots the island restores
everything it used; where it does, the store to the cell and the saved values destroy each other.
-/
namespace Machismo.IsaEmul
open A64

/-- Memory after pushing `vs` to consecutive slots, the first of them slot `k`. -/
def saves (sp : Addr) : ℕ → List (BitVec 64) → Memory → Memory
  | _, [], m => m
  | k, v :: vs, m => saves sp (k+1) vs (store m (slot sp k) 8 v)

theorem slot_apart (sp : Addr) {j k : ℕ} (h : j < k) (hk : k ≤ 2^50) : Apart (slot sp j) 8 (slot sp k) 8 := by
  unfold Apart slot
  simp only [BitVec.toNat_sub, BitVec.toNat_ofNat]
  omega

theorem load_saves_below (sp : Addr) {j k : ℕ} (hj : j < k) (vs : List (BitVec 64)) (hk : k + vs.length ≤ 2^50)
    (m : Memory) : load (saves sp k vs m) (slot sp j) 8 = load m (slot sp j) 8 := by
  induction vs generalizing k m with
  | nil => rfl
  | cons v vs ih =>
    simp only [List.length_cons] at hk
    rw [saves, ih (by omega) (by omega), load_store_apart m v (slot_apart sp hj (by omega))]

theorem load_saves (sp : Addr) (k : ℕ) (vs : List (BitVec 64)) (hk : k + vs.length ≤ 2^50) (m : Memory) {i : ℕ}
    (hi : i < vs.length) : load (saves sp k vs m) (slot sp (k+i)) 8 = vs.get ⟨i,hi⟩ := by
  induction vs generalizing k i m with
  | nil => simp at hi
  | cons v vs ih =>
    simp only [List.length_cons] at hk hi
    cases i with
    | zero =>
      rw [saves, add_zero, load_saves_below sp (by omega) vs (by omega), load_store_same _ _ _ _ (by omega)]
      rfl
    | succ i =>
      have := ih (k+1) (by omega) (store m (slot sp k) 8 v) (i := i) (by omega)
      rw [add_right_comm, add_assoc] at this
      exact this

theorem saves_outside (sp : Addr) (k : ℕ) (vs : List (BitVec 64)) (m : Memory) {b : Addr}
    (h : ∀ i < vs.length, 8 ≤ (b - slot sp (k+i)).toNat) : saves sp k vs m b = m b := by
  induction vs generalizing k m with
  | nil => rfl
  | cons v vs ih =>
    rw [saves, ih]
    · exact store_outside m _ 8 v (h 0 (by simp))
    intro i hi
    have := h (i+1) (by simpa using hi)
    rwa [add_right_comm, add_assoc]

theorem rmwSaved_eq (e : Core) (s1 s2 s3 : Reg) (m : Memory) :
    rmwSaved e s1 s2 s3 m = saves e.sp 1 [e.x s1,e.x s2,e.x s3,e.flags.toReg] m := rfl

theorem casSaved_eq (e : Core) (s1 s2 : Reg) (m : Memory) :
    casSaved e s1 s2 m = saves e.sp 1 [e.x s1,e.x s2,e.flags.toReg] m := rfl

section Island
variable (d : LseDecoded)

/-- The scratch registers, in the order they are pushed. -/
def scratch : List Reg := if d.op = .cas then [casS1 d,casS2 d] else [rmwS1 d,rmwS2 d,rmwS3 d]

/-- The register that receives the old value. -/
def destReg : Reg := if d.op = .cas then d.rs else d.rt

/-- The values pushed: the scratch registers, then the flags. -/
def pushed (e : Core) : List (BitVec 64) := (scratch d).map e.x ++ [e.flags.toReg]

theorem scratch_spec : Scratch d (scratch d) := by
  unfold scratch
  split
  · exact cas_scratch d
  · exact rmw_scratch d

/-- The cell of the original instruction. -/
def cellAddr (e : Core) : Addr := e.base d.rn

/-- Every island runs to its end, and outside the cell memory is as the pushes left it. -/
theorem island_run (hrn : d.rn ≠ 31#5) (e : Core) (m : Memory) (origAddr : ℤ) (n : ℕ) :
    ∃ t M old, RunsTo e.pc (emitIsland d e.pc origAddr) ⟨e,m,n,[]⟩ t ∧
      IslandEnd (scratch d) e t M (destReg d) old ∧
      ∀ b, bytes d.size ≤ (b - cellAddr d e).toNat → M b = saves e.sp 1 (pushed d e) m b := by
  unfold emitIsland scratch destReg pushed scratch cellAddr
  by_cases hop : d.op = .cas
  · simp only [hop, ↓reduceIte]
    obtain ⟨t,ht,hend,-⟩ := casIsland_run d e.pc origAddr e m n [] rfl
    refine ⟨t,_,_,ht,hend,fun b hb => ?_⟩
    have ha : casAddr d e = e.base d.rn := by simp [casAddr, baseOf, Core.base, hrn]
    unfold casStored
    split
    · rw [ha, store_outside _ _ _ _ hb]
      rfl
    · rfl
  · simp only [hop, ↓reduceIte]
    obtain ⟨t,ht,hend,-⟩ := rmwIsland_run d hop e.pc origAddr e m n [] rfl
    refine ⟨t,_,_,ht,hend,fun b hb => ?_⟩
    have ha : rmwAddr d e = e.base d.rn := by simp [rmwAddr, baseOf, Core.base, hrn]
    rw [rmwStored, ha, store_outside _ _ _ _ hb]
    rfl

/-- The island's effect is confined: to the destination register, the cell and the save slots. -/
structure Framed (e : Core) (m : Memory) (t : State) : Prop where
  regs : ∀ r, r ≠ destReg d → t.core.x r = e.x r
  sp : t.core.sp = e.sp
  flags : t.core.flags = e.flags
  v : t.core.v = e.v
  mem : ∀ b, bytes d.size ≤ (b - cellAddr d e).toNat →
    (∀ k < (pushed d e).length, 8 ≤ (b - slot e.sp (k+1)).toNat) → t.mem b = m b
  restored : ∀ k (hk : k < (scratch d).length), load t.mem (slot e.sp (k+1)) 8 = e.x ((scratch d).get ⟨k,hk⟩) ∧
    t.core.x ((scratch d).get ⟨k,hk⟩) = load t.mem (slot e.sp (k+1)) 8

/-- The cell shares no byte with the save slots. -/
def CellApart (e : Core) : Prop :=
  ∀ k < (pushed d e).length, Apart (cellAddr d e) (bytes d.size) (slot e.sp (k+1)) 8

instance (e : Core) : Decidable (CellApart d e) := inferInstanceAs (Decidable (∀ k < _, _))

variable {d}

theorem length_pushed_le (e : Core) : (pushed d e).length ≤ 4 := by
  unfold pushed scratch
  split <;> simp

theorem load_pushed {e : Core} (hap : CellApart d e) {m M : Memory}
    (hM : ∀ b, bytes d.size ≤ (b - cellAddr d e).toNat → M b = saves e.sp 1 (pushed d e) m b) {k : ℕ}
    (hk : k < (pushed d e).length) : load M (slot e.sp (k+1)) 8 = (pushed d e).get ⟨k,hk⟩ := by
  have hlen := length_pushed_le (d := d) e
  rw [← load_saves e.sp 1 (pushed d e) (by omega) m hk, add_comm 1 k]
  exact load_congr fun i hi => hM _ ((hap k hk).symm.toNat_sub hi)

theorem IslandEnd.framed {e : Core} {m M : Memory} {t : State} {old : BitVec 64} (hap : CellApart d e)
    (h : IslandEnd (scratch d) e t M (destReg d) old)
    (hM : ∀ b, bytes d.size ≤ (b - cellAddr d e).toNat → M b = saves e.sp 1 (pushed d e) m b) :
    Framed d e m t := by
  have hslot : ∀ k (hk : k < (scratch d).length),
      load M (slot e.sp (k+1)) 8 = e.x ((scratch d).get ⟨k,hk⟩) := by
    intro k hk
    rw [load_pushed hap hM (by simp [pushed]; omega)]
    simp [pushed, List.getElem_append_left, hk]
  have hflags : load M (slot e.sp ((scratch d).length+1)) 8 = e.flags.toReg := by
    rw [load_pushed hap hM (by simp [pushed])]
    simp [pushed]
  refine ⟨fun r hr => ?_,h.sp,?_,h.v,fun b hb hs => ?_,fun k hk => ?_⟩
  · by_cases hm : r ∈ scratch d
    · obtain ⟨⟨k,hk⟩,rfl⟩ := List.get_of_mem hm
      rw [h.restored.slots k hk, hslot k hk]
    · rw [h.restored.regs r hm]
      unfold setReg
      split
      · rfl
      · exact Function.update_of_ne hr ..
  · rw [h.flags, hflags, Flags.ofReg_toReg]
  · rw [h.mem, hM b hb, saves_outside]
    intro i hi
    rw [add_comm]
    exact hs i hi
  · rw [h.restored.slots k hk, h.mem]
    exact ⟨hslot k hk,rfl⟩

/-- Where the stack pointer leaves room for the slots, nothing at or above it belongs to one. -/
theorem above_slots {e : Core} (hsp : 16*(pushed d e).length ≤ e.sp.toNat) {b : Addr} (hb : e.sp.toNat ≤ b.toNat)
    (k : ℕ) (hk : k < (pushed d e).length) : 8 ≤ (b - slot e.sp (k+1)).toNat := by
  have hlen := length_pushed_le (d := d) e
  have hlt := b.isLt
  simp only [slot, BitVec.toNat_sub, BitVec.toNat_ofNat]
  omega

/-- Of a cell apart from the save slots: the scratch registers are distinct and unused by the
instruction, and come back from the slots they went to; all other registers but the destination,
the stack pointer, the flags and every byte at or above the stack pointer outside the cell are kept. -/
theorem island_framed {w : Word} (_hd : decodeLse w = some d) (hrn : d.rn ≠ 31#5) (e : Core) (m : Memory)
    (origAddr : ℤ) (n : ℕ) (hap : CellApart d e) :
    Scratch d (scratch d) ∧
    ∃ t, RunsTo e.pc (emitIsland d e.pc origAddr) ⟨e,m,n,[]⟩ t ∧ Framed d e m t ∧
      (16*(pushed d e).length ≤ e.sp.toNat → ∀ b : Addr, e.sp.toNat ≤ b.toNat →
        bytes d.size ≤ (b - cellAddr d e).toNat → t.mem b = m b) := by
  obtain ⟨t,M,old,ht,hend,hM⟩ := island_run d hrn e m origAddr n
  have hf := hend.framed hap hM
  exact ⟨scratch_spec d,t,ht,hf,fun hsp b hb hc => hf.mem b hc (above_slots hsp hb)⟩

end Island

/-- A core about to enter an island at word address 0. -/
def entryCore (x : RegFile) (sp : Addr) : Core := ⟨x,sp,⟨false,false,false,false⟩,fun _ => 0#128,0,none⟩

def regFile (l : List (Reg × BitVec 64)) : RegFile := fun r => (l.lookup r).getD 0#64

/-- `LDADD X2, X3, [X1]`. -/
def ldaddWord : Word := 0xF8220023#32
def ldaddX : LseDecoded := ⟨.ldadd,3#2,false,false,2#5,3#5,1#5⟩

theorem island_framed_ldadd :
    let e := entryCore (regFile [(1#5,0x1000#64),(2#5,1#64)]) 0x2000#64
    decodeLse ldaddWord = some ldaddX ∧ ldaddX.rn ≠ 31#5 ∧ CellApart ldaddX e ∧
      ∃ t, RunsTo 0 (emitIsland ldaddX 0 100) ⟨e,fun _ => 0#8,3,[]⟩ t ∧ Framed ldaddX e (fun _ => 0#8) t := by
  intro e
  have hap : CellApart ldaddX e := by decide
  obtain ⟨-,t,ht,hf,-⟩ :=
    island_framed (w := ldaddWord) (d := ldaddX) (by decide) (by decide) e (fun _ => 0#8) 100 3 hap
  exact ⟨by decide,by decide,hap,t,ht,hf⟩

/-- Everything but the destination, the cell and what lies below the stack pointer is kept. -/
def Kept (d : LseDecoded) (e : Core) (m : Memory) (t : State) : Prop :=
  (∀ r, r ≠ destReg d → t.core.x r = e.x r) ∧ t.core.sp = e.sp ∧ t.core.flags = e.flags ∧ t.core.v = e.v ∧
    ∀ b : Addr, e.sp.toNat ≤ b.toNat → bytes d.size ≤ (b - cellAddr d e).toNat → t.mem b = m b

/-- An addition to the cell at `SP - 16` also adds to the saved `X16`; and with `SP = 0` the pushes
wrap around to the addresses above it. -/
theorem ldadd_not_kept :
    let e := entryCore (regFile [(1#5,0x1FF0#64),(2#5,1#64)]) 0x2000#64
    let e' := entryCore (regFile [(1#5,0x1000#64),(16#5,1#64)]) 0#64
    decodeLse ldaddWord = some ldaddX ∧ ldaddX.rn ≠ 31#5 ∧
      (∃ t, RunsTo 0 (emitIsland ldaddX 0 100) ⟨e,fun _ => 0#8,0,[]⟩ t ∧ ¬Kept ldaddX e (fun _ => 0#8) t) ∧
      ∃ t, RunsTo 0 (emitIsland ldaddX 0 100) ⟨e',fun _ => 0#8,0,[]⟩ t ∧ ¬Kept ldaddX e' (fun _ => 0#8) t := by
  intro e e'
  refine ⟨by decide,by decide,?_,?_⟩
  · obtain ⟨t,ht,hend,-⟩ := rmwIsland_run ldaddX (by decide) 0 100 e (fun _ => 0#8) 0 [] rfl
    refine ⟨t,ht,fun hk => ?_⟩
    have h16 := (hend.restored.slots 0 (by decide)).symm.trans (hk.1 16#5 (by decide))
    exact absurd h16 (by decide)
  · obtain ⟨t,ht,hend,-⟩ := rmwIsland_run ldaddX (by decide) 0 100 e' (fun _ => 0#8) 0 [] rfl
    refine ⟨t,ht,fun hk => ?_⟩
    have hb := (congrFun hend.mem _).symm.trans (hk.2.2.2.2 0xFFFFFFFFFFFFFFF0#64 (by decide) (by decide))
    exact absurd hb (by decide)

end Machismo.IsaEmul
