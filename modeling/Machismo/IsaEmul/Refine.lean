import Machismo.IsaEmul.Value
import Machismo.IsaEmul.Frame

/-! # Islands against the instructions they replace

The outcome of an island is compared with the single instruction of the architecture: the cell,
the destination register and, for compare-and-swap, whether a store was made. Each comparison is
an equivalence with a condition on the entry state.
-/
namespace Machismo.IsaEmul
open A64

/-- The cell and the destination register are as the instruction leaves them. -/
def LeavesAs (a : Atomic) (e : Core) (m : Memory) (t : State) : Prop :=
  load t.mem (a.addr e) a.nbytes = load (a.exec e m).2 (a.addr e) a.nbytes ∧
    t.core.read a.dest = (a.exec e m).1.read a.dest

theorem load_exec (a : Atomic) (e : Core) (m : Memory) :
    load (a.exec e m).2 (a.addr e) a.nbytes = a.cellAfter e (load m (a.addr e) a.nbytes) := by
  have := bytes_le_eight a.size
  exact load_store_same _ _ _ _ (by unfold Atomic.nbytes; omega)

theorem read_exec_dest (a : Atomic) (e : Core) (m : Memory) :
    (a.exec e m).1.read a.dest =
      if a.dest = 31#5 then 0#64 else (load m (a.addr e) a.nbytes).setWidth 64 := by
  simp only [Atomic.exec, Core.read, Core.next, Core.write]
  split
  · rfl
  · exact Function.update_self ..

theorem IslandEnd.read_dest {saved : List Reg} {e : Core} {t : State} {M : Memory} {dest : Reg} {old : BitVec 64}
    (h : IslandEnd saved e t M dest old) (hdest : dest ∉ saved) :
    t.core.read dest = if dest = 31#5 then 0#64 else old := by
  unfold Core.read
  split
  next => rfl
  next hne => rw [h.restored.regs dest hdest, setReg, if_neg hne, Function.update_self]

theorem IslandEnd.read_other {saved : List Reg} {e : Core} {t : State} {M : Memory} {dest : Reg} {old : BitVec 64}
    (h : IslandEnd saved e t M dest old) {r : Reg} (hr : r ∉ saved) (hne : r ≠ dest) :
    t.core.read r = e.read r := by
  unfold Core.read
  rw [h.restored.regs r hr, setReg]
  by_cases hd : dest = 31#5
  · simp [hd]
  · simp [hd, Function.update_of_ne hne]

theorem setWidth_cell_inj {size : BitVec 2} (a b : BitVec (8*bytes size)) :
    a.setWidth 64 = b.setWidth 64 ↔ a = b := by
  have h8 := bytes_le_eight size
  refine ⟨fun h => ?_,congrArg _⟩
  have := congrArg (BitVec.setWidth (8*bytes size)) h
  rwa [setWidth_setWidth_low (by omega), setWidth_setWidth_low (by omega), BitVec.setWidth_eq,
    BitVec.setWidth_eq] at this

section Rmw
variable (op : RmwOp) (size : BitVec 2) (s : BitVec 64) (seen old : BitVec (8*bytes size))

/-- The operation maps two different cells to the same value. -/
def Absorbs : Prop :=
  let r : BitVec (8*bytes size) := s.setWidth _
  match op with
  | .ldadd | .ldeor => False
  | .ldclr => seen &&& ~~~r = old &&& ~~~r
  | .ldset => seen ||| r = old ||| r
  | .ldsmax => seen.sle r ∧ old.sle r
  | .ldsmin => r.sle seen ∧ r.sle old
  | .ldumax => old.ule r ∧ (seen.ule r ∨ WideOperand size s)
  | .ldumin => if WideOperand size s then r.ult old ∧ seen = r else r.ule seen ∧ r.ule old
  | .swp => True

/-- An unsigned minimum or maximum whose comparison a wide operand turns around. -/
def Misjudged : Prop :=
  (op = .ldumax ∨ op = .ldumin) ∧ WideOperand size s ∧ (s.setWidth (8*bytes size)).ult old

/-- The entry states from which a read-modify-write island acts as the instruction: `old` is the
cell on entry and `seen` the cell once the save slots are written. -/
def RmwSound (rt : Reg) : Prop :=
  if seen = old then ¬Misjudged op size s old else rt = 31#5 ∧ Absorbs op size s seen old

instance : Decidable (Misjudged op size s old) := inferInstanceAs (Decidable (_ ∧ _ ∧ _))

theorem emulated_self_iff : emulated op size old s = op.apply old (s.setWidth _) ↔ ¬Misjudged op size s old := by
  by_cases hw : WideOperand size s
  · have h : ∀ r : BitVec (8*bytes size), (r = if old.ult r then r else old) ↔ ¬r.ult old := by
      intro r
      simp only [BitVec.ult, decide_eq_true_eq]
      split
      · simp; omega
      · simp only [BitVec.toNat_eq]; omega
    have h' : ∀ r : BitVec (8*bytes size), (old = if r.ult old then r else old) ↔ ¬r.ult old := by
      intro r
      split
      next hr =>
        simp only [BitVec.ult, decide_eq_true_eq] at hr
        simp only [BitVec.toNat_eq, BitVec.ult, decide_eq_true_eq]
        omega
      next hr => simp [hr]
    cases op <;> simp [emulated, Misjudged, hw, RmwOp.apply, h, h']
  · simp [emulated, Misjudged, hw]

end Rmw

/-- Choosing the larger of two by a key forgets a difference exactly when both are below. -/
theorem larger_eq_larger_iff {α β : Type*} [LinearOrder β] {f : α → β} (hf : f.Injective) {a b : α}
    (hne : a ≠ b) (r : α) :
    ((if f a < f r then r else a) = if f b < f r then r else b) ↔ f a ≤ f r ∧ f b ≤ f r := by
  by_cases ha : f a < f r <;> by_cases hb : f b < f r <;> simp only [ha, hb, ↓reduceIte]
  · simp [ha.le, hb.le]
  · refine ⟨fun h => h ▸ ⟨ha.le,le_rfl⟩,fun h => hf (le_antisymm (not_lt.mp hb) h.2)⟩
  · refine ⟨fun h => h ▸ ⟨le_rfl,h ▸ hb.le⟩,fun h => hf (le_antisymm h.1 (not_lt.mp ha))⟩
  · refine ⟨fun h => absurd h hne,fun h => ?_⟩
    exact hf ((le_antisymm h.1 (not_lt.mp ha)).trans (le_antisymm h.2 (not_lt.mp hb)).symm)

section Rmw
variable (op : RmwOp) (size : BitVec 2) (s : BitVec 64) (seen old : BitVec (8*bytes size))

theorem emulated_iff (hne : seen ≠ old) :
    emulated op size seen s = op.apply old (s.setWidth _) ↔ Absorbs op size s seen old := by
  generalize hr : (s.setWidth (8*bytes size)) = r
  have hnat : Function.Injective (BitVec.toNat : BitVec (8*bytes size) → ℕ) := fun _ _ => BitVec.eq_of_toNat_eq
  have hint : Function.Injective (BitVec.toInt : BitVec (8*bytes size) → ℤ) := fun _ _ => BitVec.eq_of_toInt_eq
  cases op <;> simp only [emulated, Absorbs, hr, reduceCtorEq, and_false, and_true, ↓reduceIte, RmwOp.apply]
  case ldadd => simp [hne]
  case ldeor => simp [hne]
  case ldsmax =>
    simpa only [BitVec.slt_eq_decide, BitVec.sle_eq_decide, decide_eq_true_eq] using larger_eq_larger_iff hint hne r
  case ldsmin =>
    simpa only [BitVec.slt_eq_decide, BitVec.sle_eq_decide, decide_eq_true_eq, OrderDual.toDual_lt_toDual,
      OrderDual.toDual_le_toDual] using
      larger_eq_larger_iff (f := fun x => OrderDual.toDual x.toInt) (fun _ _ h => hint h) hne r
  case ldumax =>
    by_cases hw : WideOperand size s
    · simp only [hw, ↓reduceIte, or_true, and_true, BitVec.ult, BitVec.ule, decide_eq_true_eq]
      split
      · simp; omega
      · simp only [BitVec.toNat_eq]; omega
    · simp only [hw, ↓reduceIte, or_false, BitVec.ult, BitVec.ule, decide_eq_true_eq]
      rw [and_comm]
      exact larger_eq_larger_iff hnat hne r
  case ldumin =>
    by_cases hw : WideOperand size s
    · simp only [hw, ↓reduceIte]
      split
      next h => simp [h]
      next h => simp [h, hne]
    · simpa only [hw, ↓reduceIte, BitVec.ult, BitVec.ule, decide_eq_true_eq, OrderDual.toDual_lt_toDual,
        OrderDual.toDual_le_toDual] using
        larger_eq_larger_iff (f := fun x => OrderDual.toDual x.toNat) (fun _ _ h => hnat h) hne r

theorem rmw_leavesAs_iff {acquire release : Bool} {rs rt rn : Reg} {d : LseDecoded}
    (hd : d = ⟨.ofRmw op,size,acquire,release,rs,rt,rn⟩) (hrn : rn ≠ 31#5) (e : Core) (m : Memory)
    (origAddr : ℤ) (n : ℕ) :
    ∃ t, RunsTo e.pc (emitIsland d e.pc origAddr) ⟨e,m,n,[]⟩ t ∧
      (LeavesAs (.rmw op size acquire release rs rt rn) e m t ↔
        RmwSound op size (e.read rs)
          (load (rmwSaved e (rmwS1 d) (rmwS2 d) (rmwS3 d) m) (e.base rn) (bytes size))
          (load m (e.base rn) (bytes size)) rt) := by
  subst hd
  let d : LseDecoded := ⟨.ofRmw op,size,acquire,release,rs,rt,rn⟩
  let M := rmwSaved e (rmwS1 d) (rmwS2 d) (rmwS3 d) m
  have hop : d.op ≠ .cas := by cases op <;> simp [d, LseOp.ofRmw]
  have haddr : rmwAddr d e = e.base rn := by simp [rmwAddr, baseOf, Core.base, d, hrn]
  have h8 := bytes_le_eight size
  obtain ⟨t,ht,hend,-⟩ := rmwIsland_run d hop e.pc origAddr e m n [] rfl
  refine ⟨t,by rwa [emitIsland, if_neg hop],?_⟩
  change _ ↔ RmwSound op size (e.read rs) (load M (e.base rn) (bytes size)) _ rt
  have hseen : rmwSeen d e M = load M (e.base rn) (bytes size) := by rw [rmwSeen, haddr]
  have hcell : load t.mem (e.base rn) (bytes size) =
      emulated op size (load M (e.base rn) (bytes size)) (e.read rs) := by
    rw [hend.mem, rmwStored, haddr, load_store_same _ _ _ _ (by simp only [d]; omega), hseen]
    exact newVal_low op size acquire release rs rt rn _ _
  have hdest : t.core.read rt = if rt = 31#5 then 0#64 else (load M (e.base rn) (bytes size)).setWidth 64 := by
    rw [← hseen]
    exact hend.read_dest (rmw_scratch d).rt
  unfold LeavesAs
  rw [load_exec, read_exec_dest]
  simp only [Atomic.addr, Atomic.rn, Atomic.nbytes, Atomic.size, Atomic.dest, Atomic.cellAfter]
  rw [hcell, hdest]
  generalize load M (e.base rn) (bytes size) = seen
  generalize load m (e.base rn) (bytes size) = old
  unfold RmwSound
  by_cases heq : seen = old
  · rw [if_pos heq, heq, emulated_self_iff]
    exact and_iff_left (by by_cases hrt : rt = 31#5 <;> simp [hrt])
  · rw [if_neg heq, emulated_iff op size _ _ _ heq, and_comm]
    by_cases hrt : rt = 31#5
    · simp [hrt]
    · simp [hrt, setWidth_cell_inj, heq]

/-- An island for a read-modify-write instruction leaves the cell and the destination as the
instruction does exactly from the sound entry states. -/
theorem rmwIsland_leavesAs_iff {w : Word} {acquire release : Bool} {rs rt rn : Reg} {d : LseDecoded}
    (hw : decodeAtomic w = some (.rmw op size acquire release rs rt rn)) (hd : decodeLse w = some d)
    (hrn : rn ≠ 31#5) (e : Core) (m : Memory) (origAddr : ℤ) (n : ℕ) :
    ∃ t, RunsTo e.pc (emitIsland d e.pc origAddr) ⟨e,m,n,[]⟩ t ∧
      (LeavesAs (.rmw op size acquire release rs rt rn) e m t ↔
        RmwSound op size (e.read rs)
          (load (rmwSaved e (rmwS1 d) (rmwS2 d) (rmwS3 d) m) (e.base rn) (bytes size))
          (load m (e.base rn) (bytes size)) rt) := by
  obtain rfl := Option.some.inj ((decodeLse_of_rmw hw).symm.trans hd)
  exact rmw_leavesAs_iff op size rfl hrn e m origAddr n

end Rmw

/-- `LDUMAXB W1, W2, [X3]`. -/
def ldumaxbWord : Word := 0x38216062#32

theorem decode_ldumaxbWord :
    decodeAtomic ldumaxbWord = some (.rmw .ldumax 0#2 false false 1#5 2#5 3#5) ∧
      decodeLse ldumaxbWord = some ⟨.ldumax,0#2,false,false,1#5,2#5,3#5⟩ := by decide

/-- With `X1 = 0x3` and a cell of 5 the maximum is 5, after three failed attempts too. -/
theorem rmwIsland_leavesAs_ldumaxb :
    let e := entryCore (regFile [(1#5,3#64),(3#5,0x1000#64)]) 0x2000#64
    decodeAtomic ldumaxbWord = some (.rmw .ldumax 0#2 false false 1#5 2#5 3#5) ∧
      ∃ t, RunsTo 0 (emitIsland ⟨.ldumax,0#2,false,false,1#5,2#5,3#5⟩ 0 100) ⟨e,fun _ => 5#8,3,[]⟩ t ∧
        LeavesAs (.rmw .ldumax 0#2 false false 1#5 2#5 3#5) e (fun _ => 5#8) t := by
  intro e
  obtain ⟨t,ht,hiff⟩ := rmwIsland_leavesAs_iff .ldumax 0#2 decode_ldumaxbWord.1 decode_ldumaxbWord.2
    (by decide) e (fun _ => 5#8) 100 3
  refine ⟨decode_ldumaxbWord.1,t,ht,hiff.mpr ?_⟩
  rw [RmwSound, if_pos (by decide)]
  decide

/-- With `X1 = 0x100` the byte operand is 0, yet the island replaces the larger cell 5 by it. -/
theorem ldumaxb_wide_operand :
    let e := entryCore (regFile [(1#5,0x100#64),(3#5,0x1000#64)]) 0x2000#64
    decodeAtomic ldumaxbWord = some (.rmw .ldumax 0#2 false false 1#5 2#5 3#5) ∧
      decodeLse ldumaxbWord = some ⟨.ldumax,0#2,false,false,1#5,2#5,3#5⟩ ∧
      ∃ t, RunsTo 0 (emitIsland ⟨.ldumax,0#2,false,false,1#5,2#5,3#5⟩ 0 100) ⟨e,fun _ => 5#8,0,[]⟩ t ∧
        ¬LeavesAs (.rmw .ldumax 0#2 false false 1#5 2#5 3#5) e (fun _ => 5#8) t := by
  intro e
  obtain ⟨t,ht,hiff⟩ := rmw_leavesAs_iff .ldumax 0#2 (d := ⟨.ldumax,0#2,false,false,1#5,2#5,3#5⟩) rfl
    (by decide) e (fun _ => 5#8) 100 0
  have hbad : Misjudged .ldumax 0#2 (e.read 1#5) (load (fun _ => 5#8) (e.base 3#5) (bytes 0#2)) := by decide
  refine ⟨decode_ldumaxbWord.1,decode_ldumaxbWord.2,t,ht,?_⟩
  rw [hiff, RmwSound, if_pos (by decide)]
  exact not_not.mpr hbad

/-- The store-exclusive of a run took effect. -/
def Stored (t : State) : Prop := ∃ x ∈ t.trace, ∃ a k, x = .store a k true

/-- A compare-and-swap as the architecture has it: the cell and the comparison register are as the
instruction leaves them, a store is made exactly when the cell equals the low bits of the comparison
register, and the register stored keeps its value. -/
def SwapsAs (size : BitVec 2) (acquire release : Bool) (rs rt rn : Reg) (e : Core) (m : Memory) (t : State) :
    Prop :=
  LeavesAs (.cas size acquire release rs rt rn) e m t ∧
    (Stored t ↔ load m (e.base rn) (bytes size) = (e.read rs).setWidth (8*bytes size)) ∧
    (rt ≠ rs → t.core.read rt = e.read rt)

/-- The comparison of the island is the one of the instruction, except that no cell equals a wide operand. -/
theorem casEqual_iff (d : LseDecoded) (e : Core) (M : Memory) :
    casEqual d e M = true ↔
      casSeen d e M = (e.read d.rs).setWidth (8*bytes d.size) ∧ ¬WideOperand d.size (e.read d.rs) := by
  unfold casEqual
  rw [Bool.not_eq_true', equal_iff]

theorem stored_casTrace {d : LseDecoded} {e : Core} {M : Memory} {n : ℕ} {t : State}
    (ht : t.trace = casTrace d e M n) : Stored t ↔ casEqual d e M = true := by
  unfold Stored
  rw [ht, casTrace]
  split
  next h => simp [h, loopTrace]
  next h => simp [h]

section Cas
variable (size : BitVec 2) {acquire release : Bool} {rs rt rn : Reg} {d : LseDecoded}

theorem cas_swapsAs_iff (acquire' : Bool) (hd : d = ⟨.cas,size,acquire',release,rs,rt,rn⟩) (hrn : rn ≠ 31#5) (e : Core)
    (m : Memory) (origAddr : ℤ) (n : ℕ) :
    ∃ t, RunsTo e.pc (emitIsland d e.pc origAddr) ⟨e,m,n,[]⟩ t ∧
      (SwapsAs size acquire release rs rt rn e m t ↔
        load (casSaved e (casS1 d) (casS2 d) m) (e.base rn) (bytes size) = load m (e.base rn) (bytes size) ∧
        ¬(WideOperand size (e.read rs) ∧
          load m (e.base rn) (bytes size) = (e.read rs).setWidth (8*bytes size))) := by
  subst hd
  let d : LseDecoded := ⟨.cas,size,acquire',release,rs,rt,rn⟩
  let M := casSaved e (casS1 d) (casS2 d) m
  have haddr : casAddr d e = e.base rn := by simp [casAddr, baseOf, Core.base, d, hrn]
  have h8 := bytes_le_eight size
  obtain ⟨t,ht,hend,htr⟩ := casIsland_run d e.pc origAddr e m n [] rfl
  refine ⟨t,ht,?_⟩
  change _ ↔ load M (e.base rn) (bytes size) = _ ∧ _
  have hseen : casSeen d e M = load M (e.base rn) (bytes size) := by rw [casSeen, haddr]
  have heq : casEqual d e M = true ↔ load M (e.base rn) (bytes size) = (e.read rs).setWidth (8*bytes size) ∧
      ¬WideOperand size (e.read rs) := by
    rw [← hseen]
    exact casEqual_iff d e M
  have hstored := stored_casTrace htr
  have hcell : load t.mem (e.base rn) (bytes size) =
      if casEqual d e M then (e.read rt).setWidth _ else load M (e.base rn) (bytes size) := by
    rw [hend.mem, casStored, haddr]
    split
    · exact load_store_same _ _ _ _ (by simp only [d]; omega)
    · rfl
  have hdest : t.core.read rs = if rs = 31#5 then 0#64 else (load M (e.base rn) (bytes size)).setWidth 64 := by
    rw [← hseen]
    exact hend.read_dest (cas_scratch d).rs
  have hrt : rt ≠ rs → t.core.read rt = e.read rt := fun hne => hend.read_other (cas_scratch d).rt hne
  unfold SwapsAs LeavesAs
  rw [load_exec, read_exec_dest, hstored]
  change (load t.mem (e.base rn) (bytes size) = (if load m (e.base rn) (bytes size) = (e.read rs).setWidth _ then
    (e.read rt).setWidth _ else load m (e.base rn) (bytes size)) ∧ t.core.read rs = if rs = 31#5 then 0#64 else
    (load m (e.base rn) (bytes size)).setWidth 64) ∧ (casEqual d e M = true ↔ _) ∧ _ ↔ _
  rw [hcell, hdest]
  generalize casEqual d e M = b at *
  generalize load M (e.base rn) (bytes size) = seen at *
  generalize load m (e.base rn) (bytes size) = old at *
  generalize (e.read rs).setWidth (8*bytes size) = c at *
  constructor
  · rintro ⟨⟨hmem,-⟩,hst,-⟩
    have hso : seen = old := by
      cases b with
      | true => exact (heq.mp rfl).1.trans (hst.mp rfl).symm
      | false =>
        have hne : ¬old = c := fun h => by simpa using hst.mpr h
        simpa [hne] using hmem
    exact ⟨hso,fun hw => (heq.mp (hst.mpr hw.2)).2 hw.1⟩
  · rintro ⟨rfl,hw⟩
    have hst : b = true ↔ seen = c := heq.trans ⟨And.left,fun h => ⟨h,fun hb => hw ⟨hb,h⟩⟩⟩
    refine ⟨⟨?_,by by_cases h31 : rs = 31#5 <;> simp [h31]⟩,hst,hrt⟩
    by_cases hb : seen = c
    · rw [if_pos hb, if_pos (hst.mpr hb)]
    · rw [if_neg hb, if_neg (mt hst.mp hb)]

/-- A compare-and-swap island acts as the instruction exactly when the saved registers do not change
the cell and it is not a byte or halfword equal to the low bits of a wide comparison register. -/
theorem casIsland_swapsAs_iff {w : Word} (hw : decodeAtomic w = some (.cas size acquire release rs rt rn))
    (hd : decodeLse w = some d) (hrn : rn ≠ 31#5) (e : Core) (m : Memory) (origAddr : ℤ) (n : ℕ) :
    ∃ t, RunsTo e.pc (emitIsland d e.pc origAddr) ⟨e,m,n,[]⟩ t ∧
      (SwapsAs size acquire release rs rt rn e m t ↔
        load (casSaved e (casS1 d) (casS2 d) m) (e.base rn) (bytes size) = load m (e.base rn) (bytes size) ∧
        ¬(WideOperand size (e.read rs) ∧
          load m (e.base rn) (bytes size) = (e.read rs).setWidth (8*bytes size))) :=
  cas_swapsAs_iff size true (Option.some.inj (hd.symm.trans (decodeLse_of_cas hw))) hrn e m origAddr n

end Cas

/-- `CASB W1, W2, [X3]`. -/
def casbWord : Word := 0x08A17C62#32

theorem decode_casbWord :
    decodeAtomic casbWord = some (.cas 0#2 false false 1#5 2#5 3#5) ∧
      decodeLse casbWord = some ⟨.cas,0#2,true,false,1#5,2#5,3#5⟩ := by decide

/-- With `X1 = 5` and a cell of 5 the swap is made. -/
theorem casIsland_swapsAs_casb :
    let e := entryCore (regFile [(1#5,5#64),(2#5,7#64),(3#5,0x1000#64)]) 0x2000#64
    decodeAtomic casbWord = some (.cas 0#2 false false 1#5 2#5 3#5) ∧
      ∃ t, RunsTo 0 (emitIsland ⟨.cas,0#2,true,false,1#5,2#5,3#5⟩ 0 100) ⟨e,fun _ => 5#8,3,[]⟩ t ∧
        SwapsAs 0#2 false false 1#5 2#5 3#5 e (fun _ => 5#8) t := by
  intro e
  obtain ⟨t,ht,hiff⟩ := casIsland_swapsAs_iff 0#2 decode_casbWord.1 decode_casbWord.2 (by decide) e
    (fun _ => 5#8) 100 3
  exact ⟨decode_casbWord.1,t,ht,hiff.mpr ⟨by decide,by decide⟩⟩

/-- With `X1 = 0x105` the low byte equals the cell 5, yet the island does not store. -/
theorem casb_wide_operand :
    let e := entryCore (regFile [(1#5,0x105#64),(2#5,7#64),(3#5,0x1000#64)]) 0x2000#64
    decodeAtomic casbWord = some (.cas 0#2 false false 1#5 2#5 3#5) ∧
      decodeLse casbWord = some ⟨.cas,0#2,true,false,1#5,2#5,3#5⟩ ∧
      ∃ t, RunsTo 0 (emitIsland ⟨.cas,0#2,true,false,1#5,2#5,3#5⟩ 0 100) ⟨e,fun _ => 5#8,0,[]⟩ t ∧
        ¬SwapsAs 0#2 false false 1#5 2#5 3#5 e (fun _ => 5#8) t := by
  intro e
  obtain ⟨t,ht,hiff⟩ := cas_swapsAs_iff 0#2 true (d := ⟨.cas,0#2,true,false,1#5,2#5,3#5⟩) rfl (by decide) e
    (fun _ => 5#8) 100 0
  refine ⟨decode_casbWord.1,decode_casbWord.2,t,ht,?_⟩
  rw [hiff]
  decide

theorem loopTrace_addr_iff (a b : Addr) (k n : ℕ) : (∀ x ∈ loopTrace a k n, x.addr = b) ↔ a = b := by
  constructor
  · intro h
    exact h (.load a k) (by simp [loopTrace])
  · rintro rfl x hx
    simp only [loopTrace, List.mem_append, List.mem_flatten, List.mem_replicate, List.mem_cons,
      List.not_mem_nil, or_false] at hx
    rcases hx with ⟨l,⟨-,rfl⟩,hx⟩ | rfl | rfl
    · rcases List.mem_pair.mp hx with rfl | rfl <;> rfl
    · rfl
    · rfl

theorem casTrace_addr_iff (d : LseDecoded) (e : Core) (M : Memory) (n : ℕ) (b : Addr) :
    (∀ x ∈ casTrace d e M n, x.addr = b) ↔ casAddr d e = b := by
  unfold casTrace
  split
  · exact loopTrace_addr_iff ..
  · simp [Access.addr]

/-- After pushes the base address is still the one of the instruction, unless it is the stack pointer. -/
theorem baseOf_eq_base_iff (e : Core) (rn : Reg) {k : ℕ} (h0 : 0 < k) (hk : k < 2^50) :
    baseOf e e.x k rn = e.base rn ↔ rn ≠ 31#5 := by
  unfold baseOf Core.base
  by_cases h : rn = 31#5
  · have hne : slot e.sp k ≠ e.sp := by
      intro he
      have hz : (slot e.sp k - e.sp).toNat = 0 := by rw [he, BitVec.sub_self]; rfl
      simp only [slot, BitVec.toNat_sub, BitVec.toNat_ofNat] at hz
      omega
    simp [h, hne]
  · simp [h]

theorem access_iff (d : LseDecoded) (e : Core) (m : Memory) (origAddr : ℤ) (n : ℕ) :
    ∃ t, RunsTo e.pc (emitIsland d e.pc origAddr) ⟨e,m,n,[]⟩ t ∧
      ((∀ x ∈ t.trace, x.addr = e.base d.rn) ↔ d.rn ≠ 31#5) := by
  unfold emitIsland
  by_cases hop : d.op = .cas
  · obtain ⟨t,ht,-,htr⟩ := casIsland_run d e.pc origAddr e m n [] rfl
    refine ⟨t,by rwa [if_pos hop],?_⟩
    rw [htr, List.nil_append, casTrace_addr_iff]
    exact baseOf_eq_base_iff e d.rn (by omega) (by omega)
  · obtain ⟨t,ht,-,htr⟩ := rmwIsland_run d hop e.pc origAddr e m n [] rfl
    refine ⟨t,by rwa [if_neg hop],?_⟩
    rw [htr, List.nil_append, loopTrace_addr_iff]
    exact baseOf_eq_base_iff e d.rn (by omega) (by omega)

/-- The exclusive accesses of an island go to the base address of the instruction, unless that is the
stack pointer, which the saves have moved. -/
theorem island_access_iff {w : Word} {d : LseDecoded} (_hd : decodeLse w = some d) (e : Core) (m : Memory)
    (origAddr : ℤ) (n : ℕ) :
    ∃ t, RunsTo e.pc (emitIsland d e.pc origAddr) ⟨e,m,n,[]⟩ t ∧
      ((∀ x ∈ t.trace, x.addr = e.base d.rn) ↔ d.rn ≠ 31#5) :=
  access_iff d e m origAddr n

theorem island_access_ldadd :
    let e := entryCore (regFile [(1#5,0x1000#64)]) 0x2000#64
    decodeLse ldaddWord = some ldaddX ∧
      ∃ t, RunsTo 0 (emitIsland ldaddX 0 100) ⟨e,fun _ => 0#8,0,[]⟩ t ∧ ∀ x ∈ t.trace, x.addr = 0x1000#64 := by
  intro e
  obtain ⟨t,ht,hiff⟩ := island_access_iff (w := ldaddWord) (d := ldaddX) (by decide) e (fun _ => 0#8) 100 0
  exact ⟨by decide,t,ht,hiff.mpr (by decide)⟩

/-- `LDADD X2, X3, [SP]` is emulated 64 bytes too low. -/
theorem ldadd_sp_address :
    let e := entryCore (regFile []) 0x2000#64
    decodeLse 0xF82203E3#32 = some ⟨.ldadd,3#2,false,false,2#5,3#5,31#5⟩ ∧
      ∃ t, RunsTo 0 (emitIsland ⟨.ldadd,3#2,false,false,2#5,3#5,31#5⟩ 0 100) ⟨e,fun _ => 0#8,0,[]⟩ t ∧
        ¬∀ x ∈ t.trace, x.addr = 0x2000#64 := by
  intro e
  obtain ⟨t,ht,hiff⟩ := access_iff ⟨.ldadd,3#2,false,false,2#5,3#5,31#5⟩ e (fun _ => 0#8) 100 0
  exact ⟨by decide,t,ht,fun h => hiff.mp h rfl⟩

end Machismo.IsaEmul
