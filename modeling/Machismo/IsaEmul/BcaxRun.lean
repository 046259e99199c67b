import Machismo.IsaEmul.Frame

/-! # The BCAX island

Where `Va` is `Vd` the island computes in `Vd` itself, which is wrong when `Vn` is `Vd` too: the
second instruction then reads what the first has written. Otherwise a scratch register is saved
below the stack pointer, used for the intermediate value and restored.
-/
namespace Machismo.IsaEmul
open A64

theorem bcaxScratch_notMem (b : Bcax) : bcaxScratch b ∉ [b.va,b.vm,b.vn,b.vd] := by
  have hex := (((excludes_regBit b.vd).or b.vn).or b.vm).or b.va
  unfold bcaxScratch
  cases hf : ((List.range 32).reverse.map (BitVec.ofNat 5)).find?
      (fun r => (regBit b.vd ||| regBit b.vn ||| regBit b.vm ||| regBit b.va) &&& regBit r = 0#32) with
  | some r =>
    simp only [hf, Option.getD_some]
    exact (hex r).mp (by simpa using List.find?_some hf)
  | none =>
    have hsub : (List.range 32).reverse.map (BitVec.ofNat 5) ⊆ [b.va,b.vm,b.vn,b.vd] := by
      intro r hr
      have := List.find?_eq_none.mp hf r hr
      rwa [decide_eq_true_eq, hex r, not_not] at this
    have hnd : ((List.range 32).reverse.map (BitVec.ofNat 5)).Nodup := by decide
    have := (hnd.subperm hsub).length_le
    simp at this

def bcaxBody (b : Bcax) (vtmp : Reg) : List Insn :=
  if b.va = b.vd then [.vbic b.vd b.vm b.vd, .veor b.vd b.vn b.vd]
  else [pushQ vtmp, .vbic vtmp b.vm b.va, .veor b.vd b.vn vtmp, popQ vtmp]

theorem decode_emitBcaxIsland (b : Bcax) (island origAddr : ℤ) :
    (emitBcaxIsland b island origAddr).map decode = (bcaxBody b (bcaxScratch b) ++ [Insn.b (BitVec.ofInt 26
      (backOffset island origAddr (emitBcaxIsland b island origAddr).length))]).map some := by
  apply decode_branchBack
  unfold bcaxBody
  split <;> simp [pushQ, popQ, decode_encStrQPre, decode_encLdrQPost, decode_encNeonBic, decode_encNeonEor]

/-- The vector registers a `BCAX` island leaves. -/
def bcaxRegs (b : Bcax) (v : Reg → BitVec 128) : Reg → BitVec 128 :=
  if b.va = b.vd then
    let v1 := Function.update v b.vd (v b.vm &&& ~~~v b.vd)
    Function.update v1 b.vd (v1 b.vn ^^^ v1 b.vd)
  else Function.update v b.vd (v b.vn ^^^ (v b.vm &&& ~~~v b.va))

def bcaxMem (b : Bcax) (e : Core) (m : Memory) : Memory :=
  if b.va = b.vd then m else store m (slot e.sp 1) 16 (e.v (bcaxScratch b))

/-- The four instructions around a scratch register, which the last one gives back. -/
theorem update_scratch {vtmp vd : Reg} (h : vd ≠ vtmp) (v : Reg → BitVec 128) (x y : BitVec 128) :
    Function.update (Function.update (Function.update v vtmp x) vd y) vtmp (v vtmp) = Function.update v vd y := by
  funext r
  by_cases hr : r = vtmp
  · rw [hr, Function.update_self, Function.update_of_ne h.symm]
  · rw [Function.update_of_ne hr]
    by_cases hd : r = vd
    · rw [hd, Function.update_self, Function.update_self]
    · rw [Function.update_of_ne hd, Function.update_of_ne hd, Function.update_of_ne hr]

theorem bcaxBody_run (b : Bcax) (e : Core) (m : Memory) (n : ℕ) :
    (bcaxBody b (bcaxScratch b)).foldl advance ⟨e,m,n,[]⟩ =
      ⟨{ e with v := bcaxRegs b e.v, pc := e.pc + (bcaxBody b (bcaxScratch b)).length },bcaxMem b e m,n,[]⟩ := by
  have hs := bcaxScratch_notMem b
  simp only [List.mem_cons, List.not_mem_nil, or_false, not_or] at hs
  unfold bcaxBody bcaxRegs bcaxMem
  by_cases h : b.va = b.vd
  · simp only [h, ↓reduceIte, List.foldl_cons, List.foldl_nil, advance, exec, Core.next]
    simp [accesses, Insn.isStxr, add_assoc]
  · have hpush : e.sp + (0x1F0#9).signExtend 64 = slot e.sp 1 := by simpa using slot_push e.sp 0
    have hpop : slot e.sp 1 + (0x010#9).signExtend 64 = e.sp := by simpa using slot_pop e.sp 0
    simp only [h, ↓reduceIte, List.foldl_cons, List.foldl_nil, advance, exec, Core.next, pushQ, popQ, Core.base,
      Core.setBase, hpush, hpop, load_store_same _ _ 16 _ (by omega), Function.update_self,
      Function.update_of_ne (Ne.symm hs.2.2.1), update_scratch (Ne.symm hs.2.2.2)]
    simp [accesses, Insn.isStxr, add_assoc]

theorem bcaxIsland_run (b : Bcax) (e : Core) (m : Memory) (origAddr : ℤ) (n : ℕ) :
    ∃ t, RunsTo e.pc (emitBcaxIsland b e.pc origAddr) ⟨e,m,n,[]⟩ t ∧
      t.core.v = bcaxRegs b e.v ∧ t.core.sp = e.sp ∧ t.mem = bcaxMem b e m := by
  have hd := decode_emitBcaxIsland b e.pc origAddr
  have hrun := bcaxBody_run b e m n
  have hblock : (emitBcaxIsland b e.pc origAddr).map decode = ([] ++ bcaxBody b (bcaxScratch b) ++ [Insn.b
      (BitVec.ofInt 26 (backOffset e.pc origAddr (emitBcaxIsland b e.pc origAddr).length))]).map some := hd
  have hstraight : ∀ i ∈ bcaxBody b (bcaxScratch b), i.straight := by
    unfold bcaxBody
    split <;> simp [pushQ, popQ, Insn.straight]
  have hlast := runsTo_last hd (s := (bcaxBody b (bcaxScratch b)).foldl advance ⟨e,m,n,[]⟩) (by rw [hrun])
  rw [hrun] at hlast
  exact ⟨_,runsTo_block hblock (by simp) (by simp) hstraight (by rw [hrun]; exact hlast),rfl,rfl,rfl⟩

/-- The island does what `BCAX` does: the result in `Vd`, all other vector registers, the stack pointer
and the memory at or above it kept. -/
def BcaxAs (b : Bcax) (e : Core) (m : Memory) (t : State) : Prop :=
  t.core.v = (execBcax b.vd b.vn b.vm b.va e).v ∧ t.core.sp = e.sp ∧
    ∀ a : Addr, e.sp.toNat ≤ a.toNat → t.mem a = m a

/-- In the path without a scratch register a `Vn` that is `Vd` is lost: the result is zero. -/
theorem bcaxRegs_iff (b : Bcax) (v : Reg → BitVec 128) :
    bcaxRegs b v = Function.update v b.vd (v b.vn ^^^ (v b.vm &&& ~~~v b.va)) ↔
      (b.va = b.vd ∧ b.vn = b.vd → v b.vd = 0#128 ∧ v b.vm = 0#128) := by
  unfold bcaxRegs
  by_cases ha : b.va = b.vd
  · simp only [ha, ↓reduceIte, true_and, Function.update_self, Function.update_idem]
    by_cases hn : b.vn = b.vd
    · have hor : v b.vd ^^^ (v b.vm &&& ~~~v b.vd) = v b.vd ||| v b.vm := by
        apply BitVec.eq_of_getLsbD_eq
        intro i hi
        simp only [BitVec.getLsbD_xor, BitVec.getLsbD_and, BitVec.getLsbD_not, BitVec.getLsbD_or, hi, decide_true,
          Bool.true_and]
        cases (v b.vd).getLsbD i <;> simp
      simp only [hn, Function.update_self, BitVec.xor_self, forall_const, hor]
      rw [(Function.update_injective v b.vd).eq_iff, eq_comm, BitVec.or_eq_zero_iff]
    · simp [hn]
  · simp [ha]

/-- With 16 bytes of room below the stack pointer the save touches nothing at or above it. -/
theorem save_below {sp a : Addr} (hsp : 16 ≤ sp.toNat) (ha : sp.toNat ≤ a.toNat) (m : Memory) (x : BitVec 128) :
    store m (sp - 16#64) 16 x a = m a := by
  have hlt := a.isLt
  apply store_outside
  simp only [BitVec.toNat_sub, BitVec.toNat_ofNat]
  omega

theorem bcaxAs_iff (b : Bcax) (e : Core) (m : Memory) (origAddr : ℤ) (n : ℕ) :
    ∃ t, RunsTo e.pc (emitBcaxIsland b e.pc origAddr) ⟨e,m,n,[]⟩ t ∧
      (BcaxAs b e m t ↔
        (b.va = b.vd ∧ b.vn = b.vd → e.v b.vd = 0#128 ∧ e.v b.vm = 0#128) ∧
        (b.va ≠ b.vd → ∀ a : Addr, e.sp.toNat ≤ a.toNat →
          store m (e.sp - 16#64) 16 (e.v (bcaxScratch b)) a = m a)) := by
  obtain ⟨t,ht,hv,hsp,hm⟩ := bcaxIsland_run b e m origAddr n
  refine ⟨t,ht,?_⟩
  have hregs := bcaxRegs_iff b e.v
  have hmem : (∀ a : Addr, e.sp.toNat ≤ a.toNat → bcaxMem b e m a = m a) ↔ (b.va ≠ b.vd → ∀ a : Addr,
      e.sp.toNat ≤ a.toNat → store m (e.sp - 16#64) 16 (e.v (bcaxScratch b)) a = m a) := by
    unfold bcaxMem
    by_cases ha : b.va = b.vd <;> simp [ha, slot]
  simp only [BcaxAs, hv, hm, hsp, execBcax, Core.next, true_and, hregs, hmem]

/-- A `BCAX` island acts as the instruction exactly when `Vn` is not lost, or is zero and so is the
result, and the scratch register saved below the stack pointer does not wrap around to above it. -/
theorem bcaxIsland_bcaxAs_iff {w : Word} {b : Bcax} (_hw : decodeBcax w = some b) (e : Core) (m : Memory)
    (origAddr : ℤ) (n : ℕ) :
    ∃ t, RunsTo e.pc (emitBcaxIsland b e.pc origAddr) ⟨e,m,n,[]⟩ t ∧
      (BcaxAs b e m t ↔
        (b.va = b.vd ∧ b.vn = b.vd → e.v b.vd = 0#128 ∧ e.v b.vm = 0#128) ∧
        (b.va ≠ b.vd → ∀ a : Addr, e.sp.toNat ≤ a.toNat →
          store m (e.sp - 16#64) 16 (e.v (bcaxScratch b)) a = m a)) :=
  bcaxAs_iff b e m origAddr n

/-- `BCAX V0, V1, V2, V3`. -/
theorem bcaxIsland_bcaxAs_distinct :
    let e := entryCore (regFile []) 0x2000#64
    decodeBcax 0xCE220C20#32 = some ⟨0#5,1#5,2#5,3#5⟩ ∧
      ∃ t, RunsTo 0 (emitBcaxIsland ⟨0#5,1#5,2#5,3#5⟩ 0 100) ⟨e,fun _ => 0#8,0,[]⟩ t ∧
        BcaxAs ⟨0#5,1#5,2#5,3#5⟩ e (fun _ => 0#8) t := by
  intro e
  have hw : decodeBcax 0xCE220C20#32 = some ⟨0#5,1#5,2#5,3#5⟩ := by decide
  obtain ⟨t,ht,hiff⟩ := bcaxIsland_bcaxAs_iff hw e (fun _ => 0#8) 100 0
  refine ⟨hw,t,ht,hiff.mpr ⟨by decide,fun _ a ha => ?_⟩⟩
  exact save_below (by decide) ha _ _

/-- `BCAX V0, V0, V1, V0` with `V0 = 1` and `V1 = 0` should leave 1 but gives 0. -/
theorem bcax_operand_lost :
    let e : Core := { entryCore (regFile []) 0x2000#64 with v := fun r => if r = 0#5 then 1#128 else 0#128 }
    decodeBcax 0xCE210000#32 = some ⟨0#5,0#5,1#5,0#5⟩ ∧
      ∃ t, RunsTo 0 (emitBcaxIsland ⟨0#5,0#5,1#5,0#5⟩ 0 100) ⟨e,fun _ => 0#8,0,[]⟩ t ∧
        ¬BcaxAs ⟨0#5,0#5,1#5,0#5⟩ e (fun _ => 0#8) t := by
  intro e
  obtain ⟨t,ht,hiff⟩ := bcaxAs_iff ⟨0#5,0#5,1#5,0#5⟩ e (fun _ => 0#8) 100 0
  refine ⟨by decide,t,ht,?_⟩
  rw [hiff]
  exact fun h => absurd (h.1 ⟨rfl,rfl⟩).1 (by decide)

end Machismo.IsaEmul
