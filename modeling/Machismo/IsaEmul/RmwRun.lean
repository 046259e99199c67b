import Machismo.IsaEmul.Steps

/-! # The run of a read-modify-write island on one core

The island saves three scratch registers and the flags, repeats load, operation and
store-exclusive until the store takes effect, copies the loaded value to the destination and
restores what it saved. The final state is given in closed form, for every base register and
every overlap of the accessed cell with the saved registers.
-/
namespace Machismo.IsaEmul
open A64

theorem picked_rmwMask (d : LseDecoded) :
    ∃ l, Picked (rmwMask d) [] l ∧ l.length ≤ 4 ∧ 31#5 ∈ l ∧ d.rs ∈ l ∧ d.rn ∈ l ∧ d.rt ∈ l := by
  have h := ((excludes_regBit 31#5).or d.rs).or d.rn
  unfold rmwMask
  by_cases hrt : d.rt = 31#5
  · exact ⟨_, .start (by simpa [hrt] using h), by simp, by simp, by simp, by simp, by simp [hrt]⟩
  · exact ⟨_, .start (by simpa [hrt] using h.or d.rt), by simp, by simp, by simp, by simp, by simp⟩

/-- The three registers `pickScratch` chooses are distinct and unused by the instruction. -/
theorem rmw_scratch (d : LseDecoded) : Scratch d [rmwS1 d,rmwS2 d,rmwS3 d] := by
  obtain ⟨l,hl,hlen,hx,hrs,hrn,hrt⟩ := picked_rmwMask d
  have h3 := ((hl.pick (by simp; omega)).pick (by simp; omega)).pick (by simp; omega)
  exact h3.scratch hx hrs hrt hrn

/-- The flags the selection of a signed minimum or maximum sees. -/
def signedFlags (d : LseDecoded) (a r : BitVec 64) : Flags :=
  if d.size.toNat < 2 then flagsAtWidth false (sxtValue (signPos d) a) (sxtValue (signPos d) r)
  else flagsAtWidth d.isX a r

/-- The register the store-exclusive writes out, from the loaded value and the operand. -/
def newVal (d : LseDecoded) (a r : BitVec 64) : BitVec 64 :=
  match d.op with
  | .ldadd => atWidth d.isX (fun a b => AluOp.add.eval a b) a r
  | .ldclr => atWidth d.isX (fun a b => AluOp.bic.eval a b) a r
  | .ldeor => atWidth d.isX (fun a b => AluOp.eor.eval a b) a r
  | .ldset => atWidth d.isX (fun a b => AluOp.orr.eval a b) a r
  | .ldsmax => cselValue d.isX (condHolds condLT (signedFlags d a r)) r a
  | .ldsmin => cselValue d.isX (condHolds condGT (signedFlags d a r)) r a
  | .ldumax => cselValue d.isX (condHolds condLO (flagsAtWidth d.isX a r)) r a
  | .ldumin => cselValue d.isX (condHolds condHI (flagsAtWidth d.isX a r)) r a
  | .swp => atWidth d.isX (fun a b => AluOp.orr.eval a b) 0#64 r
  | .cas => a

theorem isPure_opInsns (d : LseDecoded) (s1 s2 s3 : Reg) : ∀ i ∈ opInsns d s1 s2 s3, isPure i := by
  unfold opInsns
  cases d.op <;> by_cases hsz : d.size.toNat < 2 <;> simp [hsz, isPure, cmpInsn, movInsn]

section Run
variable {d : LseDecoded} {s1 s2 s3 : Reg} (h : Scratch d [s1,s2,s3])
variable (e : Core) (m : Memory) (n : ℕ) (tr : List Access)
include h

/-- The operation block leaves its result in the second scratch register and touches, besides it,
only the third one. -/
theorem opInsns_value (hop : d.op ≠ .cas) (ρ : RegFile) (f : Flags) :
    AgreeOff [s2,s3] ((opInsns d s1 s2 s3).foldl pureStep (ρ,f)).1 ρ ∧
      ((opInsns d s1 s2 s3).foldl pureStep (ρ,f)).1 s2 = newVal d (ρ s1) (operand ρ d.rs) := by
  have hr2 : d.rs ≠ s2 := fun he => h.rs (by simp [he])
  have hr3 : d.rs ≠ s3 := fun he => h.rs (by simp [he])
  have hs1 := operand_of_ne ρ h.s1_ne_xzr
  have hset : ∀ (ρ' : RegFile) (a : BitVec 64), setReg ρ' s2 a = Function.update ρ' s2 a :=
    fun ρ' a => if_neg h.s2_ne_xzr
  have hset3 : ∀ (ρ' : RegFile) (a : BitVec 64), setReg ρ' s3 a = Function.update ρ' s3 a :=
    fun ρ' a => if_neg h.s3_ne_xzr
  have hz : ∀ (ρ' : RegFile) (a : BitVec 64), setReg ρ' 31#5 a = ρ' := fun _ _ => rfl
  unfold opInsns
  cases ho : d.op
  case cas => exact absurd ho hop
  case ldadd | ldclr | ldeor | ldset =>
    simp only [List.foldl_cons, List.foldl_nil, pureStep, hset, newVal, ho, hs1, Function.update_self]
    exact ⟨(AgreeOff.refl _ ρ).update (by simp) _,trivial⟩
  case swp =>
    simp only [List.foldl_cons, List.foldl_nil, movInsn, pureStep, hset, newVal, ho, Function.update_self]
    exact ⟨(AgreeOff.refl _ ρ).update (by simp) _,rfl⟩
  case ldumax | ldumin =>
    simp only [List.foldl_cons, List.foldl_nil, cmpInsn, pureStep, hset, hz, newVal, ho, hs1,
      Function.update_self]
    exact ⟨(AgreeOff.refl _ ρ).update (by simp) _,rfl⟩
  case ldsmax | ldsmin =>
    by_cases hsz : d.size.toNat < 2
    · simp only [if_pos hsz, List.cons_append, List.nil_append, List.foldl_cons, List.foldl_nil, cmpInsn,
        pureStep, hset, hset3, hz, newVal, signedFlags, ho, hs1, Function.update_self,
        operand_update_self _ h.s2_ne_xzr, operand_update_self _ h.s3_ne_xzr,
        operand_update_of_ne _ hr2, operand_update_of_ne _ hr3, operand_update_of_ne _ h.s1_ne_s2,
        operand_update_of_ne _ h.s1_ne_s3, operand_update_of_ne _ h.s2_ne_s3]
      refine ⟨?_,rfl⟩
      exact (((AgreeOff.refl _ ρ).update (by simp) _).update (by simp) _).update (by simp) _
    · simp only [if_neg hsz, List.cons_append, List.nil_append, List.foldl_cons, List.foldl_nil, cmpInsn,
        pureStep, hset, hz, newVal, signedFlags, ho, hs1, Function.update_self]
      exact ⟨(AgreeOff.refl _ ρ).update (by simp) _,rfl⟩

def rmwSaved (e : Core) (s1 s2 s3 : Reg) (m : Memory) : Memory :=
  store (store (store (store m (slot e.sp 1) 8 (e.x s1)) (slot e.sp 2) 8 (e.x s2))
    (slot e.sp 3) 8 (e.x s3)) (slot e.sp 4) 8 e.flags.toReg

theorem rmwSave_run : (rmwSave s1 s2 s3).foldl advance ⟨e,m,n,tr⟩ =
    ⟨inIsland e (Function.update e.x s1 e.flags.toReg) e.flags 4 (e.pc+5) e.monitor,
      rmwSaved e s1 s2 s3 m,n,tr⟩ := by
  conv_lhs => rw [← inIsland_entry e]
  simp only [rmwSave, List.foldl_cons, List.foldl_nil, advance_push _ _ _ _ _ _ _ _ _ h.s1_ne_xzr,
    advance_push _ _ _ _ _ _ _ _ _ h.s2_ne_xzr, advance_push _ _ _ _ _ _ _ _ _ h.s3_ne_xzr,
    advance_mrs _ _ _ _ _ _ _ _ _ h.s1_ne_xzr, Function.update_self]
  simp [rmwSaved, add_assoc]

/-- The address the exclusive pair uses: the stack pointer has moved by four slots. -/
def rmwAddr (d : LseDecoded) (e : Core) : Addr := baseOf e e.x 4 d.rn

def rmwSeen (d : LseDecoded) (e : Core) (M : Memory) : BitVec (8*bytes d.size) :=
  load M (rmwAddr d e) (bytes d.size)

def rmwStored (d : LseDecoded) (e : Core) (M : Memory) : Memory :=
  store M (rmwAddr d e) (bytes d.size)
    ((newVal d ((rmwSeen d e M).setWidth 64) (e.read d.rs)).setWidth (8*bytes d.size))

theorem opInsns_after (hop : d.op ≠ .cas) {ρ : RegFile} (hρ : AgreeOff [s1,s2,s3] ρ e.x) (f : Flags)
    (a : BitVec 64) :
    let r := ((opInsns d s1 s2 s3).foldl pureStep (Function.update ρ s1 a,f)).1
    AgreeOff [s1,s2,s3] r e.x ∧ r s1 = a ∧ operand r s2 = newVal d a (e.read d.rs) := by
  have ha1 : AgreeOff [s1,s2,s3] (Function.update ρ s1 a) e.x := hρ.update (by simp) _
  obtain ⟨hag,hval⟩ := opInsns_value h hop (Function.update ρ s1 a) f
  refine ⟨fun q hq => (hag q (fun hm => hq (List.mem_cons_of_mem _ hm))).trans (ha1 q hq),?_,?_⟩
  · rw [hag s1 (by simp [h.s1_ne_s2, h.s1_ne_s3]), Function.update_self]
  · rw [operand_of_ne _ h.s2_ne_xzr, hval, Function.update_self, ha1.operand h.rs]
    rfl

theorem rmwBody_run (hop : d.op ≠ .cas) {ρ : RegFile} (hρ : AgreeOff [s1,s2,s3] ρ e.x) (f : Flags)
    (pc : ℤ) (mon : Monitor) :
    ∃ ρ' f', (rmwBody d s1 s2 s3).foldl advance ⟨inIsland e ρ f 4 pc mon,m,n,tr⟩ =
        ⟨inIsland e ρ' f' 4 (pc + (rmwBody d s1 s2 s3).length) none,
          if n = 0 then rmwStored d e m else m, n - 1,
          tr ++ [.load (rmwAddr d e) (bytes d.size), .store (rmwAddr d e) (bytes d.size) (n = 0)]⟩ ∧
      AgreeOff [s1,s2,s3] ρ' e.x ∧ ρ' s1 = (rmwSeen d e m).setWidth 64 ∧
      ρ' s3 = if n = 0 then 0#64 else 1#64 := by
  have hbase : ∀ {ρ : RegFile}, AgreeOff [s1,s2,s3] ρ e.x → baseOf e ρ 4 d.rn = rmwAddr d e := by
    intro ρ hρ
    simp only [baseOf, rmwAddr, hρ d.rn h.rn]
  obtain ⟨har,hr1,hr2⟩ := opInsns_after h e hop hρ f ((rmwSeen d e m).setWidth 64)
  obtain ⟨r,hr⟩ : ∃ r, r = (opInsns d s1 s2 s3).foldl pureStep
    (Function.update ρ s1 ((rmwSeen d e m).setWidth 64),f) := ⟨_,rfl⟩
  rw [← hr] at har hr1 hr2
  refine ⟨Function.update r.1 s3 (if n = 0 then 0#64 else 1#64),r.2,?_,har.update (by simp) _,?_,
    Function.update_self ..⟩
  · have hfold : ∀ st, (rmwBody d s1 s2 s3).foldl advance st = advance ((opInsns d s1 s2 s3).foldl advance
        (advance st (.ldxr d.size d.acquire s1 d.rn))) (.stxr d.size d.release s3 s2 d.rn) := by
      simp [rmwBody]
    rw [hfold, advance_ldxr _ _ _ _ _ _ _ _ _ _ _ _ h.s1_ne_xzr, hbase hρ]
    change advance ((opInsns d s1 s2 s3).foldl advance
      ⟨inIsland e (Function.update ρ s1 ((rmwSeen d e m).setWidth 64)) f 4 _ _,m,n,_⟩) _ = _
    rw [foldl_advance_pure e 4 _ m n _ _ (isPure_opInsns d s1 s2 s3) (_,f), ← hr, ← hbase har,
      advance_stxr _ _ _ _ _ _ _ _ _ _ _ _ h.s3_ne_xzr, hr2, hbase har]
    have hpc : pc + 1 + ((opInsns d s1 s2 s3).length : ℤ) + 1 = pc + (rmwBody d s1 s2 s3).length := by
      simp only [rmwBody, List.length_cons, List.length_append, List.length_nil]
      push_cast
      ring
    rw [hpc]
    simp [rmwStored]
  · rw [Function.update_of_ne h.s1_ne_s3, hr1]

omit h in
theorem length_opInsns_le (d : LseDecoded) (s1 s2 s3 : Reg) : (opInsns d s1 s2 s3).length ≤ 4 := by
  unfold opInsns
  cases d.op <;> by_cases hsz : d.size.toNat < 2 <;> simp [hsz]

omit h in
theorem straight_rmwBody (d : LseDecoded) (s1 s2 s3 : Reg) : ∀ i ∈ rmwBody d s1 s2 s3, i.straight := by
  intro i hi
  simp only [rmwBody, List.cons_append, List.mem_cons, List.mem_append, List.not_mem_nil, or_false] at hi
  rcases hi with rfl | hi | rfl
  · rfl
  · have := isPure_opInsns d s1 s2 s3 i hi
    cases i <;> simp [isPure] at this <;> rfl
  · rfl

omit h in
theorem retryOffset_toInt (d : LseDecoded) (s1 s2 s3 : Reg) :
    (BitVec.ofInt 19 (-(rmwBody d s1 s2 s3).length)).toInt = -(rmwBody d s1 s2 s3).length := by
  have hle := length_opInsns_le d s1 s2 s3
  have hlen : (rmwBody d s1 s2 s3).length = (opInsns d s1 s2 s3).length + 2 := by
    simp [rmwBody]
  rw [BitVec.toInt_ofInt]
  apply Int.bmod_eq_of_le <;> rw [hlen] <;> push_cast <;> omega

end Run

section Loop
variable {d : LseDecoded} {s1 s2 s3 : Reg} (h : Scratch d [s1,s2,s3]) (hop : d.op ≠ .cas)
variable (island : ℤ) {off : ℤ} {ws : List Word} (hd : ws.map decode = (rmwInsns d s1 s2 s3 off).map some)
variable (e : Core) (m : Memory)
include h hop hd

/-- The loop, by induction on the failures still to come. -/
theorem rmwLoop_run (n : ℕ) (tr : List Access) {ρ : RegFile} (hρ : AgreeOff [s1,s2,s3] ρ e.x) (f : Flags)
    (mon : Monitor) :
    ∃ ρ' f', AgreeOff [s1,s2,s3] ρ' e.x ∧ ρ' s1 = (rmwSeen d e m).setWidth 64 ∧
      ∀ t, RunsTo island ws ⟨inIsland e ρ' f' 4 (island + 6 + (rmwBody d s1 s2 s3).length) none,
          rmwStored d e m,0,tr ++ loopTrace (rmwAddr d e) (bytes d.size) n⟩ t →
        RunsTo island ws ⟨inIsland e ρ f 4 (island + 5) mon,m,n,tr⟩ t := by
  have hbody : ws.map decode = (rmwSave s1 s2 s3 ++ rmwBody d s1 s2 s3 ++ ([rmwRetry d s1 s2 s3] ++
      moveResult d d.rt s1 ++ rmwRestore s1 s2 s3 ++ [Insn.b (BitVec.ofInt 26 off)])).map some := by
    simpa [rmwInsns] using hd
  have hretry : ws.map decode = ((rmwSave s1 s2 s3 ++ rmwBody d s1 s2 s3) ++ rmwRetry d s1 s2 s3 ::
      (moveResult d d.rt s1 ++ rmwRestore s1 s2 s3 ++ [Insn.b (BitVec.ofInt 26 off)])).map some := by
    simpa [rmwInsns] using hd
  have hpc : island + 5 + ((rmwBody d s1 s2 s3).length : ℤ) =
      island + (rmwSave s1 s2 s3 ++ rmwBody d s1 s2 s3).length := by
    rw [List.length_append, Nat.cast_add, add_assoc]
    rfl
  induction n generalizing tr ρ f mon with
  | zero =>
    obtain ⟨ρ',f',hrun,ha,hv,hz⟩ := rmwBody_run h e m 0 tr hop hρ f (island + 5) mon
    refine ⟨ρ',f',ha,hv,fun t ht => ?_⟩
    apply runsTo_block hbody (by simp) rfl (straight_rmwBody d s1 s2 s3)
    rw [hrun]
    apply runsTo_step hretry (by simp) hpc
    rw [rmwRetry, advance_cbnz, operand_of_ne _ h.s3_ne_xzr, hz]
    have : island + 5 + ((rmwBody d s1 s2 s3).length : ℤ) + 1 = island + 6 + (rmwBody d s1 s2 s3).length := by
      ring
    simpa [this, loopTrace] using ht
  | succ n ih =>
    obtain ⟨ρ1,f1,hrun,ha1,hv1,hz⟩ := rmwBody_run h e m (n+1) tr hop hρ f (island + 5) mon
    obtain ⟨ρ',f',ha,hv,hcont⟩ := ih (tr ++ [.load (rmwAddr d e) (bytes d.size),
      .store (rmwAddr d e) (bytes d.size) false]) ha1 f1 none
    refine ⟨ρ',f',ha,hv,fun t ht => ?_⟩
    apply runsTo_block hbody (by simp) rfl (straight_rmwBody d s1 s2 s3)
    rw [hrun]
    apply runsTo_step hretry (by simp) hpc
    rw [rmwRetry, advance_cbnz, operand_of_ne _ h.s3_ne_xzr, hz, retryOffset_toInt]
    have : island + 5 + ((rmwBody d s1 s2 s3).length : ℤ) + -((rmwBody d s1 s2 s3).length : ℤ) = island + 5 := by
      ring
    simp only [this]
    apply hcont
    simpa [loopTrace, List.replicate_succ] using ht

end Loop

theorem rmwRestore_run {d : LseDecoded} {s1 s2 s3 : Reg} (h : Scratch d [s1,s2,s3]) (e : Core) (ρ : RegFile)
    (f : Flags) (pc : ℤ) (mon : Monitor) (m : Memory) (n : ℕ) (tr : List Access) :
    (rmwRestore s1 s2 s3).foldl advance ⟨inIsland e ρ f 4 pc mon,m,n,tr⟩ =
      ⟨inIsland e (Function.update (Function.update (Function.update (Function.update ρ
          s1 (load m (slot e.sp 4) 8)) s3 (load m (slot e.sp 3) 8)) s2 (load m (slot e.sp 2) 8))
          s1 (load m (slot e.sp 1) 8)) (Flags.ofReg (load m (slot e.sp 4) 8)) 0 (pc+5) mon,m,n,tr⟩ := by
  simp only [rmwRestore, List.foldl_cons, List.foldl_nil, advance_pop _ _ _ _ _ _ _ _ _ h.s1_ne_xzr,
    advance_pop _ _ _ _ _ _ _ _ _ h.s2_ne_xzr, advance_pop _ _ _ _ _ _ _ _ _ h.s3_ne_xzr,
    advance_msr _ _ _ _ _ _ _ _ _ h.s1_ne_xzr, Function.update_self]
  simp [add_assoc]

theorem rmwTail_fold {d : LseDecoded} {s1 s2 s3 : Reg} (h : Scratch d [s1,s2,s3]) (e : Core) {ρ : RegFile}
    (hρ : AgreeOff [s1,s2,s3] ρ e.x) (f : Flags) (old : BitVec (8*bytes d.size)) (hv : ρ s1 = old.setWidth 64)
    (pc : ℤ) (mon : Monitor) (M : Memory) (n : ℕ) (tr : List Access) :
    ∃ ρ', (moveResult d d.rt s1 ++ rmwRestore s1 s2 s3).foldl advance ⟨inIsland e ρ f 4 pc mon,M,n,tr⟩ =
        ⟨inIsland e ρ' (Flags.ofReg (load M (slot e.sp 4) 8)) 0
          (pc + (moveResult d d.rt s1 ++ rmwRestore s1 s2 s3).length) mon,M,n,tr⟩ ∧
      Restored [s1,s2,s3] e ρ' M d.rt (old.setWidth 64) := by
  have hmove : atWidth d.isX (fun a b => AluOp.orr.eval a b) 0#64 (operand ρ s1) = old.setWidth 64 := by
    rw [operand_of_ne _ h.s1_ne_xzr, hv, move_zeroExtend]
  have hlen : pc + (moveResult d d.rt s1).length + 5 =
      pc + (moveResult d d.rt s1 ++ rmwRestore s1 s2 s3).length := by
    rw [List.length_append, Nat.cast_add, ← add_assoc]
    rfl
  rw [List.foldl_append, moveResult_run, hmove, rmwRestore_run h, hlen]
  refine ⟨_,rfl,?_,fun k hk => ?_⟩
  · exact ((((hρ.setReg d.rt _).update (by simp) _).update (by simp) _).update (by simp) _).update (by simp) _
  · match k, hk with
    | 0, _ => simp
    | 1, _ => simp [Function.update_of_ne h.s1_ne_s2.symm]
    | 2, _ => simp [Function.update_of_ne h.s1_ne_s3.symm, Function.update_of_ne h.s2_ne_s3.symm]

theorem rmwTail_run {d : LseDecoded} {s1 s2 s3 : Reg} (h : Scratch d [s1,s2,s3]) (island : ℤ) {off : ℤ} {ws : List Word}
    (hd : ws.map decode = (rmwInsns d s1 s2 s3 off).map some) (e : Core) (M : Memory) {ρ : RegFile}
    (hρ : AgreeOff [s1,s2,s3] ρ e.x) (f : Flags) (old : BitVec (8*bytes d.size)) (hv : ρ s1 = old.setWidth 64)
    (tr : List Access) :
    ∃ t, RunsTo island ws ⟨inIsland e ρ f 4 (island + 6 + (rmwBody d s1 s2 s3).length) none,M,0,tr⟩ t ∧
      IslandEnd [s1,s2,s3] e t M d.rt (old.setWidth 64) ∧ t.trace = tr := by
  have hrest : ws.map decode = ((rmwSave s1 s2 s3 ++ rmwBody d s1 s2 s3 ++ [rmwRetry d s1 s2 s3]) ++
      (moveResult d d.rt s1 ++ rmwRestore s1 s2 s3) ++ [Insn.b (BitVec.ofInt 26 off)]).map some := by
    simpa [rmwInsns] using hd
  have hstraight : ∀ i ∈ moveResult d d.rt s1 ++ rmwRestore s1 s2 s3, i.straight := by
    intro i hi
    rcases List.mem_append.mp hi with hi | hi
    · exact straight_moveResult _ _ _ i hi
    · simp only [rmwRestore, pop, List.mem_cons, List.not_mem_nil, or_false] at hi
      rcases hi with rfl | rfl | rfl | rfl | rfl <;> rfl
  obtain ⟨ρ',hend,hr⟩ := rmwTail_fold h e hρ f old hv (island + 6 + (rmwBody d s1 s2 s3).length) none M 0 tr
  have hpc : island + 6 + ((rmwBody d s1 s2 s3).length : ℤ) =
      island + (rmwSave s1 s2 s3 ++ rmwBody d s1 s2 s3 ++ [rmwRetry d s1 s2 s3]).length := by
    simp only [rmwSave, List.length_append, List.length_cons, List.length_nil]
    push_cast
    ring
  have hpc' : island + 6 + ((rmwBody d s1 s2 s3).length : ℤ) + (moveResult d d.rt s1 ++ rmwRestore s1 s2 s3).length =
      island + (rmwSave s1 s2 s3 ++ rmwBody d s1 s2 s3 ++ [rmwRetry d s1 s2 s3] ++
        (moveResult d d.rt s1 ++ rmwRestore s1 s2 s3)).length := by
    rw [hpc, add_assoc, ← Nat.cast_add, ← List.length_append]
  have hlast := runsTo_last (s := (moveResult d d.rt s1 ++ rmwRestore s1 s2 s3).foldl advance
    ⟨inIsland e ρ f 4 (island + 6 + (rmwBody d s1 s2 s3).length) none,M,0,tr⟩) hrest (by rw [hend]; exact hpc')
  have hrun := runsTo_block hrest (by simp) hpc hstraight hlast
  rw [hend, advance_b] at hrun
  exact ⟨_,hrun,⟨rfl,hr,rfl,slot_zero _,rfl⟩,rfl⟩

/-- A read-modify-write island runs to its end, whatever the number of failed attempts. -/
theorem rmwIsland_run (d : LseDecoded) (hop : d.op ≠ .cas) (island origAddr : ℤ) (e : Core) (m : Memory)
    (n : ℕ) (tr : List Access) (he : e.pc = island) :
    ∃ t, RunsTo island (emitRmwIsland d island origAddr) ⟨e,m,n,tr⟩ t ∧
      IslandEnd [rmwS1 d,rmwS2 d,rmwS3 d] e t
        (rmwStored d e (rmwSaved e (rmwS1 d) (rmwS2 d) (rmwS3 d) m)) d.rt
        ((rmwSeen d e (rmwSaved e (rmwS1 d) (rmwS2 d) (rmwS3 d) m)).setWidth 64) ∧
      t.trace = tr ++ loopTrace (rmwAddr d e) (bytes d.size) n := by
  have h := rmw_scratch d
  have hd := decode_emitRmwIsland d island origAddr
  generalize rmwS1 d = s1 at *
  generalize rmwS2 d = s2 at *
  generalize rmwS3 d = s3 at *
  have hsave : (emitRmwIsland d island origAddr).map decode = ([] ++ rmwSave s1 s2 s3 ++ (rmwBody d s1 s2 s3 ++
      [rmwRetry d s1 s2 s3] ++ moveResult d d.rt s1 ++ rmwRestore s1 s2 s3 ++
      [Insn.b (BitVec.ofInt 26 (backOffset island origAddr (emitRmwIsland d island origAddr).length))])).map
      some := by
    simpa [rmwInsns] using hd
  obtain ⟨ρ,f,hρ,hv,hloop⟩ := rmwLoop_run h hop island hd e (rmwSaved e s1 s2 s3 m) n tr
    ((AgreeOff.refl _ _).update (r := s1) (by simp) e.flags.toReg) e.flags e.monitor
  obtain ⟨t,ht,hend,htr⟩ := rmwTail_run h island hd e (rmwStored d e (rmwSaved e s1 s2 s3 m)) hρ f _ hv
    (tr ++ loopTrace (rmwAddr d e) (bytes d.size) n)
  refine ⟨t,runsTo_block hsave (by simp) (by simp [he]) (by simp [rmwSave, push, Insn.straight]) ?_,hend,htr⟩
  rw [rmwSave_run h, he]
  exact hloop t ht

end Machismo.IsaEmul
