import Machismo.IsaEmul.Steps

/-! # The run of a compare-and-swap island on one core

The island saves two scratch registers and the flags, then repeats load, comparison and
store-exclusive until the comparison fails or the store takes effect; a failed comparison skips
to the `CLREX` behind the loop. The final state is given in closed form, as for the
read-modify-write islands.
-/
namespace Machismo.IsaEmul
open A64

/-- The two registers `pickScratch` chooses are distinct and unused by the instruction. -/
theorem cas_scratch (d : LseDecoded) : Scratch d [casS1 d,casS2 d] := by
  have hl : Picked (casMask d) [] [d.rn,d.rt,d.rs,31#5] :=
    .start ((((excludes_regBit 31#5).or d.rs).or d.rt).or d.rn)
  have h2 := (hl.pick (by simp)).pick (by simp)
  exact h2.scratch (by simp) (by simp) (by simp) (by simp)

/-- Memory once the scratch registers and the flags are saved. -/
def casSaved (e : Core) (s1 s2 : Reg) (m : Memory) : Memory :=
  store (store (store m (slot e.sp 1) 8 (e.x s1)) (slot e.sp 2) 8 (e.x s2)) (slot e.sp 3) 8 e.flags.toReg

/-- The address the exclusive pair uses: the stack pointer has moved by three slots. -/
def casAddr (d : LseDecoded) (e : Core) : Addr := baseOf e e.x 3 d.rn

/-- The cell as the load-exclusive sees it. -/
def casSeen (d : LseDecoded) (e : Core) (M : Memory) : BitVec (8*bytes d.size) :=
  load M (casAddr d e) (bytes d.size)

/-- Whether the comparison lets the store through. -/
def casEqual (d : LseDecoded) (e : Core) (M : Memory) : Bool :=
  !condHolds condNE (flagsAtWidth d.isX ((casSeen d e M).setWidth 64) (e.read d.rs))

def casStored (d : LseDecoded) (e : Core) (M : Memory) : Memory :=
  if casEqual d e M then store M (casAddr d e) (bytes d.size) ((e.read d.rt).setWidth (8*bytes d.size)) else M

def casTrace (d : LseDecoded) (e : Core) (M : Memory) (n : ℕ) : List Access :=
  if casEqual d e M then loopTrace (casAddr d e) (bytes d.size) n else [.load (casAddr d e) (bytes d.size)]

section Run
variable {d : LseDecoded} {s1 s2 : Reg} (h : Scratch d [s1,s2])
include h

theorem casSave_run (e : Core) (m : Memory) (n : ℕ) (tr : List Access) :
    (casSave s1 s2).foldl advance ⟨e,m,n,tr⟩ =
      ⟨inIsland e (Function.update e.x s1 e.flags.toReg) e.flags 3 (e.pc+4) e.monitor,
        casSaved e s1 s2 m,n,tr⟩ := by
  conv_lhs => rw [← inIsland_entry e]
  simp only [casSave, List.foldl_cons, List.foldl_nil, advance_push _ _ _ _ _ _ _ _ _ h.s1_ne_xzr,
    advance_push _ _ _ _ _ _ _ _ _ h.s2_ne_xzr, advance_mrs _ _ _ _ _ _ _ _ _ h.s1_ne_xzr, Function.update_self]
  simp [casSaved, add_assoc]

theorem casRestore_run (e : Core) (ρ : RegFile) (f : Flags) (pc : ℤ) (mon : Monitor) (m : Memory) (n : ℕ)
    (tr : List Access) :
    (casRestore s1 s2).foldl advance ⟨inIsland e ρ f 3 pc mon,m,n,tr⟩ =
      ⟨inIsland e (Function.update (Function.update (Function.update ρ s1 (load m (slot e.sp 3) 8))
          s2 (load m (slot e.sp 2) 8)) s1 (load m (slot e.sp 1) 8))
        (Flags.ofReg (load m (slot e.sp 3) 8)) 0 (pc+4) mon,m,n,tr⟩ := by
  simp only [casRestore, List.foldl_cons, List.foldl_nil, advance_pop _ _ _ _ _ _ _ _ _ h.s1_ne_xzr,
    advance_pop _ _ _ _ _ _ _ _ _ h.s2_ne_xzr, advance_msr _ _ _ _ _ _ _ _ _ h.s1_ne_xzr, Function.update_self]
  simp [add_assoc]

theorem casTail_fold (e : Core) {ρ : RegFile} (hρ : AgreeOff [s1,s2] ρ e.x) (f : Flags)
    (old : BitVec (8*bytes d.size)) (hv : ρ s2 = old.setWidth 64) (pc : ℤ) (mon : Monitor) (M : Memory) (n : ℕ)
    (tr : List Access) :
    ∃ ρ', (moveResult d d.rs s2 ++ casRestore s1 s2).foldl advance ⟨inIsland e ρ f 3 pc mon,M,n,tr⟩ =
        ⟨inIsland e ρ' (Flags.ofReg (load M (slot e.sp 3) 8)) 0
          (pc + (moveResult d d.rs s2 ++ casRestore s1 s2).length) mon,M,n,tr⟩ ∧
      Restored [s1,s2] e ρ' M d.rs (old.setWidth 64) := by
  have hmove : atWidth d.isX (fun a b => AluOp.orr.eval a b) 0#64 (operand ρ s2) = old.setWidth 64 := by
    rw [operand_of_ne _ h.s2_ne_xzr, hv, move_zeroExtend]
  have hlen : pc + (moveResult d d.rs s2).length + 4 = pc + (moveResult d d.rs s2 ++ casRestore s1 s2).length := by
    rw [List.length_append, Nat.cast_add, ← add_assoc]
    rfl
  rw [List.foldl_append, moveResult_run, hmove, casRestore_run h, hlen]
  refine ⟨_,rfl,?_,fun k hk => ?_⟩
  · exact (((hρ.setReg d.rs _).update (by simp) _).update (by simp) _).update (by simp) _
  · match k, hk with
    | 0, _ => simp
    | 1, _ => simp [Function.update_of_ne h.s1_ne_s2.symm]

theorem casHead_run (e : Core) (m : Memory) (n : ℕ) (tr : List Access) {ρ : RegFile}
    (hρ : AgreeOff [s1,s2] ρ e.x) (f : Flags) (pc : ℤ) (mon : Monitor) :
    ([.ldxr d.size d.acquire s2 d.rn, cmpInsn d.isX s2 d.rs] : List Insn).foldl advance
        ⟨inIsland e ρ f 3 pc mon,m,n,tr⟩ =
      ⟨inIsland e (Function.update ρ s2 ((casSeen d e m).setWidth 64))
        (flagsAtWidth d.isX ((casSeen d e m).setWidth 64) (e.read d.rs)) 3 (pc+2)
        (some (casAddr d e,bytes d.size)),m,n,tr ++ [.load (casAddr d e) (bytes d.size)]⟩ := by
  have hbase : baseOf e ρ 3 d.rn = casAddr d e := by simp only [baseOf, casAddr, hρ d.rn h.rn]
  have hrs : operand (Function.update ρ s2 ((casSeen d e m).setWidth 64)) d.rs = e.read d.rs := by
    rw [operand_update_of_ne _ (fun he => h.rs (by simp [he])), hρ.operand h.rs]
    rfl
  have hp := foldl_advance_pure e 3 (some (casAddr d e,bytes d.size)) m n
    (tr ++ [.load (casAddr d e) (bytes d.size)]) [cmpInsn d.isX s2 d.rs] (by simp [cmpInsn, isPure])
    (Function.update ρ s2 ((casSeen d e m).setWidth 64),f) (pc+1)
  rw [List.foldl_cons, advance_ldxr _ _ _ _ _ _ _ _ _ _ _ _ h.s2_ne_xzr, hbase]
  refine hp.trans ?_
  simp only [List.foldl_cons, List.foldl_nil, cmpInsn, pureStep, operand_update_self _ h.s2_ne_xzr, hrs,
    List.length_cons, List.length_nil]
  simp [setReg, add_assoc]

end Run

section Loop
variable {d : LseDecoded} {s1 s2 : Reg} (h : Scratch d [s1,s2]) (island : ℤ) {off : ℤ} {ws : List Word}
variable (hd : ws.map decode = (casInsns d s1 s2 off).map some) (e : Core) (m : Memory)

theorem length_casInsns (d : LseDecoded) (s1 s2 : Reg) (off : ℤ) : 10 < (casInsns d s1 s2 off).length := by
  simp only [casInsns, casSave, casRestore, List.length_append, List.length_cons, List.length_nil]
  omega

include h hd

theorem casBranch_run (n : ℕ) (tr : List Access) {ρ : RegFile} (hρ : AgreeOff [s1,s2] ρ e.x) (f : Flags)
    (mon : Monitor) {t : State}
    (ht : RunsTo island ws ⟨inIsland e (Function.update ρ s2 ((casSeen d e m).setWidth 64))
      (flagsAtWidth d.isX ((casSeen d e m).setWidth 64) (e.read d.rs)) 3
      (if casEqual d e m then island + 7 else island + 9) (some (casAddr d e,bytes d.size)),m,n,
      tr ++ [.load (casAddr d e) (bytes d.size)]⟩ t) :
    RunsTo island ws ⟨inIsland e ρ f 3 (island + 4) mon,m,n,tr⟩ t := by
  have hlen := length_casInsns d s1 s2 off
  have hhead : ws.map decode = (casSave s1 s2 ++ [.ldxr d.size d.acquire s2 d.rn, cmpInsn d.isX s2 d.rs] ++
      (casInsns d s1 s2 off).drop 6).map some := hd
  apply runsTo_block hhead (List.ne_nil_of_length_pos (by simp; omega)) rfl (by simp [cmpInsn, Insn.straight])
  rw [casHead_run h e m n tr hρ]
  apply runsTo_at hd 6 (i := .bcond condNE 3#19) rfl (by omega) (by simp; ring)
  rw [advance_bcond]
  have h3 : (3#19).toInt = 3 := rfl
  have hpc : (if casEqual d e m then island + 7 else island + 9) =
      if condHolds condNE (flagsAtWidth d.isX ((casSeen d e m).setWidth 64) (e.read d.rs)) then
        island + 4 + 2 + (3#19).toInt else island + 4 + 2 + 1 := by
    rw [h3, casEqual]
    cases condHolds condNE (flagsAtWidth d.isX ((casSeen d e m).setWidth 64) (e.read d.rs)) <;> simp <;> ring
  rw [← hpc]
  exact ht

theorem casPass_run (heq : casEqual d e m) (n : ℕ) (tr : List Access) {ρ : RegFile}
    (hρ : AgreeOff [s1,s2] ρ e.x) (f : Flags) (mon : Monitor) :
    ∃ ρ' f', AgreeOff [s1,s2] ρ' e.x ∧ ρ' s2 = (casSeen d e m).setWidth 64 ∧
      ∀ t, RunsTo island ws ⟨inIsland e ρ' f' 3 (if n = 0 then island + 9 else island + 4) none,
          if n = 0 then store m (casAddr d e) (bytes d.size) ((e.read d.rt).setWidth (8*bytes d.size)) else m,
          n - 1,tr ++ [.load (casAddr d e) (bytes d.size), .store (casAddr d e) (bytes d.size) (n = 0)]⟩ t →
        RunsTo island ws ⟨inIsland e ρ f 3 (island + 4) mon,m,n,tr⟩ t := by
  have hlen := length_casInsns d s1 s2 off
  obtain ⟨ρ1,hρ1⟩ : ∃ ρ1, ρ1 = Function.update ρ s2 ((casSeen d e m).setWidth 64) := ⟨_,rfl⟩
  have hag : AgreeOff [s1,s2] ρ1 e.x := hρ1 ▸ hρ.update (by simp) _
  have hbase : baseOf e ρ1 3 d.rn = casAddr d e := by simp only [baseOf, casAddr, hag d.rn h.rn]
  have hrt : operand ρ1 d.rt = e.read d.rt := hag.operand h.rt
  refine ⟨Function.update ρ1 s1 (if n = 0 then 0#64 else 1#64),
    flagsAtWidth d.isX ((casSeen d e m).setWidth 64) (e.read d.rs),hag.update (by simp) _,?_,fun t ht => ?_⟩
  · rw [Function.update_of_ne h.s1_ne_s2.symm, hρ1, Function.update_self]
  · apply casBranch_run h island hd e m n tr hρ f mon
    rw [if_pos heq, ← hρ1]
    apply runsTo_at hd 7 (i := .stxr d.size d.release s1 d.rt d.rn) rfl (by omega) rfl
    rw [← hbase, advance_stxr _ _ _ _ _ _ _ _ _ _ _ _ h.s1_ne_xzr, hbase, hrt]
    apply runsTo_at hd 8 (i := .cbnz false s1 (BitVec.ofInt 19 (-4))) rfl (by omega) (by simp; ring)
    rw [advance_cbnz, operand_update_self _ h.s1_ne_xzr]
    have h4 : (BitVec.ofInt 19 (-4)).toInt = -4 := rfl
    have hpc : (if (if n = 0 then 0#64 else 1#64).setWidth 32 = 0#32 then island + 7 + 1 + 1
        else island + 7 + 1 + (BitVec.ofInt 19 (-4)).toInt) = if n = 0 then island + 9 else island + 4 := by
      rw [h4]
      by_cases hn : n = 0 <;> simp [hn] <;> ring
    rw [hpc]
    simpa using ht

/-- The loop where the comparison succeeds, by induction on the failures still to come. -/
theorem casStore_run (heq : casEqual d e m) (n : ℕ) (tr : List Access) {ρ : RegFile}
    (hρ : AgreeOff [s1,s2] ρ e.x) (f : Flags) (mon : Monitor) :
    ∃ ρ' f', AgreeOff [s1,s2] ρ' e.x ∧ ρ' s2 = (casSeen d e m).setWidth 64 ∧
      ∀ t, RunsTo island ws ⟨inIsland e ρ' f' 3 (island + 9) none,
          store m (casAddr d e) (bytes d.size) ((e.read d.rt).setWidth (8*bytes d.size)),0,
          tr ++ loopTrace (casAddr d e) (bytes d.size) n⟩ t →
        RunsTo island ws ⟨inIsland e ρ f 3 (island + 4) mon,m,n,tr⟩ t := by
  induction n generalizing tr ρ f mon with
  | zero =>
    obtain ⟨ρ',f',hag,hv,hpass⟩ := casPass_run h island hd e m heq 0 tr hρ f mon
    exact ⟨ρ',f',hag,hv,fun t ht => hpass t (by simpa [loopTrace] using ht)⟩
  | succ n ih =>
    obtain ⟨ρ1,f1,hag1,-,hpass⟩ := casPass_run h island hd e m heq (n+1) tr hρ f mon
    obtain ⟨ρ',f',hag,hv,hcont⟩ := ih (tr ++ [.load (casAddr d e) (bytes d.size),
      .store (casAddr d e) (bytes d.size) false]) hag1 f1 none
    refine ⟨ρ',f',hag,hv,fun t ht => hpass t ?_⟩
    have hrun := hcont t (by simpa [loopTrace, List.replicate_succ] using ht)
    simpa using hrun

theorem casLoop_run (n : ℕ) (tr : List Access) {ρ : RegFile} (hρ : AgreeOff [s1,s2] ρ e.x) (f : Flags)
    (mon : Monitor) :
    ∃ ρ' f' n', AgreeOff [s1,s2] ρ' e.x ∧ ρ' s2 = (casSeen d e m).setWidth 64 ∧
      ∀ t, RunsTo island ws ⟨inIsland e ρ' f' 3 (island + 10) none,casStored d e m,n',tr ++ casTrace d e m n⟩ t →
        RunsTo island ws ⟨inIsland e ρ f 3 (island + 4) mon,m,n,tr⟩ t := by
  have hlen := length_casInsns d s1 s2 off
  have hclrex : ∀ {ρ f mon m n tr t}, RunsTo island ws ⟨inIsland e ρ f 3 (island + 10) none,m,n,tr⟩ t →
      RunsTo island ws ⟨inIsland e ρ f 3 (island + 9) mon,m,n,tr⟩ t := by
    intro ρ f mon m n tr t ht
    apply runsTo_at hd 9 (i := .clrex) rfl (by omega) rfl
    have h10 : island + 9 + 1 = island + 10 := by ring
    simpa [advance, exec_clrex, accesses, Insn.isStxr, h10] using ht
  by_cases heq : casEqual d e m
  · obtain ⟨ρ',f',hag,hv,hcont⟩ := casStore_run h island hd e m heq n tr hρ f mon
    refine ⟨ρ',f',0,hag,hv,fun t ht => hcont t (hclrex ?_)⟩
    simpa [casStored, casTrace, heq] using ht
  · refine ⟨_,flagsAtWidth d.isX ((casSeen d e m).setWidth 64) (e.read d.rs),n,
      hρ.update (r := s2) (by simp) ((casSeen d e m).setWidth 64),Function.update_self ..,
      fun t ht => casBranch_run h island hd e m n tr hρ f mon ?_⟩
    rw [if_neg heq]
    apply hclrex
    simpa [casStored, casTrace, heq] using ht

theorem casTail_run {ρ : RegFile} (hρ : AgreeOff [s1,s2] ρ e.x) (f : Flags) (old : BitVec (8*bytes d.size))
    (hv : ρ s2 = old.setWidth 64) (n : ℕ) (tr : List Access) :
    ∃ t, RunsTo island ws ⟨inIsland e ρ f 3 (island + 10) none,m,n,tr⟩ t ∧
      IslandEnd [s1,s2] e t m d.rs (old.setWidth 64) ∧ t.trace = tr := by
  have hrest : ws.map decode = ((casInsns d s1 s2 off).take 10 ++ (moveResult d d.rs s2 ++ casRestore s1 s2) ++
      [Insn.b (BitVec.ofInt 26 off)]).map some := by
    simpa [casInsns, casSave] using hd
  have hstraight : ∀ i ∈ moveResult d d.rs s2 ++ casRestore s1 s2, i.straight := by
    intro i hi
    rcases List.mem_append.mp hi with hi | hi
    · exact straight_moveResult _ _ _ i hi
    · simp only [casRestore, pop, List.mem_cons, List.not_mem_nil, or_false] at hi
      rcases hi with rfl | rfl | rfl | rfl <;> rfl
  obtain ⟨ρ',hend,hr⟩ := casTail_fold h e hρ f old hv (island + 10) none m n tr
  have hlen := length_casInsns d s1 s2 off
  have hpc : island + 10 = island + ((casInsns d s1 s2 off).take 10).length := by
    rw [List.length_take, Nat.min_eq_left (by omega)]
    rfl
  have hpc' : island + 10 + ((moveResult d d.rs s2 ++ casRestore s1 s2).length : ℤ) =
      island + ((casInsns d s1 s2 off).take 10 ++ (moveResult d d.rs s2 ++ casRestore s1 s2)).length := by
    rw [hpc, add_assoc, ← Nat.cast_add, ← List.length_append]
  have hlast := runsTo_last (s := (moveResult d d.rs s2 ++ casRestore s1 s2).foldl advance
    ⟨inIsland e ρ f 3 (island + 10) none,m,n,tr⟩) hrest (by rw [hend]; exact hpc')
  have hrun := runsTo_block hrest (by simp) hpc hstraight hlast
  rw [hend, advance_b] at hrun
  exact ⟨_,hrun,⟨rfl,hr,rfl,slot_zero _,rfl⟩,rfl⟩

end Loop

/-- A compare-and-swap island runs to its end, whatever the number of failed attempts. -/
theorem casIsland_run (d : LseDecoded) (island origAddr : ℤ) (e : Core) (m : Memory) (n : ℕ)
    (tr : List Access) (he : e.pc = island) :
    ∃ t, RunsTo island (emitCasIsland d island origAddr) ⟨e,m,n,tr⟩ t ∧
      IslandEnd [casS1 d,casS2 d] e t (casStored d e (casSaved e (casS1 d) (casS2 d) m)) d.rs
        ((casSeen d e (casSaved e (casS1 d) (casS2 d) m)).setWidth 64) ∧
      t.trace = tr ++ casTrace d e (casSaved e (casS1 d) (casS2 d) m) n := by
  have h := cas_scratch d
  have hd := decode_emitCasIsland d island origAddr
  generalize casS1 d = s1 at *
  generalize casS2 d = s2 at *
  generalize backOffset island origAddr (emitCasIsland d island origAddr).length = off at *
  have hlen := length_casInsns d s1 s2 off
  have hsave : (emitCasIsland d island origAddr).map decode = ([] ++ casSave s1 s2 ++
      (casInsns d s1 s2 off).drop 4).map some := hd
  obtain ⟨ρ,f,n',hρ,hv,hloop⟩ := casLoop_run h island hd e (casSaved e s1 s2 m) n tr
    ((AgreeOff.refl _ _).update (r := s1) (by simp) e.flags.toReg) e.flags e.monitor
  obtain ⟨t,ht,hend,htr⟩ := casTail_run h island hd e (casStored d e (casSaved e s1 s2 m)) hρ f _ hv n'
    (tr ++ casTrace d e (casSaved e s1 s2 m) n)
  refine ⟨t,runsTo_block hsave (List.ne_nil_of_length_pos (by simp; omega)) (by simp [he])
    (by simp [casSave, push, Insn.straight]) ?_,hend,htr⟩
  rw [casSave_run h, he]
  exact hloop t ht

end Machismo.IsaEmul
