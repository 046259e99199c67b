import Machismo.A64.Assembly
import Mathlib.Data.Set.Lattice
import Mathlib.Order.CompletePartialOrder

/-! # Sending a message

`objc_msgSend` and `objc_msgSendSuper2` do not know the arguments of the message they send. They
save every register that can hold one in a frame of 224 bytes, ask `sword3_objc_lookup_imp` for the
implementation, put the registers back and leave by a branch, so that the implementation returns to
their own caller.
-/
namespace Machismo.Shim
open A64

namespace MsgSend

def saveRegisters : List AsmInsn := [
  .stp 0#5 1#5 31#5 0#7,
  .stp 2#5 3#5 31#5 2#7,
  .stp 4#5 5#5 31#5 4#7,
  .stp 6#5 7#5 31#5 6#7,
  .frame (.strImm 8#5 31#5 8#12),
  .stpQ 0#5 1#5 31#5 5#7,
  .stpQ 2#5 3#5 31#5 7#7,
  .stpQ 4#5 5#5 31#5 9#7,
  .stpQ 6#5 7#5 31#5 11#7,
  .stp 29#5 30#5 31#5 26#7]

def restoreRegisters : List AsmInsn := [
  .ldp 29#5 30#5 31#5 26#7,
  .ldpQ 6#5 7#5 31#5 11#7,
  .ldpQ 4#5 5#5 31#5 9#7,
  .ldpQ 2#5 3#5 31#5 7#7,
  .ldpQ 0#5 1#5 31#5 5#7,
  .ldrImm 8#5 31#5 8#12,
  .ldp 6#5 7#5 31#5 6#7,
  .ldp 4#5 5#5 31#5 4#7,
  .ldp 2#5 3#5 31#5 2#7,
  .ldp 0#5 1#5 31#5 0#7]

def returnNil : List AsmInsn := [
  .mov 0#5 31#5,
  .mov 1#5 31#5,
  .moviZero 0#5,
  .moviZero 1#5,
  .moviZero 2#5,
  .moviZero 3#5,
  .frame (.ret 30#5)]

/-- The text at `t`, where `lookup` is the address of `sword3_objc_lookup_imp`. -/
def objcMsgSend (t lookup : Addr) : List AsmInsn :=
  [.cbz 0#5 (t + 112),.subImm 31#5 31#5 224#12] ++ saveRegisters ++
  [.frame (.addImm 29#5 31#5 208#12),.mov 2#5 31#5,.bl lookup,.mov 16#5 0#5] ++ restoreRegisters ++
  [.frame (.addImm 31#5 31#5 224#12),.br 16#5] ++ returnNil

def objcMsgSendSuper2 (t lookup : Addr) : List AsmInsn :=
  [.cbz 0#5 (t + 140),.ldrImm 9#5 0#5 0#12,.cbz 9#5 (t + 140),.subImm 31#5 31#5 224#12] ++ saveRegisters ++
  [.frame (.addImm 29#5 31#5 208#12),.ldrImm 9#5 31#5 0#12,.ldp 0#5 2#5 9#5 0#7,.ldrImm 2#5 2#5 1#12,
    .bl lookup,.mov 16#5 0#5,.ldrImm 17#5 31#5 0#12,.ldrImm 17#5 17#5 0#12] ++ restoreRegisters ++
  [.mov 0#5 17#5,.frame (.addImm 31#5 31#5 224#12),.br 16#5] ++ returnNil

theorem ne_of_low {p q : Reg} (hlow : 19 ≤ q.toNat) (hp : p.toNat < 19) : q ≠ p := by
  rintro rfl
  omega

theorem ne_of_high {p q : Reg} (hhigh : q.toNat ≤ 28) (hp : 28 < p.toNat) : q ≠ p := by
  rintro rfl
  omega

def saveArea (x : Reg → BitVec 64) (v : Reg → BitVec 128) : List Slot :=
  [⟨0,8,x 0#5⟩,⟨8,8,x 1#5⟩,⟨16,8,x 2#5⟩,⟨24,8,x 3#5⟩,⟨32,8,x 4#5⟩,⟨40,8,x 5#5⟩,⟨48,8,x 6#5⟩,⟨56,8,x 7#5⟩,
    ⟨64,8,x 8#5⟩,
    ⟨80,16,v 0#5⟩,⟨96,16,v 1#5⟩,⟨112,16,v 2#5⟩,⟨128,16,v 3#5⟩,⟨144,16,v 4#5⟩,⟨160,16,v 5#5⟩,⟨176,16,v 6#5⟩,
    ⟨192,16,v 7#5⟩,
    ⟨208,8,x 29#5⟩,⟨216,8,x 30#5⟩]

theorem saveArea_fits (x : Reg → BitVec 64) (v : Reg → BitVec 128) : SlotsFit 224 (saveArea x v) := by
  constructor
  · simp [saveArea]
  · simp [saveArea]

/-- The registers of `rs` as in `x`, the others as in `y`. -/
def override {α : Type*} (rs : List Reg) (x y : Reg → α) : Reg → α := fun q => if rs.contains q then x q else y q

theorem update_eq_override {α : Type*} (x y : Reg → α) (q : Reg) :
    Function.update y q (x q) = override [q] x y := by
  funext p
  by_cases h : p = q
  · simp [h,override]
  · simp [h,override]

theorem override_override {α : Type*} (as bs : List Reg) (x y : Reg → α) :
    override as x (override bs x y) = override (as ++ bs) x y := by
  funext p
  cases ha : as.contains p <;> cases hb : bs.contains p <;> simp_all [override]

theorem update_override {α : Type*} {rs : List Reg} {q : Reg} (h : rs.contains q) (x y : Reg → α) (a : α) :
    Function.update (override rs x y) q a = override rs (Function.update x q a) y := by
  funext p
  by_cases hp : p = q
  · subst hp
    simp only [override,Function.update_self,h,↓reduceIte]
  · simp only [override,Function.update_of_ne hp]

/-- The last one restored comes first. -/
def savedX : List Reg := [1#5,0#5,3#5,2#5,5#5,4#5,7#5,6#5,8#5,30#5,29#5]

def savedV : List Reg := [1#5,0#5,3#5,2#5,5#5,4#5,7#5,6#5]

section Blocks
variable {s : Cpu}

theorem execAll_saveRegisters (hsp : s.sp.toNat % 16 = 0) :
    execAll saveRegisters s = some { s with
      mem := storeSlots s.mem s.sp (saveArea s.x s.v)
      pc := s.pc + 40 } := by
  simp [saveRegisters,execAll,Cpu.execAsm,Cpu.exec,Cpu.Aligned,hsp,Cpu.base,Cpu.read,Cpu.setMem,Cpu.next,
    BitVec.add_assoc,saveArea,storeSlots]

theorem execAll_restoreRegisters {x : Reg → BitVec 64} {v : Reg → BitVec 128} (hsp : s.sp.toNat % 16 = 0)
    (harea : ∀ c ∈ saveArea x v, load s.mem (s.sp + BitVec.ofNat 64 c.off) c.size = c.val) :
    execAll restoreRegisters s = some { s with
      x := override savedX x s.x
      v := override savedV v s.v
      pc := s.pc + 40 } := by
  simp only [saveArea,List.forall_mem_cons,BitVec.add_zero] at harea
  obtain ⟨h0,h1,h2,h3,h4,h5,h6,h7,h8,v0,v1,v2,v3,v4,v5,v6,v7,h29,h30,-⟩ := harea
  simp [restoreRegisters,execAll,Cpu.execAsm,Cpu.Aligned,hsp,Cpu.base,Cpu.write,Cpu.writeV,Cpu.next,
    BitVec.add_assoc,h0,h1,h2,h3,h4,h5,h6,h7,h8,h29,h30,v0,v1,v2,v3,v4,v5,v6,v7]
  simp only [update_eq_override,override_override]
  exact ⟨rfl,rfl⟩

theorem execAll_returnNil :
    execAll (returnNil.take 6) s = some { s with
      x := override [1#5,0#5] (fun _ => 0) s.x
      v := override [3#5,2#5,1#5,0#5] (fun _ => 0) s.v
      pc := s.pc + 24 } := by
  simp [returnNil,execAll,Cpu.execAsm,AsmInsn.mov,Cpu.exec,Cpu.write,Cpu.writeV,Cpu.read,Cpu.next,BitVec.add_assoc]
  constructor
  · rw [update_eq_override (fun _ => 0#64),update_eq_override (fun _ => 0#64),override_override]
    rfl
  · rw [update_eq_override (fun _ => 0#128),update_eq_override (fun _ => 0#128),update_eq_override (fun _ => 0#128),
      update_eq_override (fun _ => 0#128),override_override,override_override,override_override]
    rfl

end Blocks

def frame (s : Cpu) : Addr := s.sp - 224

def frameBytes (s : Cpu) : Set Addr := {a | (a - frame s).toNat < 224}

/-- The state `e` in which `s`, sending a message, calls `lookup` with the three arguments. -/
structure LookupCall (s : Cpu) (lookup : Addr) (receiver selector start : BitVec 64) (e : Cpu) : Prop where
  pc : e.pc = lookup
  receiver : e.x 0#5 = receiver
  selector : e.x 1#5 = selector
  start : e.x 2#5 = start
  sp : e.sp = frame s
  aligned : e.sp.toNat % 16 = 0
  record : load e.mem (e.x 29#5) 8 = s.x 29#5 ∧ load e.mem (e.x 29#5 + 8) 8 = s.x 30#5
  x : ∀ q : Reg, 19 ≤ q.toNat → q.toNat ≤ 28 → e.x q = s.x q
  v : e.v = s.v
  mem : ∀ a, a ∉ frameBytes s → e.mem a = s.mem a

/-- The state `b` in which the message of `s` reaches its implementation: all that the caller passes
is in its place, whether in registers, on the stack or behind a pointer, and all that the
implementation must keep or return to is the caller's. -/
structure Forwarded (own : Set Addr) (s : Cpu) (imp : BitVec 64) (b : Cpu) : Prop where
  pc : b.pc = imp
  sp : b.sp = s.sp
  argument : ∀ q : Reg, q.toNat ≤ 8 → b.x q = s.x q
  x : ∀ q : Reg, 19 ≤ q.toNat → q.toNat ≤ 30 → b.x q = s.x q
  vector : ∀ q : Reg, q.toNat ≤ 7 → b.v q = s.v q
  v : ∀ q : Reg, 8 ≤ q.toNat → q.toNat ≤ 15 → (b.v q).setWidth 64 = (s.v q).setWidth 64
  mem : ∀ a ∈ own, b.mem a = s.mem a

/-- The answer to a message to nil: zero in every register of a result, and nothing else changed. -/
structure ReturnedNil (s b : Cpu) : Prop where
  pc : b.pc = s.x 30#5
  sp : b.sp = s.sp
  mem : b.mem = s.mem
  x : ∀ q : Reg, b.x q = if q.toNat ≤ 1 then 0 else s.x q
  v : ∀ q : Reg, b.v q = if q.toNat ≤ 3 then 0 else s.v q

theorem Forwarded.conforms {own : Set Addr} {s b back : Cpu} {imp : BitVec 64} (h : Forwarded own s imp b)
    (hb : Conforms own b back) : Conforms own s back where
  pc := by rw [hb.pc,h.x 30#5 (by decide) (by decide)]
  sp := by rw [hb.sp,h.sp]
  x q hlow hhigh := by rw [hb.x q hlow hhigh,h.x q hlow (by omega)]
  v q hlow hhigh := by rw [hb.v q hlow hhigh,h.v q hlow hhigh]
  mem a ha := by rw [hb.mem a ha,h.mem a ha]

section Nil
variable {text : Text} {t lookup : Addr} {prog : List AsmInsn} {s : Cpu}

theorem run_returnNil (h : text.Holds t prog) (ht : t.toNat % 4 = 0) (k : ℕ) (hk : prog.drop k = returnNil)
    (hpc : s.pc = t + BitVec.ofNat 64 (4*k)) : ∃ b, text.run 7 s = some b ∧ ReturnedNil s b := by
  have hblock : returnNil.take 6 <+: prog.drop k := by
    rw [hk]
    exact List.take_prefix 6 returnNil
  have hret : prog[k + 6]? = some (.frame (.ret 30#5)) := by
    rw [← List.getElem?_drop,hk]
    rfl
  have hrun := h.run_block ht k hblock (by decide) hpc execAll_returnNil 1
  refine ⟨_,hrun.trans (h.run_one ht (k + 6) hret ?_ rfl 0),⟨?_,rfl,rfl,fun q => ?_,fun q => ?_⟩⟩
  · simp only [hpc,BitVec.add_assoc,Nat.mul_add,BitVec.ofNat_add]
    rfl
  · simp [Cpu.read,override]
  · have hq : ([1#5,0#5] : List Reg).contains q = decide (q.toNat ≤ 1) := by
      revert q
      decide
    simp only [override,hq,decide_eq_true_eq]
  · have hq : ([3#5,2#5,1#5,0#5] : List Reg).contains q = decide (q.toNat ≤ 3) := by
      revert q
      decide
    simp only [override,hq,decide_eq_true_eq]

end Nil

def framed (s : Cpu) : Cpu := { s with
  x := Function.update s.x 29#5 (frame s + 208)
  sp := frame s
  pc := s.pc + 48
  mem := storeSlots s.mem (frame s) (saveArea s.x s.v) }

def restored (x : Reg → BitVec 64) (v : Reg → BitVec 128) (s : Cpu) : Cpu := { s with
  x := override savedX x s.x
  v := override savedV v s.v
  pc := s.pc + 40 }

section Frame
variable {s e r : Cpu} {own : Set Addr}

theorem frame_aligned (h : s.sp.toNat % 16 = 0) : (frame s).toNat % 16 = 0 := by
  simp only [frame,BitVec.ofNat_eq_ofNat,BitVec.toNat_sub,BitVec.toNat_ofNat]
  omega

theorem execAll_openFrame (hsp : s.sp.toNat % 16 = 0) :
    execAll ([.subImm 31#5 31#5 224#12] ++ saveRegisters ++ [.frame (.addImm 29#5 31#5 208#12)]) s =
      some (framed s) := by
  have hsub : execAll [.subImm 31#5 31#5 224#12] s = some { s with sp := frame s, pc := s.pc + 4 } := rfl
  have hsave := execAll_saveRegisters (s := { s with sp := frame s, pc := s.pc + 4 }) (frame_aligned hsp)
  rw [execAll_append,execAll_append,hsub,Option.bind_some,hsave]
  simp [execAll,Cpu.execAsm,Cpu.exec,Cpu.base,Cpu.setBase,Cpu.next,framed,BitVec.add_assoc]

theorem framed_mem {a : Addr} (ha : a ∉ frameBytes s) : (framed s).mem a = s.mem a :=
  storeSlots_outside (saveArea_fits s.x s.v) (Nat.le_of_not_lt ha)

theorem load_framed {c : Slot} (hc : c ∈ saveArea s.x s.v) :
    load (framed s).mem (frame s + BitVec.ofNat 64 c.off) c.size = c.val :=
  load_storeSlots (saveArea_fits s.x s.v) (by decide) hc

theorem load_framed_apart {a : Addr} {n : ℕ} (h : Apart a n (frame s) 224) :
    load (framed s).mem a n = load s.mem a n :=
  load_congr fun _ hi => framed_mem (Nat.not_lt_of_le (h.toNat_sub hi))

theorem saved_kept (he : e.mem = (framed s).mem) (hr : Conforms (own ∪ frameBytes s) e r) :
    ∀ c ∈ saveArea s.x s.v, load r.mem (frame s + BitVec.ofNat 64 c.off) c.size = c.val := by
  intro c hc
  have hin := (saveArea_fits s.x s.v).inside c hc
  rw [load_congr (m := e.mem) (fun i hi => hr.mem _ (Or.inr ?_)),he,load_framed hc]
  show (frame s + BitVec.ofNat 64 c.off + BitVec.ofNat 64 i - frame s).toNat < 224
  simp only [BitVec.toNat_sub,BitVec.toNat_add,BitVec.toNat_ofNat]
  omega

theorem lookupCall_framed {lookup : Addr} {a b c : BitVec 64} (hsp : s.sp.toNat % 16 = 0)
    (he : e.mem = (framed s).mem) (hpc : e.pc = lookup) (hesp : e.sp = frame s) (hv : e.v = s.v)
    (h29 : e.x 29#5 = frame s + 208) (hx : ∀ q : Reg, 19 ≤ q.toNat → q.toNat ≤ 28 → e.x q = s.x q)
    (h0 : e.x 0#5 = a) (h1 : e.x 1#5 = b) (h2 : e.x 2#5 = c) : LookupCall s lookup a b c e where
  pc := hpc
  receiver := h0
  selector := h1
  start := h2
  sp := hesp
  aligned := by rw [hesp]; exact frame_aligned hsp
  record := by
    rw [he,h29]
    constructor
    · exact load_framed (c := ⟨208,8,s.x 29#5⟩) (by simp [saveArea])
    · rw [BitVec.add_assoc]
      exact load_framed (c := ⟨216,8,s.x 30#5⟩) (by simp [saveArea])
  x := hx
  v := hv
  mem a ha := by rw [he]; exact framed_mem ha

/-- The frame is closed and the implementation entered; `x` is what the registers were saved as. -/
theorem forwarded_restored {imp : BitVec 64} {x y : Reg → BitVec 64}
    (hx : ∀ q : Reg, q ≠ 0#5 → x q = s.x q) (hex : ∀ q : Reg, 19 ≤ q.toNat → q.toNat ≤ 28 → e.x q = s.x q)
    (hy : ∀ q : Reg, 19 ≤ q.toNat → q.toNat ≤ 28 → y q = r.x q) (hev : e.v = s.v) (hesp : e.sp = frame s)
    (hown : ∀ a ∈ own, e.mem a = s.mem a) (hr : Conforms (own ∪ frameBytes s) e r) :
    Forwarded own { s with x := x } imp
      { restored x s.v { r with x := y } with sp := r.sp + 224, pc := imp } where
  pc := rfl
  sp := by
    show r.sp + 224 = s.sp
    rw [hr.sp,hesp,frame,BitVec.sub_add_cancel]
  argument q hq := by
    have hsaved : savedX.contains q = true := by
      revert q
      decide
    show override savedX x y q = x q
    simp only [override,hsaved,↓reduceIte]
  x q hlow hhigh := by
    show override savedX x y q = x q
    by_cases h28 : q.toNat ≤ 28
    · have hsaved : savedX.contains q = false := by
        revert q
        decide
      have h0 : q ≠ 0#5 := ne_of_low hlow (by decide)
      simp only [override,hsaved,Bool.false_eq_true,↓reduceIte]
      rw [hy q hlow h28,hr.x q hlow (by omega),hex q hlow h28,hx q h0]
    · have hsaved : savedX.contains q = true := by
        revert q
        decide
      simp only [override,hsaved,↓reduceIte]
  vector q hq := by
    have hsaved : savedV.contains q = true := by
      revert q
      decide
    show override savedV s.v r.v q = s.v q
    simp only [override,hsaved,↓reduceIte]
  v q hlow hhigh := by
    have hsaved : savedV.contains q = false := by
      revert q
      decide
    show (override savedV s.v r.v q).setWidth 64 = (s.v q).setWidth 64
    simp only [override,hsaved,Bool.false_eq_true,↓reduceIte]
    rw [hr.v q hlow hhigh,hev]
  mem a ha := by
    show r.mem a = s.mem a
    rw [hr.mem a (Or.inl ha),hown a ha]

end Frame

section Send
variable {text : Text} {t lookup : Addr} {s : Cpu} {own : Set Addr}

/-- The call of the lookup in `objc_msgSend`. -/
def lookupState (s : Cpu) (t lookup : Addr) : Cpu := { framed s with
  x := Function.update (Function.update (framed s).x 2#5 0) 30#5 (t + 60)
  pc := lookup }

theorem lookupState_x {q : Reg} (h2 : q ≠ 2#5) (h29 : q ≠ 29#5) (h30 : q ≠ 30#5) :
    (lookupState s t lookup).x q = s.x q := by
  simp [lookupState,framed,h2,h29,h30]

theorem lookupState_saved {q : Reg} (hlow : 19 ≤ q.toNat) (hhigh : q.toNat ≤ 28) :
    (lookupState s t lookup).x q = s.x q := by
  have h2 : q ≠ 2#5 := ne_of_low hlow (by decide)
  have h29 : q ≠ 29#5 := ne_of_high hhigh (by decide)
  have h30 : q ≠ 30#5 := ne_of_high hhigh (by decide)
  exact lookupState_x h2 h29 h30

theorem run_lookup (h : text.Holds t (objcMsgSend t lookup)) (ht : t.toNat % 4 = 0) (hpc : s.pc = t)
    (hsp : s.sp.toNat % 16 = 0) (hnil : s.x 0#5 ≠ 0) : text.run 15 s = some (lookupState s t lookup) := by
  have hopen := execAll_openFrame (s := { s with pc := t + 4 }) hsp
  have hstart : execAll ([.subImm 31#5 31#5 224#12] ++ saveRegisters ++
      [.frame (.addImm 29#5 31#5 208#12)] ++ [.mov 2#5 31#5]) { s with pc := t + 4 } =
      some { framed s with x := Function.update (framed s).x 2#5 0, pc := t + 56 } := by
    rw [execAll_append,hopen]
    simp [execAll,Cpu.execAsm,AsmInsn.mov,Cpu.exec,Cpu.write,Cpu.read,Cpu.next,framed,frame,BitVec.add_assoc]
  have hcbz : s.execAsm (.cbz 0#5 (t + 112)) = some { s with pc := t + 4 } := by
    rw [Cpu.execAsm,if_neg (show ¬s.read 0#5 = 0 from hnil),Cpu.next,hpc]
  calc text.run 15 s
      = text.run 14 { s with pc := t + 4 } := h.run_one ht 0 rfl (by simpa using hpc) hcbz 14
    _ = text.run 1 { framed s with x := Function.update (framed s).x 2#5 0, pc := t + 56 } :=
        h.run_block ht 1 (by exact List.prefix_append _ _) (by decide) rfl hstart 1
    _ = some (lookupState s t lookup) := by
        refine (h.run_one ht 14 rfl rfl rfl 0).trans ?_
        simp [Text.run,lookupState,Cpu.write,BitVec.add_assoc]

theorem run_forward (h : text.Holds t (objcMsgSend t lookup)) (ht : t.toNat % 4 = 0) (hsp : s.sp.toNat % 16 = 0)
    {r : Cpu} (hr : Conforms (own ∪ frameBytes s) (lookupState s t lookup) r) :
    text.run 13 r = some { restored s.x s.v { r with x := Function.update r.x 16#5 (r.x 0#5) } with
      sp := r.sp + 224, pc := r.x 0#5 } := by
  have hpc : r.pc = t + 60 := hr.pc
  have hspr : r.sp = frame s := hr.sp
  have harea : ∀ c ∈ saveArea s.x s.v, load r.mem (r.sp + BitVec.ofNat 64 c.off) c.size = c.val := by
    rw [hspr]
    exact saved_kept (e := lookupState s t lookup) rfl hr
  have hrestore := execAll_restoreRegisters (s := { r with x := Function.update r.x 16#5 (r.x 0#5), pc := t + 64 })
    (by rw [hspr]; exact frame_aligned hsp) harea
  have hblock : execAll ([.mov 16#5 0#5] ++ restoreRegisters ++ [.frame (.addImm 31#5 31#5 224#12)]) r =
      some { restored s.x s.v { r with x := Function.update r.x 16#5 (r.x 0#5) } with
        sp := r.sp + 224, pc := t + 108 } := by
    have hmov : execAll [.mov 16#5 0#5] r =
        some { r with x := Function.update r.x 16#5 (r.x 0#5), pc := t + 64 } := by
      simp [execAll,Cpu.execAsm,AsmInsn.mov,Cpu.exec,Cpu.write,Cpu.read,Cpu.next,hpc,BitVec.add_assoc]
    rw [execAll_append,execAll_append,hmov,Option.bind_some,hrestore]
    simp [execAll,Cpu.execAsm,Cpu.exec,Cpu.base,Cpu.setBase,Cpu.next,restored,BitVec.add_assoc]
  calc text.run 13 r
      = text.run 1 { restored s.x s.v { r with x := Function.update r.x 16#5 (r.x 0#5) } with
          sp := r.sp + 224, pc := t + 108 } :=
        h.run_block ht 15 (by exact List.prefix_append _ _) (by decide) hpc hblock 1
    _ = _ := by
        refine (h.run_one ht 27 rfl rfl rfl 0).trans ?_
        simp [Text.run,Cpu.read,restored,override,savedX]

/-- A message to nil is answered with zeros. Any other one reaches the implementation that the
lookup gives for the receiver and the selector. -/
theorem objcMsgSend_forwards (h : text.Holds t (objcMsgSend t lookup)) (ht : t.toNat % 4 = 0) (hpc : s.pc = t)
    (hsp : s.sp.toNat % 16 = 0) (hown : Disjoint own (frameBytes s)) :
    (s.x 0#5 = 0 → ∃ b, text.run 8 s = some b ∧ ReturnedNil s b) ∧
    (s.x 0#5 ≠ 0 → ∃ e, text.run 15 s = some e ∧ LookupCall s lookup (s.x 0#5) (s.x 1#5) 0 e ∧
      ∀ r, Conforms (own ∪ frameBytes s) e r → ∃ b, text.run 13 r = some b ∧ Forwarded own s (r.x 0#5) b ∧
        ∀ back, Conforms own b back → Conforms own s back) := by
  constructor
  · intro hnil
    obtain ⟨b,hb,hret⟩ := run_returnNil (s := { s with pc := t + 112 }) h ht 28 rfl rfl
    have hcbz : s.execAsm (.cbz 0#5 (t + 112)) = some { s with pc := t + 112 } := by
      rw [Cpu.execAsm,if_pos (show s.read 0#5 = 0 from hnil)]
    exact ⟨b,(h.run_one ht 0 rfl (by simpa using hpc) hcbz 7).trans hb,hret.pc,hret.sp,hret.mem,hret.x,hret.v⟩
  · intro hnil
    have hcall : LookupCall s lookup (s.x 0#5) (s.x 1#5) 0 (lookupState s t lookup) :=
      lookupCall_framed hsp rfl rfl rfl rfl rfl (fun _ => lookupState_saved) rfl rfl rfl
    refine ⟨lookupState s t lookup,run_lookup h ht hpc hsp hnil,hcall,fun r hr => ?_⟩
    have hf : Forwarded own s (r.x 0#5) _ :=
      forwarded_restored (x := s.x) (y := Function.update r.x 16#5 (r.x 0#5)) (fun _ _ => rfl) hcall.x
        (fun q hlow hhigh => ?_) hcall.v hcall.sp (fun a ha => hcall.mem a (hown.notMem_of_mem_left ha)) hr
    · exact ⟨_,run_forward h ht hsp hr,hf,fun _ => hf.conforms⟩
    · have h16 : q ≠ 16#5 := ne_of_low hlow (by decide)
      exact Function.update_of_ne h16 _ _

/-- A message to the object at `0x5000`, whose implementation is at `0x30000`. -/
theorem objcMsgSend_forwards_object :
    ∃ s e b : Cpu, (Text.place 0x1000 (objcMsgSend 0x1000 0x20000)).run 15 s = some e ∧ e.pc = 0x20000 ∧
      e.x 0#5 = 0x5000 ∧ (Text.place 0x1000 (objcMsgSend 0x1000 0x20000)).run 13
        { e with pc := e.x 30#5, x := Function.update e.x 0#5 0x30000 } = some b ∧
      b.pc = 0x30000 ∧ b.x 0#5 = 0x5000 ∧ b.x 30#5 = s.x 30#5 ∧ b.sp = s.sp := by
  let s : Cpu := ⟨fun q => if q = 0#5 then 0x5000 else 7,fun _ => 3,0x8000,0x1000,fun _ => 0⟩
  have hheld : (Text.place 0x1000 (objcMsgSend 0x1000 0x20000)).Holds 0x1000 (objcMsgSend 0x1000 0x20000) :=
    Text.holds_place 0x1000 (by decide)
  have hown : Disjoint (∅ : Set Addr) (frameBytes s) := Set.empty_disjoint _
  obtain ⟨-,hsend⟩ := objcMsgSend_forwards (s := s) hheld (by decide) rfl (by decide) hown
  obtain ⟨e,hrun,hcall,hreturn⟩ := hsend (by decide)
  obtain ⟨b,hb,hf,-⟩ := hreturn { e with pc := e.x 30#5, x := Function.update e.x 0#5 0x30000 } {
    pc := rfl
    sp := rfl
    x := fun q hlow _ => Function.update_of_ne (ne_of_low hlow (by decide)) _ _
    v := fun _ _ _ => rfl
    mem := fun _ _ => rfl }
  refine ⟨s,e,b,hrun,hcall.pc,hcall.receiver,hb,?_,hf.argument 0#5 (by decide),hf.x 30#5 (by decide) (by decide),hf.sp⟩
  simp [hf.pc]

end Send

/-! ## Messages to the superclass

The caller passes a record of the receiver and the class whose method is running. The search begins
at that class's superclass, and the implementation gets the receiver in place of the record.
-/

def superReceiver (s : Cpu) : BitVec 64 := load s.mem (s.x 0#5) 8

def currentClass (s : Cpu) : Addr := load s.mem (s.x 0#5 + 8) 8

def startClass (s : Cpu) : BitVec 64 := load s.mem (currentClass s + 8) 8

/-- `s` as if it had sent the message to the receiver itself. -/
def toReceiver (s : Cpu) : Cpu := { s with x := Function.update s.x 0#5 (superReceiver s) }

section Super
variable {text : Text} {t lookup : Addr} {s : Cpu} {own : Set Addr}

def withReceiver (s : Cpu) (pc : Addr) : Cpu := { s with x := Function.update s.x 9#5 (superReceiver s), pc := pc }

/-- The call of the lookup in `objc_msgSendSuper2`. -/
def superState (s : Cpu) (t lookup : Addr) : Cpu := { framed (withReceiver s (t + 12)) with
  x := Function.update (Function.update (Function.update (Function.update
    (framed (withReceiver s (t + 12))).x 9#5 (s.x 0#5)) 0#5 (superReceiver s)) 2#5 (startClass s)) 30#5 (t + 76)
  pc := lookup }

theorem superState_mem : (superState s t lookup).mem = (framed s).mem := by
  simp [superState,framed,withReceiver,frame,saveArea]

theorem superState_saved {q : Reg} (hlow : 19 ≤ q.toNat) (hhigh : q.toNat ≤ 28) :
    (superState s t lookup).x q = s.x q := by
  have h0 : q ≠ 0#5 := ne_of_low hlow (by decide)
  have h2 : q ≠ 2#5 := ne_of_low hlow (by decide)
  have h9 : q ≠ 9#5 := ne_of_low hlow (by decide)
  have h29 : q ≠ 29#5 := ne_of_high hhigh (by decide)
  have h30 : q ≠ 30#5 := ne_of_high hhigh (by decide)
  simp [superState,framed,withReceiver,h0,h2,h9,h29,h30]

theorem run_superRecord (h : text.Holds t (objcMsgSendSuper2 t lookup)) (ht : t.toNat % 4 = 0) (hpc : s.pc = t)
    (hnil : s.x 0#5 ≠ 0) (n : ℕ) : text.run (n + 2) s = text.run n (withReceiver s (t + 8)) := by
  have hcbz : s.execAsm (.cbz 0#5 (t + 140)) = some { s with pc := t + 4 } := by
    rw [Cpu.execAsm,if_neg (show ¬s.read 0#5 = 0 from hnil),Cpu.next,hpc]
  have hldr : Cpu.execAsm { s with pc := t + 4 } (.ldrImm 9#5 0#5 0#12) = some (withReceiver s (t + 8)) := by
    simp [Cpu.execAsm,Cpu.Aligned,Cpu.base,Cpu.write,Cpu.next,withReceiver,superReceiver,BitVec.add_assoc]
  rw [h.run_one ht 0 rfl (by simpa using hpc) hcbz (n + 1),h.run_one ht 1 rfl rfl hldr n]

theorem run_superLookup (h : text.Holds t (objcMsgSendSuper2 t lookup)) (ht : t.toNat % 4 = 0) (hpc : s.pc = t)
    (hsp : s.sp.toNat % 16 = 0) (hnil : s.x 0#5 ≠ 0) (hself : superReceiver s ≠ 0)
    (hrecord : Apart (s.x 0#5) 16 (frame s) 224) (hclass : Apart (currentClass s + 8) 8 (frame s) 224) :
    text.run 19 s = some (superState s t lookup) := by
  let s₁ := withReceiver s (t + 12)
  have hmem : (framed s₁).mem = (framed s).mem := @superState_mem t lookup s
  have hself0 : load (framed s₁).mem (frame s) 8 = s.x 0#5 := by
    have := load_framed (s := s) (c := ⟨0,8,s.x 0#5⟩) (by simp [saveArea])
    rw [hmem]
    simpa using this
  have hreceiver : load (framed s₁).mem (s.x 0#5) 8 = superReceiver s := by
    have hpart : Apart (s.x 0#5 + BitVec.ofNat 64 0) 8 (frame s + BitVec.ofNat 64 0) 224 :=
      hrecord.sub (by decide) (by decide) (by decide) (by decide)
    rw [BitVec.add_zero,BitVec.add_zero] at hpart
    rw [hmem,load_framed_apart hpart,superReceiver]
  have hcurrent : load (framed s₁).mem (s.x 0#5 + 8) 8 = currentClass s := by
    have hpart : Apart (s.x 0#5 + BitVec.ofNat 64 8) 8 (frame s + BitVec.ofNat 64 0) 224 :=
      hrecord.sub (by decide) (by decide) (by decide) (by decide)
    rw [BitVec.add_zero] at hpart
    rw [hmem]
    exact load_framed_apart hpart
  have hstart : load (framed s₁).mem (currentClass s + 8) 8 = startClass s := by
    rw [hmem,load_framed_apart hclass,startClass]
  have hopen := execAll_openFrame (s := s₁) hsp
  have hblock : execAll ([.subImm 31#5 31#5 224#12] ++ saveRegisters ++ [.frame (.addImm 29#5 31#5 208#12)] ++
      [.ldrImm 9#5 31#5 0#12,.ldp 0#5 2#5 9#5 0#7,.ldrImm 2#5 2#5 1#12]) s₁ =
      some { superState s t lookup with
        x := Function.update (Function.update (Function.update (framed s₁).x 9#5 (s.x 0#5)) 0#5 (superReceiver s))
          2#5 (startClass s)
        pc := t + 72 } := by
    let x₁ := Function.update (framed s₁).x 9#5 (s.x 0#5)
    let x₂ := Function.update (Function.update x₁ 0#5 (superReceiver s)) 2#5 (currentClass s)
    have hrecordAddr : (framed s₁).execAsm (.ldrImm 9#5 31#5 0#12) =
        some { framed s₁ with x := x₁, pc := t + 64 } := by
      have hal : (framed s₁).Aligned 31#5 := Cpu.aligned_sp (frame_aligned hsp) 31#5
      have hbase : (framed s₁).base 31#5 + (0#12).setWidth 64 <<< 3 = frame s := BitVec.add_zero _
      rw [Cpu.execAsm,if_pos hal,hbase,hself0]
      simp [Cpu.write,Cpu.next,x₁,framed,s₁,withReceiver,BitVec.add_assoc]
    have hpair : Cpu.execAsm { framed s₁ with x := x₁, pc := t + 64 } (.ldp 0#5 2#5 9#5 0#7) =
        some { framed s₁ with x := x₂, pc := t + 68 } := by
      simp [Cpu.execAsm,Cpu.Aligned,Cpu.base,Cpu.write,Cpu.next,x₁,x₂,hreceiver,BitVec.add_assoc]
      exact congrArg (Function.update _ 2#5) hcurrent
    have hsuper : Cpu.execAsm { framed s₁ with x := x₂, pc := t + 68 } (.ldrImm 2#5 2#5 1#12) =
        some { framed s₁ with x := Function.update x₂ 2#5 (startClass s), pc := t + 72 } := by
      simp [Cpu.execAsm,Cpu.Aligned,Cpu.base,Cpu.write,Cpu.next,x₂,BitVec.add_assoc]
      exact congrArg (Function.update _ 2#5) hstart
    rw [execAll_append,hopen]
    simp only [execAll,Option.bind_some,hrecordAddr,hpair,hsuper,x₂,x₁,Function.update_idem]
    rfl
  have hcbz : Cpu.execAsm (withReceiver s (t + 8)) (.cbz 9#5 (t + 140)) = some s₁ := by
    have hread : ¬(withReceiver s (t + 8)).read 9#5 = 0 := by
      simpa [Cpu.read,withReceiver] using hself
    rw [Cpu.execAsm,if_neg hread]
    simp [Cpu.next,s₁,withReceiver,BitVec.add_assoc]
  calc text.run 19 s
      = text.run 17 (withReceiver s (t + 8)) := run_superRecord h ht hpc hnil 17
    _ = text.run 16 s₁ := h.run_one ht 2 rfl rfl hcbz 16
    _ = text.run 1 _ := h.run_block ht 3 (by exact List.prefix_append _ _) (by decide) rfl hblock 1
    _ = some (superState s t lookup) := by
        refine (h.run_one ht 18 rfl rfl rfl 0).trans ?_
        simp [Text.run,superState,Cpu.write,BitVec.add_assoc]
        rfl

theorem run_superForward (h : text.Holds t (objcMsgSendSuper2 t lookup)) (ht : t.toNat % 4 = 0)
    (hsp : s.sp.toNat % 16 = 0) (hrecord : Apart (s.x 0#5) 16 (frame s) 224)
    (hmine : ∀ i < 8, s.x 0#5 + BitVec.ofNat 64 i ∈ own) {r : Cpu}
    (hr : Conforms (own ∪ frameBytes s) (superState s t lookup) r) :
    text.run 16 r = some { restored (toReceiver s).x s.v { r with
        x := Function.update (Function.update r.x 16#5 (r.x 0#5)) 17#5 (superReceiver s) } with
      sp := r.sp + 224, pc := r.x 0#5 } := by
  have hpc : r.pc = t + 76 := hr.pc
  have hspr : r.sp = frame s := hr.sp
  have harea : ∀ c ∈ saveArea s.x s.v, load r.mem (r.sp + BitVec.ofNat 64 c.off) c.size = c.val := by
    rw [hspr]
    exact saved_kept superState_mem hr
  have hself : load r.mem r.sp 8 = s.x 0#5 := by
    have := harea ⟨0,8,s.x 0#5⟩ (by simp [saveArea])
    simpa using this
  have hreceiver : load r.mem (s.x 0#5) 8 = superReceiver s := by
    have hpart : Apart (s.x 0#5 + BitVec.ofNat 64 0) 8 (frame s + BitVec.ofNat 64 0) 224 :=
      hrecord.sub (by decide) (by decide) (by decide) (by decide)
    rw [BitVec.add_zero,BitVec.add_zero] at hpart
    rw [load_congr (fun i hi => hr.mem _ (Or.inl (hmine i hi))),superState_mem,load_framed_apart hpart,superReceiver]
  have hal : r.sp.toNat % 16 = 0 := by
    rw [hspr]
    exact frame_aligned hsp
  let x₁ := Function.update r.x 16#5 (r.x 0#5)
  let x₂ := Function.update x₁ 17#5 (superReceiver s)
  have hmov : r.execAsm (.mov 16#5 0#5) = some { r with x := x₁, pc := t + 80 } := by
    simp [Cpu.execAsm,AsmInsn.mov,Cpu.exec,Cpu.write,Cpu.read,Cpu.next,hpc,x₁,BitVec.add_assoc]
  have hrecordAddr : Cpu.execAsm { r with x := x₁, pc := t + 80 } (.ldrImm 17#5 31#5 0#12) =
      some { r with x := Function.update x₁ 17#5 (s.x 0#5), pc := t + 84 } := by
    simp [Cpu.execAsm,Cpu.Aligned,hal,Cpu.base,Cpu.write,Cpu.next,hself,BitVec.add_assoc]
  have hload : Cpu.execAsm { r with x := Function.update x₁ 17#5 (s.x 0#5), pc := t + 84 } (.ldrImm 17#5 17#5 0#12) =
      some { r with x := x₂, pc := t + 88 } := by
    simp [Cpu.execAsm,Cpu.Aligned,Cpu.base,Cpu.write,Cpu.next,hreceiver,x₂,BitVec.add_assoc]
  have hrestore := execAll_restoreRegisters (s := { r with x := x₂, pc := t + 88 }) hal harea
  have hzero : Function.update (override savedX s.x x₂) 0#5 (override savedX s.x x₂ 17#5) =
      override savedX (toReceiver s).x x₂ := update_override rfl s.x x₂ (superReceiver s)
  have hblock : execAll ([.mov 16#5 0#5,.ldrImm 17#5 31#5 0#12,.ldrImm 17#5 17#5 0#12] ++ restoreRegisters ++
      [.mov 0#5 17#5,.frame (.addImm 31#5 31#5 224#12)]) r =
      some { restored (toReceiver s).x s.v { r with x := x₂ } with sp := r.sp + 224, pc := t + 136 } := by
    have hload3 : execAll [.mov 16#5 0#5,.ldrImm 17#5 31#5 0#12,.ldrImm 17#5 17#5 0#12] r =
        some { r with x := x₂, pc := t + 88 } := by
      simp only [execAll,hmov,hrecordAddr,hload,Option.bind_some]
    rw [execAll_append,execAll_append,hload3,Option.bind_some,hrestore]
    simp [execAll,Cpu.execAsm,AsmInsn.mov,Cpu.exec,Cpu.base,Cpu.setBase,Cpu.write,Cpu.read,Cpu.next,restored,
      hzero,BitVec.add_assoc]
  calc text.run 16 r
      = text.run 1 { restored (toReceiver s).x s.v { r with x := x₂ } with sp := r.sp + 224, pc := t + 136 } :=
        h.run_block ht 19 (by exact List.prefix_append _ _) (by decide) hpc hblock 1
    _ = _ := by
        refine (h.run_one ht 34 rfl rfl rfl 0).trans ?_
        simp [Text.run,Cpu.read,restored,override,savedX,x₂,x₁]

/-- A message to the superclass is answered with zeros where there is no record or no receiver. Any
other one reaches the implementation that the lookup gives when it begins at the superclass of the
class in the record, and reaches it as a message to the receiver. -/
theorem objcMsgSendSuper2_forwards (h : text.Holds t (objcMsgSendSuper2 t lookup)) (ht : t.toNat % 4 = 0)
    (hpc : s.pc = t) (hsp : s.sp.toNat % 16 = 0) (hown : Disjoint own (frameBytes s)) :
    (s.x 0#5 = 0 → ∃ b, text.run 8 s = some b ∧ ReturnedNil s b) ∧
    (s.x 0#5 ≠ 0 → superReceiver s = 0 →
      ∃ b, text.run 10 s = some b ∧ ReturnedNil { s with x := Function.update s.x 9#5 0 } b) ∧
    (s.x 0#5 ≠ 0 → superReceiver s ≠ 0 → Apart (s.x 0#5) 16 (frame s) 224 →
      Apart (currentClass s + 8) 8 (frame s) 224 → (∀ i < 8, s.x 0#5 + BitVec.ofNat 64 i ∈ own) →
      ∃ e, text.run 19 s = some e ∧ LookupCall s lookup (superReceiver s) (s.x 1#5) (startClass s) e ∧
        ∀ r, Conforms (own ∪ frameBytes s) e r → ∃ b, text.run 16 r = some b ∧
          Forwarded own (toReceiver s) (r.x 0#5) b ∧ ∀ back, Conforms own b back → Conforms own s back) := by
  refine ⟨fun hnil => ?_,fun hnil hself => ?_,fun hnil hself hrecord hclass hmine => ?_⟩
  · obtain ⟨b,hb,hret⟩ := run_returnNil (s := { s with pc := t + 140 }) h ht 35 rfl rfl
    have hcbz : s.execAsm (.cbz 0#5 (t + 140)) = some { s with pc := t + 140 } := by
      rw [Cpu.execAsm,if_pos (show s.read 0#5 = 0 from hnil)]
    exact ⟨b,(h.run_one ht 0 rfl (by simpa using hpc) hcbz 7).trans hb,hret.pc,hret.sp,hret.mem,hret.x,hret.v⟩
  · obtain ⟨b,hb,hret⟩ := run_returnNil (s := withReceiver s (t + 140)) h ht 35 rfl rfl
    have hcbz : (withReceiver s (t + 8)).execAsm (.cbz 9#5 (t + 140)) = some (withReceiver s (t + 140)) := by
      have hread : (withReceiver s (t + 8)).read 9#5 = 0 := by
        simpa [Cpu.read,withReceiver] using hself
      rw [Cpu.execAsm,if_pos hread]
      rfl
    refine ⟨b,?_,?_⟩
    · exact (run_superRecord h ht hpc hnil 8).trans ((h.run_one ht 2 rfl rfl hcbz 7).trans hb)
    · rw [← hself]
      exact ⟨hret.pc,hret.sp,hret.mem,hret.x,hret.v⟩
  · have hx1 : (superState s t lookup).x 1#5 = s.x 1#5 := by simp [superState,framed,withReceiver]
    have hcall : LookupCall s lookup (superReceiver s) (s.x 1#5) (startClass s) (superState s t lookup) :=
      lookupCall_framed hsp superState_mem rfl rfl rfl rfl (fun _ => superState_saved) rfl hx1 rfl
    refine ⟨_,run_superLookup h ht hpc hsp hnil hself hrecord hclass,hcall,fun r hr => ?_⟩
    have hf : Forwarded own (toReceiver s) (r.x 0#5) _ :=
      forwarded_restored (x := (toReceiver s).x)
        (y := Function.update (Function.update r.x 16#5 (r.x 0#5)) 17#5 (superReceiver s))
        (fun _ h0 => Function.update_of_ne h0 _ _) hcall.x (fun q hlow hhigh => ?_) hcall.v hcall.sp
        (fun a ha => hcall.mem a (hown.notMem_of_mem_left ha)) hr
    · refine ⟨_,run_superForward h ht hsp hrecord hmine hr,hf,fun back hb => ?_⟩
      have hback := hf.conforms hb
      refine ⟨hback.pc,hback.sp,fun q hlow hhigh => ?_,hback.v,hback.mem⟩
      exact (hback.x q hlow hhigh).trans (Function.update_of_ne (ne_of_low hlow (by decide)) _ _)
    · have h16 : q ≠ 16#5 := ne_of_low hlow (by decide)
      have h17 : q ≠ 17#5 := ne_of_low hlow (by decide)
      rw [Function.update_of_ne h17,Function.update_of_ne h16]

/-- A message to the superclass of the class at `0x6000`, whose record is at `0x9000`. -/
theorem objcMsgSendSuper2_forwards_record :
    ∃ s e b : Cpu, (Text.place 0x1000 (objcMsgSendSuper2 0x1000 0x20000)).run 19 s = some e ∧ e.pc = 0x20000 ∧
      e.x 0#5 = 0x50 ∧ e.x 2#5 = 0x61 ∧ (Text.place 0x1000 (objcMsgSendSuper2 0x1000 0x20000)).run 16
        { e with pc := e.x 30#5, x := Function.update e.x 0#5 0x30000 } = some b ∧
      b.pc = 0x30000 ∧ b.x 0#5 = 0x50 ∧ b.x 30#5 = s.x 30#5 ∧ b.sp = s.sp := by
  let s : Cpu := ⟨fun q => if q = 0#5 then 0x9000 else 7,fun _ => 3,0x8000,0x1000,
    fun a => if a = 0x9000 then 0x50 else if a = 0x9009 then 0x60 else if a = 0x6008 then 0x61 else 0⟩
  have hheld : (Text.place 0x1000 (objcMsgSendSuper2 0x1000 0x20000)).Holds 0x1000
      (objcMsgSendSuper2 0x1000 0x20000) := Text.holds_place 0x1000 (by decide)
  have hown : Disjoint {a | ∃ i < 8, a = 0x9000 + BitVec.ofNat 64 i} (frameBytes s) := by
    rw [Set.disjoint_left]
    rintro _ ⟨i,hi,rfl⟩ hin
    have hout : 224 ≤ (0x9000#64 + BitVec.ofNat 64 i - frame s).toNat := by
      simp only [s,frame,BitVec.ofNat_eq_ofNat,BitVec.toNat_sub,BitVec.toNat_add,BitVec.toNat_ofNat]
      omega
    exact absurd hin (Nat.not_lt_of_le hout)
  obtain ⟨-,-,hsend⟩ := objcMsgSendSuper2_forwards (s := s) hheld (by decide) rfl (by decide) hown
  obtain ⟨e,hrun,hcall,hreturn⟩ := hsend (by decide) (by decide) (by decide) (by decide) fun i hi => ⟨i,hi,rfl⟩
  obtain ⟨b,hb,hf,-⟩ := hreturn { e with pc := e.x 30#5, x := Function.update e.x 0#5 0x30000 } {
    pc := rfl
    sp := rfl
    x := fun q hlow _ => Function.update_of_ne (ne_of_low hlow (by decide)) _ _
    v := fun _ _ _ => rfl
    mem := fun _ _ => rfl }
  refine ⟨s,e,b,hrun,hcall.pc,hcall.receiver.trans ?_,hcall.start.trans ?_,hb,?_,
    (hf.argument 0#5 (by decide)).trans ?_,hf.x 30#5 (by decide) (by decide),hf.sp⟩
  · decide
  · decide
  · simp [hf.pc]
  · decide

end Super

end MsgSend

end Machismo.Shim
