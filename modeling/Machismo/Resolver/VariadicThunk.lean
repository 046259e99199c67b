import Machismo.A64.Calls
import Machismo.Resolver.State

/-! # Thunks for variadic functions

A macOS caller passes the variadic arguments of a call on the stack, or hands on a pointer to such
arguments as a `va_list`; the C library of Linux wants a `va_list` record. The thunk builds the
record in a frame of its own, with nothing left in registers and the caller's words on the stack,
and calls the `v` counterpart of the function.
-/
namespace Machismo.Resolver
open A64

namespace VariadicInfo
variable (info : VariadicInfo)

/-- The register that receives the address of the record. -/
def dest : Reg := BitVec.ofNat 5 info.destReg

/-- The register that holds the caller's `va_list`. -/
def source : Reg := BitVec.ofNat 5 info.sourceReg

def loadSource : Word :=
  if info.isVaList then 0xAA0003E8#32 ||| BitVec.ofNat 32 info.sourceReg <<< 16 else 0x9100C3A8#32

def setVaPtr : Word := 0x910043E0#32 ||| BitVec.ofNat 32 info.destReg

def thunkWords : List Word := [
  0xA9BD7BFD#32,
  0x910003FD#32,
  info.loadSource,
  0xF9000BE8#32,
  0xF9000FFF#32,
  0xF90013FF#32,
  0x29057FFF#32,
  info.setVaPtr,
  0x58000090#32,
  0xD63F0200#32,
  0xA8C37BFD#32,
  0xD65F03C0#32]

def thunkInsns : List FrameInsn := [
  .stpPre 29#5 30#5 31#5 (-6#7),
  .addImm 29#5 31#5 0#12,
  if info.isVaList then .orr 8#5 31#5 info.source else .addImm 8#5 29#5 48#12,
  .strImm 8#5 31#5 2#12,
  .strImm 31#5 31#5 3#12,
  .strImm 31#5 31#5 4#12,
  .stpW 31#5 31#5 31#5 10#7,
  .addImm info.dest 31#5 16#12,
  .ldrLit 16#5 4#19,
  .blr 16#5,
  .ldpPost 29#5 30#5 31#5 6#7,
  .ret 30#5]

/-- Where the words of the caller `s` are. -/
def args (s : Cpu) : Addr := if info.isVaList then s.x info.source else s.sp

end VariadicInfo

namespace VariadicThunk

def writeWords (m : Memory) (t : Addr) : List Word → Memory
  | [] => m
  | w :: ws => writeWords (store m t 4 w) (t + 4) ws

/-- Memory once `createVariadicThunk` has filled the slot at `t`. -/
def writeThunk (m : Memory) (t vFunc : Addr) (info : VariadicInfo) : Memory :=
  store (writeWords m t info.thunkWords) (t + 48) 8 vFunc

theorem decode_thunkWords :
    ∀ info ∈ variadicFunctions, info.thunkWords.map decodeFrame = info.thunkInsns.map some := by decide

theorem load_writeWords_apart {m : Memory} {t a : Addr} {n : ℕ} {ws : List Word} (hn : 0 < n)
    (h : Apart a n t (4*ws.length)) : load (writeWords m t ws) a n = load m a n := by
  induction ws generalizing m t with
  | nil => rfl
  | cons w ws ih =>
    have hhead : Apart (a + BitVec.ofNat 64 0) n (t + BitVec.ofNat 64 0) 4 :=
      h.sub (by omega) (by simp only [List.length_cons]; omega) hn (by omega)
    rw [BitVec.add_zero,BitVec.add_zero] at hhead
    rw [writeWords]
    cases ws with
    | nil => exact load_store_apart m w hhead
    | cons w' ws =>
      have htail : Apart (a + BitVec.ofNat 64 0) n (t + BitVec.ofNat 64 4) (4*(w' :: ws).length) :=
        h.sub (by omega) (by simp only [List.length_cons]; omega) hn (by simp)
      rw [BitVec.add_zero] at htail
      exact (ih htail).trans (load_store_apart m w hhead)

theorem load_writeWords {m : Memory} {t : Addr} {ws : List Word} (hlen : 4*ws.length < 2^64) (k : ℕ)
    (hk : k < ws.length) : load (writeWords m t ws) (t + BitVec.ofNat 64 (4*k)) 4 = ws[k] := by
  induction ws generalizing m t k with
  | nil => exact absurd hk (by simp)
  | cons w ws ih =>
    rw [List.length_cons] at hlen
    cases k with
    | zero =>
      rw [Nat.mul_zero,BitVec.add_zero,writeWords]
      cases ws with
      | nil => exact load_store_same m t 4 w (by omega)
      | cons w' ws =>
        have hapart : Apart (t + BitVec.ofNat 64 0) 4 (t + BitVec.ofNat 64 4) (4*(w' :: ws).length) :=
          apart_add t le_rfl (by omega) (by omega) (by simp)
        rw [BitVec.add_zero] at hapart
        exact (load_writeWords_apart (by omega) hapart).trans (load_store_same m t 4 w (by omega))
    | succ k =>
      have haddr : t + BitVec.ofNat 64 (4*(k + 1)) = t + 4 + BitVec.ofNat 64 (4*k) := by
        rw [BitVec.add_assoc,Nat.mul_succ,Nat.add_comm,BitVec.ofNat_add]
        rfl
      rw [haddr,writeWords]
      exact ih (by omega) k (by simpa using hk)

/-- The thunk at `t` is in memory, with the address of the function behind its code. -/
structure HasThunk (m : Memory) (t vFunc : Addr) (info : VariadicInfo) : Prop where
  code : HasCode m t info.thunkInsns
  target : load m (t + 48) 8 = vFunc

theorem hasCode_of_words {m : Memory} {t : Addr} {ws : List Word} {is : List FrameInsn}
    (hd : ws.map decodeFrame = is.map some)
    (hw : ∀ k (hk : k < ws.length), load m (t + BitVec.ofNat 64 (4*k)) 4 = ws[k]) : HasCode m t is := by
  intro k hk
  have hlen : ws.length = is.length := by simpa using congrArg List.length hd
  have hget := congrArg (fun l => l[k]?) hd
  simp only [List.getElem?_map] at hget
  rw [List.getElem?_eq_getElem hk,List.getElem?_eq_getElem (hlen ▸ hk)] at hget
  rw [hw k (hlen ▸ hk)]
  simpa using hget

theorem hasThunk_writeThunk (m : Memory) (t vFunc : Addr) {info : VariadicInfo} (hinfo : info ∈ variadicFunctions) :
    HasThunk (writeThunk m t vFunc info) t vFunc info := by
  refine ⟨hasCode_of_words (decode_thunkWords info hinfo) fun k hk => ?_,?_⟩
  · have hk' : k < 12 := hk
    have hapart : Apart (t + BitVec.ofNat 64 (4*k)) 4 (t + BitVec.ofNat 64 48) 8 :=
      apart_add t (by omega) (by omega) (by omega) (by omega)
    have hlen : 4*info.thunkWords.length < 2^64 := (by decide : 4*12 < 2^64)
    calc load (writeThunk m t vFunc info) (t + BitVec.ofNat 64 (4*k)) 4
        = load (writeWords m t info.thunkWords) (t + BitVec.ofNat 64 (4*k)) 4 :=
          @load_store_apart _ _ _ 4 8 vFunc hapart
      _ = info.thunkWords[k] := load_writeWords hlen k hk
  · exact load_store_same _ _ 8 vFunc (by decide)

namespace HasThunk
variable {m m' : Memory} {t vFunc : Addr} {info : VariadicInfo}

theorem congr (h : HasThunk m t vFunc info)
    (hm : ∀ i < 56, m' (t + BitVec.ofNat 64 i) = m (t + BitVec.ofNat 64 i)) : HasThunk m' t vFunc info := by
  refine ⟨h.code.congr fun i hi => hm i ?_,?_⟩
  · have : i < 4*12 := hi
    omega
  · rw [← h.target]
    refine load_congr fun i hi => ?_
    have he : t + 48 + BitVec.ofNat 64 i = t + BitVec.ofNat 64 (48 + i) := by
      rw [BitVec.ofNat_add,BitVec.add_assoc]
      rfl
    rw [he]
    exact hm _ (by omega)

theorem store {a : Addr} {n : ℕ} (h : HasThunk m t vFunc info) (ha : Apart t 56 a n) (v : BitVec (8*n)) :
    HasThunk (A64.store m a n v) t vFunc info :=
  h.congr fun _ hi => store_outside m a n v (ha.toNat_sub hi)

theorem storeFrame {f : Addr} (h : HasThunk m t vFunc info) (hf : Apart t 56 f 48) (c n : ℕ) (hn : 0 < n)
    (hc : c + n ≤ 48) (v : BitVec (8*n)) : HasThunk (A64.store m (f + BitVec.ofNat 64 c) n v) t vFunc info := by
  have ha : Apart (t + BitVec.ofNat 64 0) 56 (f + BitVec.ofNat 64 c) n := hf.sub le_rfl hc (by decide) hn
  rw [BitVec.add_zero] at ha
  exact h.store ha v

end HasThunk

theorem createVariadicThunk_aligned {E : Env} {st st' : ResolverState} {vFunc : Addr} {info : VariadicInfo} {k : Target}
    (hmap : ∀ base, E.mmap .variadic = some base → base.toNat % 8 = 0) (hused : st.used .variadic % 8 = 0)
    (h : createVariadicThunk E vFunc info st = some (k,st')) :
    (k.addr E).toNat % 8 = 0 ∧ st'.used .variadic % 8 = 0 := by
  unfold createVariadicThunk alloc at h
  cases hb : E.mmap .variadic with
  | none => simp [hb] at h
  | some base =>
    have hbase := hmap base hb
    simp only [hb,Option.bind_some] at h
    split at h
    · simp only [Option.map_some,Option.some.injEq,Prod.mk.injEq] at h
      obtain ⟨rfl,rfl⟩ := h
      simp only [Target.addr,Function.update_self,Pool.slotSize,BitVec.toNat_add,BitVec.toNat_ofNat]
      omega
    · simp at h

/-- The frame of a call is the 48 bytes below the caller's stack pointer. -/
def frame (s : Cpu) : Addr := s.sp - 48

/-- A `va_list` at `ap` whose next argument is at `a`. -/
def storeVaList (m : Memory) (ap a : Addr) : Memory :=
  store (store (store (store (store m ap 8 a) (ap + 8) 8 0) (ap + 16) 8 0) (ap + 24) 4 0) (ap + 28) 4 0

section Run
variable {s : Cpu} {t vFunc : Addr} {info : VariadicInfo}

theorem pc_add (t : Addr) (k : ℕ) : t + BitVec.ofNat 64 (4*k) + 4 = t + BitVec.ofNat 64 (4*(k + 1)) := by
  rw [BitVec.add_assoc,Nat.mul_succ,BitVec.ofNat_add]
  rfl

theorem run_insn {s' : Cpu} (h : HasThunk s.mem t vFunc info) (ht : t.toNat % 4 = 0) (k : ℕ) {i : FrameInsn}
    (hk : info.thunkInsns[k]? = some i) (hpc : s.pc = t + BitVec.ofNat 64 (4*k)) (he : s.exec i = some s') (n : ℕ) :
    s.run (n + 1) = s'.run n := by
  obtain ⟨hlt,rfl⟩ := List.getElem?_eq_some_iff.mp hk
  exact Cpu.run_code h.code ht k hlt hpc he n

/-- The frame is open, with the caller's frame record in it. -/
def framed (s : Cpu) (t : Addr) : Cpu :=
  { s with
    x := Function.update s.x 29#5 (frame s), sp := frame s, pc := t + 8,
    mem := store (store s.mem (frame s) 8 (s.x 29#5)) (frame s + 8) 8 (s.x 30#5) }

theorem HasThunk.framed (h : HasThunk s.mem t vFunc info) (hframe : Apart t 56 (frame s) 48) :
    HasThunk (framed s t).mem t vFunc info := by
  have h0 := h.storeFrame hframe 0 8 (by decide) (by decide) (s.x 29#5)
  rw [BitVec.add_zero] at h0
  exact h0.storeFrame hframe 8 8 (by decide) (by decide) (s.x 30#5)

theorem run_framed (h : HasThunk s.mem t vFunc info) (ht : t.toNat % 4 = 0) (hpc : s.pc = t)
    (hsp : s.sp.toNat % 16 = 0) (hframe : Apart t 56 (frame s) 48) (n : ℕ) :
    s.run (n + 2) = (framed s t).run n := by
  have hf : s.sp + 0xFFFFFFFFFFFFFFD0#64 = frame s := (BitVec.sub_eq_add_neg s.sp 48#64).symm
  have hpush : s.exec (.stpPre 29#5 30#5 31#5 (-6#7)) =
      some { s with sp := frame s, pc := t + 4, mem := (framed s t).mem } := by
    simp [Cpu.exec,Cpu.aligned_sp hsp,Cpu.base,Cpu.read,Cpu.setMem,Cpu.setBase,Cpu.next,framed,hf,hpc]
  have hmov : Cpu.exec { s with sp := frame s, pc := t + 4, mem := (framed s t).mem } (.addImm 29#5 31#5 0#12) =
      some (framed s t) := by
    simp [Cpu.exec,Cpu.base,Cpu.setBase,Cpu.next,framed,BitVec.add_assoc]
  calc s.run (n + 2)
      = Cpu.run (n + 1) { s with sp := frame s, pc := t + 4, mem := (framed s t).mem } :=
        run_insn h ht 0 rfl (by rw [hpc]; exact (BitVec.add_zero t).symm) hpush (n + 1)
    _ = (framed s t).run n :=
        run_insn (s := { s with sp := _, pc := t + 4, mem := (framed s t).mem }) (h.framed hframe) ht 1 rfl rfl hmov n

theorem run_loadSource (h : HasThunk s.mem t vFunc info) (ht : t.toNat % 4 = 0) (hpc : s.pc = t + 8) (n : ℕ) :
    s.run (n + 1) =
      Cpu.run n { s with
        x := Function.update s.x 8#5 (if info.isVaList then s.read info.source else s.x 29#5 + 48), pc := t + 12 } := by
  cases hlist : info.isVaList with
  | true =>
    have he : s.exec (.orr 8#5 31#5 info.source) =
        some { s with x := Function.update s.x 8#5 (s.read info.source), pc := t + 12 } := by
      simp [Cpu.exec,Cpu.read,Cpu.write,Cpu.next,BitVec.add_assoc,hpc]
    exact run_insn h ht 2 (by simp [VariadicInfo.thunkInsns,hlist]) hpc he n
  | false =>
    have he : s.exec (.addImm 8#5 29#5 48#12) =
        some { s with x := Function.update s.x 8#5 (s.x 29#5 + 48), pc := t + 12 } := by
      simp [Cpu.exec,Cpu.base,Cpu.setBase,Cpu.next,BitVec.add_assoc,hpc]
    exact run_insn h ht 2 (by simp [VariadicInfo.thunkInsns,hlist]) hpc he n

theorem HasThunk.storeVaList {m : Memory} {f : Addr} (h : HasThunk m t vFunc info) (hf : Apart t 56 f 48) (a : Addr) :
    HasThunk (storeVaList m (f + 16) a) t vFunc info := by
  have h1 := h.storeFrame hf 16 8 (by decide) (by decide) a
  have h2 := h1.storeFrame hf 24 8 (by decide) (by decide) 0
  have h3 := h2.storeFrame hf 32 8 (by decide) (by decide) 0
  have h4 := h3.storeFrame hf 40 4 (by decide) (by decide) 0
  have h5 := h4.storeFrame hf 44 4 (by decide) (by decide) 0
  simpa [VariadicThunk.storeVaList,BitVec.add_assoc] using h5

theorem run_storeVaList (h : HasThunk s.mem t vFunc info) (ht : t.toNat % 4 = 0) (hpc : s.pc = t + 12)
    (hsp : s.sp.toNat % 16 = 0) (hframe : Apart t 56 s.sp 48) (n : ℕ) :
    s.run (n + 4) = Cpu.run n { s with pc := t + 28, mem := storeVaList s.mem (s.sp + 16) (s.x 8#5) } := by
  have h1 := h.storeFrame hframe 16 8 (by decide) (by decide) (s.x 8#5)
  have h2 := h1.storeFrame hframe 24 8 (by decide) (by decide) 0#64
  have h3 := h2.storeFrame hframe 32 8 (by decide) (by decide) 0#64
  have hstr : ∀ (m : Memory) (pc : Addr) (rt : Reg) (imm : BitVec 12),
      Cpu.exec { s with pc := pc, mem := m } (.strImm rt 31#5 imm) =
        some { s with pc := pc + 4, mem := store m (s.sp + imm.setWidth 64 <<< 3) 8 (s.read rt) } :=
    fun _ _ _ _ => if_pos (Cpu.aligned_sp hsp _)
  have hstp : ∀ (m : Memory) (pc : Addr), Cpu.exec { s with pc := pc, mem := m } (.stpW 31#5 31#5 31#5 10#7) =
      some { s with pc := pc + 4, mem := store (store m (s.sp + 40) 4 0) (s.sp + 44) 4 0 } := by
    intro m pc
    have hal : Cpu.Aligned { s with pc := pc, mem := m } 31#5 := Cpu.aligned_sp hsp _
    simp [Cpu.exec,hal,Cpu.base,Cpu.read,Cpu.setMem,Cpu.next,BitVec.add_assoc]
  calc s.run (n + 4)
      = Cpu.run (n + 3) { s with pc := s.pc + 4, mem := store s.mem (s.sp + 16) 8 (s.x 8#5) } :=
        run_insn h ht 3 rfl hpc (hstr s.mem s.pc 8#5 2#12) (n + 3)
    _ = Cpu.run (n + 2) { s with
          pc := s.pc + 4 + 4, mem := store (store s.mem (s.sp + 16) 8 (s.x 8#5)) (s.sp + 24) 8 0 } :=
        run_insn h1 ht 4 rfl (by rw [hpc]; exact pc_add t 3) (hstr _ _ 31#5 3#12) (n + 2)
    _ = Cpu.run (n + 1) { s with
          pc := s.pc + 4 + 4 + 4,
          mem := store (store (store s.mem (s.sp + 16) 8 (s.x 8#5)) (s.sp + 24) 8 0) (s.sp + 32) 8 0 } :=
        run_insn h2 ht 5 rfl (by simp [hpc,BitVec.add_assoc]) (hstr _ _ 31#5 4#12) (n + 1)
    _ = Cpu.run n { s with
          pc := s.pc + 4 + 4 + 4 + 4,
          mem := store (store (store (store (store s.mem (s.sp + 16) 8 (s.x 8#5)) (s.sp + 24) 8 0) (s.sp + 32) 8 0)
            (s.sp + 40) 4 0) (s.sp + 44) 4 0 } :=
        run_insn h3 ht 6 rfl (by simp [hpc,BitVec.add_assoc]) (hstp _ _) n
    _ = Cpu.run n { s with pc := t + 28, mem := storeVaList s.mem (s.sp + 16) (s.x 8#5) } := by
        simp [hpc,storeVaList,BitVec.add_assoc]

theorem run_callTarget (h : HasThunk s.mem t vFunc info) (ht : t.toNat % 4 = 0) (hpc : s.pc = t + 28)
    (hdest : info.dest ≠ 31#5) (n : ℕ) :
    s.run (n + 3) =
      Cpu.run n { s with
        x := Function.update (Function.update (Function.update s.x info.dest (s.sp + 16)) 16#5 vFunc) 30#5 (t + 40),
        pc := vFunc } := by
  have hset : s.exec (.addImm info.dest 31#5 16#12) =
      some { s with x := Function.update s.x info.dest (s.sp + 16), pc := t + 32 } := by
    simp [Cpu.exec,Cpu.base,Cpu.setBase,Cpu.next,BitVec.add_assoc,hpc,hdest]
  have hload : Cpu.exec { s with x := Function.update s.x info.dest (s.sp + 16), pc := t + 32 } (.ldrLit 16#5 4#19) =
      some { s with x := Function.update (Function.update s.x info.dest (s.sp + 16)) 16#5 vFunc, pc := t + 36 } := by
    have htarget := h.target
    simp only [BitVec.ofNat_eq_ofNat] at htarget
    simp [Cpu.exec,Cpu.write,Cpu.next,BitVec.add_assoc,htarget]
  have hcall : Cpu.exec { s with
        x := Function.update (Function.update s.x info.dest (s.sp + 16)) 16#5 vFunc, pc := t + 36 } (.blr 16#5) =
      some { s with
        x := Function.update (Function.update (Function.update s.x info.dest (s.sp + 16)) 16#5 vFunc) 30#5 (t + 40),
        pc := vFunc } := by
    simp [Cpu.exec,Cpu.write,Cpu.read,BitVec.add_assoc]
  calc s.run (n + 3)
      = Cpu.run (n + 2) { s with x := Function.update s.x info.dest (s.sp + 16), pc := t + 32 } :=
        run_insn h ht 7 rfl hpc hset (n + 2)
    _ = Cpu.run (n + 1) { s with
          x := Function.update (Function.update s.x info.dest (s.sp + 16)) 16#5 vFunc, pc := t + 36 } :=
        run_insn (s := { s with x := _, pc := t + 32 }) h ht 8 rfl rfl hload (n + 1)
    _ = _ := run_insn (s := { s with x := _, pc := t + 36 }) h ht 9 rfl rfl hcall n

/-- The state in which the function is entered. -/
def entry (s : Cpu) (t vFunc : Addr) (info : VariadicInfo) : Cpu where
  x := Function.update (Function.update (Function.update (Function.update (Function.update s.x 29#5 (frame s))
    8#5 (info.args s)) info.dest (frame s + 16)) 16#5 vFunc) 30#5 (t + 40)
  v := s.v
  sp := frame s
  pc := vFunc
  mem :=
    storeVaList (store (store s.mem (frame s) 8 (s.x 29#5)) (frame s + 8) 8 (s.x 30#5)) (frame s + 16) (info.args s)

theorem frame_aligned (hsp : s.sp.toNat % 16 = 0) : (frame s).toNat % 16 = 0 := by
  simp only [frame,BitVec.ofNat_eq_ofNat,BitVec.toNat_sub,BitVec.toNat_ofNat]
  omega

theorem registers : ∀ info ∈ variadicFunctions,
    info.dest.toNat < 8 ∧ (info.isVaList = true → info.source.toNat < 8) := by decide

theorem run_entry (h : HasThunk s.mem t vFunc info) (hinfo : info ∈ variadicFunctions) (ht : t.toNat % 4 = 0)
    (hpc : s.pc = t) (hsp : s.sp.toNat % 16 = 0) (hframe : Apart t 56 (frame s) 48) :
    s.run 10 = some (entry s t vFunc info) := by
  obtain ⟨hdest,hsource⟩ := registers info hinfo
  have hdest31 : info.dest ≠ 31#5 := fun he => by simp [he] at hdest
  have hargs : (if info.isVaList then (framed s t).read info.source else (framed s t).x 29#5 + 48) = info.args s := by
    cases hlist : info.isVaList with
    | true =>
      have h29 : info.source ≠ 29#5 := fun he => by simp [he,hlist] at hsource
      have h31 : info.source ≠ 31#5 := fun he => by simp [he,hlist] at hsource
      simp [VariadicInfo.args,hlist,Cpu.read,framed,h29,h31]
    | false => simp [VariadicInfo.args,hlist,framed,frame]
  have h1 := h.framed hframe
  have h2 : HasThunk (storeVaList (framed s t).mem (frame s + 16) (info.args s)) t vFunc info :=
    h1.storeVaList hframe (info.args s)
  calc s.run 10
      = (framed s t).run 8 := run_framed h ht hpc hsp hframe 8
    _ = Cpu.run 7 { framed s t with x := Function.update (framed s t).x 8#5 (info.args s), pc := t + 12 } := by
        rw [run_loadSource h1 ht rfl 7,hargs]
    _ = Cpu.run 3 { framed s t with
          x := Function.update (framed s t).x 8#5 (info.args s), pc := t + 28,
          mem := storeVaList (framed s t).mem (frame s + 16) (info.args s) } := by
        rw [run_storeVaList (s := { framed s t with x := _, pc := t + 12 }) h1 ht rfl (frame_aligned hsp) hframe 3]
        simp [framed]
    _ = some (entry s t vFunc info) := by
        exact run_callTarget (s := { framed s t with
          x := Function.update (framed s t).x 8#5 (info.args s), pc := t + 28,
          mem := storeVaList (framed s t).mem (frame s + 16) (info.args s) }) h2 ht rfl hdest31 0

theorem run_return (h : HasThunk s.mem t vFunc info) (ht : t.toNat % 4 = 0) (hpc : s.pc = t + 40)
    (hsp : s.sp.toNat % 16 = 0) :
    s.run 2 = some { s with
      x := Function.update (Function.update s.x 29#5 (load s.mem s.sp 8)) 30#5 (load s.mem (s.sp + 8) 8)
      sp := s.sp + 48
      pc := load s.mem (s.sp + 8) 8 } := by
  have hpop : s.exec (.ldpPost 29#5 30#5 31#5 6#7) = some { s with
      x := Function.update (Function.update s.x 29#5 (load s.mem s.sp 8)) 30#5 (load s.mem (s.sp + 8) 8)
      sp := s.sp + 48
      pc := t + 44 } := by
    simp [Cpu.exec,Cpu.aligned_sp hsp,Cpu.base,Cpu.setBase,Cpu.write,Cpu.next,BitVec.add_assoc,hpc]
  rw [run_insn h ht 10 rfl hpc hpop,run_insn (s := { s with x := _, sp := _, pc := t + 44 }) h ht 11 rfl rfl rfl]
  simp [Cpu.run,Cpu.read]

/-! ## What the callee and the caller see -/

theorem entry_argument {r : Reg} (hr : r.toNat < 8) (hd : r ≠ info.dest) :
    (entry s t vFunc info).x r = s.x r := by
  have h8 : r ≠ 8#5 := fun he => by simp [he] at hr
  have h16 : r ≠ 16#5 := fun he => by simp [he] at hr
  have h29 : r ≠ 29#5 := fun he => by simp [he] at hr
  have h30 : r ≠ 30#5 := fun he => by simp [he] at hr
  simp [entry,h8,h16,h29,h30,hd]

theorem entry_dest (hinfo : info ∈ variadicFunctions) : (entry s t vFunc info).x info.dest = frame s + 16 := by
  have hdest := (registers info hinfo).1
  have h16 : info.dest ≠ 16#5 := fun he => by simp [he] at hdest
  have h30 : info.dest ≠ 30#5 := fun he => by simp [he] at hdest
  simp [entry,h16,h30]

theorem vaOnStack_storeVaList (m : Memory) (ap a : Addr) : VaOnStack (storeVaList m ap a) ap a := by
  have hapart : ∀ {i n j k : ℕ}, i + n ≤ j → j + k ≤ 32 → 0 < n → 0 < k →
      Apart (ap + BitVec.ofNat 64 i) n (ap + BitVec.ofNat 64 j) k :=
    fun h hk hn hk0 => apart_add ap h (hk.trans (by decide)) hn hk0
  have h0 : ∀ {j k : ℕ}, 8 ≤ j → j + k ≤ 32 → 0 < k → Apart ap 8 (ap + BitVec.ofNat 64 j) k := by
    intro j k hj hk hk0
    have := hapart (i := 0) (n := 8) hj hk (by decide) hk0
    rwa [BitVec.add_zero] at this
  constructor
  · calc load (storeVaList m ap a) ap 8
        = load (store (store (store (store m ap 8 a) (ap + 8) 8 0) (ap + 16) 8 0) (ap + 24) 4 0) ap 8 :=
          load_store_apart _ _ (h0 (by decide) (by decide) (by decide))
      _ = load (store (store (store m ap 8 a) (ap + 8) 8 0) (ap + 16) 8 0) ap 8 :=
          load_store_apart _ _ (h0 (by decide) (by decide) (by decide))
      _ = load (store (store m ap 8 a) (ap + 8) 8 0) ap 8 :=
          load_store_apart _ _ (h0 (by decide) (by decide) (by decide))
      _ = load (store m ap 8 a) ap 8 := load_store_apart _ _ (h0 (by decide) (by decide) (by decide))
      _ = a := load_store_same m ap 8 a (by decide)
  · intro k
    have hzero : load (storeVaList m ap a) (ap + k.offs) 4 = 0 := by
      cases k with
      | integer =>
        exact (load_store_apart _ _ (hapart (by decide : 24 + 4 ≤ 28) (by decide) (by decide) (by decide))).trans
          (load_store_same _ _ 4 0 (by decide))
      | double => exact load_store_same _ _ 4 0 (by decide)
    rw [hzero]
    decide

theorem load_storeVaList_apart {m : Memory} {ap a b : Addr} {n : ℕ} (hn : 0 < n) (h : Apart b n ap 32) :
    load (storeVaList m ap a) b n = load m b n := by
  have hsub : ∀ j k : ℕ, j + k ≤ 32 → 0 < k → Apart b n (ap + BitVec.ofNat 64 j) k := by
    intro j k hj hk
    have := h.sub (i := 0) (j := j) (by omega) hj hn hk
    rwa [BitVec.add_zero] at this
  have h0 := hsub 0 8 (by decide) (by decide)
  rw [BitVec.add_zero] at h0
  calc load (storeVaList m ap a) b n
      = load (store (store (store (store m ap 8 a) (ap + 8) 8 0) (ap + 16) 8 0) (ap + 24) 4 0) b n :=
        load_store_apart _ _ (hsub 28 4 (by decide) (by decide))
    _ = load (store (store (store m ap 8 a) (ap + 8) 8 0) (ap + 16) 8 0) b n :=
        load_store_apart _ _ (hsub 24 4 (by decide) (by decide))
    _ = load (store (store m ap 8 a) (ap + 8) 8 0) b n := load_store_apart _ _ (hsub 16 8 (by decide) (by decide))
    _ = load (store m ap 8 a) b n := load_store_apart _ _ (hsub 8 8 (by decide) (by decide))
    _ = load m b n := load_store_apart _ _ h0

theorem entry_mem {a : Addr} (ha : 48 ≤ (a - frame s).toNat) : (entry s t vFunc info).mem a = s.mem a := by
  have hrecord : (framed s t).mem a = s.mem a := by
    have h0 := store_outside_span s.mem ha 0 8 (by decide) (s.x 29#5)
    rw [BitVec.add_zero] at h0
    exact (store_outside_span _ ha 8 8 (by decide) (s.x 30#5)).trans h0
  have hlist : ∀ m : Memory, storeVaList m (frame s + 16) (info.args s) a = m a := by
    intro m
    have h1 := store_outside_span m ha 16 8 (by decide) (info.args s)
    have h2 := (store_outside_span _ ha 24 8 (by decide) 0).trans h1
    have h3 := (store_outside_span _ ha 32 8 (by decide) 0).trans h2
    have h4 := (store_outside_span _ ha 40 4 (by decide) 0).trans h3
    have h5 := (store_outside_span _ ha 44 4 (by decide) 0).trans h4
    simpa [storeVaList,BitVec.add_assoc] using h5
  exact (hlist _).trans hrecord

theorem hasThunk_entry (h : HasThunk s.mem t vFunc info) (hframe : Apart t 56 (frame s) 48) :
    HasThunk (entry s t vFunc info).mem t vFunc info :=
  (h.framed hframe).storeVaList hframe (info.args s)

theorem entry_frameRecord :
    load (entry s t vFunc info).mem (frame s) 8 = s.x 29#5 ∧
      load (entry s t vFunc info).mem (frame s + 8) 8 = s.x 30#5 := by
  have hfp : Apart (frame s + BitVec.ofNat 64 0) 8 (frame s + BitVec.ofNat 64 16) 32 :=
    apart_add _ (by decide) (by decide) (by decide) (by decide)
  have hlr : Apart (frame s + BitVec.ofNat 64 8) 8 (frame s + BitVec.ofNat 64 16) 32 :=
    apart_add _ (by decide) (by decide) (by decide) (by decide)
  have hboth : Apart (frame s + BitVec.ofNat 64 0) 8 (frame s + BitVec.ofNat 64 8) 8 :=
    apart_add _ (by decide) (by decide) (by decide) (by decide)
  rw [BitVec.add_zero] at hfp hboth
  constructor
  · calc load (entry s t vFunc info).mem (frame s) 8
        = load (framed s t).mem (frame s) 8 := load_storeVaList_apart (by decide) hfp
      _ = load (store s.mem (frame s) 8 (s.x 29#5)) (frame s) 8 := load_store_apart _ _ hboth
      _ = s.x 29#5 := load_store_same _ _ 8 _ (by decide)
  · calc load (entry s t vFunc info).mem (frame s + 8) 8
        = load (framed s t).mem (frame s + 8) 8 := load_storeVaList_apart (by decide) hlr
      _ = s.x 30#5 := load_store_same _ _ 8 _ (by decide)

end Run

/-- The caller has `n` words for the callee, on its stack or at a `va_list` of its own, and none of
them below its stack pointer. -/
def HasWords (info : VariadicInfo) (s : Cpu) (n : ℕ) : Prop :=
  if info.isVaList then (s.x info.source).toNat % 8 = 0 ∧ Apart (s.x info.source) (8*n) (frame s) 48
  else 8*n + 48 ≤ 2^64

/-- The state `e` in which the caller `s` of a thunk has the function entered. -/
structure Entered (s : Cpu) (vFunc : Addr) (info : VariadicInfo) (e : Cpu) : Prop where
  pc : e.pc = vFunc
  argument : ∀ r : Reg, r.toNat < 8 → r ≠ info.dest → e.x r = s.x r
  vector : e.v = s.v
  sp : e.sp = s.sp - 48
  aligned : e.sp.toNat % 16 = 0
  mem : ∀ a, 48 ≤ (a - e.sp).toNat → e.mem a = s.mem a
  list : VaOnStack e.mem (e.x info.dest) (info.args s)
  words : ∀ ks : List ArgKind, HasWords info s ks.length →
    vaArgs (e.x info.dest) ks e.mem =
      (List.range ks.length).map fun i => load s.mem (info.args s + BitVec.ofNat 64 (8*i)) 8

/-- The state `back` in which the thunk returns to its caller `s` what the function left in `r`. -/
structure Returned (s r back : Cpu) : Prop where
  pc : back.pc = s.x 30#5
  sp : back.sp = s.sp
  fp : back.x 29#5 = s.x 29#5
  lr : back.x 30#5 = s.x 30#5
  x : ∀ q : Reg, q ≠ 29#5 → q ≠ 30#5 → back.x q = r.x q
  v : back.v = r.v
  mem : back.mem = r.mem

/-- What the thunk keeps for itself while the function runs: its frame record and its code. -/
def kept (s : Cpu) (t : Addr) : Set Addr := {a | (a - frame s).toNat < 16} ∪ {a | (a - t).toNat < 56}

section Call
variable {s : Cpu} {t vFunc : Addr} {info : VariadicInfo}

theorem args_aligned {n : ℕ} (hsp : s.sp.toNat % 16 = 0) (h : HasWords info s n) : (info.args s).toNat % 8 = 0 := by
  unfold HasWords at h
  unfold VariadicInfo.args
  cases hlist : info.isVaList with
  | true => simpa [hlist] using (by simpa [hlist] using h : _ ∧ _).1
  | false =>
    simp only [Bool.false_eq_true,↓reduceIte]
    omega

theorem args_apart {n : ℕ} (h : HasWords info s n) : Apart (info.args s) (8*n) (frame s) 48 := by
  unfold HasWords at h
  unfold VariadicInfo.args
  cases hlist : info.isVaList with
  | true => simpa [hlist] using (by simpa [hlist] using h : _ ∧ _).2
  | false =>
    simp only [hlist,Bool.false_eq_true,↓reduceIte] at h ⊢
    simp only [Apart,frame,BitVec.ofNat_eq_ofNat,BitVec.toNat_sub,BitVec.toNat_ofNat]
    omega

theorem entered_entry (hinfo : info ∈ variadicFunctions) (hsp : s.sp.toNat % 16 = 0) :
    Entered s vFunc info (entry s t vFunc info) where
  pc := rfl
  argument _ hr hd := entry_argument hr hd
  vector := rfl
  sp := rfl
  aligned := frame_aligned hsp
  mem _ ha := entry_mem ha
  list := by
    rw [entry_dest hinfo]
    exact vaOnStack_storeVaList _ _ _
  words := by
    intro ks hks
    have hlist : VaOnStack (entry s t vFunc info).mem (frame s + 16) (info.args s) := vaOnStack_storeVaList _ _ _
    have hclear := args_apart hks
    cases ks with
    | nil => rfl
    | cons k ks =>
      have hap : Apart (info.args s + BitVec.ofNat 64 0) (8*(k :: ks).length) (frame s + BitVec.ofNat 64 16) 8 :=
        hclear.sub (by omega) (by decide) (by simp) (by decide)
      rw [BitVec.add_zero] at hap
      rw [entry_dest hinfo,hlist.vaArgs_eq (args_aligned hsp hks) _ hap]
      refine List.map_congr_left fun i hi => load_congr fun j hj => entry_mem ?_
      have hi' := List.mem_range.mp hi
      rw [BitVec.add_assoc,← BitVec.ofNat_add]
      exact hclear.toNat_sub (by omega)

theorem returned (h : HasThunk s.mem t vFunc info) (ht : t.toNat % 4 = 0) (hsp : s.sp.toNat % 16 = 0)
    (hframe : Apart t 56 (frame s) 48) {r : Cpu} (hr : Conforms (kept s t) (entry s t vFunc info) r) :
    ∃ back, r.run 2 = some back ∧ Returned s r back := by
  have hthunk : HasThunk r.mem t vFunc info := by
    refine (hasThunk_entry h hframe).congr fun i hi => hr.mem _ (Or.inr ?_)
    have hi' : (t + BitVec.ofNat 64 i - t).toNat = i := by
      rw [BitVec.add_comm,BitVec.add_sub_cancel,BitVec.toNat_ofNat,Nat.mod_eq_of_lt (by omega)]
    exact lt_of_eq_of_lt hi' hi
  have hrecord : ∀ i, i + 8 ≤ 16 → load r.mem (frame s + BitVec.ofNat 64 i) 8 =
      load (entry s t vFunc info).mem (frame s + BitVec.ofNat 64 i) 8 := by
    refine fun i hi => load_congr fun j hj => hr.mem _ (Or.inl ?_)
    simp only [Set.mem_ofPred_eq,BitVec.toNat_sub,BitVec.toNat_add,BitVec.toNat_ofNat]
    omega
  have hpc : r.pc = t + 40 := hr.pc
  have hsp' : r.sp = frame s := hr.sp
  obtain ⟨hfp,hlr⟩ : _ ∧ _ := @entry_frameRecord s t vFunc info
  have hfp' : load r.mem r.sp 8 = s.x 29#5 := by
    have h0 := hrecord 0 (by decide)
    rw [BitVec.add_zero] at h0
    rw [hsp',h0,hfp]
  have hlr' : load r.mem (r.sp + 8) 8 = s.x 30#5 := by
    rw [hsp']
    exact (hrecord 8 (by decide)).trans hlr
  have hrun := run_return hthunk ht hpc (by rw [hsp']; exact frame_aligned hsp)
  rw [hfp',hlr'] at hrun
  refine ⟨_,hrun,⟨rfl,?_,by simp,by simp,fun q h29 h30 => by simp [h29,h30],rfl,rfl⟩⟩
  simp [hsp',frame]

/-- A call of a thunk enters the function with the caller's words in its `va_list`, and returns the
function's result to the caller. -/
theorem call_variadicThunk {m₀ : Memory} (hinfo : info ∈ variadicFunctions) (ht : t.toNat % 4 = 0) (hpc : s.pc = t)
    (hcode : ∀ i < 56, s.mem (t + BitVec.ofNat 64 i) = writeThunk m₀ t vFunc info (t + BitVec.ofNat 64 i))
    (hsp : s.sp.toNat % 16 = 0) (hframe : Apart t 56 (s.sp - 48) 48) :
    ∃ e, s.run 10 = some e ∧ Entered s vFunc info e ∧
      ∀ r, Conforms (kept s t) e r → ∃ back, r.run 2 = some back ∧ Returned s r back := by
  have h := (hasThunk_writeThunk m₀ t vFunc hinfo).congr hcode
  exact ⟨entry s t vFunc info,run_entry h hinfo ht hpc hsp hframe,entered_entry hinfo hsp,
    fun _ hr => returned h ht hsp hframe hr⟩

/-- Seen from its caller the thunk is a function that obeys the standard, if the one behind it does. -/
theorem variadicThunk_conforms {own : Set Addr} {r back : Cpu} (hinfo : info ∈ variadicFunctions)
    (hown : ∀ a ∈ own, 48 ≤ (a - frame s).toNat) (hr : Conforms (own ∪ kept s t) (entry s t vFunc info) r)
    (hb : Returned s r back) : Conforms own s back where
  pc := hb.pc
  sp := hb.sp
  x := by
    intro q hlow hhigh
    by_cases h29 : q = 29#5
    · rw [h29,hb.fp]
    have h30 : q ≠ 30#5 := fun he => by simp [he] at hhigh
    have h8 : q ≠ 8#5 := fun he => by simp [he] at hlow
    have h16 : q ≠ 16#5 := fun he => by simp [he] at hlow
    have hd : q ≠ info.dest := by
      rintro rfl
      have := (registers info hinfo).1
      omega
    rw [hb.x q h29 h30,hr.x q hlow hhigh]
    simp [entry,h8,h16,h29,h30,hd]
  v := by
    intro q hlow hhigh
    rw [hb.v]
    exact hr.v q hlow hhigh
  mem := by
    intro a ha
    rw [hb.mem,hr.mem a (Or.inl ha),entry_mem (hown a ha)]

/-- `printf` called with two words on the stack, and a function that returns 7 at once. -/
theorem call_variadicThunk_printf :
    ∃ s e back : Cpu, s.run 10 = some e ∧ e.pc = 0x20000 ∧
      vaArgs (e.x 1#5) [.integer,.double] e.mem = [load s.mem 0x8000 8,load s.mem 0x8008 8] ∧
      Cpu.run 2 { e with pc := e.x 30#5, x := Function.update e.x 0#5 7 } = some back ∧
      back.sp = 0x8000 ∧ back.x 0#5 = 7 := by
  obtain ⟨e,hrun,hentered,hreturn⟩ := @call_variadicThunk
    ⟨fun r => r.setWidth 64,fun _ => 0,0x8000,0x10000,
      writeThunk (fun a => a.setWidth 8) 0x10000 0x20000 ⟨"printf".toList,"vprintf".toList,1,false,0⟩⟩
    0x10000 0x20000 ⟨"printf".toList,"vprintf".toList,1,false,0⟩ (fun a => a.setWidth 8)
    (by decide) (by decide) rfl (fun _ _ => rfl) (by decide) (by decide)
  obtain ⟨back,hback,hstate⟩ := hreturn { e with pc := e.x 30#5, x := Function.update e.x 0#5 7 } {
    pc := by simp
    sp := rfl
    x := fun r hr _ => by
      have h0 : r ≠ 0#5 := fun he => by simp [he] at hr
      simp [h0]
    v := fun _ _ _ => rfl
    mem := fun _ _ => rfl }
  refine ⟨_,e,back,hrun,hentered.pc,hentered.words [.integer,.double] (show 8*2 + 48 ≤ 2^64 by decide),
    hback,hstate.sp,?_⟩
  rw [hstate.x 0#5 (by decide) (by decide)]
  simp

end Call

end VariadicThunk

end Machismo.Resolver
