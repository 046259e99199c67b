import Machismo.IsaEmul.Encode
import Machismo.Resolver.Names

/-! # Branch islands

A function is redirected by a single branch at its entry, to an island of 16 bytes in a pool nearby;
the island loads the address of the native function and jumps there. The pool is one block of memory,
islands are taken from it in order.
-/
namespace Machismo.Trampoline
open A64 IsaEmul

abbrev Name := Resolver.Name
abbrev Handle := BitVec 64

/-- The process around the patcher: the dynamic linker, the page size, whether `__TEXT` can be made
writable and a page be protected, and the address of `trampoline_abort`. -/
structure Env where
  dlopen : Name → Handle
  dlsym : Handle → Name → Addr
  pageSize : BitVec 64
  textWritable : Bool
  protect : Addr → Bool
  abortAddr : Addr

/-- The globals of the patcher, with memory. `written` lists the addresses of the branches written. -/
structure State where
  mem : Memory
  pool : Option Addr
  poolSize : ℕ
  poolUsed : ℕ
  stubIsland : Option Addr
  abortCaller : Option Addr
  textBase : Addr
  textSize : BitVec 64
  written : List Addr

def ldrX16 : Word := 0x58000050
def brX16 : Word := 0xd61f0200
def islandSize : ℕ := 16

/-- Four words of an island, the last two as one. -/
def putIsland (m : Memory) (a : Addr) (w₀ w₁ : Word) (q : BitVec 64) : Memory :=
  store (store (store m a 4 w₀) (a + 4) 4 w₁) (a + 8) 8 q

namespace State
variable (st : State)

def reserve : Option Addr :=
  st.pool.bind fun base =>
    if st.poolUsed + islandSize ≤ st.poolSize then some (base + BitVec.ofNat 64 st.poolUsed) else none

def take (a : Addr) (w₀ w₁ : Word) (q : BitVec 64) : State :=
  { st with mem := putIsland st.mem a w₀ w₁ q, poolUsed := st.poolUsed + islandSize }

end State

def allocIsland (native : Addr) (st : State) : Option (Addr × State) :=
  st.reserve.map fun a => (a,st.take a ldrX16 brX16 native)

/-- The range of a branch, and its alignment. -/
def inBranchRange (offset : ℤ) : Bool := -128*1024*1024 ≤ offset ∧ offset < 128*1024*1024 ∧ offset % 4 = 0

def branchOffset (func island : Addr) : ℤ := (island - func).toInt

def writeTrampoline (func native : Addr) (st : State) : Bool × State :=
  match allocIsland native st with
  | none => (false,st)
  | some (island,st) =>
    let offset := branchOffset func island
    if inBranchRange offset then
      (true,{ st with mem := store st.mem func 4 (encB (offset / 4)), written := st.written ++ [func] })
    else (false,st)

/-- The shared island that returns zero. -/
def getStubIsland (st : State) : Option Addr × State :=
  match st.stubIsland with
  | some a => (some a,st)
  | none =>
    match st.reserve with
    | none => (none,st)
    | some a => (some a,{ st.take a 0x52800000 0xD65F03C0 0xD503201FD503201F with stubIsland := some a })

def getAbortCaller (E : Env) (st : State) : Option Addr × State :=
  match st.abortCaller with
  | some a => (some a,st)
  | none =>
    match st.reserve with
    | none => (none,st)
    | some a => (some a,{ st.take a ldrX16 brX16 E.abortAddr with abortCaller := some a })

/-- The island that reports a call to a symbol. Its first word is written before the branch is checked. -/
def makeAbortIsland (E : Env) (nameAddr : Addr) (st : State) : Option Addr × State :=
  match getAbortCaller E st with
  | (none,st) => (none,st)
  | (some caller,st) =>
    match st.reserve with
    | none => (none,st)
    | some a =>
      let offset := branchOffset (a + 4) caller
      if inBranchRange offset then (some a,st.take a 0x58000040 (encB (offset / 4)) nameAddr)
      else (none,{ st with mem := store st.mem a 4 0x58000040#32 })

/-- `ldr` of a literal: the register and the place of the literal. -/
def ldrLiteral (w : Word) (pc : Addr) : Option (Reg × Addr) :=
  if bits w 24 8 = 0x58#8 then some (bits w 0 5,pc + (bits w 5 19).signExtend 64 * 4) else none

def brReg (w : Word) : Option Reg :=
  if bits w 10 22 = 0x3587C0#22 ∧ bits w 0 5 = 0#5 then some (bits w 5 5) else none

/-- Where the two instructions at an address jump to. -/
def jumpTarget (m : Memory) (a : Addr) : Option Addr :=
  match ldrLiteral (load m a 4) a, brReg (load m (a + 4) 4) with
  | some (rt,literal), some rn => if rt = rn then some (load m literal 8) else none
  | _, _ => none

def branchTarget (m : Memory) (a : Addr) : Option Addr :=
  match decode (load m a 4) with
  | some (.b imm) => some (a + imm.signExtend 64 * 4)
  | _ => none

theorem ite_ne {α : Type*} {p : Prop} [Decidable p] {x y z : α} (hx : x ≠ z) (hy : y ≠ z) : ite p x y ≠ z := by
  split
  · exact hx
  · exact hy

theorem decode_eq_b {w : Word} {imm : BitVec 26} (h : decode w = some (.b imm)) :
    bits w 26 6 = 0b000101#6 ∧ bits w 0 26 = imm := by
  by_cases hb : bits w 26 6 = 0b000101#6
  · rw [decode,if_pos hb] at h
    injection h with h
    injection h with h
    exact ⟨hb,h⟩
  · have hnone : none ≠ some (Insn.b imm) := by simp
    have hexclusive : decodeExclusive w ≠ some (.b imm) :=
      ite_ne (ite_ne (by simp) (ite_ne (by simp) hnone)) hnone
    have hreg : ∀ opc i, (∀ sf rd rn rm, some (i sf rd rn rm) ≠ some (Insn.b imm)) →
        decodeReg w opc i ≠ some (.b imm) := fun opc i hi => ite_ne (hi _ _ _ _) hnone
    have hindexed : ∀ st ld s l, (∀ rt rn x, some (s rt rn x) ≠ some (Insn.b imm)) →
        (∀ rt rn x, some (l rt rn x) ≠ some (Insn.b imm)) → decodeIndexed w st ld s l ≠ some (.b imm) :=
      fun st ld s l hs hl => ite_ne (hs _ _ _) (ite_ne (hl _ _ _) hnone)
    have hvector : ∀ opc i, (∀ vd vn vm, some (i vd vn vm) ≠ some (Insn.b imm)) →
        decodeVector w opc i ≠ some (.b imm) := fun opc i hi => ite_ne (hi _ _ _) hnone
    have hsystem : decodeSystem w ≠ some (.b imm) := ite_ne (by simp) (ite_ne (by simp) (ite_ne (by simp) hnone))
    rw [decode,if_neg hb] at h
    refine absurd h (ite_ne hexclusive (ite_ne (ite_ne (by simp) hnone) (ite_ne (by simp) ?_)))
    refine ite_ne (hreg _ _ (by simp)) (ite_ne (hreg _ _ (by simp)) (ite_ne (hreg _ _ (by simp)) ?_))
    refine ite_ne (hreg _ _ (by simp)) (ite_ne (hreg _ _ (by simp)) (ite_ne (ite_ne (by simp) hnone) ?_))
    refine ite_ne (ite_ne (by simp) hnone) (ite_ne (hindexed _ _ _ _ (by simp) (by simp)) ?_)
    refine ite_ne (hindexed _ _ _ _ (by simp) (by simp)) (ite_ne hsystem ?_)
    exact ite_ne (hvector _ _ (by simp)) (ite_ne (hvector _ _ (by simp)) hnone)

theorem eq_of_bits {w w' : Word} (hhigh : bits w 26 6 = bits w' 26 6) (hlow : bits w 0 26 = bits w' 0 26) : w = w' := by
  apply BitVec.eq_of_getLsbD_eq
  intro i hi
  by_cases hlt : i < 26
  · have hbit := congrArg (·.getLsbD i) hlow
    simpa only [BitVec.getLsbD_extractLsb',hlt,decide_true,Bool.true_and,Nat.zero_add] using hbit
  · have hbit := congrArg (·.getLsbD (i - 26)) hhigh
    have h6 : i - 26 < 6 := by omega
    have h26 : 26 + (i - 26) = i := by omega
    simpa only [BitVec.getLsbD_extractLsb',h6,decide_true,Bool.true_and,h26] using hbit

section Jump
variable {m : Memory} {a : Addr}

theorem toNat_sub_of_add {a b c : Addr} {k n : ℕ} (hc : c = a + BitVec.ofNat 64 k) (hk : k + n ≤ 2^64)
    (h : k + n ≤ (b - a).toNat) : n ≤ (b - c).toNat := by
  subst hc
  simp only [BitVec.toNat_sub, BitVec.toNat_add, BitVec.toNat_ofNat] at *
  omega

theorem putIsland_outside (m : Memory) (a : Addr) (w₀ w₁ : Word) (q : BitVec 64) {b : Addr}
    (h : 16 ≤ (b - a).toNat) : putIsland m a w₀ w₁ q b = m b := by
  have h4 : 4 ≤ (b - (a + 4)).toNat := toNat_sub_of_add (k := 4) rfl (by omega) (by omega)
  have h8 : 8 ≤ (b - (a + 8)).toNat := toNat_sub_of_add (k := 8) rfl (by omega) (by omega)
  rw [putIsland, store_outside _ _ _ _ h8, store_outside _ _ _ _ h4, store_outside _ _ _ _ (by omega)]

theorem apart_add (a : Addr) {i j n k : ℕ} (hn : 0 < n) (h : i + n ≤ j) (hj : j < 2^64) (hk : j + k ≤ 2^64) :
    Apart (a + BitVec.ofNat 64 i) n (a + BitVec.ofNat 64 j) k := by
  unfold Apart
  rw [add_sub_add_left_eq_sub, add_sub_add_left_eq_sub]
  simp only [BitVec.toNat_sub, BitVec.toNat_ofNat]
  omega

theorem apart_words (a : Addr) : Apart a 4 (a + 4) 4 ∧ Apart a 4 (a + 8) 8 ∧ Apart (a + 4) 4 (a + 8) 8 := by
  have h0 : a = a + BitVec.ofNat 64 0 := by simp
  refine ⟨?_,?_,apart_add a (i := 4) (j := 8) (by omega) (by omega) (by omega) (by omega)⟩
  · nth_rewrite 1 [h0]
    exact apart_add a (i := 0) (j := 4) (by omega) (by omega) (by omega) (by omega)
  · nth_rewrite 1 [h0]
    exact apart_add a (i := 0) (j := 8) (by omega) (by omega) (by omega) (by omega)

/-- The three parts of an island to a native function. -/
structure IslandAt (m : Memory) (a native : Addr) : Prop where
  ldr : load m a 4 = ldrX16
  br : load m (a + 4) 4 = brX16
  target : load m (a + 8) 8 = native

theorem islandAt_putIsland (m : Memory) (a native : Addr) : IslandAt (putIsland m a ldrX16 brX16 native) a native := by
  obtain ⟨h04,h08,h48⟩ := apart_words a
  refine ⟨?_,?_,?_⟩
  · rw [putIsland, load_store_apart _ _ h08, load_store_apart _ _ h04, load_store_same _ _ _ _ (by omega)]
  · rw [putIsland, load_store_apart _ _ h48, load_store_same _ _ _ _ (by omega)]
  · rw [putIsland, load_store_same _ _ 8 _ (by omega)]

theorem IslandAt.congr {m' : Memory} {native : Addr} (h : IslandAt m a native)
    (hm : ∀ i < 16, m' (a + BitVec.ofNat 64 i) = m (a + BitVec.ofNat 64 i)) : IslandAt m' a native := by
  have hadd : ∀ k i : ℕ, a + BitVec.ofNat 64 k + BitVec.ofNat 64 i = a + BitVec.ofNat 64 (k + i) := by
    intro k i
    rw [BitVec.add_assoc, BitVec.ofNat_add]
  refine ⟨?_,?_,?_⟩
  · rw [← h.ldr]
    exact load_congr fun i hi => hm i (by omega)
  · rw [← h.br]
    refine load_congr fun i hi => ?_
    have h4 := hadd 4 i
    rw [← BitVec.ofNat_eq_ofNat] at h4
    rw [h4]
    exact hm _ (by omega)
  · rw [← h.target]
    refine load_congr fun i hi => ?_
    have h8 := hadd 8 i
    rw [← BitVec.ofNat_eq_ofNat] at h8
    rw [h8]
    exact hm _ (by omega)

theorem IslandAt.jumpTarget {native : Addr} (h : IslandAt m a native) : jumpTarget m a = some native := by
  have hldr : ldrLiteral ldrX16 a = some (16#5,a + 8) := rfl
  have hbr : brReg brX16 = some 16#5 := by decide
  unfold Trampoline.jumpTarget
  rw [h.ldr, h.br, hldr, hbr]
  simp only [↓reduceIte, h.target]

theorem inBranchRange_iff {offset : ℤ} :
    inBranchRange offset ↔ -128*1024*1024 ≤ offset ∧ offset < 128*1024*1024 ∧ offset % 4 = 0 := by
  simp [inBranchRange]

theorem branchTarget_encB {func island : Addr} (h : inBranchRange (branchOffset func island))
    (hm : load m func 4 = encB (branchOffset func island / 4)) : branchTarget m func = some island := by
  obtain ⟨h1,h2,h3⟩ := inBranchRange_iff.mp h
  unfold branchTarget
  rw [hm, decode_encB]
  dsimp only
  congr 1
  have hoff : (BitVec.ofInt 26 (branchOffset func island / 4)).signExtend 64 * 4 =
      BitVec.ofInt 64 (branchOffset func island) := by
    apply BitVec.eq_of_toInt_eq
    have hs : (BitVec.ofInt 26 (branchOffset func island / 4)).toInt = branchOffset func island / 4 := by
      rw [BitVec.toInt_ofInt, Int.bmod_def]
      omega
    rw [BitVec.toInt_mul, BitVec.toInt_signExtend_of_le (by omega), hs, BitVec.toInt_ofInt]
    congr 1
    change branchOffset func island / 4 * 4 = _
    omega
  rw [hoff, branchOffset, BitVec.ofInt_toInt, BitVec.add_comm, BitVec.sub_add_cancel]

theorem load_of_branchTarget {func island : Addr} (h : inBranchRange (branchOffset func island))
    (htarget : branchTarget m func = some island) : load m func 4 = encB (branchOffset func island / 4) := by
  obtain ⟨h1,h2,h3⟩ := inBranchRange_iff.mp h
  unfold branchTarget at htarget
  split at htarget
  next imm hdecode =>
    obtain ⟨hop,himm⟩ := decode_eq_b hdecode
    have hb := decode_eq_b (decode_encB (branchOffset func island / 4))
    refine eq_of_bits (hop.trans hb.1.symm) (himm.trans (Eq.trans ?_ hb.2.symm))
    have hoff : branchOffset func island = (imm.signExtend 64 * 4).toInt := by
      rw [branchOffset,← Option.some.inj htarget,BitVec.add_comm,BitVec.add_sub_cancel]
    have hmul : (imm.signExtend 64 * 4).toInt = imm.toInt * 4 := by
      have hlt := BitVec.toInt_lt (x := imm)
      have hle := BitVec.le_toInt imm
      have hfour : (4 : BitVec 64).toInt = 4 := rfl
      rw [BitVec.toInt_mul,BitVec.toInt_signExtend_of_le (by omega),hfour,Int.bmod_def]
      omega
    rw [hoff,hmul,Int.mul_ediv_cancel _ (by decide),BitVec.ofInt_toInt]
  next => cases htarget

end Jump

def State.InPool (st : State) (b : Addr) : Prop := ∃ base, st.pool = some base ∧ (b - base).toNat < st.poolSize

/-- Outside the pool only the branches of a list are written. -/
structure Patched (l : List Addr) (st st' : State) : Prop where
  pool : st'.pool = st.pool
  poolSize : st'.poolSize = st.poolSize
  textBase : st'.textBase = st.textBase
  textSize : st'.textSize = st.textSize
  written : st'.written = st.written ++ l
  mem : ∀ b, ¬st.InPool b → (∀ a ∈ l, 4 ≤ (b - a).toNat) → st'.mem b = st.mem b

namespace Patched
variable {st st' st'' : State} {l l' : List Addr}

theorem refl (st : State) : Patched [] st st := ⟨rfl,rfl,rfl,rfl,(List.append_nil _).symm,fun _ _ _ => rfl⟩

theorem trans (h : Patched l st st') (h' : Patched l' st' st'') : Patched (l ++ l') st st'' where
  pool := h'.pool.trans h.pool
  poolSize := h'.poolSize.trans h.poolSize
  textBase := h'.textBase.trans h.textBase
  textSize := h'.textSize.trans h.textSize
  written := by rw [h'.written, h.written, List.append_assoc]
  mem b hb hl := by
    have hb' : ¬st'.InPool b := by
      unfold State.InPool
      rw [h.pool, h.poolSize]
      exact hb
    rw [h'.mem b hb' fun a ha => hl a (List.mem_append_right l ha),
      h.mem b hb fun a ha => hl a (List.mem_append_left l' ha)]

end Patched

section Changes
variable {E : Env} {st : State}

theorem inPool_of_reserve {a b : Addr} (h : st.reserve = some a) (hb : (b - a).toNat < 16) : st.InPool b := by
  obtain ⟨base,hp,h⟩ := Option.bind_eq_some_iff.mp h
  split at h
  next hu =>
    cases h
    refine ⟨base,hp,?_⟩
    unfold islandSize at hu
    simp only [BitVec.toNat_sub, BitVec.toNat_add, BitVec.toNat_ofNat] at *
    omega
  next => cases h

theorem patched_take {a : Addr} (h : st.reserve = some a) (w₀ w₁ : Word) (q : BitVec 64) :
    Patched [] st (st.take a w₀ w₁ q) := by
  refine ⟨rfl,rfl,rfl,rfl,(List.append_nil _).symm,fun b hb _ => putIsland_outside _ _ _ _ _ ?_⟩
  by_contra hlt
  exact hb (inPool_of_reserve h (by omega))

theorem patched_getStubIsland : Patched [] st (getStubIsland st).2 := by
  unfold getStubIsland
  split
  · exact .refl st
  · split
    · exact .refl st
    next h =>
      have hp := patched_take h 0x52800000 0xD65F03C0 0xD503201FD503201F
      exact ⟨hp.pool,hp.poolSize,hp.textBase,hp.textSize,hp.written,hp.mem⟩

theorem patched_getAbortCaller : Patched [] st (getAbortCaller E st).2 := by
  unfold getAbortCaller
  split
  · exact .refl st
  · split
    · exact .refl st
    next h =>
      have hp := patched_take h ldrX16 brX16 E.abortAddr
      exact ⟨hp.pool,hp.poolSize,hp.textBase,hp.textSize,hp.written,hp.mem⟩

theorem patched_makeAbortIsland (nameAddr : Addr) : Patched [] st (makeAbortIsland E nameAddr st).2 := by
  have hc : Patched [] st (getAbortCaller E st).2 := patched_getAbortCaller
  unfold makeAbortIsland
  split
  next hcall =>
    rw [hcall] at hc
    exact hc
  next hcall =>
    rw [hcall] at hc
    split
    · exact hc
    next h =>
      dsimp only
      split
      · exact hc.trans (patched_take h _ _ _)
      · refine hc.trans ⟨rfl,rfl,rfl,rfl,(List.append_nil _).symm,fun b hb _ => store_outside _ _ _ _ ?_⟩
        by_contra hlt
        exact hb (inPool_of_reserve h (by omega))

theorem patched_writeTrampoline (func native : Addr) :
    Patched (if (writeTrampoline func native st).1 then [func] else []) st (writeTrampoline func native st).2 := by
  unfold writeTrampoline allocIsland
  cases h : st.reserve with
  | none => exact .refl st
  | some a =>
    have hp := patched_take h ldrX16 brX16 native
    dsimp only [Option.map_some]
    split
    · refine Patched.trans (l := []) hp ⟨rfl,rfl,rfl,rfl,rfl,fun b _ hl => ?_⟩
      exact store_outside _ _ _ _ (hl func (by simp))
    · exact hp

end Changes

end Machismo.Trampoline
