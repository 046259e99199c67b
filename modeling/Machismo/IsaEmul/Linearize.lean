import Machismo.IsaEmul.Threads
import Mathlib.Logic.Relation

/-! # Islands of several threads on one cell

Any number of threads run islands against the cell at `A`, one instruction at a time in any order;
between two islands a thread may set its registers as it likes. Where every thread saves its
registers to a stack region of its own, away from the cell, the old values the threads see and the
final cell are those of the original instructions executed one after the other, in an order that
agrees with the order in each thread.
-/
namespace Machismo.IsaEmul
open A64

/-- One execution of a word or doubleword island on the cell of at most `R` bytes at `A`. -/
structure SharedOp (A : Addr) (R : ℕ) where
  word : Word
  d : LseDecoded
  atomic : Atomic
  entry : Core
  origAddr : ℤ
  decodes : decodeLse word = some d
  isAtomic : decodeAtomic word = some atomic
  wide : ¬d.size.toNat < 2
  rn : d.rn ≠ 31#5
  addr : entry.base d.rn = A
  fits : bytes d.size ≤ R

namespace SharedOp
variable {A : Addr} {R : ℕ} (o : SharedOp A R)

def task : Task := islandTask o.d o.atomic o.entry o.origAddr

/-- The memory after the original instruction. -/
def act (m : Memory) : Memory := (o.atomic.exec o.entry m).2

/-- A core that leaves the island as the original instruction, executed on `m`, leaves it. -/
def Exits (c : Core) (m : Memory) : Prop :=
  c.x = (o.atomic.exec o.entry m).1.x ∧ c.sp = o.entry.sp ∧ c.flags = o.entry.flags ∧ c.v = o.entry.v

/-- Two memories hold the same cell. -/
def SameCell (A : Addr) (R : ℕ) (m m' : Memory) : Prop := ∀ b : Addr, (b - A).toNat < R → m b = m' b

theorem atomic_fields : o.atomic.rn = o.d.rn ∧ o.atomic.size = o.d.size := by
  obtain ⟨word,d,a,entry,origAddr,hd,ha,-,-,-,-⟩ := o
  cases a with
  | rmw op size acquire release rs rt rn =>
    obtain rfl := Option.some.inj ((decodeLse_of_rmw ha).symm.trans hd)
    exact ⟨rfl,rfl⟩
  | cas size acquire release rs rt rn =>
    obtain rfl := Option.some.inj ((decodeLse_of_cas ha).symm.trans hd)
    exact ⟨rfl,rfl⟩

theorem atomic_addr : o.atomic.addr o.entry = A := by
  rw [Atomic.addr, o.atomic_fields.1, o.addr]

theorem nbytes_le : o.atomic.nbytes ≤ R ∧ o.atomic.nbytes ≤ 8 := by
  rw [Atomic.nbytes, o.atomic_fields.2]
  exact ⟨o.fits,bytes_le_eight _⟩

variable {o}

theorem load_sameCell {m m' : Memory} (h : SameCell A R m m') :
    load m (o.atomic.addr o.entry) o.atomic.nbytes = load m' (o.atomic.addr o.entry) o.atomic.nbytes := by
  have hn := o.nbytes_le
  rw [o.atomic_addr]
  exact load_agree h (by omega) fun b hb => by omega

theorem act_sameCell {m m' : Memory} (h : SameCell A R m m') : SameCell A R (o.act m) (o.act m') := by
  simp only [SharedOp.act, Atomic.exec, load_sameCell h]
  exact store_agree h _ _ _

theorem Exits.sameCell {c : Core} {m m' : Memory} (h : SameCell A R m m') (he : o.Exits c m) : o.Exits c m' := by
  obtain ⟨hx,hrest⟩ := he
  refine ⟨?_,hrest⟩
  rw [hx, exec_x, exec_x, load_sameCell h]

theorem act_outside (m : Memory) {b : Addr} (hb : R ≤ (b - A).toNat) : o.act m b = m b := by
  have hn := o.nbytes_le
  refine store_outside _ _ _ _ ?_
  rw [o.atomic_addr]
  omega

end SharedOp

section System
variable {ι : Type*} [DecidableEq ι] {A : Addr} {R : ℕ}

/-- A state of the system: shared memory, for each thread the island it is in, and the islands each
thread has left, with the registers it left them with. -/
structure Config (ι : Type*) (A : Addr) (R : ℕ) where
  mem : Memory
  thread : ι → Option (SharedOp A R × Core)
  finished : ι → List (SharedOp A R × Core)

/-- Thread `i` executes one instruction of its island. -/
def Config.step (c : Config ι A R) (i : ι) (o : SharedOp A R) (core : Core) (ok : Bool) (ins : Insn) :
    Config ι A R where
  mem := (exec ok core c.mem ins).2
  thread := fun j =>
    if j = i then if core.pc = o.task.last then none else some (o,(exec ok core c.mem ins).1)
    else (c.thread j).map fun p => (p.1,p.2.observe (storeSpan ok core ins))
  finished :=
    if core.pc = o.task.last then
      Function.update c.finished i (c.finished i ++ [(o,(exec ok core c.mem ins).1)])
    else c.finished

/-- The interleavings, for threads that start only allowed islands. -/
inductive Step (allowed : ι → SharedOp A R → Prop) : Config ι A R → Config ι A R → Prop
  | start {c : Config ι A R} {i : ι} {o : SharedOp A R} (hidle : c.thread i = none) (ho : allowed i o) :
      Step allowed c { c with thread := Function.update c.thread i (some (o,o.entry)) }
  | run {c : Config ι A R} {i : ι} {o : SharedOp A R} {core : Core} {ins : Insn} (ok : Bool)
      (hrun : c.thread i = some (o,core)) (hcode : o.task.code core.pc = some ins) :
      Step allowed c (c.step i o core ok ins)

def Config.initial (m : Memory) : Config ι A R := ⟨m,fun _ => none,fun _ => []⟩

/-- Memory after the original instructions, executed one after the other. -/
def seqMem (m : Memory) (L : List (ι × SharedOp A R)) : Memory := L.foldl (fun m x => x.2.act m) m

/-- The instructions of thread `i` in a sequential execution, each with the memory it finds. -/
def returns (i : ι) : Memory → List (ι × SharedOp A R) → List (SharedOp A R × Memory)
  | _, [] => []
  | m, x :: L => if x.1 = i then (x.2,m) :: returns i (x.2.act m) L else returns i (x.2.act m) L

/-- What a thread got from its islands is what it gets from the instructions `l`. -/
def Returned (done : List (SharedOp A R × Core)) (l : List (SharedOp A R × Memory)) : Prop :=
  List.Forall₂ (fun p q => p.1 = q.1 ∧ p.1.Exits p.2 q.2) done l

/-- The outcome of a finished system is that of a sequential execution. -/
def Sequential (m : Memory) (c : Config ι A R) : Prop :=
  ∃ L : List (ι × SharedOp A R), SharedOp.SameCell A R c.mem (seqMem m L) ∧
    ∀ i, Returned (c.finished i) (returns i m L)

omit [DecidableEq ι] in
theorem seqMem_append (m : Memory) (L : List (ι × SharedOp A R)) (i : ι) (o : SharedOp A R) :
    seqMem m (L ++ [(i,o)]) = o.act (seqMem m L) := by simp [seqMem]

theorem returns_append (j : ι) (m : Memory) (L : List (ι × SharedOp A R)) (i : ι) (o : SharedOp A R) :
    returns j m (L ++ [(i,o)]) = returns j m L ++ if i = j then [(o,seqMem m L)] else [] := by
  induction L generalizing m with
  | nil =>
    simp only [List.nil_append, returns, seqMem, List.foldl_nil]
  | cons x L ih =>
    simp only [List.cons_append, returns, ih, seqMem, List.foldl_cons]
    split <;> rfl

/-- Stack regions of the threads: disjoint, and away from the cell. -/
structure Stacks (ι : Type*) (A : Addr) (R : ℕ) where
  region : ι → Addr → Prop
  disjoint : ∀ i j b, region i b → region j b → i = j
  cell : ∀ i b, region i b → R ≤ (b - A).toNat

namespace Stacks
variable (S : Stacks ι A R)

/-- Thread `i` saves the registers of `o` to its own stack. -/
def Allows (i : ι) (o : SharedOp A R) : Prop := ∀ b, o.task.own b → S.region i b

variable {S}

omit [DecidableEq ι] in
theorem Allows.cellApart {i : ι} {o : SharedOp A R} (h : S.Allows i o) : CellApart o.d o.entry := by
  intro k hk
  have hcell : ∀ b : Addr, (b - slot o.entry.sp (k+1)).toNat < 8 → R ≤ (b - A).toNat :=
    fun b hb => S.cell i b (h b ⟨k,hk,hb⟩)
  have hfits := o.fits
  have haddr : cellAddr o.d o.entry = A := o.addr
  rw [haddr]
  constructor
  · have := hcell (slot o.entry.sp (k+1)) (by simp)
    omega
  · by_contra hlt
    have := hcell A (by omega)
    have hpos : 0 < bytes o.d.size := Nat.two_pow_pos _
    simp only [BitVec.sub_self, BitVec.toNat_zero] at this
    omega

end Stacks

/-- How far thread `i` is in `o`: `lin` is the memory at which it took effect. -/
def Progress (o : SharedOp A R) (done : List (SharedOp A R × Core)) (l : List (SharedOp A R × Memory)) :
    Option Memory → Prop
  | none => Returned done l
  | some m => ∃ l' m', l = l' ++ [(o,m')] ∧ Returned done l' ∧ SharedOp.SameCell A R m m'

/-- A thread that got what `l` gives: between two islands, or safe in one for any further interference. -/
def OnTrack (S : Stacks ι A R) (i : ι) (mem : Memory) (done : List (SharedOp A R × Core))
    (l : List (SharedOp A R × Memory)) : Option (SharedOp A R × Core) → Prop
  | none => Returned done l
  | some (o,core) => S.Allows i o ∧ ∃ lin, Progress o done l lin ∧
      ∀ n mon m, Interfere o.task.own core.monitor mem mon m → o.task.Safe n (core.mark mon) m lin

/-- The invariant of the interleavings. -/
def Linear (S : Stacks ι A R) (m₀ : Memory) (c : Config ι A R) : Prop :=
  ∃ L, SharedOp.SameCell A R c.mem (seqMem m₀ L) ∧
    ∀ i, OnTrack S i c.mem (c.finished i) (returns i m₀ L) (c.thread i)

section Step
variable {S : Stacks ι A R} {m₀ : Memory} {c : Config ι A R} {i : ι} {o : SharedOp A R} {core : Core}

theorem Linear.start (h : Linear S m₀ c) (hidle : c.thread i = none) (ho : S.Allows i o) :
    Linear S m₀ { c with thread := Function.update c.thread i (some (o,o.entry)) } := by
  obtain ⟨L,hmem,hall⟩ := h
  refine ⟨L,hmem,fun j => ?_⟩
  by_cases hj : j = i
  · subst hj
    have hj := hall j
    rw [hidle] at hj
    simp only [Function.update_self]
    refine ⟨ho,none,hj,fun n mon m hint => ?_⟩
    exact islandTask_entry o.decodes o.isAtomic o.wide o.rn o.entry ho.cellApart o.origAddr c.mem n mon m hint.own
  · simp only [Function.update_of_ne hj]
    exact hall j

/-- What a step of thread `i` does to the sequential execution: nothing, or `o` is executed next. -/
theorem Effect.extend {mem mem' : Memory} {lin lin' : Option Memory} {done : List (SharedOp A R × Core)}
    {L : List (ι × SharedOp A R)} (ho : S.Allows i o) (hmem : SharedOp.SameCell A R mem (seqMem m₀ L))
    (hp : Progress o done (returns i m₀ L) lin) (he : o.task.Effect mem lin mem' lin') :
    ∃ L', SharedOp.SameCell A R mem' (seqMem m₀ L') ∧ Progress o done (returns i m₀ L') lin' ∧
      ∀ j ≠ i, returns j m₀ L' = returns j m₀ L := by
  have hcell : ∀ b : Addr, (b - A).toNat < R → ¬o.task.own b := by
    intro b hb hown
    have := S.cell i b (ho b hown)
    omega
  rcases he with ⟨rfl,hsame⟩ | ⟨rfl,rfl,hact⟩
  · exact ⟨L,fun b hb => (hsame b (hcell b hb)).trans (hmem b hb),hp,fun _ _ => rfl⟩
  · refine ⟨L ++ [(i,o)],fun b hb => ?_,⟨returns i m₀ L,seqMem m₀ L,?_,hp,hmem⟩,fun j hj => ?_⟩
    · rw [hact b (hcell b hb), seqMem_append]
      exact SharedOp.act_sameCell hmem b hb
    · rw [returns_append, if_pos rfl]
    · rw [returns_append, if_neg (Ne.symm hj), List.append_nil]

omit [DecidableEq ι] in
theorem Effect.frame {mem mem' : Memory} {lin lin' : Option Memory} (ho : S.Allows i o)
    (he : o.task.Effect mem lin mem' lin') {j : ι} (hj : j ≠ i) {b : Addr} (hb : S.region j b) :
    mem' b = mem b := by
  have hown : ¬o.task.own b := fun hown => hj (S.disjoint j i b hb (ho b hown))
  rcases he with ⟨-,hsame⟩ | ⟨-,-,hact⟩
  · exact hsame b hown
  · rw [hact b hown]
    exact SharedOp.act_outside mem (S.cell j b hb)

omit [DecidableEq ι] in
theorem OnTrack.observe {j : ι} {mem : Memory} {done : List (SharedOp A R × Core)}
    {l : List (SharedOp A R × Memory)} {th : Option (SharedOp A R × Core)} (h : OnTrack S j mem done l th)
    {ok : Bool} {ins : Insn} (hframe : ∀ b, S.region j b → (exec ok core mem ins).2 b = mem b) :
    OnTrack S j (exec ok core mem ins).2 done l (th.map fun p => (p.1,p.2.observe (storeSpan ok core ins))) := by
  cases th with
  | none => exact h
  | some p =>
    obtain ⟨ho,lin,hp,hsafe⟩ := h
    refine ⟨ho,lin,hp,fun n mon m hint => ?_⟩
    have hint' := (observe_interfere (d := p.2) fun b hb => hframe b (ho b hb)).trans hint
    rw [Core.observe_mark]
    exact hsafe n mon m hint'

theorem Returned.snoc {done : List (SharedOp A R × Core)} {l : List (SharedOp A R × Memory)} (h : Returned done l)
    {core : Core} {m : Memory} (he : o.Exits core m) : Returned (done ++ [(o,core)]) (l ++ [(o,m)]) :=
  List.rel_append h (.cons ⟨rfl,he⟩ .nil)

theorem Linear.run (h : Linear S m₀ c) {ins : Insn} (ok : Bool) (hrun : c.thread i = some (o,core))
    (hcode : o.task.code core.pc = some ins) : Linear S m₀ (c.step i o core ok ins) := by
  obtain ⟨L,hmem,hall⟩ := h
  have hi := hall i
  rw [hrun] at hi
  obtain ⟨ho,lin,hp,hsafe⟩ := hi
  have hstep : ∀ n, o.task.Safe (n+1) core c.mem lin := fun n => hsafe (n+1) core.monitor c.mem (.refl _ _ _)
  have heff : o.task.Effect c.mem lin (exec ok core c.mem ins).2 (o.task.linearize lin ok core c.mem ins) := by
    obtain ⟨ins',hc,hs⟩ := hstep 0
    obtain rfl := Option.some.inj (hcode.symm.trans hc)
    exact (hs ok).1
  obtain ⟨L',hmem',hp',hothers⟩ := Effect.extend ho hmem hp heff
  refine ⟨L',hmem',fun j => ?_⟩
  by_cases hj : j = i
  · subst hj
    simp only [Config.step, ↓reduceIte]
    by_cases hl : core.pc = o.task.last
    · obtain ⟨ins',hc,hs⟩ := hstep 0
      obtain rfl := Option.some.inj (hcode.symm.trans hc)
      have hdone := (hs ok).2
      rw [if_pos hl] at hdone
      obtain ⟨m,hlin,hd⟩ := hdone
      rw [hlin] at hp'
      obtain ⟨l,m',hl',hret,hsame⟩ := hp'
      simp only [if_pos hl, Function.update_self, hl']
      exact hret.snoc (SharedOp.Exits.sameCell hsame hd)
    · simp only [if_neg hl]
      refine ⟨ho,_,hp',fun n mon m hint => ?_⟩
      obtain ⟨ins',hc,hs⟩ := hstep n
      obtain rfl := Option.some.inj (hcode.symm.trans hc)
      have hnext := (hs ok).2
      rw [if_neg hl] at hnext
      exact hnext mon m hint
  · have hfin : (c.step i o core ok ins).finished j = c.finished j := by
      simp only [Config.step]
      split
      · exact Function.update_of_ne hj ..
      · rfl
    have hth : (c.step i o core ok ins).thread j =
        (c.thread j).map fun p => (p.1,p.2.observe (storeSpan ok core ins)) := if_neg hj
    rw [hfin, hth, hothers j hj]
    exact (hall j).observe fun b hb => Effect.frame ho heff hj hb

theorem Linear.step {c' : Config ι A R} (h : Linear S m₀ c) (hs : Step S.Allows c c') : Linear S m₀ c' := by
  cases hs with
  | start hidle ho => exact h.start hidle ho
  | run ok hrun hcode => exact h.run ok hrun hcode

end Step

/-- Islands of any number of threads, interleaved in any way and with any spurious failures, have
the outcome of the original instructions in some order, when every thread saves its registers to its
own stack. -/
theorem islands_sequential (S : Stacks ι A R) (m₀ : Memory) {c : Config ι A R}
    (h : Relation.ReflTransGen (Step S.Allows) (Config.initial m₀) c) (hidle : ∀ i, c.thread i = none) :
    Sequential m₀ c := by
  have hlin : Linear S m₀ c := by
    clear hidle
    induction h with
    | refl => exact ⟨[],fun _ _ => rfl,fun _ => .nil⟩
    | tail _ hs ih => exact ih.step hs
  obtain ⟨L,hmem,hall⟩ := hlin
  refine ⟨L,hmem,fun i => ?_⟩
  have hi := hall i
  rwa [hidle i] at hi

def Config.alone (i : ι) (o : SharedOp A R) (s : State) (finished : ι → List (SharedOp A R × Core)) : Config ι A R :=
  ⟨s.mem,Function.update (fun _ => none) i (some (o,s.core)),finished⟩

theorem Config.alone_step (i : ι) (o : SharedOp A R) (s : State) (finished : ι → List (SharedOp A R × Core))
    (ins : Insn) :
    (alone i o s finished).step i o s.core (decide (s.spurious = 0)) ins =
      if s.core.pc = o.task.last then
        ⟨(advance s ins).mem,fun _ => none,Function.update finished i (finished i ++ [(o,(advance s ins).core)])⟩
      else alone i o (advance s ins) finished := by
  have hth : ∀ j ≠ i, (alone i o s finished).thread j = none := fun j hj => by simp [alone, hj]
  by_cases hl : s.core.pc = o.task.last
  · simp only [step, if_pos hl, Config.mk.injEq]
    refine ⟨rfl,funext fun j => ?_,rfl⟩
    by_cases hj : j = i
    · simp [hj]
    · simp [hj, hth]
  · simp only [step, if_neg hl, alone, Config.mk.injEq]
    refine ⟨rfl,funext fun j => ?_,trivial⟩
    by_cases hj : j = i
    · subst hj
      simp [advance]
    · simp [hj]

theorem steps_of_runTo {allowed : ι → SharedOp A R → Prop} {i : ι} {o : SharedOp A R} {fuel : ℕ} {s t : State}
    (h : runTo o.task.code o.task.last fuel s = some t) (finished : ι → List (SharedOp A R × Core)) :
    Relation.ReflTransGen (Step allowed) (Config.alone i o s finished)
      ⟨t.mem,fun _ => none,Function.update finished i (finished i ++ [(o,t.core)])⟩ := by
  induction fuel generalizing s with
  | zero => simp [runTo] at h
  | succ fuel ih =>
    obtain ⟨ins,hcode,hnext⟩ := Option.bind_eq_some_iff.mp h
    have hstep : Step allowed (Config.alone i o s finished) _ :=
      .run (decide (s.spurious = 0)) (Function.update_self i _ fun _ => none) hcode
    rw [Config.alone_step] at hstep
    by_cases hl : s.core.pc = o.task.last
    · rw [if_pos hl] at hstep hnext
      obtain rfl := Option.some.inj hnext
      exact .single hstep
    · rw [if_neg hl] at hstep hnext
      exact .head hstep (ih hnext)

theorem steps_of_runsTo {allowed : ι → SharedOp A R → Prop} {i : ι} {o : SharedOp A R} (ho : allowed i o)
    {m : Memory} {n : ℕ} {t : State} (h : RunsTo o.entry.pc (emitIsland o.d o.entry.pc o.origAddr) ⟨o.entry,m,n,[]⟩ t)
    (finished : ι → List (SharedOp A R × Core)) :
    Relation.ReflTransGen (Step allowed) ⟨m,fun _ => none,finished⟩
      ⟨t.mem,fun _ => none,Function.update finished i (finished i ++ [(o,t.core)])⟩ := by
  obtain ⟨fuel,hf⟩ := h
  exact .head (.start (c := ⟨m,fun _ => none,finished⟩) (i := i) rfl ho) (steps_of_runTo hf finished)

end System

/-- `LDADD X2, X3, [X1]` on the cell at `A`, with `X2 = 1`, `X16 = 5` and the given stack pointer. -/
def ldaddAt (A sp : Addr) : SharedOp A 8 where
  word := ldaddWord
  d := ldaddX
  atomic := .rmw .ldadd 3#2 false false 2#5 3#5 1#5
  entry := entryCore (regFile [(1#5,A),(2#5,1#64),(16#5,5#64)]) sp
  origAddr := 100
  decodes := by decide
  isAtomic := by decide
  wide := by decide
  rn := by decide
  addr := rfl
  fits := by decide

/-- Two threads whose stacks end at `0x2000` and `0x3000`. -/
def twoStacks : Stacks Bool 0x1000#64 8 where
  region i b := if i then 0x2FC0 ≤ b.toNat ∧ b.toNat < 0x3000 else 0x1FC0 ≤ b.toNat ∧ b.toNat < 0x2000
  disjoint i j b hi hj := by
    cases i <;> cases j <;> simp at hi hj ⊢ <;> omega
  cell i b h := by
    rw [BitVec.toNat_sub]
    cases i <;> simp at h ⊢ <;> omega

theorem twoStacks_allows (i : Bool) : twoStacks.Allows i (ldaddAt 0x1000#64 (if i then 0x3000#64 else 0x2000#64)) := by
  rintro b ⟨k,hk,hb⟩
  have hk' : k < 4 := hk
  cases i <;> simp [twoStacks, ldaddAt, entryCore, slot, BitVec.toNat_sub] at hb ⊢ <;> omega

theorem islands_sequential_ldadd :
    ∃ c : Config Bool 0x1000#64 8,
      Relation.ReflTransGen (Step twoStacks.Allows) (Config.initial fun _ => 0#8) c ∧ (∀ i, c.thread i = none) ∧
        (∀ i, (c.finished i).length = 1) ∧ Sequential (fun _ => 0#8) c := by
  obtain ⟨t,-,-,ht,-⟩ := island_run ldaddX (by decide) (ldaddAt 0x1000#64 0x2000#64).entry (fun _ => 0#8) 100 0
  obtain ⟨u,-,-,hu,-⟩ := island_run ldaddX (by decide) (ldaddAt 0x1000#64 0x3000#64).entry t.mem 100 2
  have hrun := (steps_of_runsTo (i := false) (o := ldaddAt 0x1000#64 0x2000#64) (twoStacks_allows false) ht
    fun _ => []).trans (steps_of_runsTo (i := true) (o := ldaddAt 0x1000#64 0x3000#64) (twoStacks_allows true) hu _)
  refine ⟨_,hrun,fun _ => rfl,fun i => ?_,islands_sequential twoStacks _ hrun fun _ => rfl⟩
  cases i <;> rfl

/-- One thread whose cell is the slot `X16` is saved to: it gets back `X16`, not the cell. -/
theorem ldadd_in_slot_not_sequential :
    ∃ c : Config Unit 0x1FF0#64 8,
      Relation.ReflTransGen (Step fun _ _ => True) (Config.initial fun _ => 0#8) c ∧ (∀ i, c.thread i = none) ∧
        ¬Sequential (fun _ => 0#8) c := by
  obtain ⟨t,ht,hend,-⟩ := rmwIsland_run ldaddX (by decide) 0 100 (ldaddAt 0x1FF0#64 0x2000#64).entry (fun _ => 0#8) 0 []
    rfl
  refine ⟨_,steps_of_runsTo (i := ()) (o := ldaddAt 0x1FF0#64 0x2000#64) trivial ht fun _ => [],fun _ => rfl,?_⟩
  rintro ⟨L,-,hret⟩
  have hx : t.core.x 3#5 = 5#64 := (hend.restored.regs 3#5 (by decide)).trans (by decide)
  have hr := hret ()
  simp only [Function.update_self, List.nil_append] at hr
  cases L with
  | nil => cases hr
  | cons x L =>
    rw [returns, if_pos rfl] at hr
    obtain ⟨⟨-,hexit⟩,-⟩ := List.forall₂_cons.mp hr
    have hx' : ((ldaddAt 0x1FF0#64 0x2000#64).atomic.exec (ldaddAt 0x1FF0#64 0x2000#64).entry fun _ => 0#8).1.x 3#5 =
        5#64 := (congrFun hexit.1 3#5).symm.trans hx
    exact absurd hx' (by decide)

end Machismo.IsaEmul
