import Machismo.A64.Calls

/-! # Assembly text

Hand-written assembly, with its labels turned into addresses, on the core that `Calls` describes.
The text is apart from memory: the code neither reads nor writes it. Beside the instructions of a
frame there are those that save and restore registers in pairs, and the branches.
-/
namespace Machismo.A64

inductive AsmInsn where
  | frame (i : FrameInsn)
  | stp (rt rt2 rn : Reg) (imm : BitVec 7)
  | ldp (rt rt2 rn : Reg) (imm : BitVec 7)
  | stpQ (rt rt2 rn : Reg) (imm : BitVec 7)
  | ldpQ (rt rt2 rn : Reg) (imm : BitVec 7)
  | ldrImm (rt rn : Reg) (imm : BitVec 12)
  | subImm (rd rn : Reg) (imm : BitVec 12)
  | moviZero (rd : Reg)
  | cbz (rt : Reg) (target : Addr)
  | bl (target : Addr)
  | br (rn : Reg)
  deriving DecidableEq, Repr

namespace AsmInsn

def mov (rd rm : Reg) : AsmInsn := .frame (.orr rd 31#5 rm)

def Straight : AsmInsn → Bool
  | .frame (.blr _) | .frame (.ret _) | .cbz _ _ | .bl _ | .br _ => false
  | _ => true

end AsmInsn

namespace Cpu
variable (s : Cpu)

def writeV (r : Reg) (a : BitVec 128) : Cpu := { s with v := Function.update s.v r a }

def execAsm : AsmInsn → Option Cpu
  | .frame i => s.exec i
  | .stp rt rt2 rn imm =>
    if s.Aligned rn then
      let a := s.base rn + imm.signExtend 64 <<< 3
      some (s.setMem (store (store s.mem a 8 (s.read rt)) (a + 8) 8 (s.read rt2))).next
    else none
  | .ldp rt rt2 rn imm =>
    if s.Aligned rn ∧ rt ≠ rt2 then
      let a := s.base rn + imm.signExtend 64 <<< 3
      some ((s.write rt (load s.mem a 8)).write rt2 (load s.mem (a + 8) 8)).next
    else none
  | .stpQ rt rt2 rn imm =>
    if s.Aligned rn then
      let a := s.base rn + imm.signExtend 64 <<< 4
      some (s.setMem (store (store s.mem a 16 (s.v rt)) (a + 16) 16 (s.v rt2))).next
    else none
  | .ldpQ rt rt2 rn imm =>
    if s.Aligned rn ∧ rt ≠ rt2 then
      let a := s.base rn + imm.signExtend 64 <<< 4
      some ((s.writeV rt (load s.mem a 16)).writeV rt2 (load s.mem (a + 16) 16)).next
    else none
  | .ldrImm rt rn imm =>
    if s.Aligned rn then some (s.write rt (load s.mem (s.base rn + imm.setWidth 64 <<< 3) 8)).next else none
  | .subImm rd rn imm => some (s.setBase rd (s.base rn - imm.setWidth 64)).next
  | .moviZero rd => some (s.writeV rd 0).next
  | .cbz rt target => some (if s.read rt = 0 then { s with pc := target } else s.next)
  | .bl target => some { s.write 30#5 (s.pc + 4) with pc := target }
  | .br rn => some { s with pc := s.read rn }

end Cpu

abbrev Text := Addr → Option AsmInsn

namespace Text

def step (text : Text) (s : Cpu) : Option Cpu :=
  if s.pc.toNat % 4 = 0 then (text s.pc).bind s.execAsm else none

def run (text : Text) : ℕ → Cpu → Option Cpu
  | 0, s => some s
  | n + 1, s => (text.step s).bind (text.run n)

def Holds (text : Text) (t : Addr) (is : List AsmInsn) : Prop :=
  ∀ k (h : k < is.length), text (t + BitVec.ofNat 64 (4*k)) = some is[k]

end Text

def execAll : List AsmInsn → Cpu → Option Cpu
  | [], s => some s
  | i :: is, s => (s.execAsm i).bind (execAll is)

theorem execAll_append (is js : List AsmInsn) (s : Cpu) :
    execAll (is ++ js) s = (execAll is s).bind (execAll js) := by
  induction is generalizing s with
  | nil => rfl
  | cons i is ih =>
    rw [List.cons_append,execAll,execAll,Option.bind_assoc]
    congr
    funext s'
    exact ih s'

namespace Cpu
variable {s s' : Cpu}

@[simp] theorem pc_write (r : Reg) (a : BitVec 64) : (s.write r a).pc = s.pc := by
  unfold write
  split <;> rfl

@[simp] theorem pc_setBase (r : Reg) (a : Addr) : (s.setBase r a).pc = s.pc := by
  unfold setBase
  split <;> rfl

theorem pc_exec {i : FrameInsn} (hi : (AsmInsn.frame i).Straight) (h : s.exec i = some s') : s'.pc = s.pc + 4 := by
  cases i with
  | blr _ => cases hi
  | ret _ => cases hi
  | stpPre _ _ _ _ | ldpPost _ _ _ _ | stpW _ _ _ _ | strImm _ _ _ =>
    simp only [exec,Option.ite_none_right_eq_some,Option.some.injEq] at h
    rw [← h.2]
    simp [next,setMem]
  | addImm _ _ _ | orr _ _ _ | ldrLit _ _ =>
    simp only [exec,Option.some.injEq] at h
    rw [← h]
    simp [next]

theorem pc_execAsm {i : AsmInsn} (hi : i.Straight) (h : s.execAsm i = some s') : s'.pc = s.pc + 4 := by
  cases i with
  | frame i => exact pc_exec hi h
  | cbz _ _ => cases hi
  | bl _ => cases hi
  | br _ => cases hi
  | stp _ _ _ _ | ldp _ _ _ _ | stpQ _ _ _ _ | ldpQ _ _ _ _ | ldrImm _ _ _ =>
    simp only [execAsm,Option.ite_none_right_eq_some,Option.some.injEq] at h
    rw [← h.2]
    simp [next,setMem,writeV]
  | subImm _ _ _ | moviZero _ =>
    simp only [execAsm,Option.some.injEq] at h
    rw [← h]
    simp [next,writeV]

end Cpu

namespace Text
variable {text : Text} {t : Addr} {prog : List AsmInsn} {s s' : Cpu}

theorem Holds.step (h : text.Holds t prog) (ht : t.toNat % 4 = 0) (k : ℕ) {i : AsmInsn} (hk : prog[k]? = some i)
    (hpc : s.pc = t + BitVec.ofNat 64 (4*k)) : text.step s = s.execAsm i := by
  have hal : s.pc.toNat % 4 = 0 := by
    rw [hpc,BitVec.toNat_add,BitVec.toNat_ofNat]
    omega
  obtain ⟨hlt,rfl⟩ := List.getElem?_eq_some_iff.mp hk
  rw [Text.step,if_pos hal,hpc,h k hlt,Option.bind_some]

theorem Holds.run_one (h : text.Holds t prog) (ht : t.toNat % 4 = 0) (k : ℕ) {i : AsmInsn} (hk : prog[k]? = some i)
    (hpc : s.pc = t + BitVec.ofNat 64 (4*k)) (he : s.execAsm i = some s') (n : ℕ) :
    text.run (n + 1) s = text.run n s' := by
  rw [Text.run,h.step ht k hk hpc,he,Option.bind_some]

theorem Holds.run_block (h : text.Holds t prog) (ht : t.toNat % 4 = 0) {is : List AsmInsn} (k : ℕ)
    (hk : is <+: prog.drop k) (his : ∀ i ∈ is, i.Straight) (hpc : s.pc = t + BitVec.ofNat 64 (4*k))
    (he : execAll is s = some s') (n : ℕ) : text.run (is.length + n) s = text.run n s' := by
  induction is generalizing s k with
  | nil =>
    simp only [execAll,Option.some.injEq] at he
    rw [he,List.length_nil,Nat.zero_add]
  | cons i is ih =>
    obtain ⟨s₁,hs₁,hrest⟩ := Option.bind_eq_some_iff.mp he
    have hget : prog[k]? = some i := by
      obtain ⟨rest,hdrop⟩ := hk
      rw [← Nat.add_zero k,← List.getElem?_drop,← hdrop]
      rfl
    have htail : is <+: prog.drop (k + 1) := by
      rw [← List.drop_drop]
      exact hk.drop 1
    have hpc₁ : s₁.pc = t + BitVec.ofNat 64 (4*(k + 1)) := by
      rw [Cpu.pc_execAsm (his i List.mem_cons_self) hs₁,hpc,BitVec.add_assoc,Nat.mul_succ,BitVec.ofNat_add]
      rfl
    calc text.run ((i :: is).length + n) s
        = text.run (is.length + n + 1) s := by rw [List.length_cons,Nat.add_right_comm]
      _ = text.run (is.length + n) s₁ := h.run_one ht k hget hpc hs₁ _
      _ = text.run n s' := ih (k + 1) htail (fun j hj => his j (List.mem_cons_of_mem _ hj)) hpc₁ hrest

def place (t : Addr) (is : List AsmInsn) : Text := fun a =>
  if (a - t).toNat % 4 = 0 then is[(a - t).toNat / 4]? else none

theorem holds_place (t : Addr) {is : List AsmInsn} (hlen : 4*is.length ≤ 2^64) : (place t is).Holds t is := by
  intro k hk
  have hoff : (t + BitVec.ofNat 64 (4*k) - t).toNat = 4*k := by
    rw [BitVec.add_comm,BitVec.add_sub_cancel,BitVec.toNat_ofNat,Nat.mod_eq_of_lt (by omega)]
  have hdiv : 4*k / 4 = k := by omega
  rw [place,hoff,if_pos (by omega),hdiv,List.getElem?_eq_getElem hk]

end Text

structure Slot where
  off : ℕ
  size : ℕ
  val : BitVec (8*size)

def storeSlots (m : Memory) (f : Addr) : List Slot → Memory
  | [] => m
  | c :: cs => storeSlots (store m (f + BitVec.ofNat 64 c.off) c.size c.val) f cs

/-- Slots in ascending order, none of them empty, in an area of `l` bytes. -/
structure SlotsFit (l : ℕ) (cs : List Slot) : Prop where
  ordered : cs.Pairwise fun c d => c.off + c.size ≤ d.off
  inside : ∀ c ∈ cs, 0 < c.size ∧ c.off + c.size ≤ l

section Slots
variable {m : Memory} {f : Addr} {l : ℕ} {c : Slot} {cs : List Slot}

theorem SlotsFit.tail (h : SlotsFit l (c :: cs)) : SlotsFit l cs :=
  ⟨h.ordered.tail,fun d hd => h.inside d (List.mem_cons_of_mem _ hd)⟩

theorem storeSlots_outside (h : SlotsFit l cs) {b : Addr} (hb : l ≤ (b - f).toNat) : storeSlots m f cs b = m b := by
  induction cs generalizing m with
  | nil => rfl
  | cons c cs ih =>
    exact (ih h.tail).trans (store_outside_span m hb c.off c.size (h.inside c List.mem_cons_self).2 c.val)

theorem load_storeSlots_before {i n : ℕ} (h : SlotsFit l cs) (hl : l ≤ 2^64) (hn : 0 < n)
    (hcs : ∀ d ∈ cs, i + n ≤ d.off) :
    load (storeSlots m f cs) (f + BitVec.ofNat 64 i) n = load m (f + BitVec.ofNat 64 i) n := by
  induction cs generalizing m with
  | nil => rfl
  | cons d cs ih =>
    have hd := h.inside d List.mem_cons_self
    exact (ih h.tail fun e he => hcs e (List.mem_cons_of_mem _ he)).trans
      (load_store_apart _ _ (apart_add f (hcs d List.mem_cons_self) (hd.2.trans hl) hn hd.1))

theorem load_storeSlots (h : SlotsFit l cs) (hl : l ≤ 2^64) (hc : c ∈ cs) :
    load (storeSlots m f cs) (f + BitVec.ofNat 64 c.off) c.size = c.val := by
  induction cs generalizing m with
  | nil => cases hc
  | cons d cs ih =>
    obtain rfl | hc := List.mem_cons.mp hc
    · have hin := h.inside c List.mem_cons_self
      have hrest := load_storeSlots_before (m := store m (f + BitVec.ofNat 64 c.off) c.size c.val) (f := f)
        h.tail hl hin.1 (List.pairwise_cons.mp h.ordered).1
      exact hrest.trans (load_store_same _ _ _ _ (by omega))
    · exact ih h.tail hc

end Slots

end Machismo.A64
