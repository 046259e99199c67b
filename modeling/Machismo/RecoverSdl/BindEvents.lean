import Machismo.RecoverSdl.BindStream

/-! # Bind events of the tool and binds of the loader

What one opcode adds to the events of the tool and to the binds of the loader.  The place is
the same modulo `2^64` all along; the ordinal, the symbol and the addend are compared through
what set them last.
-/
namespace Machismo.RecoverSdl
open Machismo.A64 (Byte)
open Machismo.Data Machismo.Resolver

def Kind.isLazy (kind : Kind) : Bool := kind = .lazyBind

section Opcodes

theorem bindRun_congr {isLazy : Bool} {l₁ l₂ : List BindOp} (h : ∀ q, bindRun isLazy l₁ q = bindRun isLazy l₂ q)
    (op : BindOp) (q : BindRegs) : bindRun isLazy (op::l₁) q = bindRun isLazy (op::l₂) q := by
  cases op
  case done =>
    cases isLazy with
    | false => rfl
    | true => exact h q
  case unknown => rfl
  all_goals
    simp only [bindRun]
    rw [h]

theorem bindRun_bindOpsFrom {isLazy : Bool} {n : ℕ} {raw : List Byte} {ops : List Op}
    (h : opsFrom n raw = some ops) (q : BindRegs) :
    bindRun isLazy (bindOpsFrom n raw) q = bindRun isLazy (ops.map Op.toLoader) q := by
  induction n generalizing raw ops q with
  | zero =>
    obtain rfl := Option.some.inj h
    rfl
  | succ n ih =>
    cases raw with
    | nil =>
      obtain rfl := Option.some.inj h
      rfl
    | cons byte raw =>
      obtain ⟨⟨op,rest⟩,hop,h⟩ := Option.bind_eq_some_iff.mp h
      obtain ⟨ops,hops,rfl⟩ := Option.map_eq_some_iff.mp h
      rw [bindOpsFrom,List.map_cons]
      obtain ⟨-,hread⟩ | ⟨rfl,hread⟩ := decodeBind_of_decodeOp hop
      · rw [hread]
        exact bindRun_congr (fun q => ih hops q) _ q
      · rw [hread]
        rfl

theorem bindRun_toLoader_cons {isLazy : Bool} {op : Op} (hdone : isLazy = true ∨ op ≠ .done)
    (hthreaded : op ≠ .threaded)
    (ops : List BindOp) (q : BindRegs) :
    bindRun isLazy (op.toLoader::ops) q = ((bindRun isLazy ops (op.toLoader.exec q).1).1,
      (op.toLoader.exec q).2++(bindRun isLazy ops (op.toLoader.exec q).1).2) := by
  cases op
  case done =>
    obtain rfl : isLazy = true := hdone.resolve_right (absurd rfl)
    rfl
  case threaded => exact absurd rfl hthreaded
  all_goals rfl

end Opcodes

section Slots

/-- What both tell of a bind: the place before the slide, the bytes of the symbol, and two numbers. -/
structure BindSlot where
  address : BitVec 64
  symbol : Name
  ordinal : ℤ
  addend : ℤ
  deriving DecidableEq

def Event.slot (e : Event) : BindSlot :=
  ⟨.ofNat 64 e.address,nameOf ((utf8 e.symbol).map UInt8.toBitVec),e.ordinal,e.addend⟩

/-- The bind as `do_bind_one` carries it out, if the table has the segment. -/
def bindSlot? (I : Image) (b : Bind) : Option BindSlot :=
  (I.slot? b.cursor).map fun addr => ⟨addr-I.slide,b.symName,b.libOrdinal,b.addend.toInt⟩

/-- The loader's registers at the place of an event. -/
def told (q : BindRegs) (e : Event) : BindSlot :=
  ⟨.ofNat 64 e.address,nameOf q.symName,q.libOrdinal,q.addend.toInt⟩

/-- Whether what a bind names was last read alike. -/
structure Reads where
  ordinal : Prop
  symbol : Prop
  addend : Prop

def Reads.all (m : Reads) : Prop := m.ordinal ∧ m.symbol ∧ m.addend

/-- The tool starts `weak_bind` with an ordinal of its own. -/
def Reads.initial (kind : Kind) : Reads := ⟨kind ≠ .weakBind,True,True⟩

def Op.read (m : Reads) : Op → Reads
  | .ordinalImm _ => { m with ordinal := True }
  | .ordinalUleb n => { m with ordinal := n < 2^31 }
  | .specialImm imm => { m with ordinal := imm = 0 ∨ 8 ≤ imm }
  | .symbol _ name => { m with symbol := WellFormed (name.map UInt8.ofBitVec) }
  | .addendSleb z => { m with addend := -2^63 ≤ z ∧ z < 2^63 }
  | _ => m

def Op.count : Op → ℕ
  | .bind | .bindAddAddrUleb _ | .bindScaled _ => 1
  | .bindTimes count _ => count
  | _ => 0

/-- The tool and the loader are at one place, and differ in what was not read alike. -/
structure Sim (m : Reads) (r : Regs) (q : BindRegs) : Prop where
  segIndex : q.cursor.segIndex = r.segmentIndex
  segOffset : q.cursor.segOffset = .ofNat 64 r.segmentOffset
  ordinal : m.ordinal ↔ r.ordinal = q.libOrdinal
  symbol : m.symbol ↔ nameOf ((utf8 r.symbol).map UInt8.toBitVec) = nameOf q.symName
  addend : m.addend ↔ r.addend = q.addend.toInt

variable {m : Reads} {r r' : Regs} {q : BindRegs}

theorem Sim.initial (kind : Kind) : Sim (.initial kind) (.initial kind) .initial where
  segIndex := rfl
  segOffset := rfl
  ordinal := by cases kind <;> simp [Reads.initial,Regs.initial,BindRegs.initial]
  symbol := by simp [Reads.initial,Regs.initial,BindRegs.initial,utf8,nameOf]
  addend := by simp [Reads.initial,Regs.initial,BindRegs.initial]

theorem ofNat_advance (offset n : ℕ) : BitVec.ofNat 64 ((offset+n)%2^64) = .ofNat 64 offset+.ofNat 64 n := by
  rw [← BitVec.ofNat_add]
  exact BitVec.eq_of_toNat_eq (by simp)

theorem Sim.advance (h : Sim m r q) (n : ℕ) : Sim m (r.advance n) (q.advance (.ofNat 64 n)) where
  segIndex := h.segIndex
  segOffset := by
    unfold Regs.advance BindRegs.advance Cursor.advance
    dsimp only
    rw [ofNat_advance,h.segOffset]
  ordinal := h.ordinal
  symbol := h.symbol
  addend := h.addend

theorem Sim.emit {I : Image} {event : Event} (hsim : Sim m r q) (h : emit I.segments r = some (r',event)) :
    Sim m r' (q.advance 8) ∧ bindSlot? I q.bind = some (told q event) ∧ (event.slot = told q event ↔ m.all) := by
  obtain ⟨segment,hsegment,h⟩ := Option.bind_eq_some_iff.mp h
  split_ifs at h
  obtain ⟨rfl,rfl⟩ := Prod.mk.inj (Option.some.inj h)
  refine ⟨hsim.advance 8,?_,?_⟩
  · have hslot : I.slot? q.bind.cursor = some (segment.vmaddr+I.slide+.ofNat 64 r.segmentOffset) := by
      unfold Image.slot? BindRegs.bind
      dsimp only
      rw [hsim.segIndex,hsim.segOffset,hsegment,Option.map_some]
    rw [bindSlot?,hslot,Option.map_some]
    have haddr : segment.vmaddr+I.slide+.ofNat 64 r.segmentOffset-I.slide =
        .ofNat 64 (segment.vmaddr.toNat+r.segmentOffset) := by
      rw [BitVec.ofNat_add,BitVec.ofNat_toNat,BitVec.setWidth_eq]
      abel
    rw [haddr]
    rfl
  · unfold Event.slot told Reads.all
    rw [hsim.ordinal,hsim.symbol,hsim.addend]
    rw [BindSlot.mk.injEq]
    tauto

/-- The first events of a run of `n`, as the loader tells them where it makes `k` binds. -/
theorem Sim.emitTimes {I : Image} {skip n k : ℕ} {events : List Event} (hsim : Sim m r q) (hk : k ≤ n)
    (h : emitTimes I.segments skip n r = some (r',events)) :
    events.length = n ∧ (∀ e ∈ events, e.slot = told q e ↔ m.all) ∧
      (bindTimes (.ofNat 64 skip+8) k q).2.filterMap (bindSlot? I) = (events.take k).map (told q) := by
  induction n generalizing k r q events with
  | zero =>
    obtain ⟨-,rfl⟩ := Prod.mk.inj (Option.some.inj h)
    obtain rfl := Nat.le_zero.mp hk
    exact ⟨rfl,nofun,rfl⟩
  | succ n ih =>
    obtain ⟨⟨r₁,event⟩,hemit,h⟩ := Option.bind_eq_some_iff.mp h
    obtain ⟨⟨r₂,rest⟩,hrest,h⟩ := Option.map_eq_some_iff.mp h
    obtain ⟨rfl,rfl⟩ := Prod.mk.inj h
    obtain ⟨hsim₁,hslot,hall⟩ := hsim.emit hemit
    have hstep : Sim m (r₁.advance skip) (q.advance (.ofNat 64 skip+8)) := by
      have h := hsim₁.advance skip
      unfold BindRegs.advance Cursor.advance at h ⊢
      dsimp only at h ⊢
      rwa [BitVec.add_assoc,BitVec.add_comm 8] at h
    cases k with
    | zero =>
      obtain ⟨hlen,htold,-⟩ := ih hstep (Nat.zero_le n) hrest
      exact ⟨congrArg (·+1) hlen,List.forall_mem_cons.mpr ⟨hall,htold⟩,rfl⟩
    | succ k =>
      obtain ⟨hlen,htold,hslots⟩ := ih hstep (Nat.le_of_succ_le_succ hk) hrest
      refine ⟨congrArg (·+1) hlen,List.forall_mem_cons.mpr ⟨hall,htold⟩,?_⟩
      have htail : (bindTimes (.ofNat 64 skip+8) (k+1) q).2 =
          q.bind::(bindTimes (.ofNat 64 skip+8) k (q.advance (.ofNat 64 skip+8))).2 := rfl
      rw [htail,List.filterMap_cons,hslot,hslots]
      rfl

theorem advance_advance (q : BindRegs) (a b : BitVec 64) : (q.advance a).advance b = q.advance (a+b) := by
  unfold BindRegs.advance Cursor.advance
  rw [BitVec.add_assoc]

theorem advance_zero (q : BindRegs) : q.advance 0#64 = q := by
  unfold BindRegs.advance Cursor.advance
  rw [BitVec.add_zero]

theorem ofNat_succ_mul (n : ℕ) (step : BitVec 64) : step+.ofNat 64 n*step = .ofNat 64 (n+1)*step := by
  rw [BitVec.ofNat_add,BitVec.add_mul,BitVec.one_mul,BitVec.add_comm]

theorem ofNat_mod (n : ℕ) : BitVec.ofNat 64 (n%2^64) = .ofNat 64 n := BitVec.eq_of_toNat_eq (by simp)

theorem bindTimes_fst (step : BitVec 64) (n : ℕ) (q : BindRegs) :
    (bindTimes step n q).1 = q.advance (.ofNat 64 n*step) := by
  induction n generalizing q with
  | zero => rw [BitVec.zero_mul,bindTimes]; exact (advance_zero q).symm
  | succ n ih =>
    have hstep : (bindTimes step (n+1) q).1 = (bindTimes step n (q.advance step)).1 := rfl
    rw [hstep,ih,advance_advance,ofNat_succ_mul]

/-- After `n` rounds of the tool, where the loader is after `n` rounds modulo `2^64`. -/
theorem Sim.after_times {I : Image} {skip n : ℕ} {events : List Event} (hsim : Sim m r q)
    (h : RecoverSdl.emitTimes I.segments skip n r = some (r',events)) :
    Sim m r' (q.advance (.ofNat 64 n*(.ofNat 64 skip+8))) := by
  induction n generalizing r q events with
  | zero =>
    obtain ⟨rfl,-⟩ := Prod.mk.inj (Option.some.inj h)
    rw [BitVec.zero_mul]; exact (advance_zero q).symm ▸ hsim
  | succ n ih =>
    obtain ⟨⟨r₁,event⟩,hemit,h⟩ := Option.bind_eq_some_iff.mp h
    obtain ⟨⟨r₂,rest⟩,hrest,h⟩ := Option.map_eq_some_iff.mp h
    obtain ⟨rfl,rfl⟩ := Prod.mk.inj h
    have hstep := ih ((hsim.emit hemit).1.advance skip) hrest
    rwa [advance_advance,advance_advance,← BitVec.add_assoc,BitVec.add_comm 8,ofNat_succ_mul] at hstep

end Slots

section Operands

theorem ordinal_eq_iff (n : ℕ) : (n : ℤ) = ((BitVec.ofNat 64 n).setWidth 32).toInt ↔ n < 2^31 := by
  rw [BitVec.toInt_eq_toNat_cond,BitVec.toNat_setWidth,BitVec.toNat_ofNat,Nat.mod_mod_of_dvd n (by decide)]
  split_ifs <;> omega

theorem special_eq_iff (imm : BitVec 4) :
    (if 8 ≤ imm then (imm.toNat : ℤ)-16 else imm.toNat) = (if imm = 0 then 0 else (imm.toNat : ℤ)-16) ↔
      imm = 0 ∨ 8 ≤ imm := by
  revert imm
  decide

theorem nameOf_inj {s t : List Byte} : nameOf s = nameOf t ↔ s = t := by
  refine (List.map_injective_iff.mpr fun a b h => ?_).eq_iff
  have hvalid (c : Byte) : (Char.ofNat c.toNat).toNat = c.toNat := by
    have hlt := c.isLt
    rw [Char.toNat_ofNat,if_pos (Or.inl (by omega))]
  exact BitVec.eq_of_toNat_eq ((hvalid a).symm.trans ((congrArg Char.toNat h).trans (hvalid b)))

theorem symbol_eq_iff (name : List Byte) :
    nameOf ((utf8 (decodeText name)).map UInt8.toBitVec) = nameOf name ↔ WellFormed (name.map UInt8.ofBitVec) := by
  rw [nameOf_inj,← utf8_decodeReplace_iff]
  constructor
  · intro h
    have h := congrArg (List.map UInt8.ofBitVec) h
    rwa [List.map_map,List.map_id''] at h
    exact fun _ => rfl
  · intro h
    have h := congrArg (List.map UInt8.toBitVec) h
    rwa [List.map_map,List.map_id''] at h
    exact fun _ => rfl

theorem addend_eq_iff (z : ℤ) : z = (BitVec.ofInt 64 z).toInt ↔ -2^63 ≤ z ∧ z < 2^63 := by
  rw [BitVec.toInt_ofInt,eq_comm,Int.bmod_eq_iff (by decide)]
  omega

end Operands

section Exec
variable {I : Image} {m : Reads} {r r' : Regs} {q : BindRegs} {events : List Event}

/-- What an opcode adds on both sides: the loader makes the first of the tool's binds. -/
structure Step (I : Image) (m : Reads) (op : Op) (r' : Regs) (events : List Event) (q : BindRegs) : Prop where
  sim : Sim (op.read m) r' (op.toLoader.exec q).1
  length : events.length = op.count
  told : ∀ e ∈ events, e.slot = told q e ↔ m.all
  slots : (op.toLoader.exec q).2.filterMap (bindSlot? I) = (events.take (op.count%2^64)).map (RecoverSdl.told q)

theorem Step.of_sim {op : Op} (hcount : op.count = 0) (hbinds : (op.toLoader.exec q).2 = [])
    (hsim : Sim (op.read m) r' (op.toLoader.exec q).1) : Step I m op r' [] q where
  sim := hsim
  length := hcount.symm
  told := nofun
  slots := by rw [hbinds,List.take_nil]; rfl

theorem Step.of_emitThen {op : Op} {n : ℕ} (hcount : op.count = 1) (hread : op.read m = m)
    (hloader : op.toLoader.exec q = (q.advance (.ofNat 64 n+8),[q.bind])) (hsim : Sim m r q)
    (h : emitThen I.segments n r = some (r',events)) : Step I m op r' events q := by
  obtain ⟨⟨r₁,event⟩,hemit,h⟩ := Option.map_eq_some_iff.mp h
  obtain ⟨rfl,rfl⟩ := Prod.mk.inj h
  obtain ⟨hsim₁,hslot,hall⟩ := hsim.emit hemit
  refine ⟨?_,hcount.symm,List.forall_mem_singleton.mpr hall,?_⟩
  · have h := hsim₁.advance n
    rw [advance_advance,BitVec.add_comm 8] at h
    rwa [hread,hloader]
  · rw [hloader,hcount,List.filterMap_cons,hslot]
    rfl

theorem Sim.exec {op : Op} (hsim : Sim m r q) (h : op.exec I.segments r = some (r',events)) :
    Step I m op r' events q := by
  cases op
  case bind => exact .of_emitThen (n := 0) rfl rfl rfl hsim h
  case bindAddAddrUleb n => exact .of_emitThen rfl rfl rfl hsim h
  case bindScaled imm =>
    refine .of_emitThen rfl rfl ?_ hsim h
    rw [BitVec.ofNat_mul,BitVec.ofNat_toNat]
    rfl
  case bindTimes count skip =>
    obtain ⟨hlen,htold,hslots⟩ := hsim.emitTimes (Nat.mod_le count (2^64)) h
    have hloader : (Op.bindTimes count skip).toLoader.exec q =
        bindTimes (.ofNat 64 skip+8) (count%2^64) q := by
      rw [Op.toLoader,BindOp.exec,BitVec.toNat_ofNat]
    refine ⟨?_,hlen,htold,?_⟩
    · rw [hloader,bindTimes_fst,ofNat_mod]
      exact hsim.after_times h
    · rw [hloader]
      exact hslots
  all_goals
    obtain ⟨rfl,rfl⟩ := Prod.mk.inj (Option.some.inj h)
    refine .of_sim rfl rfl ?_
  case ordinalImm imm => exact { hsim with ordinal := by simp [Op.read,Op.toLoader,BindOp.exec] }
  case addAddrUleb n => exact hsim.advance n
  case done | typeImm | threaded => exact hsim
  case segmentUleb imm offset => exact { hsim with segIndex := rfl, segOffset := rfl }
  case ordinalUleb n => exact { hsim with ordinal := (ordinal_eq_iff n).symm }
  case specialImm imm => exact { hsim with ordinal := (special_eq_iff imm).symm }
  case symbol flags name => exact { hsim with symbol := (symbol_eq_iff name).symm }
  case addendSleb z => exact { hsim with addend := (addend_eq_iff z).symm }

end Exec

end Machismo.RecoverSdl
