import Machismo.Data.Utf8
import Machismo.RecoverSdl.Leb128
import Machismo.Resolver.DyldInfo

/-! # Bind streams in the analysis tool

`_decode_bind` runs an opcode stream with integers of any size and reports an event for each
bind; it fails where the tool raises an error.  A symbol is the text that its bytes decode to.
-/
namespace Machismo.RecoverSdl
open Machismo.A64 (Byte)
open Machismo.Data Machismo.Resolver

inductive Kind where
  | bind | weakBind | lazyBind
  deriving DecidableEq, Repr

/-- An opcode with its operands as the tool reads them. -/
inductive Op where
  | done
  | ordinalImm (imm : BitVec 4)
  | ordinalUleb (n : ℕ)
  | specialImm (imm : BitVec 4)
  | symbol (flags : BitVec 4) (name : List Byte)
  | typeImm (imm : BitVec 4)
  | addendSleb (z : ℤ)
  | segmentUleb (imm : BitVec 4) (offset : ℕ)
  | addAddrUleb (n : ℕ)
  | bind
  | bindAddAddrUleb (n : ℕ)
  | bindScaled (imm : BitVec 4)
  | bindTimes (count skip : ℕ)
  | threaded
  deriving DecidableEq, Repr

def decodeOp (byte : Byte) (raw : List Byte) : Option (Op × List Byte) :=
  let imm := byte.extractLsb' 0 4
  match byte.extractLsb' 4 4 with
  | 0#4 => some (.done,raw)
  | 1#4 => some (.ordinalImm imm,raw)
  | 2#4 => (readUleb raw).map fun (n,raw) => (.ordinalUleb n,raw)
  | 3#4 => some (.specialImm imm,raw)
  | 4#4 => if 0 ∈ raw then some (.symbol imm (readCString raw).1,(readCString raw).2) else none
  | 5#4 => some (.typeImm imm,raw)
  | 6#4 => (readSleb raw).map fun (z,raw) => (.addendSleb z,raw)
  | 7#4 => (readUleb raw).map fun (n,raw) => (.segmentUleb imm n,raw)
  | 8#4 => (readUleb raw).map fun (n,raw) => (.addAddrUleb n,raw)
  | 9#4 => some (.bind,raw)
  | 10#4 => (readUleb raw).map fun (n,raw) => (.bindAddAddrUleb n,raw)
  | 11#4 => some (.bindScaled imm,raw)
  | 12#4 => (readUleb raw).bind fun (count,raw) => (readUleb raw).map fun (skip,raw) => (.bindTimes count skip,raw)
  | 13#4 => if imm = 0 then (readUleb raw).map fun (_,raw) => (.threaded,raw) else none
  | _ => none

structure Regs where
  segmentIndex : ℕ
  segmentOffset : ℕ
  symbol : List Char
  ordinal : ℤ
  addend : ℤ

def Regs.initial (kind : Kind) : Regs := ⟨0,0,[],if kind = .weakBind then -3 else 0,0⟩

/-- `segment_offset = (segment_offset + n) & address_mask` -/
def Regs.advance (r : Regs) (n : ℕ) : Regs := { r with segmentOffset := (r.segmentOffset+n)%2^64 }

structure Event where
  address : ℕ
  symbol : List Char
  ordinal : ℤ
  addend : ℤ
  deriving DecidableEq

def emit (segments : List SegInfo) (r : Regs) : Option (Regs × Event) :=
  (segments[r.segmentIndex]?).bind fun segment =>
    if segment.vmsize.toNat < r.segmentOffset then none
    else some (r.advance 8,⟨segment.vmaddr.toNat+r.segmentOffset,r.symbol,r.ordinal,r.addend⟩)

def emitTimes (segments : List SegInfo) (skip : ℕ) : ℕ → Regs → Option (Regs × List Event)
  | 0, r => some (r,[])
  | n+1, r => (emit segments r).bind fun (r,event) =>
    (emitTimes segments skip n (r.advance skip)).map fun (r,events) => (r,event::events)

def emitThen (segments : List SegInfo) (n : ℕ) (r : Regs) : Option (Regs × List Event) :=
  (emit segments r).map fun (r,event) => (r.advance n,[event])

def Op.exec (segments : List SegInfo) (r : Regs) : Op → Option (Regs × List Event)
  | .done | .typeImm _ | .threaded => some (r,[])
  | .ordinalImm imm => some ({ r with ordinal := imm.toNat },[])
  | .ordinalUleb n => some ({ r with ordinal := n },[])
  | .specialImm imm => some ({ r with ordinal := if 8 ≤ imm then (imm.toNat : ℤ)-16 else imm.toNat },[])
  | .symbol _ name => some ({ r with symbol := decodeText name },[])
  | .addendSleb z => some ({ r with addend := z },[])
  | .segmentUleb imm offset => some ({ r with segmentIndex := imm.toNat, segmentOffset := offset },[])
  | .addAddrUleb n => some (r.advance n,[])
  | .bind => emitThen segments 0 r
  | .bindAddAddrUleb n => emitThen segments n r
  | .bindScaled imm => emitThen segments (imm.toNat*8) r
  | .bindTimes count skip => emitTimes segments skip count r

/-- The loop of `_decode_bind` over a stream of at most the given length. -/
def decodeBindFrom (segments : List SegInfo) : ℕ → Regs → List Byte → Option (List Event)
  | 0, _, _ => some []
  | _+1, _, [] => some []
  | n+1, r, byte::raw => (decodeOp byte raw).bind fun (op,raw) => (op.exec segments r).bind fun (r,events) =>
    (decodeBindFrom segments n r raw).map (events++·)

def decodeBind (kind : Kind) (segments : List SegInfo) (raw : List Byte) : Option (List Event) :=
  decodeBindFrom segments raw.length (.initial kind) raw

section Ops

/-- The opcodes of a stream, where all can be read. -/
def opsFrom : ℕ → List Byte → Option (List Op)
  | 0, _ => some []
  | _+1, [] => some []
  | n+1, byte::raw => (decodeOp byte raw).bind fun (op,raw) => (opsFrom n raw).map (op::·)

def run (segments : List SegInfo) : List Op → Regs → Option (List Event)
  | [], _ => some []
  | op::ops, r => (op.exec segments r).bind fun (r,events) => (run segments ops r).map (events++·)

variable {segments : List SegInfo}

theorem ops_of_decodeBindFrom {n : ℕ} {r : Regs} {raw : List Byte} {events : List Event}
    (h : decodeBindFrom segments n r raw = some events) :
    ∃ ops, opsFrom n raw = some ops ∧ run segments ops r = some events := by
  induction n generalizing r raw events with
  | zero => exact ⟨[],rfl,h⟩
  | succ n ih =>
    cases raw with
    | nil => exact ⟨[],rfl,h⟩
    | cons byte raw =>
      obtain ⟨⟨op,raw'⟩,hop,h⟩ := Option.bind_eq_some_iff.mp h
      obtain ⟨⟨r',first⟩,hexec,h⟩ := Option.bind_eq_some_iff.mp h
      obtain ⟨rest,hrest,rfl⟩ := Option.map_eq_some_iff.mp h
      obtain ⟨ops,hops,hrun⟩ := ih hrest
      refine ⟨op::ops,?_,?_⟩
      · rw [opsFrom,hop,Option.bind_some]
        dsimp only
        rw [hops]
        rfl
      · rw [run,hexec,Option.bind_some]
        dsimp only
        rw [hrun]
        rfl

end Ops

section Loader

/-- What the loader reads where the tool reads an opcode. -/
def Op.toLoader : Op → BindOp
  | .done => .done
  | .ordinalImm imm => .setDylibOrdinalImm imm
  | .ordinalUleb n => .setDylibOrdinalUleb (.ofNat 64 n)
  | .specialImm imm => .setDylibSpecialImm imm
  | .symbol flags name => .setSymbolTrailingFlagsImm flags name
  | .typeImm imm => .setTypeImm imm
  | .addendSleb z => .setAddendSleb (.ofInt 64 z)
  | .segmentUleb imm offset => .setSegmentAndOffsetUleb imm (.ofNat 64 offset)
  | .addAddrUleb n => .addAddrUleb (.ofNat 64 n)
  | .bind => .doBind
  | .bindAddAddrUleb n => .doBindAddAddrUleb (.ofNat 64 n)
  | .bindScaled imm => .doBindAddAddrImmScaled imm
  | .bindTimes count skip => .doBindUlebTimesSkippingUleb (.ofNat 64 count) (.ofNat 64 skip)
  | .threaded => .unknown 0xd0

theorem decodeBind_of_decodeOp {byte : Byte} {raw rest : List Byte} {op : Op}
    (h : decodeOp byte raw = some (op,rest)) :
    (op ≠ .threaded ∧ Resolver.decodeBind byte raw = (op.toLoader,rest)) ∨
      (op = .threaded ∧ (Resolver.decodeBind byte raw).1 = .unknown byte) := by
  unfold decodeOp at h
  unfold Resolver.decodeBind
  dsimp only at h ⊢
  generalize byte.extractLsb' 0 4 = imm at h ⊢
  generalize byte.extractLsb' 4 4 = opcode at h ⊢
  split at h
  case h_3 | h_8 | h_9 | h_11 =>
    obtain ⟨⟨n,raw'⟩,hn,heq⟩ := Option.map_eq_some_iff.mp h
    obtain ⟨rfl,rfl⟩ := Prod.mk.inj heq
    exact .inl ⟨nofun,by simp [readUleb128_of_readUleb hn,Op.toLoader]⟩
  case h_5 =>
    split_ifs at h
    cases h
    exact .inl ⟨nofun,rfl⟩
  case h_7 =>
    obtain ⟨⟨z,raw'⟩,hz,heq⟩ := Option.map_eq_some_iff.mp h
    obtain ⟨rfl,rfl⟩ := Prod.mk.inj heq
    exact .inl ⟨nofun,by simp [readSleb128_of_readSleb hz,Op.toLoader]⟩
  case h_13 =>
    obtain ⟨⟨count,raw'⟩,hcount,h⟩ := Option.bind_eq_some_iff.mp h
    obtain ⟨⟨skip,raw''⟩,hskip,heq⟩ := Option.map_eq_some_iff.mp h
    obtain ⟨rfl,rfl⟩ := Prod.mk.inj heq
    exact .inl ⟨nofun,by simp [readUleb128_of_readUleb hcount,readUleb128_of_readUleb hskip,Op.toLoader]⟩
  case h_14 =>
    split_ifs at h
    obtain ⟨p,-,heq⟩ := Option.map_eq_some_iff.mp h
    obtain ⟨rfl,rfl⟩ := Prod.mk.inj heq
    exact .inr ⟨rfl,rfl⟩
  case h_15 => cases h
  all_goals
    cases h
    exact .inl ⟨nofun,rfl⟩

end Loader

end Machismo.RecoverSdl
