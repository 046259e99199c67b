import Machismo.Resolver.DyldInfo
import Mathlib.Data.List.TakeWhile

/-! # Compressed opcodes

Each compressed opcode is a sequence of single fixups and cursor moves. Replacing them all, in the
bytes of a stream, changes nothing of what the stream does.
-/
namespace Machismo.Resolver
open A64

namespace RebaseOp

/-- One rebase, then a step over its slot. -/
def single : RebaseOp := .doRebaseImmTimes 1

def expand : RebaseOp → List RebaseOp
  | .doRebaseImmTimes imm => List.replicate imm.toNat single
  | .doRebaseUlebTimes count => List.replicate count.toNat single
  | .doRebaseAddAddrUleb n => [single,.addAddrUleb n]
  | .doRebaseUlebTimesSkippingUleb count skip => (List.replicate count.toNat [single,.addAddrUleb skip]).flatten
  | op => [op]

/-- Opcodes that are left in an expanded stream. -/
def isSimple : RebaseOp → Bool
  | .doRebaseImmTimes imm => imm = 1
  | .doRebaseUlebTimes _ | .doRebaseAddAddrUleb _ | .doRebaseUlebTimesSkippingUleb _ _ => false
  | _ => true

def head : RebaseOp → Byte
  | .done => 0#4 ++ 0#4
  | .setTypeImm imm => 1#4 ++ imm
  | .setSegmentAndOffsetUleb imm _ => 2#4 ++ imm
  | .addAddrUleb _ => 3#4 ++ 0#4
  | .addAddrImmScaled imm => 4#4 ++ imm
  | .doRebaseImmTimes imm => 5#4 ++ imm
  | .doRebaseUlebTimes _ => 6#4 ++ 0#4
  | .doRebaseAddAddrUleb _ => 7#4 ++ 0#4
  | .doRebaseUlebTimesSkippingUleb _ _ => 8#4 ++ 0#4
  | .unknown byte => byte

def operands : RebaseOp → List Byte
  | .setSegmentAndOffsetUleb _ n | .addAddrUleb n | .doRebaseUlebTimes n | .doRebaseAddAddrUleb n => encodeLeb n
  | .doRebaseUlebTimesSkippingUleb count skip => encodeLeb count ++ encodeLeb skip
  | _ => []

def encode (op : RebaseOp) : List Byte := op.head :: op.operands

/-- An unknown opcode is none of the known ones. -/
def WellFormed : RebaseOp → Prop
  | .unknown byte => 8 < (byte.extractLsb' 4 4).toNat
  | _ => True

end RebaseOp

def expandRebase (p : List Byte) : List Byte := ((rebaseOps p).flatMap RebaseOp.expand).flatMap RebaseOp.encode

section Rebase

theorem nibble_low (hi lo : BitVec 4) : (hi ++ lo).extractLsb' 0 4 = lo := by
  revert hi lo
  decide

theorem nibble_high (hi lo : BitVec 4) : (hi ++ lo).extractLsb' 4 4 = hi := by
  revert hi lo
  decide

theorem decodeRebase_unknown {byte : Byte} (h : 8 < (byte.extractLsb' 4 4).toNat) (p : List Byte) :
    decodeRebase byte p = (.unknown byte,p) := by
  unfold decodeRebase
  generalize byte.extractLsb' 4 4 = n at h
  dsimp only
  split <;> first | rfl | (exact absurd h (by decide))

theorem decodeRebase_wellFormed (byte : Byte) (p : List Byte) : (decodeRebase byte p).1.WellFormed := by
  by_cases h : 8 < (byte.extractLsb' 4 4).toNat
  · rw [decodeRebase_unknown h]
    exact h
  · unfold decodeRebase
    generalize byte.extractLsb' 4 4 = n at h
    dsimp only
    split <;> first | trivial | exfalso
    clear byte p
    revert n
    decide

theorem rebaseOpsFrom_wellFormed (n : ℕ) (p : List Byte) : ∀ op ∈ rebaseOpsFrom n p, op.WellFormed := by
  induction n generalizing p with
  | zero => simp [rebaseOpsFrom]
  | succ n ih =>
    cases p with
    | nil => simp [rebaseOpsFrom]
    | cons byte p =>
      intro op hop
      rcases List.mem_cons.mp hop with rfl | hop
      · exact decodeRebase_wellFormed byte p
      · exact ih _ op hop

theorem RebaseOp.mem_expand {op x : RebaseOp} (h : x ∈ op.expand) :
    x = op ∧ op.isSimple ∨ x = single ∨ ∃ n, x = .addAddrUleb n := by
  cases op <;> simp only [expand, List.mem_replicate, List.mem_cons, List.not_mem_nil, or_false, List.mem_flatten] at h
  case doRebaseImmTimes imm => exact .inr (.inl h.2)
  case doRebaseUlebTimes count => exact .inr (.inl h.2)
  case doRebaseAddAddrUleb n => exact .inr (h.imp id fun h => ⟨n,h⟩)
  case doRebaseUlebTimesSkippingUleb count skip =>
    obtain ⟨l,⟨-,rfl⟩,h⟩ := h
    exact .inr ((List.mem_pair.mp h).imp id fun h => ⟨skip,h⟩)
  all_goals exact .inl ⟨h,rfl⟩

theorem RebaseOp.expand_wellFormed {op : RebaseOp} (h : op.WellFormed) : ∀ x ∈ op.expand, x.WellFormed := by
  intro x hx
  rcases mem_expand hx with ⟨rfl,-⟩ | rfl | ⟨n,rfl⟩
  · exact h
  · trivial
  · trivial

theorem RebaseOp.expand_isSimple (op : RebaseOp) : ∀ x ∈ op.expand, x.isSimple := by
  intro x hx
  rcases mem_expand hx with ⟨rfl,h⟩ | rfl | ⟨n,rfl⟩
  · exact h
  · rfl
  · rfl

theorem decodeRebase_encode {op : RebaseOp} (h : op.WellFormed) (t : List Byte) :
    decodeRebase op.head (op.operands ++ t) = (op,t) := by
  cases op with
  | unknown byte => exact decodeRebase_unknown h t
  | _ =>
    simp only [decodeRebase, RebaseOp.head, RebaseOp.operands, nibble_low, nibble_high, List.nil_append,
      List.append_assoc, readUleb128_encode]

theorem rebaseOpsFrom_encode (ops : List RebaseOp) (h : ∀ op ∈ ops, op.WellFormed) {n : ℕ}
    (hn : (ops.flatMap RebaseOp.encode).length ≤ n) : rebaseOpsFrom n (ops.flatMap RebaseOp.encode) = ops := by
  induction ops generalizing n with
  | nil => cases n <;> rfl
  | cons op ops ih =>
    have he : (op :: ops).flatMap RebaseOp.encode = op.head :: (op.operands ++ ops.flatMap RebaseOp.encode) := rfl
    rw [he] at hn ⊢
    simp only [List.length_cons, List.length_append] at hn
    obtain ⟨n,rfl⟩ : ∃ k, n = k+1 := Nat.exists_eq_succ_of_ne_zero (by omega)
    simp only [rebaseOpsFrom, decodeRebase_encode (h op (by simp))]
    rw [ih (fun x hx => h x (by simp [hx])) (by omega)]

theorem rebaseOps_expandRebase (p : List Byte) :
    rebaseOps (expandRebase p) = (rebaseOps p).flatMap RebaseOp.expand := by
  refine rebaseOpsFrom_encode _ (fun x hx => ?_) le_rfl
  obtain ⟨op,hop,hx⟩ := List.mem_flatMap.mp hx
  exact RebaseOp.expand_wellFormed (rebaseOpsFrom_wellFormed _ _ op hop) x hx

/-- The opcodes that neither end the stream nor make it fail. -/
def RebaseOp.isPlain : RebaseOp → Bool
  | .done | .unknown _ => false
  | _ => true

theorem rebaseRun_cons {op : RebaseOp} (h : op.isPlain) (ops : List RebaseOp) (c : Cursor) :
    rebaseRun (op :: ops) c = ((rebaseRun ops (op.exec c).1).1,(op.exec c).2 ++ (rebaseRun ops (op.exec c).1).2) := by
  cases op <;> first | rfl | cases h

theorem rebaseRun_single (ops : List RebaseOp) (c : Cursor) :
    rebaseRun (.single :: ops) c = ((rebaseRun ops (c.advance 8)).1,c :: (rebaseRun ops (c.advance 8)).2) := rfl

theorem Cursor.advance_advance (c : Cursor) (m n : BitVec 64) : (c.advance m).advance n = c.advance (m + n) := by
  simp only [advance, BitVec.add_assoc]

theorem rebaseRun_replicate (n : ℕ) (ops : List RebaseOp) (c : Cursor) :
    rebaseRun (List.replicate n .single ++ ops) c =
      ((rebaseRun ops (rebaseTimes 8 n c).1).1,(rebaseTimes 8 n c).2 ++ (rebaseRun ops (rebaseTimes 8 n c).1).2) := by
  induction n generalizing c with
  | zero => rfl
  | succ n ih =>
    rw [List.replicate_succ, List.cons_append, rebaseRun_single, ih]
    rfl

theorem rebaseRun_skipping (skip : BitVec 64) (n : ℕ) (ops : List RebaseOp) (c : Cursor) :
    rebaseRun ((List.replicate n [.single,.addAddrUleb skip]).flatten ++ ops) c =
      ((rebaseRun ops (rebaseTimes (skip + 8) n c).1).1,
        (rebaseTimes (skip + 8) n c).2 ++ (rebaseRun ops (rebaseTimes (skip + 8) n c).1).2) := by
  induction n generalizing c with
  | zero => rfl
  | succ n ih =>
    simp only [List.replicate_succ, List.flatten_cons, List.cons_append, List.nil_append, rebaseRun_single]
    rw [rebaseRun_cons rfl]
    simp only [RebaseOp.exec, Cursor.advance_advance, List.nil_append, ih, rebaseTimes, BitVec.add_comm 8 skip]
    rfl

theorem rebaseRun_expand (ops : List RebaseOp) (c : Cursor) :
    rebaseRun (ops.flatMap RebaseOp.expand) c = rebaseRun ops c := by
  induction ops generalizing c with
  | nil => rfl
  | cons op ops ih =>
    rw [List.flatMap_cons]
    cases op with
    | done => rfl
    | unknown byte => rfl
    | doRebaseImmTimes imm =>
      rw [rebaseRun_cons rfl, RebaseOp.expand, rebaseRun_replicate, ih]
      rfl
    | doRebaseUlebTimes count =>
      rw [rebaseRun_cons rfl, RebaseOp.expand, rebaseRun_replicate, ih]
      rfl
    | doRebaseUlebTimesSkippingUleb count skip =>
      rw [rebaseRun_cons rfl, RebaseOp.expand, rebaseRun_skipping, ih]
      rfl
    | doRebaseAddAddrUleb n =>
      rw [rebaseRun_cons rfl, RebaseOp.expand, List.cons_append, List.cons_append, List.nil_append, rebaseRun_single,
        rebaseRun_cons rfl]
      simp only [RebaseOp.exec, Cursor.advance_advance, List.nil_append, List.cons_append, ih, BitVec.add_comm 8 n]
    | _ =>
      rw [rebaseRun_cons rfl, RebaseOp.expand, List.cons_append, List.nil_append, rebaseRun_cons rfl, ih]
      all_goals simp

end Rebase

namespace BindOp

def expand : BindOp → List BindOp
  | .doBindAddAddrUleb n => [.doBind,.addAddrUleb n]
  | .doBindAddAddrImmScaled imm => [.doBind,.addAddrUleb (imm.setWidth 64 * 8)]
  | .doBindUlebTimesSkippingUleb count skip => (List.replicate count.toNat [.doBind,.addAddrUleb skip]).flatten
  | op => [op]

def isSimple : BindOp → Bool
  | .doBindAddAddrUleb _ | .doBindAddAddrImmScaled _ | .doBindUlebTimesSkippingUleb _ _ => false
  | _ => true

def head : BindOp → Byte
  | .done => 0#4 ++ 0#4
  | .setDylibOrdinalImm imm => 1#4 ++ imm
  | .setDylibOrdinalUleb _ => 2#4 ++ 0#4
  | .setDylibSpecialImm imm => 3#4 ++ imm
  | .setSymbolTrailingFlagsImm flags _ => 4#4 ++ flags
  | .setTypeImm imm => 5#4 ++ imm
  | .setAddendSleb _ => 6#4 ++ 0#4
  | .setSegmentAndOffsetUleb imm _ => 7#4 ++ imm
  | .addAddrUleb _ => 8#4 ++ 0#4
  | .doBind => 9#4 ++ 0#4
  | .doBindAddAddrUleb _ => 10#4 ++ 0#4
  | .doBindAddAddrImmScaled imm => 11#4 ++ imm
  | .doBindUlebTimesSkippingUleb _ _ => 12#4 ++ 0#4
  | .unknown byte => byte

def operands : BindOp → List Byte
  | .setDylibOrdinalUleb n | .setAddendSleb n | .setSegmentAndOffsetUleb _ n | .addAddrUleb n | .doBindAddAddrUleb n =>
    encodeLeb n
  | .setSymbolTrailingFlagsImm _ name => name ++ [0]
  | .doBindUlebTimesSkippingUleb count skip => encodeLeb count ++ encodeLeb skip
  | _ => []

def encode (op : BindOp) : List Byte := op.head :: op.operands

/-- An unknown opcode is none of the known ones, and a name has no terminator inside. -/
def WellFormed : BindOp → Prop
  | .unknown byte => 12 < (byte.extractLsb' 4 4).toNat
  | .setSymbolTrailingFlagsImm _ name => ∀ b ∈ name, b ≠ 0
  | _ => True

def isPlain : BindOp → Bool
  | .done | .unknown _ => false
  | _ => true

end BindOp

def expandBind (p : List Byte) : List Byte := ((bindOps p).flatMap BindOp.expand).flatMap BindOp.encode

section Binds

theorem decodeBind_unknown {byte : Byte} (h : 12 < (byte.extractLsb' 4 4).toNat) (p : List Byte) :
    decodeBind byte p = (.unknown byte,p) := by
  unfold decodeBind
  generalize byte.extractLsb' 4 4 = n at h
  dsimp only
  split <;> first | rfl | (exact absurd h (by decide))

theorem decodeBind_wellFormed (byte : Byte) (p : List Byte) : (decodeBind byte p).1.WellFormed := by
  by_cases h : 12 < (byte.extractLsb' 4 4).toNat
  · rw [decodeBind_unknown h]
    exact h
  · unfold decodeBind
    generalize byte.extractLsb' 4 4 = n at h
    dsimp only
    split <;> first | trivial | skip
    · intro b hb
      simpa using List.mem_takeWhile_imp hb
    · exfalso
      clear byte p
      revert n
      decide

theorem bindOpsFrom_wellFormed (n : ℕ) (p : List Byte) : ∀ op ∈ bindOpsFrom n p, op.WellFormed := by
  induction n generalizing p with
  | zero => simp [bindOpsFrom]
  | succ n ih =>
    cases p with
    | nil => simp [bindOpsFrom]
    | cons byte p =>
      intro op hop
      rcases List.mem_cons.mp hop with rfl | hop
      · exact decodeBind_wellFormed byte p
      · exact ih _ op hop

theorem BindOp.mem_expand {op x : BindOp} (h : x ∈ op.expand) :
    x = op ∧ op.isSimple ∨ x = .doBind ∨ ∃ n, x = .addAddrUleb n := by
  cases op <;> simp only [expand, List.mem_replicate, List.mem_cons, List.not_mem_nil, or_false, List.mem_flatten] at h
  case doBindAddAddrUleb n => exact .inr (h.imp id fun h => ⟨n,h⟩)
  case doBindAddAddrImmScaled imm => exact .inr (h.imp id fun h => ⟨_,h⟩)
  case doBindUlebTimesSkippingUleb count skip =>
    obtain ⟨l,⟨-,rfl⟩,h⟩ := h
    exact .inr ((List.mem_pair.mp h).imp id fun h => ⟨skip,h⟩)
  all_goals exact .inl ⟨h,rfl⟩

theorem BindOp.expand_wellFormed {op : BindOp} (h : op.WellFormed) : ∀ x ∈ op.expand, x.WellFormed := by
  intro x hx
  rcases mem_expand hx with ⟨rfl,-⟩ | rfl | ⟨n,rfl⟩
  · exact h
  · trivial
  · trivial

theorem BindOp.expand_isSimple (op : BindOp) : ∀ x ∈ op.expand, x.isSimple := by
  intro x hx
  rcases mem_expand hx with ⟨rfl,h⟩ | rfl | ⟨n,rfl⟩
  · exact h
  · rfl
  · rfl

theorem readCString_append {name : List Byte} (h : ∀ b ∈ name, b ≠ 0) (t : List Byte) :
    readCString (name ++ 0 :: t) = (name,t) := by
  have h' : ∀ b ∈ name, decide (b ≠ 0) = true := fun b hb => decide_eq_true (h b hb)
  simp only [readCString, List.takeWhile_append_of_pos h', List.dropWhile_append_of_pos h']
  simp

theorem decodeBind_encode {op : BindOp} (h : op.WellFormed) (t : List Byte) :
    decodeBind op.head (op.operands ++ t) = (op,t) := by
  cases op with
  | unknown byte => exact decodeBind_unknown h t
  | setSymbolTrailingFlagsImm flags name =>
    simp only [decodeBind, BindOp.head, BindOp.operands, nibble_low, nibble_high, List.append_assoc, List.cons_append,
      List.nil_append, readCString_append h]
  | _ =>
    simp only [decodeBind, BindOp.head, BindOp.operands, nibble_low, nibble_high, List.nil_append, List.append_assoc,
      readUleb128_encode, readSleb128_encode]

theorem bindOpsFrom_encode (ops : List BindOp) (h : ∀ op ∈ ops, op.WellFormed) {n : ℕ}
    (hn : (ops.flatMap BindOp.encode).length ≤ n) : bindOpsFrom n (ops.flatMap BindOp.encode) = ops := by
  induction ops generalizing n with
  | nil => cases n <;> rfl
  | cons op ops ih =>
    have he : (op :: ops).flatMap BindOp.encode = op.head :: (op.operands ++ ops.flatMap BindOp.encode) := rfl
    rw [he] at hn ⊢
    simp only [List.length_cons, List.length_append] at hn
    obtain ⟨n,rfl⟩ : ∃ k, n = k+1 := Nat.exists_eq_succ_of_ne_zero (by omega)
    simp only [bindOpsFrom, decodeBind_encode (h op (by simp))]
    rw [ih (fun x hx => h x (by simp [hx])) (by omega)]

theorem bindOps_expandBind (p : List Byte) : bindOps (expandBind p) = (bindOps p).flatMap BindOp.expand := by
  refine bindOpsFrom_encode _ (fun x hx => ?_) le_rfl
  obtain ⟨op,hop,hx⟩ := List.mem_flatMap.mp hx
  exact BindOp.expand_wellFormed (bindOpsFrom_wellFormed _ _ op hop) x hx

variable {isLazy : Bool}

theorem bindRun_cons {op : BindOp} (h : op.isPlain) (ops : List BindOp) (r : BindRegs) :
    bindRun isLazy (op :: ops) r =
      ((bindRun isLazy ops (op.exec r).1).1,(op.exec r).2 ++ (bindRun isLazy ops (op.exec r).1).2) := by
  cases op <;> first | rfl | cases h

theorem BindRegs.advance_advance (r : BindRegs) (m n : BitVec 64) : (r.advance m).advance n = r.advance (m + n) := by
  simp only [advance, Cursor.advance_advance]

theorem bindRun_doBind_add (n : BitVec 64) (ops : List BindOp) (r : BindRegs) :
    bindRun isLazy (.doBind :: .addAddrUleb n :: ops) r =
      ((bindRun isLazy ops (r.advance (n + 8))).1,r.bind :: (bindRun isLazy ops (r.advance (n + 8))).2) := by
  rw [bindRun_cons rfl, bindRun_cons rfl]
  simp only [BindOp.exec, BindRegs.advance_advance, List.nil_append, List.cons_append, BitVec.add_comm 8 n]

theorem bindRun_skipping (skip : BitVec 64) (n : ℕ) (ops : List BindOp) (r : BindRegs) :
    bindRun isLazy ((List.replicate n [.doBind,.addAddrUleb skip]).flatten ++ ops) r =
      ((bindRun isLazy ops (bindTimes (skip + 8) n r).1).1,
        (bindTimes (skip + 8) n r).2 ++ (bindRun isLazy ops (bindTimes (skip + 8) n r).1).2) := by
  induction n generalizing r with
  | zero => rfl
  | succ n ih =>
    simp only [List.replicate_succ, List.flatten_cons, List.cons_append, List.nil_append, bindRun_doBind_add, ih]
    rfl

theorem bindRun_expand (ops : List BindOp) (r : BindRegs) :
    bindRun isLazy (ops.flatMap BindOp.expand) r = bindRun isLazy ops r := by
  induction ops generalizing r with
  | nil => rfl
  | cons op ops ih =>
    rw [List.flatMap_cons]
    cases op with
    | done =>
      cases isLazy with
      | false => rfl
      | true => exact ih r
    | unknown byte => rfl
    | doBindUlebTimesSkippingUleb count skip =>
      rw [bindRun_cons rfl, BindOp.expand, bindRun_skipping, ih]
      rfl
    | doBindAddAddrUleb n =>
      rw [bindRun_cons rfl, BindOp.expand, List.cons_append, List.cons_append, List.nil_append, bindRun_doBind_add, ih]
      rfl
    | doBindAddAddrImmScaled imm =>
      rw [bindRun_cons rfl, BindOp.expand, List.cons_append, List.cons_append, List.nil_append, bindRun_doBind_add, ih]
      rfl
    | _ =>
      rw [bindRun_cons rfl, BindOp.expand, List.cons_append, List.nil_append, bindRun_cons rfl, ih]
      all_goals simp

end Binds

def DyldInfo.expand (D : DyldInfo) : DyldInfo :=
  ⟨D.rebase.map expandRebase,D.bind.map expandBind,D.weakBind.map expandBind,D.lazyBind.map expandBind⟩

theorem rebasePass_expand (I : Image) (p : Option (List Byte)) (st : ResolverState) :
    rebasePass I (p.map expandRebase) st = rebasePass I p st := by
  cases p with
  | none => rfl
  | some p => simp only [Option.map_some, rebasePass, rebaseOps_expandRebase, runRebase_eq, rebaseRun_expand]

theorem bindPass_expand (E : Env) (I : Image) (isLazy : Bool) (p : Option (List Byte)) (st : ResolverState) :
    bindPass E I isLazy (p.map expandBind) st = bindPass E I isLazy p st := by
  cases p with
  | none => rfl
  | some p => simp only [Option.map_some, bindPass, bindOps_expandBind, runBind_eq, bindRun_expand]

/-! ## What a stream does to memory -/

/-- How often a slot is rebased. -/
def occurrences (I : Image) (a : Addr) (l : List Cursor) : ℕ := (l.filter fun c => I.slot? c = some a).length

theorem load_foldl_rebaseOne {I : Image} {a : Addr} (l : List Cursor) (st : ResolverState)
    (h : ∀ c ∈ l, ∀ b, I.slot? c = some b → b = a ∨ Apart a 8 b 8) :
    load (l.foldl (rebaseOne I) st).mem a 8 = load st.mem a 8 + BitVec.ofNat 64 (occurrences I a l) * I.slide := by
  induction l generalizing st with
  | nil => simp [occurrences]
  | cons c l ih =>
    rw [List.foldl_cons, ih _ fun d hd => h d (by simp [hd]), rebaseOne_mem]
    cases hs : I.slot? c with
    | none =>
      have ho : occurrences I a (c :: l) = occurrences I a l := by simp [occurrences, hs]
      rw [ho]
    | some b =>
      rcases h c (by simp) b hs with rfl | hap
      · have ho : occurrences I b (c :: l) = occurrences I b l + 1 := by simp [occurrences, hs]
        have hone : BitVec.ofNat 64 1 = 1 := rfl
        simp only [load_store_same _ _ _ _ (show 8 ≤ 2^64 by omega), ho, BitVec.ofNat_add, hone]
        ring
      · have hne : b ≠ a := by
          rintro rfl
          have := hap.1
          simp at this
        have ho : occurrences I a (c :: l) = occurrences I a l := by simp [occurrences, hs, hne]
        rw [ho]
        exact congrArg (· + _) (load_store_apart _ _ hap)

/-- All places the streams of an image name. -/
def DyldInfo.places (D : DyldInfo) : List Cursor :=
  (D.rebase.map rebasePlaces).getD [] ++ (D.bind.map fun p => (streamBinds false p).map Bind.cursor).getD [] ++
    (D.weakBind.map fun p => (streamBinds false p).map Bind.cursor).getD [] ++
    (D.lazyBind.map fun p => (streamBinds true p).map Bind.cursor).getD []

theorem rebasePass_outside {I : Image} {b : Addr} (p : Option (List Byte)) (st : ResolverState)
    (h : Outside I b ((p.map rebasePlaces).getD [])) : (rebasePass I p st).2.mem b = st.mem b := by
  cases p with
  | none => rfl
  | some p =>
    rw [rebasePass_eq]
    exact foldl_rebaseOne_outside _ st h

theorem bindPass_outside {E : Env} {I : Image} {b : Addr} (isLazy : Bool) (p : Option (List Byte)) (st : ResolverState)
    (h : Outside I b ((p.map fun p => (streamBinds isLazy p).map Bind.cursor).getD [])) :
    (bindPass E I isLazy p st).2.mem b = st.mem b := by
  cases p with
  | none => rfl
  | some p =>
    rw [bindPass_eq]
    exact foldl_doBindOne_outside _ st h

theorem andThen_mem {r : Bool × ResolverState} {f : ResolverState → Bool × ResolverState} {b : Addr} {v : Byte}
    (hr : r.2.mem b = v) (hf : ∀ st, (f st).2.mem b = st.mem b) : (andThen r f).2.mem b = v := by
  unfold andThen
  split
  · rw [hf, hr]
  · exact hr

theorem processDyldInfo_outside {E : Env} {I : Image} {D : DyldInfo} {b : Addr} (st : ResolverState)
    (h : Outside I b D.places) : (processDyldInfo E I D st).2.mem b = st.mem b := by
  have hsub : ∀ l, l ⊆ D.places → Outside I b l := fun l hl c hc => h c (hl hc)
  refine andThen_mem (andThen_mem (andThen_mem (rebasePass_outside _ st (hsub _ ?_)) fun st =>
    bindPass_outside _ _ st (hsub _ ?_)) fun st => bindPass_outside _ _ st (hsub _ ?_)) fun st =>
    bindPass_outside _ _ st (hsub _ ?_)
  all_goals
    intro c hc
    simp only [DyldInfo.places, List.mem_append]
    tauto

def DyldInfo.rebasePlaces (D : DyldInfo) : List Cursor := (D.rebase.map Resolver.rebasePlaces).getD []

def DyldInfo.bindPlaces (D : DyldInfo) : List Cursor :=
  (D.bind.map fun p => (streamBinds false p).map Bind.cursor).getD [] ++
    (D.weakBind.map fun p => (streamBinds false p).map Bind.cursor).getD [] ++
    (D.lazyBind.map fun p => (streamBinds true p).map Bind.cursor).getD []

theorem load_rebasePass {I : Image} {a : Addr} (p : Option (List Byte)) (st : ResolverState)
    (h : ∀ c ∈ (p.map rebasePlaces).getD [], ∀ b, I.slot? c = some b → b = a ∨ Apart a 8 b 8) :
    load (rebasePass I p st).2.mem a 8 =
      load st.mem a 8 + BitVec.ofNat 64 (occurrences I a ((p.map rebasePlaces).getD [])) * I.slide := by
  cases p with
  | none => simp [rebasePass, occurrences]
  | some p =>
    rw [rebasePass_eq]
    exact load_foldl_rebaseOne _ st h

theorem load_processDyldInfo {E : Env} {I : Image} {D : DyldInfo} {a : Addr} (st : ResolverState)
    (hrebase : ∀ c ∈ D.rebasePlaces, ∀ b, I.slot? c = some b → b = a ∨ Apart a 8 b 8)
    (hbind : ∀ c ∈ D.bindPlaces, ∀ b, I.slot? c = some b → Apart a 8 b 8) :
    load (processDyldInfo E I D st).2.mem a 8 =
      load st.mem a 8 + BitVec.ofNat 64 (occurrences I a D.rebasePlaces) * I.slide := by
  refine Eq.trans (load_congr fun i hi => ?_) (load_rebasePass D.rebase st hrebase)
  have hsub : ∀ l, l ⊆ D.bindPlaces → Outside I (a + BitVec.ofNat 64 i) l := fun l hl c hc b hb =>
    (hbind c (hl hc) b hb).toNat_sub hi
  refine andThen_mem (andThen_mem (andThen_mem rfl fun st =>
    bindPass_outside _ _ st (hsub _ ?_)) fun st => bindPass_outside _ _ st (hsub _ ?_)) fun st =>
    bindPass_outside _ _ st (hsub _ ?_)
  all_goals
    intro c hc
    simp only [DyldInfo.bindPlaces, List.mem_append]
    tauto

/-- Replacing every compressed opcode by single fixups and cursor moves changes neither memory nor any
counter; each slot gains the slide once for each rebase, also when all streams are carried out and no bind
names it; other bytes are kept. -/
theorem processDyldInfo_expand (E : Env) (I : Image) (D : DyldInfo) (st : ResolverState) :
    processDyldInfo E I D.expand st = processDyldInfo E I D st ∧
      (∀ p, (∀ op ∈ rebaseOps (expandRebase p), op.isSimple) ∧ ∀ op ∈ bindOps (expandBind p), op.isSimple) ∧
      (∀ p, (rebasePass I (some p) st).2 = (rebasePlaces p).foldl (rebaseOne I) st ∧
        ∀ a, (∀ c ∈ rebasePlaces p, ∀ b, I.slot? c = some b → b = a ∨ Apart a 8 b 8) →
          load (rebasePass I (some p) st).2.mem a 8 =
            load st.mem a 8 + BitVec.ofNat 64 (occurrences I a (rebasePlaces p)) * I.slide) ∧
      (∀ a, (∀ c ∈ D.rebasePlaces, ∀ b, I.slot? c = some b → b = a ∨ Apart a 8 b 8) →
        (∀ c ∈ D.bindPlaces, ∀ b, I.slot? c = some b → Apart a 8 b 8) →
          load (processDyldInfo E I D st).2.mem a 8 =
            load st.mem a 8 + BitVec.ofNat 64 (occurrences I a D.rebasePlaces) * I.slide) ∧
      ∀ b, Outside I b D.places → (processDyldInfo E I D st).2.mem b = st.mem b := by
  refine ⟨?_,fun p => ⟨fun op hop => ?_,fun op hop => ?_⟩,fun p => ?_,fun a => load_processDyldInfo st,
    fun b hb => processDyldInfo_outside st hb⟩
  · simp only [processDyldInfo, DyldInfo.expand, rebasePass_expand]
    have hb : ∀ isLazy p, bindPass E I isLazy (Option.map expandBind p) = bindPass E I isLazy p :=
      fun isLazy p => funext (bindPass_expand E I isLazy p)
    rw [hb, hb, hb]
  · rw [rebaseOps_expandRebase] at hop
    obtain ⟨x,-,hx⟩ := List.mem_flatMap.mp hop
    exact x.expand_isSimple op hx
  · rw [bindOps_expandBind] at hop
    obtain ⟨x,-,hx⟩ := List.mem_flatMap.mp hop
    exact x.expand_isSimple op hx
  · rw [rebasePass_eq]
    exact ⟨rfl,fun a ha => load_foldl_rebaseOne _ st ha⟩

/-- One page, and a stream that rebases its first two slots at once. -/
def onePage : Image := { noImage with slide := 0x1000, segments := [⟨0x3000,0x1000⟩] }

def twoSlots : DyldInfo := ⟨some [0x11,0x20,0x00,0x52,0x00],none,none,none⟩

theorem rebasePlaces_twoSlots : twoSlots.rebasePlaces = [⟨0,0⟩,⟨0,8⟩] := by decide +kernel

/-- The second slot gains the slide once. -/
theorem processDyldInfo_expand_twoSlots :
    load (processDyldInfo printfLibrary onePage twoSlots (freshState fun _ => 0)).2.mem 0x4008 8 = 0x1000 := by
  have hgain := (processDyldInfo_expand printfLibrary onePage twoSlots (freshState fun _ => 0)).2.2.2.1 0x4008
  rw [rebasePlaces_twoSlots] at hgain
  have honce : occurrences onePage 0x4008 [⟨0,0⟩,⟨0,8⟩] = 1 := by decide +kernel
  rw [hgain ?_ fun c hc => absurd hc List.not_mem_nil, honce]
  · decide +kernel
  · intro c hc b hb
    rcases List.mem_pair.mp hc with rfl | rfl
    · cases hb
      exact .inr ⟨by decide,by decide⟩
    · cases hb
      exact .inl rfl

end Machismo.Resolver
