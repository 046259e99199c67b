import Machismo.Resolver.Import
import Machismo.Resolver.Leb128

/-! # The opcode streams of `LC_DYLD_INFO`

Four streams of opcodes move a cursor over the segments and rebase or bind the slot it is at. What an
opcode does to the cursor and which slots it names does not depend on memory, so a stream stands for a
list of rebases or binds, which are then carried out in order.
-/
namespace Machismo.Resolver
open A64

/-- A place in a segment of the image. -/
structure Cursor where
  segIndex : ℕ
  segOffset : BitVec 64
  deriving DecidableEq, Repr

def Cursor.advance (c : Cursor) (n : BitVec 64) : Cursor := { c with segOffset := c.segOffset + n }

def Image.slot? (I : Image) (c : Cursor) : Option Addr :=
  (I.segments[c.segIndex]?).map fun seg => seg.vmaddr + I.slide + c.segOffset

inductive RebaseOp where
  | done
  | setTypeImm (imm : BitVec 4)
  | setSegmentAndOffsetUleb (imm : BitVec 4) (offset : BitVec 64)
  | addAddrUleb (n : BitVec 64)
  | addAddrImmScaled (imm : BitVec 4)
  | doRebaseImmTimes (imm : BitVec 4)
  | doRebaseUlebTimes (count : BitVec 64)
  | doRebaseAddAddrUleb (n : BitVec 64)
  | doRebaseUlebTimesSkippingUleb (count skip : BitVec 64)
  | unknown (byte : Byte)
  deriving DecidableEq, Repr

def decodeRebase (byte : Byte) (p : List Byte) : RebaseOp × List Byte :=
  let imm := byte.extractLsb' 0 4
  match byte.extractLsb' 4 4 with
  | 0#4 => (.done,p)
  | 1#4 => (.setTypeImm imm,p)
  | 2#4 => let (v,p) := readUleb128 p; (.setSegmentAndOffsetUleb imm v,p)
  | 3#4 => let (v,p) := readUleb128 p; (.addAddrUleb v,p)
  | 4#4 => (.addAddrImmScaled imm,p)
  | 5#4 => (.doRebaseImmTimes imm,p)
  | 6#4 => let (v,p) := readUleb128 p; (.doRebaseUlebTimes v,p)
  | 7#4 => let (v,p) := readUleb128 p; (.doRebaseAddAddrUleb v,p)
  | 8#4 => let (count,p) := readUleb128 p; let (skip,p) := readUleb128 p; (.doRebaseUlebTimesSkippingUleb count skip,p)
  | _ => (.unknown byte,p)

def rebaseOpsFrom : ℕ → List Byte → List RebaseOp
  | 0, _ => []
  | _ + 1, [] => []
  | n + 1, byte :: p => (decodeRebase byte p).1 :: rebaseOpsFrom n (decodeRebase byte p).2

def rebaseOps (p : List Byte) : List RebaseOp := rebaseOpsFrom p.length p

/-- The places of `n` rebases, each followed by a step. -/
def rebaseTimes (step : BitVec 64) : ℕ → Cursor → Cursor × List Cursor
  | 0, c => (c,[])
  | n + 1, c => let (c',l) := rebaseTimes step n (c.advance step); (c',c :: l)

def RebaseOp.exec (c : Cursor) : RebaseOp → Cursor × List Cursor
  | .done | .setTypeImm _ | .unknown _ => (c,[])
  | .setSegmentAndOffsetUleb imm offset => (⟨imm.toNat,offset⟩,[])
  | .addAddrUleb n => (c.advance n,[])
  | .addAddrImmScaled imm => (c.advance (imm.setWidth 64 * 8),[])
  | .doRebaseImmTimes imm => rebaseTimes 8 imm.toNat c
  | .doRebaseUlebTimes count => rebaseTimes 8 count.toNat c
  | .doRebaseAddAddrUleb n => (c.advance (n + 8),[c])
  | .doRebaseUlebTimesSkippingUleb count skip => rebaseTimes (skip + 8) count.toNat c

def rebaseOne (I : Image) (st : ResolverState) (c : Cursor) : ResolverState :=
  match I.slot? c with
  | none => st
  | some addr =>
    let st := st.write addr (load st.mem addr 8 + I.slide)
    { st with rebasesApplied := st.rebasesApplied + 1 }

/-- The loop over the rebase opcodes; `false` at an unknown one. -/
def runRebase (I : Image) : List RebaseOp → Cursor → ResolverState → Bool × ResolverState
  | [], _, st => (true,st)
  | .done :: _, _, st => (true,st)
  | .unknown _ :: _, _, st => (false,st)
  | op :: ops, c, st =>
    let (c,places) := op.exec c
    runRebase I ops c (places.foldl (rebaseOne I) st)

inductive BindOp where
  | done
  | setDylibOrdinalImm (imm : BitVec 4)
  | setDylibOrdinalUleb (n : BitVec 64)
  | setDylibSpecialImm (imm : BitVec 4)
  | setSymbolTrailingFlagsImm (flags : BitVec 4) (name : List Byte)
  | setTypeImm (imm : BitVec 4)
  | setAddendSleb (n : BitVec 64)
  | setSegmentAndOffsetUleb (imm : BitVec 4) (offset : BitVec 64)
  | addAddrUleb (n : BitVec 64)
  | doBind
  | doBindAddAddrUleb (n : BitVec 64)
  | doBindAddAddrImmScaled (imm : BitVec 4)
  | doBindUlebTimesSkippingUleb (count skip : BitVec 64)
  | unknown (byte : Byte)
  deriving DecidableEq, Repr

def readCString (p : List Byte) : List Byte × List Byte :=
  (p.takeWhile (· ≠ 0),(p.dropWhile (· ≠ 0)).drop 1)

def decodeBind (byte : Byte) (p : List Byte) : BindOp × List Byte :=
  let imm := byte.extractLsb' 0 4
  match byte.extractLsb' 4 4 with
  | 0#4 => (.done,p)
  | 1#4 => (.setDylibOrdinalImm imm,p)
  | 2#4 => let (v,p) := readUleb128 p; (.setDylibOrdinalUleb v,p)
  | 3#4 => (.setDylibSpecialImm imm,p)
  | 4#4 => let (name,p) := readCString p; (.setSymbolTrailingFlagsImm imm name,p)
  | 5#4 => (.setTypeImm imm,p)
  | 6#4 => let (v,p) := readSleb128 p; (.setAddendSleb v,p)
  | 7#4 => let (v,p) := readUleb128 p; (.setSegmentAndOffsetUleb imm v,p)
  | 8#4 => let (v,p) := readUleb128 p; (.addAddrUleb v,p)
  | 9#4 => (.doBind,p)
  | 10#4 => let (v,p) := readUleb128 p; (.doBindAddAddrUleb v,p)
  | 11#4 => (.doBindAddAddrImmScaled imm,p)
  | 12#4 => let (count,p) := readUleb128 p; let (skip,p) := readUleb128 p; (.doBindUlebTimesSkippingUleb count skip,p)
  | _ => (.unknown byte,p)

def bindOpsFrom : ℕ → List Byte → List BindOp
  | 0, _ => []
  | _ + 1, [] => []
  | n + 1, byte :: p => (decodeBind byte p).1 :: bindOpsFrom n (decodeBind byte p).2

def bindOps (p : List Byte) : List BindOp := bindOpsFrom p.length p

structure BindRegs where
  cursor : Cursor
  libOrdinal : ℤ
  symName : List Byte
  symFlags : BitVec 4
  addend : BitVec 64

def BindRegs.initial : BindRegs := ⟨⟨0,0⟩,0,[],0,0⟩

def BindRegs.advance (r : BindRegs) (n : BitVec 64) : BindRegs := { r with cursor := r.cursor.advance n }

structure Bind where
  cursor : Cursor
  libOrdinal : ℤ
  symName : Name
  weak : Bool
  addend : BitVec 64
  deriving DecidableEq

def nameOf (s : List Byte) : Name := s.map fun b => Char.ofNat b.toNat

def BindRegs.bind (r : BindRegs) : Bind := ⟨r.cursor,r.libOrdinal,nameOf r.symName,r.symFlags.getLsbD 0,r.addend⟩

def bindTimes (step : BitVec 64) : ℕ → BindRegs → BindRegs × List Bind
  | 0, r => (r,[])
  | n + 1, r => let (r',l) := bindTimes step n (r.advance step); (r',r.bind :: l)

def BindOp.exec (r : BindRegs) : BindOp → BindRegs × List Bind
  | .done | .setTypeImm _ | .unknown _ => (r,[])
  | .setDylibOrdinalImm imm => ({ r with libOrdinal := imm.toNat },[])
  | .setDylibOrdinalUleb n => ({ r with libOrdinal := (n.setWidth 32).toInt },[])
  | .setDylibSpecialImm imm => ({ r with libOrdinal := if imm = 0 then 0 else (imm.toNat : ℤ) - 16 },[])
  | .setSymbolTrailingFlagsImm flags name => ({ r with symFlags := flags, symName := name },[])
  | .setAddendSleb n => ({ r with addend := n },[])
  | .setSegmentAndOffsetUleb imm offset => ({ r with cursor := ⟨imm.toNat,offset⟩ },[])
  | .addAddrUleb n => (r.advance n,[])
  | .doBind => (r.advance 8,[r.bind])
  | .doBindAddAddrUleb n => (r.advance (n + 8),[r.bind])
  | .doBindAddAddrImmScaled imm => (r.advance (imm.setWidth 64 * 8 + 8),[r.bind])
  | .doBindUlebTimesSkippingUleb count skip => bindTimes (skip + 8) count.toNat r

/-- A bind to a deferred library is recorded, as long as there is room, and its slot stubbed. -/
def deferBind (E : Env) (b : Bind) (addr : Addr) (st : ResolverState) : ResolverState :=
  let g := st.deferred
  let binds := if g.binds.length < maxDeferredBinds then
      g.binds ++ [⟨addr,b.symName,b.libOrdinal,b.weak,b.addend⟩] else g.binds
  let (t,st) := allocReturn0Stub E { st with deferred := { g with binds := binds } }
  (st.write addr (t.addr E)).countStubbed

/-- The ordinal names a deferred library. -/
def Image.isDeferred (I : Image) (libOrdinal : ℤ) : Bool :=
  1 ≤ libOrdinal ∧ libOrdinal ≤ I.ndylibs ∧ (I.dylibs (libOrdinal - 1).toNat).action = .deferred

/-- The check for a deferred library reads the table where the ordinal is in range. -/
def touchOrdinal (I : Image) (libOrdinal : ℤ) (st : ResolverState) : ResolverState :=
  if 1 ≤ libOrdinal ∧ libOrdinal ≤ I.ndylibs then st.touch (libOrdinal - 1).toNat else st

def doBindOne (E : Env) (I : Image) (st : ResolverState) (b : Bind) : ResolverState :=
  match I.slot? b.cursor with
  | none => st
  | some addr =>
    let st := touchOrdinal I b.libOrdinal st
    if I.isDeferred b.libOrdinal then deferBind E b addr st
    else
      let (t,st) := resolveBindByName E I b.libOrdinal b.symName b.weak b.addend st
      st.write addr (t.addr E)

/-- The loop over the bind opcodes. In the lazy stream `done` only separates entries. -/
def runBind (E : Env) (I : Image) (isLazy : Bool) : List BindOp → BindRegs → ResolverState → Bool × ResolverState
  | [], _, st => (true,st)
  | .done :: ops, r, st => if isLazy then runBind E I isLazy ops r st else (true,st)
  | .unknown _ :: _, _, st => (false,st)
  | op :: ops, r, st =>
    let (r,binds) := op.exec r
    runBind E I isLazy ops r (binds.foldl (doBindOne E I) st)

/-- The four streams; `none` for one that is not in mapped memory. -/
structure DyldInfo where
  rebase : Option (List Byte)
  bind : Option (List Byte)
  weakBind : Option (List Byte)
  lazyBind : Option (List Byte)

def rebasePass (I : Image) (stream : Option (List Byte)) (st : ResolverState) : Bool × ResolverState :=
  match stream with
  | none => (false,st)
  | some p => runRebase I (rebaseOps p) ⟨0,0⟩ st

def bindPass (E : Env) (I : Image) (isLazy : Bool) (stream : Option (List Byte)) (st : ResolverState) :
    Bool × ResolverState :=
  match stream with
  | none => (false,st)
  | some p => runBind E I isLazy (bindOps p) .initial st

/-- The next pass, unless the last one failed. -/
def andThen (r : Bool × ResolverState) (f : ResolverState → Bool × ResolverState) : Bool × ResolverState :=
  if r.1 then f r.2 else r

def processDyldInfo (E : Env) (I : Image) (D : DyldInfo) (st : ResolverState) : Bool × ResolverState :=
  andThen (andThen (andThen (rebasePass I D.rebase st) (bindPass E I false D.bind)) (bindPass E I false D.weakBind))
    (bindPass E I true D.lazyBind)

/-- Whether the opcodes are all known, and the places they rebase up to the end or the first unknown. -/
def rebaseRun : List RebaseOp → Cursor → Bool × List Cursor
  | [], _ => (true,[])
  | .done :: _, _ => (true,[])
  | .unknown _ :: _, _ => (false,[])
  | op :: ops, c => ((rebaseRun ops (op.exec c).1).1,(op.exec c).2 ++ (rebaseRun ops (op.exec c).1).2)

/-- The same for the binds of a stream. -/
def bindRun (isLazy : Bool) : List BindOp → BindRegs → Bool × List Bind
  | [], _ => (true,[])
  | .done :: ops, r => if isLazy then bindRun isLazy ops r else (true,[])
  | .unknown _ :: _, _ => (false,[])
  | op :: ops, r => ((bindRun isLazy ops (op.exec r).1).1,(op.exec r).2 ++ (bindRun isLazy ops (op.exec r).1).2)

theorem runRebase_eq (I : Image) (ops : List RebaseOp) (c : Cursor) (st : ResolverState) :
    runRebase I ops c st = ((rebaseRun ops c).1,(rebaseRun ops c).2.foldl (rebaseOne I) st) := by
  induction ops generalizing c st with
  | nil => rfl
  | cons op ops ih =>
    cases op <;> first | rfl | (simp only [runRebase, rebaseRun, List.foldl_append]; exact ih _ _)

theorem runBind_eq (E : Env) (I : Image) (isLazy : Bool) (ops : List BindOp) (r : BindRegs) (st : ResolverState) :
    runBind E I isLazy ops r st = ((bindRun isLazy ops r).1,(bindRun isLazy ops r).2.foldl (doBindOne E I) st) := by
  induction ops generalizing r st with
  | nil => rfl
  | cons op ops ih =>
    cases op
    case done =>
      cases isLazy with
      | false => rfl
      | true => exact ih r st
    case unknown => rfl
    all_goals
      simp only [runBind, bindRun, List.foldl_append]
      exact ih _ _

def rebasePlaces (p : List Byte) : List Cursor := (rebaseRun (rebaseOps p) ⟨0,0⟩).2

def streamBinds (isLazy : Bool) (p : List Byte) : List Bind := (bindRun isLazy (bindOps p) .initial).2

theorem rebasePass_eq (I : Image) (p : List Byte) (st : ResolverState) :
    rebasePass I (some p) st = ((rebaseRun (rebaseOps p) ⟨0,0⟩).1,(rebasePlaces p).foldl (rebaseOne I) st) :=
  runRebase_eq I _ _ st

theorem bindPass_eq (E : Env) (I : Image) (isLazy : Bool) (p : List Byte) (st : ResolverState) :
    bindPass E I isLazy (some p) st =
      ((bindRun isLazy (bindOps p) .initial).1,(streamBinds isLazy p).foldl (doBindOne E I) st) :=
  runBind_eq E I isLazy _ _ st

/-- The rebases carried out, and whether the stream is well formed. -/
def DyldInfo.rebases (D : DyldInfo) : Bool × List Cursor :=
  match D.rebase with
  | none => (false,[])
  | some p => rebaseRun (rebaseOps p) ⟨0,0⟩

def bindStream (isLazy : Bool) : Option (List Byte) → Bool × List Bind
  | none => (false,[])
  | some p => bindRun isLazy (bindOps p) .initial

def bindsThen (r s : Bool × List Bind) : Bool × List Bind := if r.1 then (s.1,r.2 ++ s.2) else r

/-- The binds carried out, up to the first stream that is not well formed. -/
def DyldInfo.binds (D : DyldInfo) : Bool × List Bind :=
  if D.rebases.1 then
    bindsThen (bindsThen (bindStream false D.bind) (bindStream false D.weakBind)) (bindStream true D.lazyBind)
  else (false,[])

theorem rebasePass_eq_rebases (I : Image) (D : DyldInfo) (st : ResolverState) :
    rebasePass I D.rebase st = (D.rebases.1,D.rebases.2.foldl (rebaseOne I) st) := by
  unfold DyldInfo.rebases
  cases D.rebase with
  | none => rfl
  | some p => exact rebasePass_eq I p st

theorem bindPass_eq_bindStream (E : Env) (I : Image) (isLazy : Bool) (p : Option (List Byte)) (st : ResolverState) :
    bindPass E I isLazy p st = ((bindStream isLazy p).1,(bindStream isLazy p).2.foldl (doBindOne E I) st) := by
  cases p with
  | none => rfl
  | some p => exact bindPass_eq E I isLazy p st

theorem andThen_bindPass {E : Env} {I : Image} {r : Bool × List Bind} {st : ResolverState} (isLazy : Bool)
    (p : Option (List Byte)) :
    andThen (r.1,r.2.foldl (doBindOne E I) st) (bindPass E I isLazy p) =
      ((bindsThen r (bindStream isLazy p)).1,(bindsThen r (bindStream isLazy p)).2.foldl (doBindOne E I) st) := by
  obtain ⟨ok,l⟩ := r
  cases ok with
  | false => rfl
  | true =>
    simp only [andThen, bindsThen, ↓reduceIte, List.foldl_append]
    exact bindPass_eq_bindStream E I isLazy p _

theorem processDyldInfo_eq (E : Env) (I : Image) (D : DyldInfo) (st : ResolverState) :
    processDyldInfo E I D st =
      (D.binds.1,D.binds.2.foldl (doBindOne E I) (D.rebases.2.foldl (rebaseOne I) st)) := by
  unfold processDyldInfo DyldInfo.binds
  rw [rebasePass_eq_rebases]
  cases hr : D.rebases.1 with
  | false => rfl
  | true =>
    simp only [↓reduceIte]
    rw [← andThen_bindPass, ← andThen_bindPass, ← bindPass_eq_bindStream]
    rfl

theorem rebaseOne_mem (I : Image) (st : ResolverState) (c : Cursor) :
    (rebaseOne I st c).mem = match I.slot? c with
      | none => st.mem
      | some addr => store st.mem addr 8 (load st.mem addr 8 + I.slide) := by
  unfold rebaseOne
  split <;> rfl

theorem Quiet.touchOrdinal (I : Image) (libOrdinal : ℤ) (st : ResolverState) :
    Quiet (I.ordinalIndex libOrdinal) st (touchOrdinal I libOrdinal st) := by
  unfold Resolver.touchOrdinal Image.ordinalIndex
  split
  · exact ⟨rfl,rfl,rfl,rfl,rfl⟩
  · exact .refl st

theorem doBindOne_write (E : Env) (I : Image) (st : ResolverState) (b : Bind) {addr : Addr}
    (h : I.slot? b.cursor = some addr) :
    ∃ v, (doBindOne E I st b).mem = store st.mem addr 8 v ∧ (doBindOne E I st b).written = st.written ++ [addr] := by
  have ht := Quiet.touchOrdinal I b.libOrdinal st
  unfold doBindOne
  rw [h]
  dsimp only
  split
  · unfold deferBind
    dsimp only
    generalize touchOrdinal I b.libOrdinal st = st₁ at ht
    have hq := fun g => Quiet.allocReturn0Stub E { st₁ with deferred := g }
    refine ⟨_,congrArg (store · addr 8 _) ((hq _).mem.trans ht.mem),
      congrArg (· ++ [addr]) ((hq _).written.trans ht.written)⟩
  · have hq := ht.trans (Quiet.resolveBindByName E I b.libOrdinal b.symName b.weak b.addend _)
    exact ⟨_,congrArg (store · addr 8 _) hq.mem,congrArg (· ++ [addr]) hq.written⟩

theorem doBindOne_none (E : Env) (I : Image) (st : ResolverState) (b : Bind) (h : I.slot? b.cursor = none) :
    doBindOne E I st b = st := by
  unfold doBindOne
  rw [h]

/-- A byte outside the slots of a list of places is kept. -/
def Outside (I : Image) (b : Addr) (l : List Cursor) : Prop := ∀ c ∈ l, ∀ a, I.slot? c = some a → 8 ≤ (b - a).toNat

theorem foldl_rebaseOne_outside {I : Image} {b : Addr} (l : List Cursor) (st : ResolverState) (h : Outside I b l) :
    (l.foldl (rebaseOne I) st).mem b = st.mem b := by
  induction l generalizing st with
  | nil => rfl
  | cons c l ih =>
    rw [List.foldl_cons, ih _ fun d hd => h d (by simp [hd]), rebaseOne_mem]
    cases hs : I.slot? c with
    | none => rfl
    | some a => exact store_outside _ _ _ _ (h c (by simp) a hs)

theorem foldl_doBindOne_outside {E : Env} {I : Image} {b : Addr} (l : List Bind) (st : ResolverState)
    (h : Outside I b (l.map Bind.cursor)) : (l.foldl (doBindOne E I) st).mem b = st.mem b := by
  induction l generalizing st with
  | nil => rfl
  | cons x l ih =>
    rw [List.foldl_cons, ih _ fun d hd => h d (by simp [hd])]
    cases hs : I.slot? x.cursor with
    | none => rw [doBindOne_none E I st x hs]
    | some a =>
      obtain ⟨v,hv,-⟩ := doBindOne_write E I st x hs
      rw [hv]
      exact store_outside _ _ _ _ (h x.cursor (by simp) a hs)

end Machismo.Resolver
