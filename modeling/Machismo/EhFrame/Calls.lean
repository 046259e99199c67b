import Machismo.EhFrame.Register

/-! # Sequences of calls of the emitters

The buffer after any calls is a list of records, one for each call in their order, and the walk over the
lengths finds them where the calls left them.  An FDE is given the offset that a call of `emitCie` has
returned before; the distance back to it is written in 32 bits.
-/
namespace Machismo.EhFrame
open A64 (Byte)
open Data Dwarf

inductive FdeKind
  | frame (encoding : BitVec 32)
  | frameless (encoding : BitVec 32)
  | minimal
  deriving DecidableEq

inductive Call
  | cie (personalityAddr : BitVec 64)
  | fde (kind : FdeKind) (cieOffset : ℕ) (funcAddr : BitVec 64) (funcSize : BitVec 32) (lsdaAddr : BitVec 64)
  deriving DecidableEq

def Call.emit : Call → Ehf → Ehf
  | .cie personalityAddr, s => (emitCie personalityAddr s).2
  | .fde (.frame encoding) cieOffset funcAddr funcSize lsdaAddr, s =>
    emitFdeFrame cieOffset funcAddr funcSize encoding lsdaAddr s
  | .fde (.frameless encoding) cieOffset funcAddr funcSize lsdaAddr, s =>
    emitFdeFrameless cieOffset funcAddr funcSize encoding lsdaAddr s
  | .fde .minimal cieOffset funcAddr funcSize lsdaAddr, s => emitFdeMinimal cieOffset funcAddr funcSize lsdaAddr s

def emitCalls (calls : List Call) (s : Ehf) : Ehf := calls.foldl (fun s call => call.emit s) s

/-- The calls, each with the buffer that it finds. -/
def trace : List Call → Ehf → List (Ehf×Call)
  | [], _ => []
  | call :: calls, s => (s,call) :: trace calls (call.emit s)

theorem trace_snd (calls : List Call) (s : Ehf) : (trace calls s).map Prod.snd = calls := by
  induction calls generalizing s with
  | nil => rfl
  | cons call calls ih => rw [trace, List.map_cons, ih]

theorem emitCalls_append (as bs : List Call) (s : Ehf) : emitCalls (as ++ bs) s = emitCalls bs (emitCalls as s) :=
  List.foldl_append

theorem trace_append (as bs : List Call) (s : Ehf) : trace (as ++ bs) s = trace as s ++ trace bs (emitCalls as s) := by
  induction as generalizing s with
  | nil => rfl
  | cons a as ih =>
    rw [List.cons_append, trace, ih]
    rfl

/-- Every FDE is given the offset of a CIE that was emitted before; `cies` are the offsets so far. -/
def Legal : List ℕ → Ehf → List Call → Prop
  | _, _, [] => True
  | cies, s, .cie personalityAddr :: calls =>
    Legal (cies ++ [(emitCie personalityAddr s).1]) (emitCie personalityAddr s).2 calls
  | cies, s, .fde kind cieOffset funcAddr funcSize lsdaAddr :: calls =>
    cieOffset ∈ cies ∧ Legal cies ((Call.fde kind cieOffset funcAddr funcSize lsdaAddr).emit s) calls

/-- The section of a sequence of calls: the records and a zero length. -/
def sectionOf (calls : List Call) : Ehf := ehfU32 0 (emitCalls calls .empty)

/-- The records that a walk over a section finds, with their offsets. -/
def records (B : List Byte) : List (ℕ×List Byte) := walk B.length 0 B

/-- The walk finds what a call has emitted: where the buffer ended before, up to where it ends after it. -/
structure Found (r : Ehf×Call) (e : ℕ×List Byte) : Prop where
  start : e.1 = r.1.pos
  aligned : e.1 % 8 = 0
  stop : e.1 + 4 + e.2.length = (r.2.emit r.1).pos
  cie : ∀ personalityAddr, r.2 = .cie personalityAddr → ∃ cie, readCie e.2 = some cie
  fde : ∀ kind cieOffset funcAddr funcSize lsdaAddr, r.2 = .fde kind cieOffset funcAddr funcSize lsdaAddr →
    ∃ fde, readFde e.2 = some fde ∧ fde.ciePointer ≤ e.1 + 4 ∧ e.1 + 4 - fde.ciePointer = cieOffset ∧
      fde.location = funcAddr.toNat ∧ fde.range = funcSize.toNat

def FdeKind.cfiBytes : FdeKind → List Byte
  | .frame encoding => frameBytes encoding
  | .frameless encoding => framelessBytes encoding
  | .minimal => []

def FdeKind.cfiInsns : FdeKind → List CfaInsn
  | .frame encoding => frameInsns encoding
  | .frameless encoding => framelessInsns encoding
  | .minimal => []

theorem FdeKind.cfiBytes_encodes (kind : FdeKind) : Encodes kind.cfiBytes kind.cfiInsns := by
  cases kind with
  | frame encoding => exact frameBytes_encodes encoding
  | frameless encoding => exact framelessBytes_encodes encoding
  | minimal => exact .nil

theorem FdeKind.length_cfiBytes_le (kind : FdeKind) : kind.cfiBytes.length ≤ 62 := by
  cases kind with
  | frame encoding =>
    have hregs := length_regs encoding
    have hframe := length_frameBytes encoding
    rw [cfiBytes]
    omega
  | frameless encoding => exact (length_framelessBytes_le encoding).trans (by decide)
  | minimal => exact Nat.zero_le _

def Call.body : Call → ℕ → List Byte
  | .cie personalityAddr, pos => cieBody personalityAddr pos
  | .fde kind cieOffset funcAddr funcSize lsdaAddr, pos =>
    fdeBody kind.cfiBytes cieOffset funcAddr funcSize lsdaAddr pos

theorem Call.emit_eq (call : Call) (s : Ehf) : call.emit s = s.entry (call.body s.pos) := by
  cases call with
  | cie personalityAddr => rw [emit, emitCie_eq, body]
  | fde kind cieOffset funcAddr funcSize lsdaAddr =>
    cases kind with
    | frame encoding => exact emitFde_eq (frameCfi_eq encoding) s
    | frameless encoding => exact emitFde_eq (framelessCfi_eq encoding) s
    | minimal => exact emitFde_eq (fun s => (push_nil s).symm) s

theorem Call.pos_emit (call : Call) (s : Ehf) : (call.emit s).pos = s.pos + 4 + (call.body s.pos).length := by
  rw [emit_eq, pos_entry]

theorem Call.aligned_emit (call : Call) (s : Ehf) : (call.emit s).pos % 8 = 0 := by
  rw [emit_eq]
  cases call with
  | cie personalityAddr => exact pos_entry_padded s _
  | fde kind cieOffset funcAddr funcSize lsdaAddr => exact pos_entry_padded s _

theorem Call.length_body (call : Call) (pos : ℕ) : 12 ≤ (call.body pos).length ∧ (call.body pos).length < 2^32 := by
  cases call with
  | cie personalityAddr =>
    have hle := length_cieBody_le personalityAddr pos
    have hge : 12 ≤ (cieFields personalityAddr).length := by
      unfold cieFields
      split <;> simp
    refine ⟨?_,lt_of_le_of_lt hle (by decide)⟩
    rw [body, cieBody, List.length_append]
    omega
  | fde kind cieOffset funcAddr funcSize lsdaAddr =>
    have hle := length_fdeBody_le kind.cfiBytes cieOffset funcAddr funcSize lsdaAddr pos
    have hcfi := kind.length_cfiBytes_le
    refine ⟨?_,lt_of_le_of_lt hle (by omega)⟩
    rw [body, fdeBody]
    simp only [fdeFields, List.length_append, length_leBytes]
    omega

theorem emitCalls_run (calls : List Call) {s : Ehf} {bodies : List (List Byte)} (h : Run s bodies) :
    Run (emitCalls calls s) (bodies ++ (trace calls s).map fun r => r.2.body r.1.pos) ∧
    placeBodies s.pos ((trace calls s).map fun r => r.2.body r.1.pos) =
      (trace calls s).map fun r => (r.1.pos,r.2.body r.1.pos) := by
  induction calls generalizing s bodies with
  | nil => exact ⟨by simpa [emitCalls, trace] using h,rfl⟩
  | cons call calls ih =>
    obtain ⟨hge,hlt⟩ := call.length_body s.pos
    have hne : call.body s.pos ≠ [] := by
      intro hnil
      rw [hnil] at hge
      cases hge
    have haligned := call.aligned_emit s
    have hemit := call.emit_eq s
    have hrun : Run (call.emit s) (bodies ++ [call.body s.pos]) := by
      rw [hemit] at haligned ⊢
      exact h.entry hne hlt haligned
    obtain ⟨hrun',hplaces⟩ := ih hrun
    constructor
    · rw [List.append_assoc] at hrun'
      exact hrun'
    · rw [trace, List.map_cons, placeBodies, ← call.pos_emit, hplaces]
      rfl

theorem records_sectionOf (calls : List Call) :
    records (sectionOf calls).buf = (trace calls .empty).map fun r => (r.1.pos,r.2.body r.1.pos) := by
  obtain ⟨hrun,hplaces⟩ := emitCalls_run calls Run.empty
  exact hrun.walk_eq.trans hplaces

/-- The distance to the CIE of an FDE at a call fits in its field. -/
def Near (r : Ehf×Call) : Prop :=
  ∀ kind cieOffset funcAddr funcSize lsdaAddr, r.2 = .fde kind cieOffset funcAddr funcSize lsdaAddr →
    r.1.pos + 4 - cieOffset < 2^32

/-- At a call the buffer is aligned, and an FDE is given an offset below its end. -/
def Ready (r : Ehf×Call) : Prop :=
  r.1.pos % 8 = 0 ∧ ∀ kind cieOffset funcAddr funcSize lsdaAddr,
    r.2 = .fde kind cieOffset funcAddr funcSize lsdaAddr → r.1.Before cieOffset

theorem Ehf.Before.emit {s : Ehf} {off : ℕ} (h : s.Before off) (call : Call) : (call.emit s).Before off := by
  refine ⟨h.1,h.2.trans ?_⟩
  rw [call.pos_emit]
  omega

theorem ready_of_legal {calls : List Call} {cies : List ℕ} {s : Ehf} (h : Legal cies s calls) (hs : s.pos % 8 = 0)
    (hcies : ∀ off ∈ cies, s.Before off) : ∀ r ∈ trace calls s, Ready r := by
  induction calls generalizing cies s with
  | nil => simp [trace]
  | cons call calls ih =>
    have haligned := call.aligned_emit s
    intro r hr
    cases call with
    | cie personalityAddr =>
      have hcies' : ∀ off ∈ cies ++ [(emitCie personalityAddr s).1], ((Call.cie personalityAddr).emit s).Before off := by
        intro off hoff
        rcases List.mem_append.mp hoff with hoff | hoff
        · exact (hcies off hoff).emit _
        · rw [List.mem_singleton.mp hoff]
          exact Ehf.Before.emit ⟨hs,le_rfl⟩ _
      rcases List.mem_cons.mp hr with rfl | hr
      · refine ⟨hs,?_⟩
        intro kind cieOffset funcAddr funcSize lsdaAddr heq
        cases heq
      · exact ih h haligned hcies' r hr
    | fde kind cieOffset funcAddr funcSize lsdaAddr =>
      rcases List.mem_cons.mp hr with rfl | hr
      · refine ⟨hs,?_⟩
        intro _ _ _ _ _ heq
        cases heq
        exact hcies _ h.1
      · exact ih h.2 haligned (fun off hoff => (hcies off hoff).emit _) r hr

theorem ciePointer_fdeBody {cfi : List Byte} {cieOffset : ℕ} {funcAddr : BitVec 64} {funcSize : BitVec 32}
    {lsdaAddr : BitVec 64} {pos : ℕ} {fde : Fde}
    (h : readFde (fdeBody cfi cieOffset funcAddr funcSize lsdaAddr pos) = some fde) :
    fde.ciePointer = (pos + 4 - cieOffset) % 2^32 := by
  unfold readFde fdeBody fdeFields at h
  simp only [List.append_assoc, readFixed_leBytes, Option.bind_some] at h
  obtain ⟨len,-,h⟩ := Option.bind_eq_some_iff.mp h
  obtain ⟨insns,-,h⟩ := Option.bind_eq_some_iff.mp h
  split at h
  · have hpow : 256^4 = 2^32 := by norm_num
    rw [← Option.some.inj h, hpow]
  · cases h

theorem found_iff {r : Ehf×Call} (h : Ready r) : Found r (r.1.pos,r.2.body r.1.pos) ↔ Near r := by
  obtain ⟨s,call⟩ := r
  obtain ⟨haligned,hbefore⟩ := h
  constructor
  · intro hfound kind cieOffset funcAddr funcSize lsdaAddr heq
    obtain ⟨fde,hread,hle,hback,-,-⟩ := hfound.fde _ _ _ _ _ heq
    obtain ⟨-,hoff⟩ := hbefore _ _ _ _ _ heq
    subst heq
    have hptr := ciePointer_fdeBody hread
    dsimp only at hle hback hoff ⊢
    omega
  · intro hnear
    refine ⟨rfl,haligned,(call.pos_emit s).symm,?_,?_⟩
    · rintro personalityAddr rfl
      obtain ⟨cie,-,hread,-⟩ := readCie_cieBody personalityAddr s.pos
      exact ⟨cie,hread⟩
    · intro kind cieOffset funcAddr funcSize lsdaAddr heq
      obtain ⟨hmod,hoff⟩ := hbefore _ _ _ _ _ heq
      have hlt := hnear _ _ _ _ _ heq
      subst heq
      dsimp only at haligned hoff hlt ⊢
      obtain ⟨n,hread⟩ : ∃ n, readFde (fdeBody kind.cfiBytes cieOffset funcAddr funcSize lsdaAddr s.pos) =
          some ⟨_,_,_,_,kind.cfiInsns ++ List.replicate n .nop⟩ :=
        readFde_fdeBody kind.cfiBytes_encodes (by omega)
      refine ⟨_,hread,?_,?_,rfl,rfl⟩
      · dsimp only
        omega
      · dsimp only
        omega

theorem forall₂_found_iff {calls : List Call} (h : Legal [] .empty calls) :
    List.Forall₂ Found (trace calls .empty) (records (sectionOf calls).buf) ↔ ∀ r ∈ trace calls .empty, Near r := by
  have hready := ready_of_legal h rfl (by simp)
  rw [records_sectionOf, List.forall₂_map_right_iff, List.forall₂_same]
  exact forall₂_congr fun r hr => found_iff (hready r hr)

end Machismo.EhFrame
