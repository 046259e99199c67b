import Machismo.Resolver.DyldInfo

/-! # Page protections around the opcode streams

The segments are made writable and executable before the first stream is read, and the loop that gives
them their protection back stands behind the last one.  A call of `mprotect` changes the pages of its
range one after the other until the kernel refuses one; at how many pages each call arrives is a parameter.
-/
namespace Machismo.Resolver
open A64

/-- The answers of the kernel: the call number `n` of `mprotect` changes at most `granted n` pages. -/
structure Kernel where
  pageSize : ℕ
  granted : ℕ → ℕ
  pageSize_pos : 0 < pageSize

/-- The protection of each page, and how often `mprotect` was called. -/
structure PageState where
  prot : ℕ → BitVec 32
  calls : ℕ

structure ProtSegInfo extends SegInfo where
  prot : BitVec 32

/-- An image with the protections in its load commands. -/
structure ProtImage extends Image where
  protSegments : List ProtSegInfo
  segments_eq : segments = protSegments.map ProtSegInfo.toSegInfo

def protAll : BitVec 32 := 7

namespace Kernel
variable (K : Kernel)

def firstPage (addr : Addr) : ℕ := addr.toNat / K.pageSize
def pages (size : BitVec 64) : ℕ := (size.toNat + K.pageSize - 1) / K.pageSize

/-- Call number `n` on a range changes a page. -/
def Reaches (n : ℕ) (addr : Addr) (size : BitVec 64) (page : ℕ) : Prop :=
  addr.toNat % K.pageSize = 0 ∧ K.firstPage addr ≤ page ∧ page < K.firstPage addr + min (K.granted n) (K.pages size)

instance (n : ℕ) (addr : Addr) (size : BitVec 64) (page : ℕ) : Decidable (K.Reaches n addr size page) :=
  inferInstanceAs (Decidable (_ ∧ _))

def InSegment (slide : Addr) (seg : ProtSegInfo) (page : ℕ) : Prop :=
  K.firstPage (seg.vmaddr + slide) ≤ page ∧ page < K.firstPage (seg.vmaddr + slide) + K.pages seg.vmsize

end Kernel

section Model
variable (K : Kernel) (slide : Addr)

def mprotect (addr : Addr) (size : BitVec 64) (prot : BitVec 32) (s : PageState) : Bool × PageState :=
  (addr.toNat % K.pageSize = 0 ∧ K.pages size ≤ K.granted s.calls,
    { prot := fun page => if K.Reaches s.calls addr size page then prot else s.prot page
      calls := s.calls + 1 })

/-- The first loop of `process_dyld_info`, with the segments whose call succeeds. -/
def widenSegments : List ProtSegInfo → PageState → List ProtSegInfo × PageState
  | [], s => ([],s)
  | seg :: segs, s =>
    if seg.vmsize = 0 then widenSegments segs s
    else
      let r := mprotect K (seg.vmaddr + slide) seg.vmsize protAll s
      let (widened,s) := widenSegments segs r.2
      (if r.1 then seg :: widened else widened,s)

/-- The last loop. -/
def restoreSegments : List ProtSegInfo → PageState → PageState
  | [], s => s
  | seg :: segs, s =>
    if seg.vmsize = 0 then restoreSegments segs s
    else restoreSegments segs (mprotect K (seg.vmaddr + slide) seg.vmsize seg.prot s).2

/-- `process_dyld_info` with the pages -/
def processDyldInfoPages (E : Env) (P : ProtImage) (D : DyldInfo) (st : ResolverState) (s : PageState) :
    Bool × ResolverState × PageState :=
  let s := (widenSegments K P.slide P.protSegments s).2
  let (ok,st) := processDyldInfo E P.toImage D st
  (ok,st,if ok then restoreSegments K P.slide P.protSegments s else s)

end Model

def RebaseOp.isUnknown : RebaseOp → Bool
  | .unknown _ => true
  | _ => false

def BindOp.isUnknown : BindOp → Bool
  | .unknown _ => true
  | _ => false

/-- Every stream lies in mapped memory and has known opcodes only, up to its `done` if that ends it. -/
structure DyldInfo.Readable (D : DyldInfo) : Prop where
  rebase : ∃ p, D.rebase = some p ∧ ∀ op ∈ (rebaseOps p).takeWhile (· ≠ .done), ¬op.isUnknown
  bind : ∃ p, D.bind = some p ∧ ∀ op ∈ (bindOps p).takeWhile (· ≠ .done), ¬op.isUnknown
  weakBind : ∃ p, D.weakBind = some p ∧ ∀ op ∈ (bindOps p).takeWhile (· ≠ .done), ¬op.isUnknown
  lazyBind : ∃ p, D.lazyBind = some p ∧ ∀ op ∈ bindOps p, ¬op.isUnknown

theorem rebaseRun_fst (ops : List RebaseOp) (c : Cursor) :
    (rebaseRun ops c).1 = true ↔ ∀ op ∈ ops.takeWhile (· ≠ .done), ¬op.isUnknown := by
  induction ops generalizing c with
  | nil => simp [rebaseRun]
  | cons op ops ih => cases op <;> simp [rebaseRun,RebaseOp.isUnknown,ih]

theorem bindRun_fst_eager (ops : List BindOp) (r : BindRegs) :
    (bindRun false ops r).1 = true ↔ ∀ op ∈ ops.takeWhile (· ≠ .done), ¬op.isUnknown := by
  induction ops generalizing r with
  | nil => simp [bindRun]
  | cons op ops ih => cases op <;> simp [bindRun,BindOp.isUnknown,ih]

theorem bindRun_fst_lazy (ops : List BindOp) (r : BindRegs) :
    (bindRun true ops r).1 = true ↔ ∀ op ∈ ops, ¬op.isUnknown := by
  induction ops generalizing r with
  | nil => simp [bindRun]
  | cons op ops ih => cases op <;> simp [bindRun,BindOp.isUnknown,ih]

theorem bindsThen_fst (r s : Bool × List Bind) : (bindsThen r s).1 = true ↔ r.1 = true ∧ s.1 = true := by
  unfold bindsThen
  cases h : r.1 <;> simp [h]

theorem DyldInfo.rebases_fst (D : DyldInfo) :
    D.rebases.1 = true ↔
      ∃ p, D.rebase = some p ∧ ∀ op ∈ (rebaseOps p).takeWhile (· ≠ .done), ¬op.isUnknown := by
  unfold DyldInfo.rebases
  cases D.rebase with
  | none => simp
  | some p => simp only [Option.some.injEq,exists_eq_left',rebaseRun_fst]

theorem bindStream_fst_eager (stream : Option (List Byte)) :
    (bindStream false stream).1 = true ↔
      ∃ p, stream = some p ∧ ∀ op ∈ (bindOps p).takeWhile (· ≠ .done), ¬op.isUnknown := by
  cases stream with
  | none => simp [bindStream]
  | some p => simp only [bindStream,Option.some.injEq,exists_eq_left',bindRun_fst_eager]

theorem bindStream_fst_lazy (stream : Option (List Byte)) :
    (bindStream true stream).1 = true ↔ ∃ p, stream = some p ∧ ∀ op ∈ bindOps p, ¬op.isUnknown := by
  cases stream with
  | none => simp [bindStream]
  | some p => simp only [bindStream,Option.some.injEq,exists_eq_left',bindRun_fst_lazy]

theorem DyldInfo.binds_fst (D : DyldInfo) : D.binds.1 = true ↔ D.Readable := by
  have hall : D.binds.1 = true ↔ D.rebases.1 = true ∧ (bindStream false D.bind).1 = true ∧
      (bindStream false D.weakBind).1 = true ∧ (bindStream true D.lazyBind).1 = true := by
    unfold DyldInfo.binds
    by_cases h : D.rebases.1 = true
    · rw [if_pos h,bindsThen_fst,bindsThen_fst]
      tauto
    · rw [if_neg h]
      simp [h]
  rw [hall,D.rebases_fst,bindStream_fst_eager,bindStream_fst_eager,bindStream_fst_lazy]
  exact ⟨fun ⟨h₁,h₂,h₃,h₄⟩ => ⟨h₁,h₂,h₃,h₄⟩,fun h => ⟨h.rebase,h.bind,h.weakBind,h.lazyBind⟩⟩

theorem processDyldInfo_fst (E : Env) (I : Image) (D : DyldInfo) (st : ResolverState) :
    (processDyldInfo E I D st).1 = true ↔ D.Readable := by
  rw [processDyldInfo_eq]
  exact D.binds_fst

section Loops
variable {K : Kernel} {slide : Addr} {page : ℕ}

theorem Kernel.reaches_of_success {n : ℕ} {addr : Addr} {size : BitVec 64}
    (h : addr.toNat % K.pageSize = 0 ∧ K.pages size ≤ K.granted n) (hfirst : K.firstPage addr ≤ page)
    (hlast : page < K.firstPage addr + K.pages size) : K.Reaches n addr size page := by
  refine ⟨h.1,hfirst,?_⟩
  rw [min_eq_right h.2]
  exact hlast

def callsOf (segs : List ProtSegInfo) : ℕ := segs.countP fun seg => seg.vmsize ≠ 0

/-- The protections that the calls from number `n` on give to a page. -/
def restoring (K : Kernel) (slide : Addr) (page : ℕ) : ℕ → List ProtSegInfo → List (BitVec 32)
  | _, [] => []
  | n, seg :: segs =>
    if seg.vmsize = 0 then restoring K slide page n segs
    else
      (if K.Reaches n (seg.vmaddr + slide) seg.vmsize page then [seg.prot] else []) ++
        restoring K slide page (n + 1) segs

theorem restoreSegments_prot (segs : List ProtSegInfo) (s : PageState) :
    (restoreSegments K slide segs s).prot page =
      ((restoring K slide page s.calls segs).getLast?).getD (s.prot page) := by
  induction segs generalizing s with
  | nil => rfl
  | cons seg segs ih =>
    by_cases hsize : seg.vmsize = 0
    · simp only [restoreSegments,restoring,if_pos hsize]
      exact ih s
    · simp only [restoreSegments,restoring,if_neg hsize]
      rw [ih,List.getLast?_append]
      have hcalls : (mprotect K (seg.vmaddr + slide) seg.vmsize seg.prot s).2.calls = s.calls + 1 := rfl
      have hprot : (mprotect K (seg.vmaddr + slide) seg.vmsize seg.prot s).2.prot page =
          if K.Reaches s.calls (seg.vmaddr + slide) seg.vmsize page then seg.prot else s.prot page := rfl
      rw [hcalls,hprot]
      cases (restoring K slide page (s.calls + 1) segs).getLast? with
      | some prot => rfl
      | none => split_ifs <;> rfl

theorem widenSegments_calls (segs : List ProtSegInfo) (s : PageState) :
    (widenSegments K slide segs s).2.calls = s.calls + callsOf segs := by
  induction segs generalizing s with
  | nil => rfl
  | cons seg segs ih =>
    by_cases hsize : seg.vmsize = 0
    · simp only [widenSegments,if_pos hsize,ih,callsOf,List.countP_cons]
      simp [hsize]
    · have hcount : callsOf (seg :: segs) = callsOf segs + 1 :=
        List.countP_cons_of_pos (decide_eq_true hsize)
      simp only [widenSegments,if_neg hsize]
      rw [ih,hcount]
      simp only [mprotect]
      omega

theorem widenSegments_keeps {s : PageState} (segs : List ProtSegInfo) (h : s.prot page = protAll) :
    (widenSegments K slide segs s).2.prot page = protAll := by
  induction segs generalizing s with
  | nil => exact h
  | cons seg segs ih =>
    by_cases hsize : seg.vmsize = 0
    · simp only [widenSegments,if_pos hsize]
      exact ih h
    · simp only [widenSegments,if_neg hsize]
      refine ih ?_
      simp only [mprotect]
      split_ifs
      · rfl
      · exact h

theorem widenSegments_prot {segs : List ProtSegInfo} {s : PageState} {seg : ProtSegInfo}
    (hseg : seg ∈ (widenSegments K slide segs s).1) (hpage : K.InSegment slide seg page) :
    (widenSegments K slide segs s).2.prot page = protAll := by
  induction segs generalizing s with
  | nil => cases hseg
  | cons seg' segs ih =>
    by_cases hsize : seg'.vmsize = 0
    · simp only [widenSegments,if_pos hsize] at hseg ⊢
      exact ih hseg
    · simp only [widenSegments,if_neg hsize] at hseg ⊢
      by_cases hok : (mprotect K (seg'.vmaddr + slide) seg'.vmsize protAll s).1 = true
      · rw [if_pos hok] at hseg
        rcases List.mem_cons.mp hseg with rfl | hseg
        · refine widenSegments_keeps segs ?_
          exact if_pos (Kernel.reaches_of_success (of_decide_eq_true hok) hpage.1 hpage.2)
        · exact ih hseg
      · rw [if_neg hok] at hseg
        exact ih hseg

theorem mem_of_mem_widenSegments {segs : List ProtSegInfo} {s : PageState} {seg : ProtSegInfo}
    (hseg : seg ∈ (widenSegments K slide segs s).1) :
    seg ∈ segs ∧ seg.vmsize ≠ 0 ∧ (seg.vmaddr + slide).toNat % K.pageSize = 0 := by
  induction segs generalizing s with
  | nil => cases hseg
  | cons seg' segs ih =>
    by_cases hsize : seg'.vmsize = 0
    · simp only [widenSegments,if_pos hsize] at hseg
      exact (ih hseg).imp_left (List.mem_cons_of_mem seg')
    · simp only [widenSegments,if_neg hsize] at hseg
      by_cases hok : (mprotect K (seg'.vmaddr + slide) seg'.vmsize protAll s).1 = true
      · rw [if_pos hok] at hseg
        rcases List.mem_cons.mp hseg with rfl | hseg
        · exact ⟨List.mem_cons_self,hsize,(of_decide_eq_true hok).1⟩
        · exact (ih hseg).imp_left (List.mem_cons_of_mem seg')
      · rw [if_neg hok] at hseg
        exact (ih hseg).imp_left (List.mem_cons_of_mem seg')

theorem exists_page {segs : List ProtSegInfo} {s : PageState} {seg : ProtSegInfo}
    (hseg : seg ∈ (widenSegments K slide segs s).1) : ∃ page, K.InSegment slide seg page := by
  obtain ⟨-,hsize,-⟩ := mem_of_mem_widenSegments hseg
  have hpos : 0 < seg.vmsize.toNat := Nat.pos_of_ne_zero fun h => hsize (BitVec.eq_of_toNat_eq h)
  have hpages : 0 < K.pages seg.vmsize := Nat.div_pos (by have := K.pageSize_pos; omega) K.pageSize_pos
  exact ⟨K.firstPage (seg.vmaddr + slide),le_rfl,Nat.lt_add_of_pos_right hpages⟩

end Loops

section Restored
variable {K : Kernel} {E : Env} {P : ProtImage} {D : DyldInfo} {st : ResolverState} {s : PageState}

/-- Every segment that was made writable and executable has its protection again. -/
def Restored (K : Kernel) (E : Env) (P : ProtImage) (D : DyldInfo) (st : ResolverState) (s : PageState) : Prop :=
  ∀ seg ∈ (widenSegments K P.slide P.protSegments s).1, ∀ page, K.InSegment P.slide seg page →
    (processDyldInfoPages K E P D st s).2.2.prot page = seg.prot

theorem processDyldInfoPages_prot {page : ℕ} {seg : ProtSegInfo}
    (hseg : seg ∈ (widenSegments K P.slide P.protSegments s).1) (hpage : K.InSegment P.slide seg page) :
    (processDyldInfoPages K E P D st s).2.2.prot page =
      if (processDyldInfo E P.toImage D st).1 then
        ((restoring K P.slide page (s.calls + callsOf P.protSegments) P.protSegments).getLast?).getD protAll
      else protAll := by
  have hwide := widenSegments_prot hseg hpage
  simp only [processDyldInfoPages]
  split_ifs
  · rw [restoreSegments_prot,widenSegments_calls,hwide]
  · exact hwide

/-- They have it if and only if the streams are read to their end and the last call that reaches a page gives
it the protection of its segment, or the streams are not and the segments are writable and executable. -/
theorem processDyldInfoPages_restored_iff (K : Kernel) (E : Env) (P : ProtImage) (D : DyldInfo) (st : ResolverState)
    (s : PageState) :
    Restored K E P D st s ↔
      (D.Readable ∧ ∀ seg ∈ (widenSegments K P.slide P.protSegments s).1, ∀ page, K.InSegment P.slide seg page →
        ((restoring K P.slide page (s.calls + callsOf P.protSegments) P.protSegments).getLast?).getD protAll =
          seg.prot) ∨
      (¬D.Readable ∧ ∀ seg ∈ (widenSegments K P.slide P.protSegments s).1, seg.prot = protAll) := by
  have hok := processDyldInfo_fst E P.toImage D st
  by_cases h : D.Readable
  · rw [or_iff_left fun hn => hn.1 h,and_iff_right h]
    refine forall₂_congr fun seg hseg => forall₂_congr fun page hpage => ?_
    rw [processDyldInfoPages_prot hseg hpage,if_pos (hok.mpr h)]
  · rw [or_iff_right fun hn => h hn.1,and_iff_right h]
    refine forall₂_congr fun seg hseg => ?_
    constructor
    · intro hall
      obtain ⟨page,hpage⟩ := exists_page hseg
      have hprot := hall page hpage
      rw [processDyldInfoPages_prot hseg hpage,if_neg fun hn => h (hok.mp hn)] at hprot
      exact hprot.symm
    · intro hprot page hpage
      rw [processDyldInfoPages_prot hseg hpage,if_neg fun hn => h (hok.mp hn)]
      exact hprot.symm

end Restored

section Apart
variable {K : Kernel} {slide : Addr} {page : ℕ}

/-- No page is in two of the segments. -/
def ApartSegments (K : Kernel) (slide : Addr) (segs : List ProtSegInfo) : Prop :=
  segs.Pairwise fun a b => ∀ page, K.InSegment slide a page → ¬K.InSegment slide b page

theorem Kernel.Reaches.inSegment {n : ℕ} {seg : ProtSegInfo} (h : K.Reaches n (seg.vmaddr + slide) seg.vmsize page) :
    K.InSegment slide seg page :=
  ⟨h.2.1,h.2.2.trans_le (Nat.add_le_add_left (min_le_right _ _) _)⟩

theorem restoring_eq_nil {n : ℕ} {segs : List ProtSegInfo} (h : ∀ seg ∈ segs, ¬K.InSegment slide seg page) :
    restoring K slide page n segs = [] := by
  induction segs generalizing n with
  | nil => rfl
  | cons seg segs ih =>
    obtain ⟨hseg,hsegs⟩ := List.forall_mem_cons.mp h
    have hreach : ¬K.Reaches n (seg.vmaddr + slide) seg.vmsize page := fun hr => hseg hr.inSegment
    rw [restoring,ih hsegs,ih hsegs,if_neg hreach]
    exact ite_self _

theorem restoring_getLast? {n : ℕ} {segs : List ProtSegInfo} {seg : ProtSegInfo}
    (hgranted : ∀ n size, K.pages size ≤ K.granted n) (hapart : ApartSegments K slide segs) (hseg : seg ∈ segs)
    (haligned : (seg.vmaddr + slide).toNat % K.pageSize = 0) (hsize : seg.vmsize ≠ 0)
    (hpage : K.InSegment slide seg page) : (restoring K slide page n segs).getLast? = some seg.prot := by
  induction segs generalizing n with
  | nil => cases hseg
  | cons seg' segs ih =>
    obtain ⟨hhead,htail⟩ := List.pairwise_cons.mp hapart
    rcases List.mem_cons.mp hseg with rfl | hmem
    · have hreach : K.Reaches n (seg.vmaddr + slide) seg.vmsize page :=
        Kernel.reaches_of_success ⟨haligned,hgranted n seg.vmsize⟩ hpage.1 hpage.2
      rw [restoring,if_neg hsize,if_pos hreach,restoring_eq_nil fun other hother => hhead other hother page hpage]
      rfl
    · by_cases hsize' : seg'.vmsize = 0
      · rw [restoring,if_pos hsize']
        exact ih htail hmem
      · rw [restoring,if_neg hsize',List.getLast?_append,ih htail hmem]
        rfl

/-- Where no call is refused and the segments have no page in common, what counts is that the streams are read
to their end. -/
theorem restored_of_apart {E : Env} {P : ProtImage} {D : DyldInfo} {st : ResolverState} {s : PageState}
    (hgranted : ∀ n size, K.pages size ≤ K.granted n) (hapart : ApartSegments K P.slide P.protSegments)
    (h : D.Readable) : Restored K E P D st s := by
  intro seg hseg page hpage
  obtain ⟨hmem,hsize,haligned⟩ := mem_of_mem_widenSegments hseg
  rw [processDyldInfoPages_prot hseg hpage,if_pos ((processDyldInfo_fst E P.toImage D st).mpr h),
    restoring_getLast? hgranted hapart hmem haligned hsize hpage]
  rfl

end Apart

/-- A page of code, and a rebase stream that begins with an opcode there is not. -/
def codePage : ProtImage where
  toImage := { noImage with segments := [⟨0x11000,0x1000⟩] }
  protSegments := [⟨⟨0x11000,0x1000⟩,5⟩]
  segments_eq := rfl

def smallPages : Kernel := ⟨2^12,fun _ => 1,by decide⟩

theorem not_restored_unknown_opcode :
    ¬Restored smallPages (oneLibrary fun _ => 0) codePage ⟨some [0x90],some [],some [],some []⟩
      (freshState fun _ => 0) ⟨fun _ => 5,0⟩ := by
  intro hall
  have hread : ¬DyldInfo.Readable ⟨some [0x90],some [],some [],some []⟩ := by
    rintro ⟨⟨p,hp,hops⟩,-,-,-⟩
    cases hp
    exact hops (.unknown 0x90) (by decide) rfl
  have hseg : (⟨⟨0x11000,0x1000⟩,5⟩ : ProtSegInfo) ∈
      (widenSegments smallPages codePage.slide codePage.protSegments ⟨fun _ => 5,0⟩).1 :=
    List.mem_singleton.mpr rfl
  have hpage : smallPages.InSegment codePage.slide ⟨⟨0x11000,0x1000⟩,5⟩ 0x11 := by
    unfold Kernel.InSegment
    decide
  have hprot := hall _ hseg 0x11 hpage
  rw [processDyldInfoPages_prot hseg hpage,if_neg fun hn => hread ((processDyldInfo_fst _ _ _ _).mp hn)] at hprot
  exact absurd hprot (by decide)

end Machismo.Resolver
