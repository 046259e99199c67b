import Machismo.Trampoline.Island

/-! # Function starts

The load commands the patcher reads, and the functions they give: `LC_FUNCTION_STARTS` holds the
distances from one function to the next, each in ULEB128. A function ends where the next one starts
or where its section ends.
-/
namespace Machismo.Trampoline
open A64

structure Section where
  addr : BitVec 64
  size : BitVec 64
  flags : BitVec 32
  deriving DecidableEq, Repr

structure Segment where
  segname : Name
  vmaddr : BitVec 64
  vmsize : BitVec 64
  fileoff : BitVec 64
  filesize : BitVec 64
  initprot : BitVec 32
  sections : List Section
  deriving DecidableEq, Repr

/-- A symbol, with its name if that lies in the string table, and the place of the name. -/
structure Nlist where
  nType : BitVec 8
  nSect : BitVec 8
  nValue : BitVec 64
  name : Option Name
  nameAddr : Addr
  deriving DecidableEq, Repr

/-- The load commands the patcher looks at; a symbol table is `none` if it is not in mapped memory. -/
inductive Command where
  | segment (seg : Segment)
  | functionStarts (dataoff datasize : BitVec 32)
  | symtab (syms : Option (List Nlist))
  | other

structure MachO where
  isMachO64 : Bool
  commands : List Command

def vmProtExecute : BitVec 32 := 4
def sAttrPureInstructions : BitVec 32 := 0x80000000
def sAttrSomeInstructions : BitVec 32 := 0x00000400

def Section.hasInstructions (sec : Section) : Bool :=
  sec.flags &&& (sAttrPureInstructions ||| sAttrSomeInstructions) ≠ 0

namespace MachO
variable (M : MachO)

def segments : List Segment := M.commands.filterMap fun
  | .segment seg => some seg
  | _ => none

def sections : List Section := M.segments.flatMap Segment.sections

/-- The place in memory of a range of the file. -/
def fileRangeToMem (slide : Addr) (fileoff size : BitVec 32) : Option Addr :=
  (M.segments.find? fun seg => seg.fileoff ≤ fileoff.setWidth 64 ∧
      fileoff.setWidth 64 + size.setWidth 64 ≤ seg.fileoff + seg.filesize).map
    fun seg => seg.vmaddr + slide + (fileoff.setWidth 64 - seg.fileoff)

/-- The last `__TEXT` segment and the last `LC_FUNCTION_STARTS` count. -/
def textVmaddr : BitVec 64 :=
  M.segments.foldl (fun v seg => if seg.segname = "__TEXT".toList then seg.vmaddr else v) 0

def startsCommand : Option (BitVec 32 × BitVec 32) :=
  M.commands.foldl (fun r c => match c with
    | .functionStarts dataoff datasize => some (dataoff,datasize)
    | _ => r) none

end MachO

/-- The pages of the first `__TEXT` segment become writable. -/
def makeTextWritable (E : Env) (M : MachO) (slide : Addr) (st : State) : Bool × State :=
  match M.segments.find? fun seg => seg.segname = "__TEXT".toList with
  | none => (false,st)
  | some seg =>
    let pageMask := ~~~(E.pageSize - 1)
    let base := (seg.vmaddr + slide) &&& pageMask
    let last := (seg.vmaddr + slide + seg.vmsize + E.pageSize - 1) &&& pageMask
    (E.textWritable && st.pool.isSome,{ st with textBase := base, textSize := last - base })

def readDelta (shift : ℕ) (delta : BitVec 64) : List Byte → Option (BitVec 64 × List Byte)
  | [] => none
  | byte :: p =>
    if 64 ≤ shift then none
    else
      let delta := delta ||| (byte &&& 0x7f).setWidth 64 <<< shift
      if byte.getLsbD 7 then readDelta (shift+7) delta p else some (delta,p)

/-- The starts after an address, from at most `n` distances. -/
def startsFrom : ℕ → Addr → List Byte → Option (List Addr)
  | 0, _, _ => some []
  | _ + 1, _, [] => some []
  | n + 1, current, byte :: p =>
    match readDelta 0 0 (byte :: p) with
    | none => none
    | some (delta,p) =>
      if delta = 0 then some []
      else if BitVec.allOnes 64 - current < delta then none
      else (startsFrom n (current + delta) p).map fun l => (current + delta) :: l

def bytesAt (m : Memory) (a : Addr) (n : ℕ) : List Byte := (List.range n).map fun i => m (a + BitVec.ofNat 64 i)

def decodeFunctionStarts (M : MachO) (slide : Addr) (m : Memory) : Option (List Addr) :=
  if M.textVmaddr = 0 then none
  else match M.startsCommand with
    | none => none
    | some (dataoff,datasize) =>
      if datasize = 0 then none
      else match M.fileRangeToMem slide dataoff datasize with
        | none => none
        | some a =>
          match startsFrom datasize.toNat M.textVmaddr (bytesAt m a datasize.toNat) with
          | some (s :: l) => some (s :: l)
          | _ => none

def Section.contains (sec : Section) (vmaddr : Addr) : Bool := sec.addr ≤ vmaddr ∧ vmaddr < sec.addr + sec.size

def MachO.sectionEnd (M : MachO) (vmaddr : Addr) : Option Addr :=
  M.segments.foldl (fun r seg =>
    if seg.segname = "__TEXT".toList ∧ seg.initprot &&& vmProtExecute ≠ 0 then
      match seg.sections.find? fun sec => sec.hasInstructions && sec.contains vmaddr with
      | some sec => some (sec.addr + sec.size)
      | none => r
    else r) none

def functionEnd (sectionEnd vmaddr : Addr) : List Addr → Option Addr
  | [] => none
  | s :: l =>
    if s = vmaddr then
      match l with
      | [] => some sectionEnd
      | next :: _ => some (if vmaddr < next ∧ next < sectionEnd then next else sectionEnd)
    else functionEnd sectionEnd vmaddr l

def executableFunctionEnd (M : MachO) (vmaddr : Addr) (starts : List Addr) : Option Addr :=
  (M.sectionEnd vmaddr).bind fun sectionEnd => functionEnd sectionEnd vmaddr starts

/-- The check that stands before a sum of addresses. -/
theorem overflows_iff (a b : Addr) : BitVec.allOnes 64 - a < b ↔ 2^64 ≤ a.toNat + b.toNat := by
  have hone : (BitVec.allOnes 64).toNat = 2^64 - 1 := BitVec.toNat_allOnes
  rw [BitVec.lt_def, BitVec.toNat_sub, hone]
  omega

theorem lt_add_of_not_overflow {current delta : Addr} (h0 : delta ≠ 0) (h : ¬BitVec.allOnes 64 - current < delta) :
    current < current + delta := by
  rw [overflows_iff] at h
  bv_omega

theorem startsFrom_sorted (n : ℕ) (current : Addr) (p : List Byte) {l : List Addr}
    (h : startsFrom n current p = some l) : (current :: l).Pairwise (· < ·) := by
  induction n generalizing current p l with
  | zero =>
    cases h
    exact List.pairwise_singleton _ _
  | succ n ih =>
    cases p with
    | nil =>
      cases h
      exact List.pairwise_singleton _ _
    | cons byte p =>
      simp only [startsFrom] at h
      split at h
      · cases h
      next delta p' _ =>
        split at h
        · cases h
          exact List.pairwise_singleton _ _
        next h0 =>
          split at h
          · cases h
          next hov =>
            obtain ⟨l',h',rfl⟩ := Option.map_eq_some_iff.mp h
            have hsorted := ih _ _ h'
            have hlt := lt_add_of_not_overflow h0 hov
            refine List.pairwise_cons.mpr ⟨fun x hx => ?_,hsorted⟩
            rcases List.mem_cons.mp hx with rfl | hx
            · exact hlt
            · exact BitVec.lt_trans hlt ((List.pairwise_cons.mp hsorted).1 x hx)

theorem decodeFunctionStarts_sorted {M : MachO} {slide : Addr} {m : Memory} {starts : List Addr}
    (h : decodeFunctionStarts M slide m = some starts) : starts.Pairwise (· < ·) := by
  unfold decodeFunctionStarts at h
  split at h
  · cases h
  · split at h
    · cases h
    · split at h
      · cases h
      · split at h
        · cases h
        · split at h
          next hs =>
            cases h
            exact (List.pairwise_cons.mp (startsFrom_sorted _ _ _ hs)).2
          next => cases h

section FunctionEnd
variable {sectionEnd v f : Addr} {starts : List Addr}

theorem mem_of_functionEnd (h : functionEnd sectionEnd v starts = some f) : v ∈ starts := by
  induction starts with
  | nil => cases h
  | cons s l ih =>
    simp only [functionEnd] at h
    split at h
    next hs => exact List.mem_cons.mpr (.inl hs.symm)
    next => exact List.mem_cons_of_mem _ (ih h)

theorem functionEnd_bounds (h : functionEnd sectionEnd v starts = some f) (hv : v < sectionEnd) :
    v < f ∧ f ≤ sectionEnd := by
  induction starts with
  | nil => cases h
  | cons s l ih =>
    simp only [functionEnd] at h
    split at h
    · split at h
      · cases h
        exact ⟨hv,BitVec.le_refl _⟩
      · cases h
        split
        next hnext => exact ⟨hnext.1,BitVec.le_of_lt hnext.2⟩
        next => exact ⟨hv,BitVec.le_refl _⟩
    · exact ih h

theorem functionEnd_le (hs : starts.Pairwise (· < ·)) (h : functionEnd sectionEnd v starts = some f) {w : Addr}
    (hw : w ∈ starts) (hvw : v < w) : f ≤ w := by
  induction starts with
  | nil => cases h
  | cons s l ih =>
    have hl := List.pairwise_cons.mp hs
    simp only [functionEnd] at h
    split at h
    next hsv =>
      subst hsv
      have hwl : w ∈ l := by
        rcases List.mem_cons.mp hw with rfl | hw
        · exact absurd hvw (BitVec.lt_irrefl _)
        · exact hw
      cases l with
      | nil => cases hwl
      | cons next l =>
        have hnext : next ≤ w := by
          rcases List.mem_cons.mp hwl with rfl | hwl
          · exact BitVec.le_refl _
          · exact BitVec.le_of_lt ((List.pairwise_cons.mp hl.2).1 w hwl)
        cases h
        split
        · exact hnext
        next hno =>
          have hle : sectionEnd ≤ next := BitVec.not_lt.mp fun hlt => hno ⟨hl.1 next (by simp),hlt⟩
          exact BitVec.le_trans hle hnext
    next hsv =>
      rcases List.mem_cons.mp hw with rfl | hw
      · exact absurd (BitVec.lt_trans hvw (hl.1 v (mem_of_functionEnd h))) (BitVec.lt_irrefl _)
      · exact ih hl.2 h hw

end FunctionEnd

theorem sectionEnd_spec {M : MachO} {vmaddr e : Addr} (h : M.sectionEnd vmaddr = some e) :
    ∃ seg ∈ M.segments, seg.segname = "__TEXT".toList ∧
      ∃ sec ∈ seg.sections, sec.hasInstructions ∧ sec.contains vmaddr ∧ e = sec.addr + sec.size := by
  have hfold : ∀ (segs : List Segment) (r : Option Addr),
      segs.foldl (fun r seg =>
        if seg.segname = "__TEXT".toList ∧ seg.initprot &&& vmProtExecute ≠ 0 then
          match seg.sections.find? fun sec => sec.hasInstructions && sec.contains vmaddr with
          | some sec => some (sec.addr + sec.size)
          | none => r
        else r) r = some e →
      r = some e ∨ ∃ seg ∈ segs, seg.segname = "__TEXT".toList ∧ ∃ sec ∈ seg.sections,
        sec.hasInstructions ∧ sec.contains vmaddr ∧ e = sec.addr + sec.size := by
    intro segs
    induction segs with
    | nil =>
      intro r hr
      exact .inl hr
    | cons seg segs ih =>
      intro r hr
      rw [List.foldl_cons] at hr
      rcases ih _ hr with hr | ⟨seg',hseg,hsec⟩
      · split at hr
        next htext =>
          split at hr
          next sec hfind =>
            have hmem := List.mem_of_find?_eq_some hfind
            have hprop := List.find?_some hfind
            simp only [Bool.and_eq_true] at hprop
            refine .inr ⟨seg,List.mem_cons_self ..,htext.1,sec,hmem,hprop.1,hprop.2,?_⟩
            exact (Option.some.inj hr).symm
          next => exact .inl hr
        next => exact .inl hr
      · exact .inr ⟨seg',List.mem_cons_of_mem _ hseg,hsec⟩
  rcases hfold _ _ h with h | h
  · cases h
  · exact h

theorem executableFunctionEnd_spec {M : MachO} {v f : Addr} {starts : List Addr}
    (h : executableFunctionEnd M v starts = some f) :
    v ∈ starts ∧ ∃ seg ∈ M.segments, seg.segname = "__TEXT".toList ∧
      ∃ sec ∈ seg.sections, sec.hasInstructions ∧ sec.addr ≤ v ∧ v < f ∧ f ≤ sec.addr + sec.size := by
  obtain ⟨e,he,hf⟩ := Option.bind_eq_some_iff.mp h
  obtain ⟨seg,hseg,htext,sec,hsec,hins,hv,rfl⟩ := sectionEnd_spec he
  simp only [Section.contains, decide_eq_true_eq] at hv
  obtain ⟨hvf,hfe⟩ := functionEnd_bounds hf hv.2
  exact ⟨mem_of_functionEnd hf,seg,hseg,htext,sec,hsec,hins,hv.1,hvf,hfe⟩

theorem executableFunctionEnd_le {M : MachO} {v w f : Addr} {starts : List Addr} (hs : starts.Pairwise (· < ·))
    (h : executableFunctionEnd M v starts = some f) (hw : w ∈ starts) (hvw : v < w) : f ≤ w := by
  obtain ⟨e,-,hf⟩ := Option.bind_eq_some_iff.mp h
  exact functionEnd_le hs hf hw hvw

end Machismo.Trampoline
