import Machismo.Trampoline.PatchLib
import Mathlib.Logic.Function.Basic

/-! # Guarding stale data

Pages of `__DATA` that hold nothing but the data of a replaced library are made inaccessible, so that
code which still touches them faults. A page is judged by the symbols that start in it.
-/
namespace Machismo.Trampoline
open A64

structure GuardedPage where
  base : Addr
  size : BitVec 64
  deriving DecidableEq

def maxGuardedPages : ℕ := 4096

/-- For every page, whether a symbol of the library or another one starts in it. -/
structure PageMap where
  hasLibrary : ℕ → Bool
  hasOther : ℕ → Bool
  libDataSyms : ℕ

/-- The first `__DATA` segment, from its first byte to behind its last. -/
def MachO.dataRange (M : MachO) (slide : Addr) : Addr × Addr :=
  match M.segments.find? fun seg => seg.segname = "__DATA".toList with
  | some seg => (seg.vmaddr + slide,seg.vmaddr + slide + seg.vmsize)
  | none => (0,0)

section Model
variable (E : Env) (M : MachO) (slide : Addr) (prefixes : List Name)

def numPages : ℕ :=
  let data := M.dataRange slide
  ((data.2 - data.1 + E.pageSize - 1) / E.pageSize).toNat

/-- The page of `__DATA` a symbol starts in. -/
def pageIdx (sym : Nlist) : Option ℕ :=
  let data := M.dataRange slide
  let addr := sym.nValue + slide
  let i := ((addr - data.1) / E.pageSize).toNat
  if data.1 ≤ addr ∧ addr < data.2 ∧ i < numPages E M slide then some i else none

def categorize (pages : PageMap) (sym : Nlist) : PageMap :=
  if ¬sym.isDefined ∨ sym.isStab then pages
  else match sym.name, pageIdx E M slide sym with
    | some name, some i =>
      if matchesPrefix name prefixes then
        { pages with hasLibrary := Function.update pages.hasLibrary i true, libDataSyms := pages.libDataSyms + 1 }
      else { pages with hasOther := Function.update pages.hasOther i true }
    | _, _ => pages

def pageAt (i : ℕ) : GuardedPage := ⟨(M.dataRange slide).1 + BitVec.ofNat 64 i * E.pageSize,E.pageSize⟩

/-- The loop over the pages; it ends when the table of guarded pages is full. -/
def guardPages (pages : PageMap) : List ℕ → List GuardedPage → List GuardedPage
  | [], guarded => guarded
  | i :: l, guarded =>
    if ¬pages.hasLibrary i then guardPages pages l guarded
    else if pages.hasOther i then guardPages pages l guarded
    else if maxGuardedPages ≤ guarded.length then guarded
    else if E.protect (pageAt E M slide i).base then guardPages pages l (guarded ++ [pageAt E M slide i])
    else guardPages pages l guarded

def guardStaleData (guarded : List GuardedPage) : List GuardedPage :=
  if (M.dataRange slide).1 = 0 ∨ numPages E M slide = 0 then guarded
  else match M.symtab with
    | none => guarded
    | some none => guarded
    | some (some syms) =>
      let pages := syms.foldl (categorize E M slide prefixes) ⟨fun _ => false,fun _ => false,0⟩
      if pages.libDataSyms = 0 then guarded
      else guardPages E M slide pages (List.range (numPages E M slide)) guarded

end Model

/-- A symbol the code looks at, with or without a prefix of the library. -/
def Nlist.isKind (prefixes : List Name) (library : Bool) (sym : Nlist) : Bool :=
  sym.isDefined && !sym.isStab && sym.name.any fun name => matchesPrefix name prefixes == library

section Guarded
variable (E : Env) (M : MachO) (slide : Addr) (prefixes : List Name)

def startsIn (library : Bool) (i : ℕ) : Bool :=
  M.symbols.any fun sym => sym.isKind prefixes library && pageIdx E M slide sym == some i

/-- A page where only symbols of the library start, and that can be protected. -/
def guardable (i : ℕ) : Bool :=
  startsIn E M slide prefixes true i && !startsIn E M slide prefixes false i && E.protect (pageAt E M slide i).base

def toGuard (guarded : List GuardedPage) : List ℕ :=
  if (M.dataRange slide).1 = 0 then []
  else ((List.range (numPages E M slide)).filter (guardable E M slide prefixes)).take
    (maxGuardedPages - guarded.length)

theorem categorize_spec (pages : PageMap) (sym : Nlist) (i : ℕ) :
    (categorize E M slide prefixes pages sym).hasLibrary i =
        (pages.hasLibrary i || (sym.isKind prefixes true && pageIdx E M slide sym == some i)) ∧
      (categorize E M slide prefixes pages sym).hasOther i =
        (pages.hasOther i || (sym.isKind prefixes false && pageIdx E M slide sym == some i)) ∧
      (categorize E M slide prefixes pages sym).libDataSyms = pages.libDataSyms +
        (sym.isKind prefixes true && (pageIdx E M slide sym).isSome).toNat := by
  unfold categorize Nlist.isKind
  cases sym.isDefined <;> cases sym.isStab
  case true.false =>
    cases sym.name with
    | none => simp
    | some name =>
      cases pageIdx E M slide sym with
      | none => simp
      | some j =>
        rcases eq_or_ne i j with rfl | hij
        · cases h : matchesPrefix name prefixes <;> simp [h]
        · cases h : matchesPrefix name prefixes <;> simp [h, hij, hij.symm]
  all_goals simp

theorem foldl_categorize (syms : List Nlist) (pages : PageMap) (i : ℕ) :
    (syms.foldl (categorize E M slide prefixes) pages).hasLibrary i =
        (pages.hasLibrary i || syms.any fun sym => sym.isKind prefixes true && pageIdx E M slide sym == some i) ∧
      (syms.foldl (categorize E M slide prefixes) pages).hasOther i =
        (pages.hasOther i || syms.any fun sym => sym.isKind prefixes false && pageIdx E M slide sym == some i) ∧
      ((syms.foldl (categorize E M slide prefixes) pages).libDataSyms = 0 →
        ∀ sym ∈ syms, sym.isKind prefixes true → pageIdx E M slide sym = none) ∧
      pages.libDataSyms ≤ (syms.foldl (categorize E M slide prefixes) pages).libDataSyms := by
  induction syms generalizing pages with
  | nil => simp
  | cons sym syms ih =>
    obtain ⟨hlib,hother,hcount⟩ := categorize_spec E M slide prefixes pages sym i
    obtain ⟨ihlib,ihother,ihzero,ihle⟩ := ih (categorize E M slide prefixes pages sym)
    rw [List.foldl_cons]
    refine ⟨by rw [ihlib, hlib, List.any_cons, Bool.or_assoc],by rw [ihother, hother, List.any_cons, Bool.or_assoc],
      fun h0 s hs hkind => ?_,by omega⟩
    rcases List.mem_cons.mp hs with rfl | hs
    · have hz : (s.isKind prefixes true && (pageIdx E M slide s).isSome).toNat = 0 := by omega
      simpa [hkind] using hz
    · exact ihzero h0 s hs hkind

/-- The loop over the pages guards the first that it may, up to the room of the table. -/
theorem guardPages_eq (pages : PageMap) (l : List ℕ) (guarded : List GuardedPage) :
    guardPages E M slide pages l guarded = guarded ++ ((l.filter fun i =>
      pages.hasLibrary i && !pages.hasOther i && E.protect (pageAt E M slide i).base).take
        (maxGuardedPages - guarded.length)).map (pageAt E M slide) := by
  induction l generalizing guarded with
  | nil => simp [guardPages]
  | cons i l ih =>
    rw [guardPages]
    cases hlib : pages.hasLibrary i with
    | false => simp [ih, hlib]
    | true =>
      cases hother : pages.hasOther i with
      | true => simp [ih, hother]
      | false =>
        rw [if_neg (by simp), if_neg (by simp)]
        split
        next hfull =>
          have h0 : maxGuardedPages - guarded.length = 0 := by omega
          rw [h0, List.take_zero, List.map_nil, List.append_nil]
        next hroom =>
          cases hprot : E.protect (pageAt E M slide i).base with
          | false => simp [ih, hprot]
          | true =>
            have hsub : maxGuardedPages - guarded.length = maxGuardedPages - (guarded.length + 1) + 1 := by omega
            rw [if_pos rfl, ih, List.length_append, List.length_singleton, hsub, List.filter_cons_of_pos (by simp [*]),
              List.take_succ_cons, List.map_cons, List.append_assoc, List.singleton_append]

theorem guardable_eq_false (h : ∀ sym ∈ M.symbols, sym.isKind prefixes true → pageIdx E M slide sym = none) (i : ℕ) :
    guardable E M slide prefixes i = false := by
  have hnone : startsIn E M slide prefixes true i = false := by
    refine List.any_eq_false.mpr fun sym hsym => ?_
    rw [Bool.and_eq_true, beq_iff_eq]
    rintro ⟨hkind,hi⟩
    rw [h sym hsym hkind] at hi
    cases hi
  rw [guardable, hnone]
  rfl

theorem guardStaleData_eq (guarded : List GuardedPage) :
    guardStaleData E M slide prefixes guarded =
      guarded ++ (toGuard E M slide prefixes guarded).map (pageAt E M slide) := by
  have hnil : (∀ sym ∈ M.symbols, sym.isKind prefixes true → pageIdx E M slide sym = none) →
      guarded = guarded ++ (((List.range (numPages E M slide)).filter (guardable E M slide prefixes)).take
        (maxGuardedPages - guarded.length)).map (pageAt E M slide) := by
    intro h
    have hfilter : (List.range (numPages E M slide)).filter (guardable E M slide prefixes) = [] :=
      List.filter_eq_nil_iff.mpr fun i _ => by simp [guardable_eq_false E M slide prefixes h i]
    rw [hfilter, List.take_nil, List.map_nil, List.append_nil]
  unfold guardStaleData toGuard
  by_cases hbase : (M.dataRange slide).1 = 0
  · rw [if_pos (.inl hbase), if_pos hbase, List.map_nil, List.append_nil]
  rw [if_neg hbase]
  by_cases hpages : numPages E M slide = 0
  · rw [if_pos (.inr hpages), hpages, List.range_zero, List.filter_nil, List.take_nil, List.map_nil, List.append_nil]
  rw [if_neg (not_or.mpr ⟨hbase,hpages⟩)]
  split
  next htab => exact hnil fun sym hsym => by simp [MachO.symbols, htab] at hsym
  next htab => exact hnil fun sym hsym => by simp [MachO.symbols, htab] at hsym
  next syms htab =>
    have hsyms : M.symbols = syms := by simp [MachO.symbols, htab]
    have hfold := foldl_categorize E M slide prefixes syms ⟨fun _ => false,fun _ => false,0⟩
    dsimp only
    split
    next h0 =>
      refine hnil ?_
      rw [hsyms]
      exact (hfold 0).2.2.1 h0
    next =>
      rw [guardPages_eq]
      congr 4
      funext i
      rw [(hfold i).1, (hfold i).2.1, guardable, startsIn, startsIn, hsyms, Bool.false_or, Bool.false_or]

end Guarded

def MachO.sectionOf (M : MachO) (sym : Nlist) : Option Section :=
  if sym.nSect = 0 then none else M.sections[sym.nSect.toNat - 1]?

/-- The bytes of a symbol: from its address to the next symbol or the end of its section. -/
def MachO.Storage (M : MachO) (sym : Nlist) (v : Addr) : Prop :=
  ∃ sec, M.sectionOf sym = some sec ∧ sym.nValue.toNat ≤ v.toNat ∧ v.toNat < sec.addr.toNat + sec.size.toNat ∧
    ∀ s ∈ M.symbols, s.isDefined → ¬s.isStab → s.nValue.toNat ≤ sym.nValue.toNat ∨ v.toNat < s.nValue.toNat

def GuardedPage.Holds (page : GuardedPage) (b : Addr) : Prop := (b - page.base).toNat < page.size.toNat

/-- The pages guarded in addition hold no byte of a symbol that is not of the library. -/
def GuardsNoOther (M : MachO) (slide : Addr) (prefixes : List Name) (guarded guarded' : List GuardedPage) : Prop :=
  ∃ l, guarded' = guarded ++ l ∧ ∀ page ∈ l, ∀ sym ∈ M.symbols, sym.isKind prefixes false →
    ∀ v, M.Storage sym v → ¬page.Holds (v + slide)

section Storage
variable (E : Env) (M : MachO) (slide : Addr)

/-- The storage of a symbol runs over the first byte of a page. -/
def RunsInto (i : ℕ) (sym : Nlist) : Prop := M.Storage sym ((pageAt E M slide i).base - slide)

/-- A symbol with storage starts in a page, but outside of `__DATA`. -/
def StartsOutside (i : ℕ) (sym : Nlist) : Prop :=
  (pageAt E M slide i).Holds (sym.nValue + slide) ∧ M.Storage sym sym.nValue ∧
    ¬((M.dataRange slide).1 ≤ sym.nValue + slide ∧ sym.nValue + slide < (M.dataRange slide).2)

variable {E M slide} {sym : Nlist} {i : ℕ}

theorem storage_meets_page {v : Addr} (hst : M.Storage sym v) (hv : (pageAt E M slide i).Holds (v + slide)) :
    RunsInto E M slide i sym ∨ (pageAt E M slide i).Holds (sym.nValue + slide) ∧ M.Storage sym sym.nValue := by
  obtain ⟨sec,hsec,hle,hlt,hnext⟩ := hst
  unfold RunsInto GuardedPage.Holds at *
  generalize (pageAt E M slide i).base = base at *
  have hrel : ∀ a : Addr, a + slide - base = a - (base - slide) := fun a => (sub_sub_eq_add_sub a base slide).symm
  rw [hrel] at hv ⊢
  generalize base - slide = p at *
  by_cases hp : sym.nValue.toNat ≤ p.toNat ∧ p.toNat ≤ v.toNat
  · refine .inl ⟨sec,hsec,hp.1,by omega,fun s hs hdef hstab => ?_⟩
    rcases hnext s hs hdef hstab with h | h
    · exact .inl h
    · exact .inr (by omega)
  · refine .inr ⟨?_,sec,hsec,le_rfl,by omega,fun s hs hdef hstab => ?_⟩
    · rw [BitVec.toNat_sub] at hv ⊢
      omega
    · rcases hnext s hs hdef hstab with h | h
      · exact .inl h
      · exact .inr (by omega)

theorem pageSize_pos (hi : i < numPages E M slide) : 0 < E.pageSize.toNat := by
  by_contra h
  have hzero : E.pageSize = 0#64 := BitVec.eq_of_toNat_eq (by simpa using h)
  simp [numPages, hzero] at hi

theorem pageIdx_of_holds (hi : i < numPages E M slide) (hpage : (pageAt E M slide i).Holds (sym.nValue + slide))
    (hdata : (M.dataRange slide).1 ≤ sym.nValue + slide ∧ sym.nValue + slide < (M.dataRange slide).2) :
    pageIdx E M slide sym = some i := by
  have hps := pageSize_pos hi
  have hidx : ((sym.nValue + slide - (M.dataRange slide).1) / E.pageSize).toNat = i := by
    have hroom := hi
    unfold numPages at hroom
    unfold GuardedPage.Holds pageAt at hpage
    dsimp only at hroom hpage
    generalize (M.dataRange slide).2 - (M.dataRange slide).1 + E.pageSize - 1 = n at hroom
    rw [BitVec.toNat_udiv, Nat.lt_iff_add_one_le, Nat.le_div_iff_mul_le hps, Nat.add_mul, Nat.one_mul] at hroom
    rw [sub_add_eq_sub_sub, BitVec.toNat_sub] at hpage
    rw [BitVec.toNat_udiv]
    generalize sym.nValue + slide - (M.dataRange slide).1 = x at *
    have hmul : (BitVec.ofNat 64 i * E.pageSize).toNat = i*E.pageSize.toNat := by
      have hle : i ≤ i*E.pageSize.toNat := Nat.le_mul_of_pos_right i hps
      have hn := n.isLt
      have hi64 : i % 2^64 = i := Nat.mod_eq_of_lt (by omega)
      rw [BitVec.toNat_mul, BitVec.toNat_ofNat, hi64, Nat.mod_eq_of_lt (by omega)]
    rw [hmul] at hpage
    have hn := n.isLt
    have hx := x.isLt
    refine Nat.div_eq_of_lt_le (by omega) ?_
    rw [Nat.add_mul, Nat.one_mul]
    omega
  unfold pageIdx
  dsimp only
  rw [hidx, if_pos ⟨hdata.1,hdata.2,hi⟩]

theorem of_mem_toGuard {prefixes : List Name} {guarded : List GuardedPage}
    (h : i ∈ toGuard E M slide prefixes guarded) : i < numPages E M slide ∧ guardable E M slide prefixes i := by
  unfold toGuard at h
  split at h
  · cases h
  · have hmem := List.mem_filter.mp (List.mem_of_mem_take h)
    exact ⟨List.mem_range.mp hmem.1,hmem.2⟩

theorem not_holds_of_guardable {prefixes : List Name} (hi : i < numPages E M slide)
    (hg : guardable E M slide prefixes i) (hsym : sym ∈ M.symbols) (hkind : sym.isKind prefixes false)
    (hdata : (M.dataRange slide).1 ≤ sym.nValue + slide ∧ sym.nValue + slide < (M.dataRange slide).2) :
    ¬(pageAt E M slide i).Holds (sym.nValue + slide) := by
  intro hpage
  have hstart : startsIn E M slide prefixes false i := by
    refine List.any_eq_true.mpr ⟨sym,hsym,?_⟩
    rw [hkind, pageIdx_of_holds hi hpage hdata]
    simp
  simp [guardable, hstart] at hg

end Storage

/-- No page with storage of another symbol is guarded, if and only if no such storage runs over the start of
a page to guard or starts in it outside of `__DATA`. -/
theorem guardStaleData_guardsNoOther_iff (E : Env) (M : MachO) (slide : Addr) (prefixes : List Name)
    (guarded : List GuardedPage) :
    GuardsNoOther M slide prefixes guarded (guardStaleData E M slide prefixes guarded) ↔
      ∀ i ∈ toGuard E M slide prefixes guarded, ∀ sym ∈ M.symbols, sym.isKind prefixes false →
        ¬RunsInto E M slide i sym ∧ ¬StartsOutside E M slide i sym := by
  constructor
  · rintro ⟨l,hl,hsafe⟩ i hi sym hsym hkind
    obtain rfl : l = (toGuard E M slide prefixes guarded).map (pageAt E M slide) :=
      List.append_cancel_left (hl.symm.trans (guardStaleData_eq E M slide prefixes guarded))
    have hpage := hsafe _ (List.mem_map_of_mem hi) sym hsym hkind
    constructor
    · intro hruns
      refine hpage _ hruns ?_
      unfold GuardedPage.Holds
      rw [BitVec.sub_add_cancel, BitVec.sub_self]
      exact pageSize_pos (of_mem_toGuard hi).1
    · intro hstart
      exact hpage _ hstart.2.1 hstart.1
  · intro hcond
    refine ⟨_,guardStaleData_eq E M slide prefixes guarded,?_⟩
    rintro page hpage sym hsym hkind v hst hv
    obtain ⟨i,hi,rfl⟩ := List.mem_map.mp hpage
    obtain ⟨hlt,hg⟩ := of_mem_toGuard hi
    obtain ⟨hruns,hstart⟩ := hcond i hi sym hsym hkind
    rcases storage_meets_page hst hv with h | ⟨hin,hst⟩
    · exact hruns h
    · by_cases hdata : (M.dataRange slide).1 ≤ sym.nValue + slide ∧ sym.nValue + slide < (M.dataRange slide).2
      · exact not_holds_of_guardable hlt hg hsym hkind hdata hin
      · exact hstart ⟨hin,hst,hdata⟩

/-- An object of the game that ends in a page where a variable of the library starts. -/
def longObject : MachO where
  isMachO64 := true
  commands := [
    .segment ⟨"__DATA".toList,0x100004000,0x4000,0x4000,0x4000,3,[⟨0x100004000,0x4000,0⟩]⟩,
    .symtab (some [⟨0x0f,1,0x100004800,some "_game_buffer".toList,0x9000⟩,
      ⟨0x0f,1,0x100005800,some "_SDL_state".toList,0x9010⟩,⟨0x0f,1,0x100006000,some "_game_end".toList,0x9020⟩])]

def pages4k : Env where
  dlopen _ := 1
  dlsym _ _ := 0
  pageSize := 0x1000
  textWritable := true
  protect _ := true
  abortAddr := 0x6000

/-- The page is guarded, and with it the end of the object. -/
theorem guardStaleData_over_object : ¬∀ (E : Env) (M : MachO) (slide : Addr) (prefixes : List Name)
    (guarded : List GuardedPage),
      GuardsNoOther M slide prefixes guarded (guardStaleData E M slide prefixes guarded) := by
  intro hall
  obtain ⟨l,hl,hsafe⟩ := hall pages4k longObject 0x400000000 ["_SDL_".toList] []
  have hrun : guardStaleData pages4k longObject 0x400000000 ["_SDL_".toList] [] = [⟨0x500005000,0x1000⟩] := by
    decide +kernel
  obtain rfl : l = [⟨0x500005000,0x1000⟩] := hl.symm.trans hrun
  have hst : longObject.Storage ⟨0x0f,1,0x100004800,some "_game_buffer".toList,0x9000⟩ 0x100005000 :=
    ⟨⟨0x100004000,0x4000,0⟩,by decide,by decide,by decide,by decide⟩
  refine hsafe ⟨0x500005000,0x1000⟩ (by simp) _ (by decide) (by decide) 0x100005000 hst ?_
  unfold GuardedPage.Holds
  decide

end Machismo.Trampoline
