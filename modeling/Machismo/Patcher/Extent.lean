import Machismo.Patcher.Apply
import Mathlib.Data.List.TakeWhile

/-! # Symbols by their address

`resolver_lookup_symbol` takes the first definition of a name in the table, `resolver_symbol_extent` the first
one after a sort by address, which it keeps for one image at a time.  Definitions at one address stay in
whatever order `qsort` leaves them.
-/
namespace Machismo.Patcher
open A64
open Trampoline (MachO Nlist)

/-- The sorted symbols of one image and the ends of its sections, which count from one. -/
structure ExtentCache where
  mh : Addr
  syms : List Nlist
  sectionEnds : List (BitVec 64)

/-- Images by the address of their header.  `qsort` sorts by address and may do so in any way. -/
structure Process where
  images : Addr → MachO
  slide : Addr → Addr
  env : Env
  perm : ∀ l, (env.qsort l).Perm l
  sorted : ∀ l, (env.qsort l).Pairwise fun a b => a.nValue ≤ b.nValue

namespace Process
variable (P : Process)

def envOf (mh : Addr) : Env := { P.env with image := some (P.images mh), slide := P.slide mh }

def lookupSymbol (mh : Addr) (name : Name) : Addr := resolverLookupSymbol (P.envOf mh) (P.images mh) name

/-- There is no cache of an image without a symbol table in memory. -/
def buildExtentCache (mh : Addr) : Option ExtentCache :=
  (lastSymtab (P.images mh)).map fun _ =>
    ⟨mh,P.env.qsort (sectSymbols (P.images mh)),0 :: (P.images mh).sections.map fun sec => sec.addr + sec.size⟩

end Process

def ExtentCache.extent (c : ExtentCache) (slide : Addr) (name : Name) : Option (Addr × Addr) :=
  match c.syms.dropWhile fun nl => nl.name ≠ some name with
  | [] => none
  | nl :: rest =>
    let next := ((rest.find? fun nl' => nl'.nSect = nl.nSect).map Nlist.nValue).getD 0
    let stop := if next = 0 ∧ nl.nSect.toNat < c.sectionEnds.length then
        (c.sectionEnds[nl.nSect.toNat]?).getD 0 else next
    if stop ≤ nl.nValue then none else some (nl.nValue + slide,stop + slide)

namespace Process
variable (P : Process)

/-- `resolver_symbol_extent` with the cache it finds and the one it leaves. -/
def symbolExtent (mh : Addr) (name : Name) (c : Option ExtentCache) : Option (Addr × Addr) × Option ExtentCache :=
  let c := if (c.map ExtentCache.mh) = some mh then c else P.buildExtentCache mh
  (c.bind fun c => c.extent (P.slide mh) name,c)

def cacheAfter (calls : List (Addr × Name)) : Option ExtentCache :=
  calls.foldl (fun c call => (P.symbolExtent call.1 call.2 c).2) none

/-- A cache holds what would be built for its image. -/
def CacheValid (c : Option ExtentCache) : Prop := ∀ cache, c = some cache → P.buildExtentCache cache.mh = c

variable {P} {c : Option ExtentCache} {mh : Addr} {name : Name}

theorem buildExtentCache_mh {cache : ExtentCache} (h : P.buildExtentCache mh = some cache) : cache.mh = mh := by
  obtain ⟨_,-,rfl⟩ := Option.map_eq_some_iff.mp h
  rfl

theorem symbolExtent_cache (h : P.CacheValid c) : (P.symbolExtent mh name c).2 = P.buildExtentCache mh := by
  unfold symbolExtent
  by_cases hmh : c.map ExtentCache.mh = some mh
  · obtain ⟨cache,rfl,rfl⟩ := Option.map_eq_some_iff.mp hmh
    simp only [if_pos hmh]
    exact (h cache rfl).symm
  · simp only [if_neg hmh]

theorem CacheValid.symbolExtent (h : P.CacheValid c) (mh : Addr) (name : Name) :
    P.CacheValid (P.symbolExtent mh name c).2 := by
  rw [symbolExtent_cache h]
  intro cache hcache
  rw [buildExtentCache_mh hcache]

theorem cacheValid_cacheAfter (P : Process) (calls : List (Addr × Name)) : P.CacheValid (P.cacheAfter calls) := by
  have hrun : ∀ c, P.CacheValid c →
      P.CacheValid (calls.foldl (fun c call => (P.symbolExtent call.1 call.2 c).2) c) := by
    induction calls with
    | nil => exact fun c h => h
    | cons call calls ih => exact fun c h => ih _ (h.symbolExtent call.1 call.2)
  exact hrun none fun cache h => by cases h

theorem getD_sectionEnds (M : MachO) (sect : ℕ) :
    ((0 :: M.sections.map fun sec => sec.addr + sec.size)[sect]?).getD 0 = sectionEnd M sect := by
  cases sect with
  | zero => rfl
  | succ sect =>
    rw [List.getElem?_cons_succ,List.getElem?_map]
    rfl

theorem symbolExtent_eq (h : P.CacheValid c) :
    (P.symbolExtent mh name c).1 = resolverSymbolExtent (P.envOf mh) (P.images mh) name := by
  have hfst : (P.symbolExtent mh name c).1 =
      (P.symbolExtent mh name c).2.bind fun c => c.extent (P.slide mh) name := rfl
  rw [hfst,symbolExtent_cache h]
  unfold buildExtentCache resolverSymbolExtent
  cases htab : lastSymtab (P.images mh) with
  | none =>
    have hnil : (P.envOf mh).qsort (sectSymbols (P.images mh)) = [] := by
      have hsyms : sectSymbols (P.images mh) = [] := by
        unfold sectSymbols
        rw [htab]
        rfl
      rw [hsyms]
      exact List.perm_nil.mp (P.perm [])
    rw [hnil]
    rfl
  | some syms =>
    simp only [Option.map_some,Option.bind_some,ExtentCache.extent]
    have hsort : (P.envOf mh).qsort = P.env.qsort := rfl
    rw [hsort]
    cases (P.env.qsort (sectSymbols (P.images mh))).dropWhile fun nl => nl.name ≠ some name with
    | nil => rfl
    | cons nl rest =>
      simp only [extentOf,getD_sectionEnds,List.length_cons,List.length_map]
      rfl

end Process

/-- A symbol of the table defines a name. -/
def Defines (M : MachO) (name : Name) (d : Nlist) : Prop := d ∈ sectSymbols M ∧ d.name = some name

/-- The next symbol of the section. -/
def nextOf (nl : Nlist) (rest : List Nlist) : Option Nlist := rest.find? fun nl' => nl'.nSect = nl.nSect

/-- In the order of the sort `x` is the first definition of the name, and `rest` what follows it. -/
def Taken (P : Process) (mh : Addr) (name : Name) (x : Nlist) (rest : List Nlist) : Prop :=
  (P.env.qsort (sectSymbols (P.images mh))).dropWhile (fun nl => nl.name ≠ some name) = x :: rest

/-- No end follows behind a symbol: the next one of its section has the same address, or there is none at an
address that is not zero and the section does not reach past the symbol. -/
def Blocked (M : MachO) (x : Nlist) (rest : List Nlist) : Prop :=
  (∃ y, nextOf x rest = some y ∧ y.nValue ≠ 0 ∧ y.nValue = x.nValue) ∨
    ((∀ y, nextOf x rest = some y → y.nValue = 0) ∧ sectionEnd M x.nSect.toNat ≤ x.nValue)

section Taken
variable {P : Process} {mh : Addr} {name : Name} {x : Nlist} {rest : List Nlist}

theorem Taken.split (h : Taken P mh name x rest) :
    ∃ pre, P.env.qsort (sectSymbols (P.images mh)) = pre ++ x :: rest ∧ (∀ y ∈ pre, y.name ≠ some name) ∧
      x.name = some name := by
  refine ⟨(P.env.qsort (sectSymbols (P.images mh))).takeWhile fun nl => nl.name ≠ some name,?_,?_,?_⟩
  · rw [← h,List.takeWhile_append_dropWhile]
  · intro y hy
    exact of_decide_eq_true (List.mem_takeWhile_imp (p := fun nl : Nlist => decide (nl.name ≠ some name)) hy)
  · have hhead := List.head?_dropWhile_not (fun nl : Nlist => decide (nl.name ≠ some name))
      (P.env.qsort (sectSymbols (P.images mh)))
    rw [h] at hhead
    simpa using hhead

theorem mem_sorted {y : Nlist} : y ∈ P.env.qsort (sectSymbols (P.images mh)) ↔ y ∈ sectSymbols (P.images mh) :=
  (P.perm _).mem_iff

theorem Taken.defines (h : Taken P mh name x rest) : Defines (P.images mh) name x := by
  obtain ⟨pre,hsplit,-,hname⟩ := h.split
  exact ⟨mem_sorted.mp (hsplit ▸ List.mem_append_right pre List.mem_cons_self),hname⟩

theorem Taken.mem_rest (h : Taken P mh name x rest) {y : Nlist} (hy : y ∈ rest) :
    y ∈ sectSymbols (P.images mh) ∧ x.nValue ≤ y.nValue := by
  obtain ⟨pre,hsplit,-,-⟩ := h.split
  have hsorted := P.sorted (sectSymbols (P.images mh))
  rw [hsplit] at hsorted
  have htail := (List.pairwise_append.mp hsorted).2.1
  refine ⟨mem_sorted.mp ?_,(List.pairwise_cons.mp htail).1 y hy⟩
  rw [hsplit]
  exact List.mem_append_right pre (List.mem_cons_of_mem x hy)

theorem Taken.mem_rest_of_lt (h : Taken P mh name x rest) {y : Nlist} (hy : y ∈ sectSymbols (P.images mh))
    (hlt : x.nValue < y.nValue) : y ∈ rest := by
  obtain ⟨pre,hsplit,-,-⟩ := h.split
  have hsorted := P.sorted (sectSymbols (P.images mh))
  have hmem := mem_sorted.mpr hy
  rw [hsplit] at hsorted hmem
  rcases List.mem_append.mp hmem with hpre | htail
  · have hle := (List.pairwise_append.mp hsorted).2.2 y hpre x List.mem_cons_self
    rw [BitVec.le_def] at hle
    rw [BitVec.lt_def] at hlt
    omega
  · rcases List.mem_cons.mp htail with rfl | hrest
    · rw [BitVec.lt_def] at hlt
      exact absurd hlt (lt_irrefl _)
    · exact hrest

theorem Taken.le (h : Taken P mh name x rest) {d : Nlist} (hd : Defines (P.images mh) name d) :
    x.nValue ≤ d.nValue := by
  obtain ⟨pre,hsplit,hpre,-⟩ := h.split
  have hmem := mem_sorted.mpr hd.1
  rw [hsplit] at hmem
  rcases List.mem_append.mp hmem with hmem | hmem
  · exact absurd hd.2 (hpre d hmem)
  · rcases List.mem_cons.mp hmem with rfl | hrest
    · exact BitVec.le_refl _
    · exact (h.mem_rest hrest).2

theorem exists_taken {d : Nlist} (hd : Defines (P.images mh) name d) : ∃ x rest, Taken P mh name x rest := by
  have hne : (P.env.qsort (sectSymbols (P.images mh))).dropWhile (fun nl => nl.name ≠ some name) ≠ [] := by
    intro hnil
    have hall := List.dropWhile_eq_nil_iff.mp hnil d (mem_sorted.mpr hd.1)
    exact of_decide_eq_true hall hd.2
  exact List.exists_cons_of_ne_nil hne

end Taken

section Extent
variable {P : Process} {mh : Addr} {name : Name} {x : Nlist} {rest : List Nlist}

theorem resolverSymbolExtent_taken (h : Taken P mh name x rest) :
    resolverSymbolExtent (P.envOf mh) (P.images mh) name = extentOf (P.envOf mh) (P.images mh) x rest := by
  have hsort : (P.envOf mh).qsort = P.env.qsort := rfl
  unfold resolverSymbolExtent
  rw [hsort,h]

theorem resolverSymbolExtent_none (h : ∀ d, ¬Defines (P.images mh) name d) :
    resolverSymbolExtent (P.envOf mh) (P.images mh) name = none := by
  have hsort : (P.envOf mh).qsort = P.env.qsort := rfl
  unfold resolverSymbolExtent
  rw [hsort]
  cases hx : (P.env.qsort (sectSymbols (P.images mh))).dropWhile fun nl => nl.name ≠ some name with
  | nil => rfl
  | cons x rest =>
    have htaken : Taken P mh name x rest := hx
    exact absurd htaken.defines (h x)

/-- The end that is read off the sorted symbols. -/
def stopOf (M : MachO) (x : Nlist) (rest : List Nlist) : BitVec 64 :=
  let next := ((nextOf x rest).map Nlist.nValue).getD 0
  if next = 0 then sectionEnd M x.nSect.toNat else next

theorem sectionEnd_of_ge {M : MachO} {sect : ℕ} (h : ¬sect < M.sections.length + 1) : sectionEnd M sect = 0 := by
  unfold sectionEnd
  rw [if_neg (by omega),List.getElem?_eq_none (by omega)]
  rfl

theorem extentOf_eq (E : Env) (M : MachO) (x : Nlist) (rest : List Nlist) :
    extentOf E M x rest =
      if stopOf M x rest ≤ x.nValue then none else some (x.nValue + E.slide,stopOf M x rest + E.slide) := by
  have hstop : (if ((nextOf x rest).map Nlist.nValue).getD 0 = 0 ∧ x.nSect.toNat < M.sections.length + 1 then
      sectionEnd M x.nSect.toNat else ((nextOf x rest).map Nlist.nValue).getD 0) = stopOf M x rest := by
    unfold stopOf
    dsimp only
    by_cases hzero : ((nextOf x rest).map Nlist.nValue).getD 0 = 0
    · rw [if_pos hzero]
      by_cases hsect : x.nSect.toNat < M.sections.length + 1
      · rw [if_pos ⟨hzero,hsect⟩]
      · rw [if_neg fun h => hsect h.2,hzero,sectionEnd_of_ge hsect]
    · rw [if_neg hzero,if_neg fun h => hzero h.1]
  rw [← hstop]
  rfl

theorem stopOf_some {M : MachO} {y : Nlist} (hy : nextOf x rest = some y) :
    stopOf M x rest = if y.nValue = 0 then sectionEnd M x.nSect.toNat else y.nValue := by
  unfold stopOf
  rw [hy]
  rfl

theorem stopOf_none {M : MachO} (hy : nextOf x rest = none) : stopOf M x rest = sectionEnd M x.nSect.toNat := by
  unfold stopOf
  rw [hy]
  rfl

theorem Taken.le_next (h : Taken P mh name x rest) {y : Nlist} (hy : nextOf x rest = some y) :
    x.nValue ≤ y.nValue := (h.mem_rest (List.mem_of_find?_eq_some hy)).2

theorem Taken.blocked_iff (h : Taken P mh name x rest) :
    stopOf (P.images mh) x rest ≤ x.nValue ↔ Blocked (P.images mh) x rest := by
  unfold Blocked
  cases hy : nextOf x rest with
  | none =>
    rw [stopOf_none hy]
    simp
  | some y =>
    have hle := h.le_next hy
    rw [stopOf_some hy]
    by_cases hzero : y.nValue = 0
    · rw [if_pos hzero]
      simp [hzero]
    · rw [if_neg hzero]
      have hanti : y.nValue ≤ x.nValue ↔ y.nValue = x.nValue := by
        rw [← BitVec.toNat_inj]
        rw [BitVec.le_def] at hle ⊢
        omega
      refine hanti.trans ⟨fun heq => .inl ⟨y,rfl,hzero,heq⟩,?_⟩
      rintro (⟨z,hz,-,heq⟩ | ⟨hall,-⟩)
      · cases hz
        exact heq
      · exact absurd (hall y rfl) hzero

end Extent

/-! ## Images with one section -/

def byAddress (a b : Nlist) : Prop := a.nValue ≤ b.nValue

instance : DecidableRel byAddress := fun a b => inferInstanceAs (Decidable (a.nValue ≤ b.nValue))
instance : Std.Total byAddress := ⟨fun a b => BitVec.le_total a.nValue b.nValue⟩
instance : IsTrans Nlist byAddress := ⟨fun _ _ _ => BitVec.le_trans⟩

/-- One image without a slide, with a section of 16 bytes and a table. -/
def oneTable (syms : List Nlist) : Process where
  images := fun _ => ⟨true,[.segment ⟨"__TEXT".toList,0x1000,0x1000,0,0x1000,5,[⟨0x1000,16,0⟩]⟩,.symtab (some syms)]⟩
  slide := fun _ => 0
  env := ⟨none,0,List.insertionSort byAddress,4096,fun _ => true⟩
  perm := List.perm_insertionSort byAddress
  sorted := List.pairwise_insertionSort byAddress

section Same
variable {P : Process} {calls : List (Addr × Name)} {mh : Addr} {name : Name}

theorem lookupSymbol_eq {d : Nlist} (h : (sectSymbols (P.images mh)).find? (fun nl => nl.name = some name) = some d) :
    P.lookupSymbol mh name = d.nValue + P.slide mh := by
  unfold Process.lookupSymbol resolverLookupSymbol
  rw [h]
  rfl

/-- After any calls for any images, an extent starts at the address of the lookup if and only if the first
definition in the table has the least address among those of its name, or one of the two fails: the lookup
because that address is zero, the extent because no end follows the symbol the sort puts first. -/
theorem lookup_extent_agree_iff (P : Process) (calls : List (Addr × Name)) (mh : Addr) (name : Name) :
    (∀ start stop, P.lookupSymbol mh name ≠ 0 →
        (P.symbolExtent mh name (P.cacheAfter calls)).1 = some (start,stop) → start = P.lookupSymbol mh name) ↔
      ∀ d, (sectSymbols (P.images mh)).find? (fun nl => nl.name = some name) = some d →
        (∀ d', Defines (P.images mh) name d' → d.nValue ≤ d'.nValue) ∨ d.nValue + P.slide mh = 0 ∨
          ∃ x rest, Taken P mh name x rest ∧ Blocked (P.images mh) x rest := by
  rw [Process.symbolExtent_eq (P.cacheValid_cacheAfter calls)]
  have hdefines : ∀ {d}, (sectSymbols (P.images mh)).find? (fun nl => nl.name = some name) = some d →
      Defines (P.images mh) name d :=
    fun hd => ⟨List.mem_of_find?_eq_some hd,
      of_decide_eq_true (List.find?_some (p := fun nl : Nlist => decide (nl.name = some name)) hd)⟩
  constructor
  · intro hall d hd
    obtain ⟨x,rest,htaken⟩ := exists_taken (hdefines hd)
    by_cases hzero : d.nValue + P.slide mh = 0
    · exact .inr (.inl hzero)
    by_cases hblocked : Blocked (P.images mh) x rest
    · exact .inr (.inr ⟨x,rest,htaken,hblocked⟩)
    refine .inl fun d' hd' => ?_
    have hext := resolverSymbolExtent_taken htaken
    rw [extentOf_eq,if_neg fun h => hblocked (htaken.blocked_iff.mp h)] at hext
    have hstart := hall _ _ (by rwa [lookupSymbol_eq hd]) hext
    rw [lookupSymbol_eq hd] at hstart
    rw [← add_right_cancel hstart]
    exact htaken.le hd'
  · intro hall start stop hlookup hext
    cases hd : (sectSymbols (P.images mh)).find? fun nl => nl.name = some name with
    | none =>
      refine absurd ?_ hlookup
      unfold Process.lookupSymbol resolverLookupSymbol
      rw [hd]
    | some d =>
      obtain ⟨x,rest,htaken⟩ := exists_taken (hdefines hd)
      rw [resolverSymbolExtent_taken htaken,extentOf_eq] at hext
      rw [lookupSymbol_eq hd] at hlookup ⊢
      split_ifs at hext with hstop
      obtain ⟨rfl,-⟩ := Prod.mk.inj (Option.some.inj hext)
      rcases hall d hd with hleast | hzero | ⟨x',rest',htaken',hblocked⟩
      · have hle := hleast x htaken.defines
        have hge := htaken.le (hdefines hd)
        have heq : x.nValue = d.nValue := by
          rw [BitVec.le_def] at hle hge
          exact BitVec.eq_of_toNat_eq (by omega)
        rw [heq]
        rfl
      · exact absurd hzero hlookup
      · obtain ⟨rfl,rfl⟩ := List.cons.inj (htaken.symm.trans htaken')
        exact absurd (htaken.blocked_iff.mpr hblocked) hstop

/-- A name that is defined twice, the second time at a lower address. -/
def twoDefinitions : Process := oneTable [⟨0x0e,1,0x1008,some "f".toList,0⟩,⟨0x0e,1,0x1000,some "f".toList,0⟩]

theorem lookup_extent_disagree :
    twoDefinitions.lookupSymbol 0 "f".toList = 0x1008 ∧
      (twoDefinitions.symbolExtent 0 "f".toList (twoDefinitions.cacheAfter [])).1 = some (0x1000,0x1008) := by
  decide +kernel

end Same

/-- The least greater address of a symbol in the section, or the end of the section if there is none. -/
def IsEnd (M : MachO) (d : Nlist) (stop : BitVec 64) : Prop :=
  (∃ y ∈ sectSymbols M, y.nSect = d.nSect ∧ y.nValue = stop ∧ d.nValue < stop ∧
    ∀ z ∈ sectSymbols M, z.nSect = d.nSect → d.nValue < z.nValue → stop ≤ z.nValue) ∨
  ((∀ z ∈ sectSymbols M, z.nSect = d.nSect → z.nValue ≤ d.nValue) ∧ stop = sectionEnd M d.nSect.toNat)

/-- The section of a symbol ends at or before it. -/
def EndsBefore (M : MachO) (d : Nlist) : Prop := sectionEnd M d.nSect.toNat ≤ d.nValue

/-- What an extent is for: from a definition of the name to the end that belongs to it, and none only if the
name is absent or a section ends too early. -/
def IsExtent (M : MachO) (slide : Addr) (name : Name) : Option (Addr × Addr) → Prop
  | some (start,stop) => ∃ d last, Defines M name d ∧ IsEnd M d last ∧ start = d.nValue + slide ∧ stop = last + slide
  | none => (∀ d, ¬Defines M name d) ∨ ∃ d, Defines M name d ∧ EndsBefore M d

section End
variable {P : Process} {mh : Addr} {name : Name} {x y : Nlist} {rest : List Nlist}

theorem Taken.isEnd_none (h : Taken P mh name x rest) (hy : nextOf x rest = none) :
    IsEnd (P.images mh) x (sectionEnd (P.images mh) x.nSect.toNat) := by
  refine .inr ⟨fun z hz hsect => ?_,rfl⟩
  by_contra hle
  have hlt : x.nValue < z.nValue := BitVec.not_le.mp hle
  have hfound := List.find?_eq_none.mp hy z (h.mem_rest_of_lt hz hlt)
  exact hfound (decide_eq_true hsect)

theorem Taken.isEnd_some (h : Taken P mh name x rest) (hy : nextOf x rest = some y) (hlt : x.nValue < y.nValue) :
    IsEnd (P.images mh) x y.nValue := by
  obtain ⟨hsect,before,behind,hrest,hbefore⟩ := List.find?_eq_some_iff_append.mp hy
  refine .inl ⟨y,(h.mem_rest (List.mem_of_find?_eq_some hy)).1,of_decide_eq_true hsect,rfl,hlt,?_⟩
  intro z hz hzsect hzlt
  have hmem := h.mem_rest_of_lt hz hzlt
  obtain ⟨pre,hsplit,-,-⟩ := h.split
  have hsorted := P.sorted (sectSymbols (P.images mh))
  rw [hsplit,hrest] at hsorted
  have htail := (List.pairwise_cons.mp (List.pairwise_append.mp hsorted).2.1).2
  rw [hrest] at hmem
  rcases List.mem_append.mp hmem with hz' | hz'
  · exact absurd (decide_eq_true hzsect) (by simpa using hbefore z hz')
  · rcases List.mem_cons.mp hz' with rfl | hz'
    · exact BitVec.le_refl _
    · exact (List.pairwise_cons.mp (List.pairwise_append.mp htail).2.1).1 z hz'

theorem not_le_of_pos {a : BitVec 64} (h : a ≠ 0) : ¬a ≤ 0 := by
  rw [BitVec.le_def]
  intro hle
  exact h (BitVec.eq_of_toNat_eq (Nat.le_zero.mp hle))

/-- An alias at the address of the symbol does no harm: at zero the end of the section is right nevertheless,
elsewhere some definition has a section that ends before it. -/
def Harmless (M : MachO) (name : Name) (x : Nlist) : Prop :=
  if x.nValue = 0 then
    sectionEnd M x.nSect.toNat = 0 ∨
      ∃ d, Defines M name d ∧ d.nValue = 0 ∧ IsEnd M d (sectionEnd M x.nSect.toNat)
  else ∃ d, Defines M name d ∧ EndsBefore M d

theorem isExtent_alias_iff {M : MachO} (E : Env) (hx : Defines M name x) (hy : nextOf x rest = some y)
    (hyx : y.nValue = x.nValue) : IsExtent M E.slide name (extentOf E M x rest) ↔ Harmless M name x := by
  rw [extentOf_eq,stopOf_some hy]
  unfold Harmless
  by_cases hzero : x.nValue = 0
  · rw [if_pos (hyx.trans hzero),if_pos hzero,hzero]
    by_cases hend : sectionEnd M x.nSect.toNat = 0
    · have hbefore : EndsBefore M x := by
        rw [EndsBefore,hend,hzero]
        exact BitVec.le_refl _
      rw [if_pos (by rw [hend]; exact BitVec.le_refl _)]
      exact iff_of_true (.inr ⟨x,hx,hbefore⟩) (.inl hend)
    · rw [if_neg (not_le_of_pos hend),or_iff_right hend]
      constructor
      · rintro ⟨d,last,hd,hlast,hstart,hstop⟩
        rw [← add_right_cancel hstop] at hlast
        exact ⟨d,hd,(add_right_cancel hstart).symm,hlast⟩
      · rintro ⟨d,hd,hd0,hlast⟩
        exact ⟨d,_,hd,hlast,by rw [hd0],rfl⟩
  · rw [if_neg fun h => hzero (hyx.symm.trans h),if_neg hzero,hyx,if_pos (BitVec.le_refl _)]
    exact or_iff_right fun h => h x hx

theorem Taken.isExtent_none (h : Taken P mh name x rest) (hy : nextOf x rest = none) :
    IsExtent (P.images mh) (P.slide mh) name (extentOf (P.envOf mh) (P.images mh) x rest) := by
  rw [extentOf_eq,stopOf_none hy]
  split_ifs with hle
  · exact .inr ⟨x,h.defines,hle⟩
  · exact ⟨x,_,h.defines,h.isEnd_none hy,rfl,rfl⟩

theorem Taken.isExtent_some (h : Taken P mh name x rest) (hy : nextOf x rest = some y)
    (hyx : y.nValue ≠ x.nValue) :
    IsExtent (P.images mh) (P.slide mh) name (extentOf (P.envOf mh) (P.images mh) x rest) := by
  have hle := h.le_next hy
  have hlt : x.nValue < y.nValue := by
    rw [← BitVec.toNat_inj.ne] at hyx
    rw [BitVec.le_def] at hle
    rw [BitVec.lt_def]
    omega
  have hzero : y.nValue ≠ 0 := by
    intro hzero
    rw [hzero,BitVec.lt_def] at hlt
    exact Nat.not_lt_zero _ hlt
  rw [extentOf_eq,stopOf_some hy,if_neg hzero,if_neg (BitVec.not_le.mpr hlt)]
  exact ⟨x,_,h.defines,h.isEnd_some hy hlt,rfl,rfl⟩

/-- After any calls for any images, an extent is the one of its symbol if and only if the symbol that the sort
puts first is not followed by one of its section at the same address, or such an alias does no harm. -/
theorem symbolExtent_isExtent_iff (P : Process) (calls : List (Addr × Name)) (mh : Addr) (name : Name) :
    IsExtent (P.images mh) (P.slide mh) name (P.symbolExtent mh name (P.cacheAfter calls)).1 ↔
      ∀ x rest y, Taken P mh name x rest → nextOf x rest = some y → y.nValue = x.nValue →
        Harmless (P.images mh) name x := by
  rw [Process.symbolExtent_eq (P.cacheValid_cacheAfter calls)]
  by_cases hdef : ∃ d, Defines (P.images mh) name d
  · obtain ⟨d,hd⟩ := hdef
    obtain ⟨x,rest,htaken⟩ := exists_taken hd
    have hunique : ∀ {x' rest'}, Taken P mh name x' rest' → x = x' ∧ rest = rest' :=
      fun h => List.cons.inj (htaken.symm.trans h)
    rw [resolverSymbolExtent_taken htaken]
    by_cases halias : ∃ y, nextOf x rest = some y ∧ y.nValue = x.nValue
    · obtain ⟨y,hy,hyx⟩ := halias
      have hiff := isExtent_alias_iff (P.envOf mh) htaken.defines hy hyx
      refine hiff.trans ⟨fun h x' rest' _ htaken' _ _ => ?_,fun h => h x rest y htaken hy hyx⟩
      obtain ⟨rfl,-⟩ := hunique htaken'
      exact h
    · refine iff_of_true ?_ fun x' rest' y htaken' hy hyx => ?_
      · cases hy : nextOf x rest with
        | none => exact htaken.isExtent_none hy
        | some y => exact htaken.isExtent_some hy fun hyx => halias ⟨y,hy,hyx⟩
      · obtain ⟨rfl,rfl⟩ := hunique htaken'
        exact absurd ⟨y,hy,hyx⟩ halias
  · have hnone : ∀ d, ¬Defines (P.images mh) name d := fun d hd => hdef ⟨d,hd⟩
    rw [resolverSymbolExtent_none hnone]
    exact iff_of_true (.inl hnone) fun x rest _ htaken => absurd htaken.defines (hnone x)

end End

/-- A symbol and its alias. -/
def twoNames : Process := oneTable [⟨0x0e,1,0x1000,some "f".toList,0⟩,⟨0x0e,1,0x1000,some "g".toList,0⟩]

theorem not_isExtent_alias :
    ¬IsExtent (twoNames.images 0) 0 "f".toList (twoNames.symbolExtent 0 "f".toList (twoNames.cacheAfter [])).1 := by
  have hnone : (twoNames.symbolExtent 0 "f".toList (twoNames.cacheAfter [])).1 = none := by decide +kernel
  have hends : ∀ d ∈ sectSymbols (twoNames.images 0), ¬sectionEnd (twoNames.images 0) d.nSect.toNat ≤ d.nValue := by
    decide +kernel
  rw [hnone]
  rintro (habsent | ⟨d,hd,hend⟩)
  · exact habsent ⟨0x0e,1,0x1000,some "f".toList,0⟩ ⟨List.mem_cons_self,rfl⟩
  · exact hends d hd.1 hend

end Machismo.Patcher
