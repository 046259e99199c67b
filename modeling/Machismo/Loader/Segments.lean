import Machismo.Trampoline.FunctionStarts

/-! # Where the segments go

Both loaders reserve one range of addresses for the segments of an image and the pool of islands
behind them, and then put every segment with `MAP_FIXED` where its address and the slide say. For an
executable the range goes from the first loadable segment command to the end of the last one; for a
dylib it goes from the lowest address to the highest. What the kernel answers to the reservation is a
parameter.
-/
namespace Machismo.Loader
open A64 Trampoline

structure SegmentCommand where
  segname : Name
  vmaddr : BitVec 64
  vmsize : BitVec 64
  fileoff : BitVec 64
  filesize : BitVec 64
  maxprot : BitVec 32
  initprot : BitVec 32
  sections : List Section
  deriving DecidableEq, Repr

/-- A load command; those that are not `LC_SEGMENT_64` have no segment. -/
structure LoadCommand where
  cmdsize : BitVec 32
  segment : Option SegmentCommand
  deriving DecidableEq, Repr

/-- A header with the `ncmds` commands that follow it. -/
structure MachHeader where
  sizeofcmds : BitVec 32
  commands : List LoadCommand

/-- The commands a loop meets that also stops at `sizeofcmds`. -/
def commandsWithin (sizeofcmds : BitVec 32) : BitVec 32 → List LoadCommand → List LoadCommand
  | _, [] => []
  | p, lc :: commands => if p < sizeofcmds then lc :: commandsWithin sizeofcmds (p + lc.cmdsize) commands else []

/-- The segments a command loop meets. -/
def MachHeader.segments (H : MachHeader) : List SegmentCommand :=
  (commandsWithin H.sizeofcmds 0 H.commands).filterMap LoadCommand.segment

def SegmentCommand.loadable (seg : SegmentCommand) : Bool := seg.segname ≠ "__PAGEZERO".toList

/-- The segments both loaders map. -/
def MachHeader.loadable (H : MachHeader) : List SegmentCommand := H.segments.filter SegmentCommand.loadable

/-- A reserved range, the pool in it and the slide that goes with it. -/
structure Layout where
  reserved : Addr
  totalSize : BitVec 64
  pool : Addr
  poolSize : BitVec 64
  slide : Addr

def machismoPoolPadding : BitVec 64 := 2*1024*1024
def dylibPoolPadding : BitVec 64 := 64*1024

/-- The base before the first loadable segment. -/
def noBase : BitVec 64 := -1

/-- Base and size of the span, updated at every loadable segment. -/
def spanStep (span : BitVec 64 × BitVec 64) (seg : SegmentCommand) : BitVec 64 × BitVec 64 :=
  let base := if span.1 = noBase then seg.vmaddr else span.1
  (base,seg.vmaddr + seg.vmsize - base)

/-- The loop of `load64` over its commands, which does not look at `sizeofcmds`. -/
def MachHeader.span (H : MachHeader) : BitVec 64 × BitVec 64 :=
  ((H.commands.filterMap LoadCommand.segment).filter SegmentCommand.loadable).foldl spanStep (noBase,0)

def pageAligned (pageSz size : BitVec 64) : BitVec 64 := (size + pageSz - 1) &&& ~~~(pageSz - 1)

/-- The layout `load64` chooses if the kernel reserves its range at `reserved`. -/
def load64Layout (pageSz : BitVec 64) (H : MachHeader) (reserved : Addr) : Layout :=
  let base := H.span.1
  let mmapAligned := pageAligned pageSz H.span.2
  { reserved := reserved
    totalSize := mmapAligned + machismoPoolPadding
    pool := reserved + mmapAligned
    poolSize := machismoPoolPadding
    slide := reserved - base }

def vmLow (segs : List SegmentCommand) : BitVec 64 :=
  segs.foldl (fun low seg => if seg.vmaddr < low then seg.vmaddr else low) (-1)

def vmHigh (segs : List SegmentCommand) : BitVec 64 :=
  segs.foldl (fun high seg => if high < seg.vmaddr + seg.vmsize then seg.vmaddr + seg.vmsize else high) 0

def pageRoundup (x : BitVec 64) : BitVec 64 := ((x - 1) / 4096 + 1) * 4096

/-- The layout `dylib_loader_load` chooses; there is none without loadable segments. -/
def dylibLayout (H : MachHeader) (reservation : Addr) : Option Layout :=
  let low := vmLow H.loadable
  let high := vmHigh H.loadable
  if low = -1 ∨ high = 0 then none
  else
    let vmAligned := pageRoundup (high - low)
    some {
      reserved := reservation
      totalSize := vmAligned + dylibPoolPadding
      pool := reservation + vmAligned
      poolSize := dylibPoolPadding
      slide := reservation - low }

/-- A call of `mmap` with `MAP_FIXED`, of anonymous memory or from an offset of the file. -/
structure Mapping where
  addr : Addr
  size : BitVec 64
  prot : BitVec 32
  fileoff : Option (BitVec 64)

def nativeProt (prot : BitVec 32) : BitVec 32 := prot &&& 7
def protExec : BitVec 32 := 4

def SegmentCommand.useProt (seg : SegmentCommand) : BitVec 32 :=
  if nativeProt seg.initprot &&& protExec ≠ 0 then nativeProt seg.maxprot else nativeProt seg.initprot

def load64Mappings (slide : Addr) (fatOffset : BitVec 32) (seg : SegmentCommand) : List Mapping :=
  (if seg.filesize < seg.vmsize then [⟨seg.vmaddr + slide,seg.vmsize,seg.useProt,none⟩] else []) ++
  (if 0 < seg.filesize then
    [⟨seg.vmaddr + slide,seg.filesize,seg.useProt,some (seg.fileoff + fatOffset.setWidth 64)⟩] else [])

def dylibMappings (slide : Addr) (fatOffset : BitVec 32) (seg : SegmentCommand) : List Mapping :=
  (if 0 < seg.vmsize then [⟨seg.vmaddr + slide,seg.vmsize,seg.useProt,none⟩] else []) ++
  (if 0 < seg.filesize then
    [⟨seg.vmaddr + slide,seg.filesize,seg.useProt,some (seg.fileoff + fatOffset.setWidth 64)⟩] else [])

def InRange (x a : Addr) (size : BitVec 64) : Prop := (x - a).toNat < size.toNat

/-- A mapping lies in the reserved range and leaves the pool alone. -/
def Layout.Holds (L : Layout) (M : Mapping) : Prop :=
  ∀ x, InRange x M.addr M.size → InRange x L.reserved L.totalSize ∧ ¬InRange x L.pool L.poolSize

/-- All mappings of an executable do. -/
def MapsInside (pageSz : BitVec 64) (H : MachHeader) (fatOffset : BitVec 32) (reserved : Addr) : Prop :=
  ∀ seg ∈ H.loadable, ∀ M ∈ load64Mappings (load64Layout pageSz H reserved).slide fatOffset seg,
    (load64Layout pageSz H reserved).Holds M

/-- The address the range starts at: that of the first segment (`-1` stands for none yet). -/
def firstAddr (segs : List SegmentCommand) : BitVec 64 :=
  ((segs.find? fun seg => seg.vmaddr ≠ noBase).map SegmentCommand.vmaddr).getD noBase

def lastEnd (segs : List SegmentCommand) : Option (BitVec 64) :=
  segs.getLast?.map fun seg => seg.vmaddr + seg.vmsize

theorem firstAddr_cons (seg : SegmentCommand) (segs : List SegmentCommand) :
    firstAddr (seg :: segs) = if seg.vmaddr = noBase then firstAddr segs else seg.vmaddr := by
  by_cases hseg : seg.vmaddr = noBase <;> simp [firstAddr, hseg]

theorem foldl_spanStep (segs : List SegmentCommand) (base size : BitVec 64) :
    segs.foldl spanStep (base,size) =
      ((if base = noBase then firstAddr segs else base),
        ((lastEnd segs).map fun last => last - (if base = noBase then firstAddr segs else base)).getD size) := by
  induction segs generalizing base size with
  | nil => by_cases hbase : base = noBase <;> simp [firstAddr, lastEnd, hbase]
  | cons seg segs ih =>
    have hfirst : (if (if base = noBase then seg.vmaddr else base) = noBase then firstAddr segs else
        (if base = noBase then seg.vmaddr else base)) = if base = noBase then firstAddr (seg :: segs) else base := by
      rw [firstAddr_cons]
      by_cases hbase : base = noBase <;> simp [hbase]
    rw [List.foldl_cons, spanStep, ih, hfirst]
    cases segs with
    | nil =>
      by_cases hbase : base = noBase
      · by_cases hseg : seg.vmaddr = noBase <;> simp [lastEnd, firstAddr, hbase, hseg]
      · simp [lastEnd, hbase]
    | cons seg' segs =>
      cases hlast : (seg' :: segs).getLast? with
      | none => simp at hlast
      | some last => simp only [lastEnd, List.getLast?_cons_cons, hlast, Option.map_some, Option.getD_some]

/-- All segments that the first loop of `load64` looks at. -/
def MachHeader.announced (H : MachHeader) : List SegmentCommand :=
  (H.commands.filterMap LoadCommand.segment).filter SegmentCommand.loadable

/-- From the first segment to the end of the last one. -/
def MachHeader.firstToLast (H : MachHeader) : BitVec 64 :=
  ((lastEnd H.announced).map fun last => last - firstAddr H.announced).getD 0

theorem span_eq (H : MachHeader) : H.span = (firstAddr H.announced,H.firstToLast) := by
  rw [MachHeader.span, foldl_spanStep]
  rfl

/-- No segment that is mapped starts before the first one or ends after the last one, up to the rest of
its page; and there is room for the pool in the address space. -/
def SpannedByFirstAndLast (pageSz : BitVec 64) (H : MachHeader) : Prop :=
  ∀ seg ∈ H.loadable, 0 < max seg.vmsize.toNat seg.filesize.toNat →
    (seg.vmaddr - firstAddr H.announced).toNat + max seg.vmsize.toNat seg.filesize.toNat ≤
        (pageAligned pageSz H.firstToLast).toNat ∧
      (pageAligned pageSz H.firstToLast).toNat + machismoPoolPadding.toNat < 2^64

theorem inRange_add_iff (r x a : Addr) (size : BitVec 64) : InRange (r + x) (r + a) size ↔ InRange x a size := by
  unfold InRange
  rw [show r + x - (r + a) = x - a by ring]

theorem subset_iff (start size aligned padding : BitVec 64) :
    (∀ x, InRange x start size → InRange x 0#64 (aligned + padding) ∧ ¬InRange x aligned padding) ↔
      (0 < size.toNat → start.toNat + size.toNat ≤ aligned.toNat ∧ aligned.toNat + padding.toNat < 2^64) := by
  unfold InRange
  simp only [BitVec.toNat_sub, BitVec.toNat_add, BitVec.toNat_ofNat]
  constructor
  · intro h hsize
    have hs := h start
    have ha := h aligned
    have := start.isLt
    have := aligned.isLt
    have := padding.isLt
    have := size.isLt
    omega
  · intro h x hx
    have := start.isLt
    have := aligned.isLt
    have := padding.isLt
    have := size.isLt
    have := x.isLt
    have := h (by omega)
    omega

theorem holds_iff {L : Layout} {aligned offset : BitVec 64} (htotal : L.totalSize = aligned + L.poolSize)
    (hpool : L.pool = L.reserved + aligned) {M : Mapping} (haddr : M.addr = L.reserved + offset) :
    L.Holds M ↔ (0 < M.size.toNat → offset.toNat + M.size.toNat ≤ aligned.toNat ∧
      aligned.toNat + L.poolSize.toNat < 2^64) := by
  rw [← subset_iff]
  unfold Layout.Holds
  rw [htotal, hpool, haddr]
  constructor
  · intro h x hx
    have hr := h (L.reserved + x) ((inRange_add_iff _ _ _ _).mpr hx)
    rw [inRange_add_iff] at hr
    rw [← inRange_add_iff L.reserved x 0#64, BitVec.add_zero]
    exact hr
  · intro h x hx
    have hx' : x = L.reserved + (x - L.reserved) := by ring
    rw [hx'] at hx ⊢
    rw [inRange_add_iff] at hx ⊢
    have hr := h _ hx
    rw [← inRange_add_iff L.reserved _ 0#64, BitVec.add_zero] at hr
    exact hr

theorem mem_load64Mappings {slide : Addr} {fatOffset : BitVec 32} {seg : SegmentCommand} {M : Mapping} :
    M ∈ load64Mappings slide fatOffset seg ↔
      seg.filesize < seg.vmsize ∧ M = ⟨seg.vmaddr + slide,seg.vmsize,seg.useProt,none⟩ ∨
      0 < seg.filesize ∧
        M = ⟨seg.vmaddr + slide,seg.filesize,seg.useProt,some (seg.fileoff + fatOffset.setWidth 64)⟩ := by
  unfold load64Mappings
  rw [List.mem_append, List.mem_ite_nil_right, List.mem_ite_nil_right, List.mem_singleton, List.mem_singleton]

theorem load64Mappings_below_iff (slide : Addr) (fatOffset : BitVec 32) (seg : SegmentCommand) (offset bound : ℕ)
    (room : Prop) :
    (∀ M ∈ load64Mappings slide fatOffset seg, 0 < M.size.toNat → offset + M.size.toNat ≤ bound ∧ room) ↔
      (0 < max seg.vmsize.toNat seg.filesize.toNat →
        offset + max seg.vmsize.toNat seg.filesize.toNat ≤ bound ∧ room) := by
  simp only [mem_load64Mappings, BitVec.lt_def, BitVec.ofNat_eq_ofNat, BitVec.toNat_ofNat]
  constructor
  · intro h hpos
    by_cases hfile : seg.filesize.toNat < seg.vmsize.toNat
    · rw [max_eq_left hfile.le] at hpos ⊢
      exact h _ (.inl ⟨hfile,rfl⟩) hpos
    · rw [max_eq_right (by omega)] at hpos ⊢
      exact h _ (.inr ⟨by omega,rfl⟩) hpos
  · rintro h M (⟨hfile,rfl⟩ | ⟨hfile,rfl⟩) hpos
    · obtain ⟨hle,hroom⟩ := h (by omega)
      exact ⟨by dsimp only; omega,hroom⟩
    · obtain ⟨hle,hroom⟩ := h (by omega)
      exact ⟨by dsimp only; omega,hroom⟩

/-- An executable is mapped into its reservation, and not over the pool, exactly if its first and last
segment commands span the others. -/
theorem mapsInside_iff (pageSz : BitVec 64) (H : MachHeader) (fatOffset : BitVec 32) (reserved : Addr) :
    MapsInside pageSz H fatOffset reserved ↔ SpannedByFirstAndLast pageSz H := by
  have hseg : ∀ seg, (∀ M ∈ load64Mappings (load64Layout pageSz H reserved).slide fatOffset seg,
      (load64Layout pageSz H reserved).Holds M) ↔
      ∀ M ∈ load64Mappings (load64Layout pageSz H reserved).slide fatOffset seg, 0 < M.size.toNat →
        (seg.vmaddr - firstAddr H.announced).toNat + M.size.toNat ≤ (pageAligned pageSz H.firstToLast).toNat ∧
        (pageAligned pageSz H.firstToLast).toNat + machismoPoolPadding.toNat < 2^64 := by
    intro seg
    refine forall₂_congr fun M hM => holds_iff ?_ ?_ ?_
    · simp only [load64Layout, span_eq]
    · simp only [load64Layout, span_eq]
    · rcases mem_load64Mappings.mp hM with ⟨-,rfl⟩ | ⟨-,rfl⟩
      all_goals
        simp only [load64Layout, span_eq]
        ring
  unfold MapsInside SpannedByFirstAndLast
  simp only [hseg, load64Mappings_below_iff]

theorem vmLow_le {segs : List SegmentCommand} {seg : SegmentCommand} (h : seg ∈ segs) :
    (vmLow segs).toNat ≤ seg.vmaddr.toNat := by
  have hfold : ∀ (segs : List SegmentCommand) (low : BitVec 64),
      (segs.foldl (fun low seg => if seg.vmaddr < low then seg.vmaddr else low) low).toNat ≤ low.toNat ∧
      ∀ seg ∈ segs,
        (segs.foldl (fun low seg => if seg.vmaddr < low then seg.vmaddr else low) low).toNat ≤ seg.vmaddr.toNat := by
    intro segs
    induction segs with
    | nil => simp
    | cons seg segs ih =>
      intro low
      rw [List.foldl_cons]
      obtain ⟨hlow,hsegs⟩ := ih (if seg.vmaddr < low then seg.vmaddr else low)
      have hmin : (if seg.vmaddr < low then seg.vmaddr else low).toNat = min seg.vmaddr.toNat low.toNat := by
        split <;> rename_i hlt <;> rw [BitVec.lt_def] at hlt <;> omega
      refine ⟨by omega,?_⟩
      rintro seg' (_ | ⟨_,hmem⟩)
      · omega
      · exact hsegs seg' hmem
  exact (hfold segs _).2 seg h

theorem le_vmHigh {segs : List SegmentCommand} {seg : SegmentCommand} (h : seg ∈ segs) :
    (seg.vmaddr + seg.vmsize).toNat ≤ (vmHigh segs).toNat := by
  have hfold : ∀ (segs : List SegmentCommand) (high : BitVec 64),
      high.toNat ≤ (segs.foldl (fun high seg =>
        if high < seg.vmaddr + seg.vmsize then seg.vmaddr + seg.vmsize else high) high).toNat ∧
      ∀ seg ∈ segs, (seg.vmaddr + seg.vmsize).toNat ≤ (segs.foldl (fun high seg =>
        if high < seg.vmaddr + seg.vmsize then seg.vmaddr + seg.vmsize else high) high).toNat := by
    intro segs
    induction segs with
    | nil => simp
    | cons seg segs ih =>
      intro high
      rw [List.foldl_cons]
      obtain ⟨hhigh,hsegs⟩ := ih (if high < seg.vmaddr + seg.vmsize then seg.vmaddr + seg.vmsize else high)
      have hmax : (if high < seg.vmaddr + seg.vmsize then seg.vmaddr + seg.vmsize else high).toNat =
          max (seg.vmaddr + seg.vmsize).toNat high.toNat := by
        split <;> rename_i hlt <;> rw [BitVec.lt_def] at hlt <;> omega
      refine ⟨by omega,?_⟩
      rintro seg' (_ | ⟨_,hmem⟩)
      · omega
      · exact hsegs seg' hmem
  exact (hfold segs _).2 seg h

theorem le_pageRoundup {x : BitVec 64} (h : x.toNat + 4096 ≤ 2^64) :
    x.toNat ≤ (pageRoundup x).toNat ∧ (pageRoundup x).toNat < x.toNat + 4096 := by
  unfold pageRoundup
  simp only [BitVec.toNat_mul, BitVec.toNat_add, BitVec.toNat_udiv, BitVec.toNat_sub, BitVec.ofNat_eq_ofNat,
    BitVec.toNat_ofNat, Nat.reducePow, Nat.reduceMod]
  have := x.isLt
  omega

/-- A dylib is always mapped into its reservation, whatever the order of its segments. -/
theorem dylibLayout_holds {H : MachHeader} {reservation : Addr} {L : Layout} (fatOffset : BitVec 32)
    (hL : dylibLayout H reservation = some L)
    (hsegs : ∀ seg ∈ H.loadable, seg.vmaddr.toNat + seg.vmsize.toNat < 2^64 ∧ seg.filesize ≤ seg.vmsize)
    (hspan : (vmHigh H.loadable).toNat - (vmLow H.loadable).toNat + 4096 + dylibPoolPadding.toNat ≤ 2^64) :
    ∀ seg ∈ H.loadable, ∀ M ∈ dylibMappings L.slide fatOffset seg, L.Holds M := by
  intro seg hseg M hM
  unfold dylibLayout at hL
  dsimp only at hL
  split at hL
  · cases hL
  · have hlow := vmLow_le hseg
    have hhigh := le_vmHigh hseg
    obtain ⟨hwrap,hfile⟩ := hsegs seg hseg
    rw [BitVec.toNat_add, Nat.mod_eq_of_lt hwrap] at hhigh
    have hsub : (vmHigh H.loadable - vmLow H.loadable).toNat =
        (vmHigh H.loadable).toNat - (vmLow H.loadable).toNat := BitVec.toNat_sub_of_le (by
          rw [BitVec.le_def]
          omega)
    have hoff : (seg.vmaddr - vmLow H.loadable).toNat = seg.vmaddr.toNat - (vmLow H.loadable).toNat :=
      BitVec.toNat_sub_of_le hlow
    obtain ⟨hround,hround'⟩ := le_pageRoundup (x := vmHigh H.loadable - vmLow H.loadable) (by omega)
    have hM' : M.addr = seg.vmaddr + L.slide ∧ M.size.toNat ≤ seg.vmsize.toNat := by
      rw [BitVec.le_def] at hfile
      unfold dylibMappings at hM
      rw [List.mem_append, List.mem_ite_nil_right, List.mem_ite_nil_right, List.mem_singleton,
        List.mem_singleton] at hM
      rcases hM with ⟨-,rfl⟩ | ⟨-,rfl⟩
      · exact ⟨rfl,le_rfl⟩
      · exact ⟨rfl,hfile⟩
    cases hL
    have haddr : M.addr = reservation + (seg.vmaddr - vmLow H.loadable) := by
      rw [hM'.1]
      ring
    apply (holds_iff rfl rfl haddr).mpr
    intro _
    dsimp only
    omega

/-- `__DATA` before `__TEXT`, with one page each. -/
def dataFirst : MachHeader where
  sizeofcmds := 144
  commands := [⟨72,some ⟨"__DATA".toList,0x100004000,0x4000,0x4000,0x4000,3,3,[]⟩⟩,
    ⟨72,some ⟨"__TEXT".toList,0x100000000,0x4000,0,0x4000,5,5,[]⟩⟩]

/-- An executable with its segments in this order is not mapped into the reservation; a dylib is. -/
theorem dataFirst_outside :
    ¬MapsInside 4096 dataFirst 0 0x100004000 ∧
      ∀ L, dylibLayout dataFirst 0x200000000 = some L →
        ∀ seg ∈ dataFirst.loadable, ∀ M ∈ dylibMappings L.slide 0 seg, L.Holds M := by
  constructor
  · rw [mapsInside_iff]
    intro h
    have hdata := h ⟨"__TEXT".toList,0x100000000,0x4000,0,0x4000,5,5,[]⟩ (by decide) (by decide)
    revert hdata
    decide
  · intro L hL
    exact dylibLayout_holds 0 hL (by decide) (by decide)

end Machismo.Loader
