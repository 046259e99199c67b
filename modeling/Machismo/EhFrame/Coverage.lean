import Machismo.EhFrame.Capacity

/-! # Which program counters are covered

In a section whose entries are in order, an entry reaches to the next one, and by the convention of the
code the last one is 256 bytes long. The emitted section covers exactly the program counters of the
entries that are not skipped, each by one frame descriptor entry with the instructions of its encoding.
-/
namespace Machismo.EhFrame
open A64 (Byte)
open Data Dwarf

/-- The test of the unwinders for the entry of a program counter. -/
def covers (fde : Fde) (pc : BitVec 64) : Prop := (pc - BitVec.ofNat 64 fde.location).toNat < fde.range

instance (fde : Fde) (pc : BitVec 64) : Decidable (covers fde pc) := inferInstanceAs (Decidable (_ < _))

/-- The entries with the offsets where they stop; `last` gives it for the last one. -/
def withStops (last : CuEntry → ℕ) : List CuEntry → List (CuEntry × ℕ)
  | [] => []
  | [e] => [(e,last e)]
  | e :: e' :: es => (e,e'.funcOffset.toNat) :: withStops last (e' :: es)

def InRange (base pc : BitVec 64) (r : CuEntry × ℕ) : Prop :=
  r.1.funcOffset.toNat ≤ (pc - base).toNat ∧ (pc - base).toNat < r.2

/-- The entries of a section are in order, and the last record of the index ends them. -/
structure WellFormed (u : UnwindInfo) : Prop where
  version : u.version = 1
  sentinel : u.indexCount ≠ 0 ∧
    ∀ e ∈ compactEntries u, e.funcOffset ≤ (u.index (u.indexCount.toNat - 1)).functionOffset
  sorted : (compactEntries u).Pairwise fun e e' => e.funcOffset ≤ e'.funcOffset

/-- The frame descriptor entries that are registered; none where nothing is emitted. -/
def registeredFdes (I : Image) : List Fde := ((ehFrameRegisterMacho I).map fun r => fdesOf r.2.buf).getD []

def defaultStop (e : CuEntry) : ℕ := e.funcOffset.toNat + 256

def withSize (r : CuEntry × ℕ) : CuEntry := { r.1 with funcSize := BitVec.ofNat 32 (r.2 - r.1.funcOffset.toNat) }

section Stops
variable {es : List CuEntry}

theorem setSizes_eq (h : es.Pairwise fun e e' => e.funcOffset ≤ e'.funcOffset) :
    setSizes es = (withStops defaultStop es).map withSize := by
  induction es with
  | nil => rfl
  | cons e es ih =>
    cases es with
    | nil => simp [setSizes, withStops, withSize, defaultStop]
    | cons e' es =>
      have hle : e.funcOffset ≤ e'.funcOffset := (List.pairwise_cons.mp h).1 e' List.mem_cons_self
      have hsub : e'.funcOffset - e.funcOffset = BitVec.ofNat 32 (e'.funcOffset.toNat - e.funcOffset.toNat) := by
        apply BitVec.eq_of_toNat_eq
        have := e'.funcOffset.isLt
        rw [BitVec.toNat_sub_of_le hle, BitVec.toNat_ofNat]
        omega
      rw [setSizes, ih (List.pairwise_cons.mp h).2, withStops, List.map_cons, withSize, hsub]

theorem withStops_bounds (h : es.Pairwise fun e e' => e.funcOffset ≤ e'.funcOffset) :
    ∀ r ∈ withStops defaultStop es, r.1 ∈ es ∧ r.1.funcOffset.toNat ≤ r.2 ∧ r.2 < r.1.funcOffset.toNat + 2^32 := by
  induction es with
  | nil => simp [withStops]
  | cons e es ih =>
    cases es with
    | nil => simp [withStops, defaultStop]
    | cons e' es =>
      have hle : e.funcOffset ≤ e'.funcOffset := (List.pairwise_cons.mp h).1 e' List.mem_cons_self
      rw [BitVec.le_def] at hle
      intro r hr
      rcases List.mem_cons.mp hr with rfl | hr
      · have := e'.funcOffset.isLt
        refine ⟨List.mem_cons_self,hle,?_⟩
        dsimp only
        omega
      · obtain ⟨hmem,hbounds⟩ := ih (List.pairwise_cons.mp h).2 r hr
        exact ⟨List.mem_cons_of_mem _ hmem,hbounds⟩

theorem withStops_pairwise (h : es.Pairwise fun e e' => e.funcOffset ≤ e'.funcOffset) :
    (withStops defaultStop es).Pairwise fun r r' => r.2 ≤ r'.1.funcOffset.toNat := by
  induction es with
  | nil => exact .nil
  | cons e es ih =>
    cases es with
    | nil => exact List.pairwise_singleton _ _
    | cons e' es =>
      obtain ⟨-,htail⟩ := List.pairwise_cons.mp h
      refine List.pairwise_cons.mpr ⟨fun r hr => ?_,ih htail⟩
      rcases List.mem_cons.mp (withStops_bounds htail r hr).1 with heq | hmem
      · rw [heq]
      · exact (List.pairwise_cons.mp htail).1 r.1 hmem

end Stops

instance (base pc : BitVec 64) (r : CuEntry × ℕ) : Decidable (InRange base pc r) := inferInstanceAs (Decidable (_ ∧ _))

theorem covers_iff {base pc : BitVec 64} {r : CuEntry × ℕ} {fde : Fde} (hle : r.1.funcOffset.toNat ≤ r.2)
    (hlt : r.2 < r.1.funcOffset.toNat + 2^32) (h : Describes base (withSize r) fde) :
    covers fde pc ↔ InRange base pc r := by
  obtain ⟨hloc,hrange,-⟩ := h
  have hsize : (withSize r).funcSize.toNat = r.2 - r.1.funcOffset.toNat := by
    unfold withSize
    rw [BitVec.toNat_ofNat]
    omega
  have hoff : (r.1.funcOffset.setWidth 64).toNat = r.1.funcOffset.toNat := BitVec.toNat_setWidth_of_le (by decide)
  have hpc : pc - BitVec.ofNat 64 fde.location = pc - base - r.1.funcOffset.setWidth 64 := by
    rw [hloc, BitVec.ofNat_toNat, BitVec.setWidth_eq]
    exact sub_add_eq_sub_sub _ _ _
  have := r.1.funcOffset.isLt
  have := (pc - base).isLt
  rw [covers, InRange, hrange, hsize, hpc, BitVec.toNat_sub, hoff]
  omega

/-- A range and the frame descriptor entry for it. -/
def CoveredBy (base : BitVec 64) (r : CuEntry × ℕ) (fde : Fde) : Prop :=
  (∀ pc, covers fde pc ↔ InRange base pc r) ∧ ∃ n, fde.insns = r.1.cfiInsns ++ List.replicate n .nop

section Forall₂
variable {α β : Type*} {R : α → β → Prop} {l : List α} {l' : List β}

theorem exists_right_of_forall₂ (h : List.Forall₂ R l l') {a : α} (ha : a ∈ l) : ∃ b ∈ l', R a b := by
  induction h with
  | nil => cases ha
  | @cons a' b l l' hab _ ih =>
    rcases List.mem_cons.mp ha with rfl | ha
    · exact ⟨b,List.mem_cons_self,hab⟩
    · obtain ⟨b',hb',hab'⟩ := ih ha
      exact ⟨b',List.mem_cons_of_mem _ hb',hab'⟩

theorem exists_left_of_forall₂ (h : List.Forall₂ R l l') {b : β} (hb : b ∈ l') : ∃ a ∈ l, R a b :=
  exists_right_of_forall₂ h.flip hb

theorem pairwise_of_forall₂ {P : α → α → Prop} {Q : β → β → Prop} (h : List.Forall₂ R l l') (hp : l.Pairwise P)
    (hstep : ∀ a a' b b', R a b → R a' b' → P a a' → Q b b') : l'.Pairwise Q := by
  induction h with
  | nil => exact .nil
  | @cons a b l l' hab htail ih =>
    obtain ⟨ha,hl⟩ := List.pairwise_cons.mp hp
    refine List.pairwise_cons.mpr ⟨fun b' hb' => ?_,ih hl⟩
    obtain ⟨a',ha',hab'⟩ := exists_left_of_forall₂ htail hb'
    exact hstep a a' b b' hab hab' (ha a' ha')

end Forall₂

/-- The registered entries are those of the ranges that are not skipped, in their order. -/
theorem registeredFdes_coveredBy {I : Image} (h : WellFormed I.info) (hcount : (compactEntries I.info).length < 2^31) :
    List.Forall₂ (CoveredBy I.base) ((withStops defaultStop (compactEntries I.info)).filter fun r => !r.1.skipped)
      (registeredFdes I) := by
  have hall := firstEntries_eq hcount
  by_cases hne : compactEntries I.info = []
  · have hnone : ehFrameRegisterMacho I = none := by
      rw [ehFrameRegisterMacho, collectEntriesInt_eq h.version, hall, hne]
      rfl
    rw [registeredFdes, hnone, hne]
    exact .nil
  · obtain ⟨hdesc,-⟩ := emitSection_spec I.base I.personalities (setSizes (sortEntries (compactEntries I.info)))
    rw [registeredFdes, ehFrameRegisterMacho_eq h.version (by omega) (hall ▸ hne), hall]
    dsimp only [Option.map_some, Option.getD_some]
    rw [sortEntries_of_sorted h.sorted, setSizes_eq h.sorted, List.filter_map, List.forall₂_map_left_iff] at hdesc
    rw [sortEntries_of_sorted h.sorted, setSizes_eq h.sorted]
    have hbounds : ∀ r ∈ (withStops defaultStop (compactEntries I.info)).filter fun r => !r.1.skipped,
        r.1.funcOffset.toNat ≤ r.2 ∧ r.2 < r.1.funcOffset.toNat + 2^32 :=
      fun r hr => (withStops_bounds h.sorted r (List.mem_filter.mp hr).1).2
    refine ((List.forall₂_and_left _ _).mpr ⟨hbounds,hdesc⟩).imp ?_
    rintro r fde ⟨⟨hle,hlt⟩,hdesc⟩
    exact ⟨fun pc => covers_iff hle hlt hdesc,hdesc.2.2⟩

/-- The program counters that are covered are those of the entries which are neither in the native
`__eh_frame` nor continuations; no two entries cover the same one, and each has the instructions of the
encoding of its own entry. The entries are as many as the counter of `collect_entries` can count. -/
theorem registeredFdes_covers {I : Image} (h : WellFormed I.info) (hcount : (compactEntries I.info).length < 2^31) :
    (∀ pc, (∃ fde ∈ registeredFdes I, covers fde pc) ↔
      ∃ r ∈ withStops defaultStop (compactEntries I.info), r.1.skipped = false ∧ InRange I.base pc r) ∧
    (registeredFdes I).Pairwise (fun f g => ∀ pc, ¬(covers f pc ∧ covers g pc)) ∧
    ∀ fde ∈ registeredFdes I, ∀ pc, covers fde pc →
      ∃ r ∈ withStops defaultStop (compactEntries I.info), r.1.skipped = false ∧ InRange I.base pc r ∧
        ∃ n, fde.insns = r.1.cfiInsns ++ List.replicate n .nop := by
  have hfdes := registeredFdes_coveredBy h hcount
  have hfilter : ∀ r, r ∈ (withStops defaultStop (compactEntries I.info)).filter (fun r => !r.1.skipped) ↔
      r ∈ withStops defaultStop (compactEntries I.info) ∧ r.1.skipped = false := by
    intro r
    simp
  have hown : ∀ fde ∈ registeredFdes I, ∀ pc, covers fde pc →
      ∃ r ∈ withStops defaultStop (compactEntries I.info), r.1.skipped = false ∧ InRange I.base pc r ∧
        ∃ n, fde.insns = r.1.cfiInsns ++ List.replicate n .nop := by
    intro fde hfde pc hpc
    obtain ⟨r,hr,hcovers,hinsns⟩ := exists_left_of_forall₂ hfdes hfde
    obtain ⟨hmem,hskip⟩ := (hfilter r).mp hr
    exact ⟨r,hmem,hskip,(hcovers pc).mp hpc,hinsns⟩
  refine ⟨fun pc => ⟨?_,?_⟩,?_,hown⟩
  · rintro ⟨fde,hfde,hpc⟩
    obtain ⟨r,hr,hskip,hin,-⟩ := hown fde hfde pc hpc
    exact ⟨r,hr,hskip,hin⟩
  · rintro ⟨r,hr,hskip,hin⟩
    obtain ⟨fde,hfde,hcovers,-⟩ := exists_right_of_forall₂ hfdes ((hfilter r).mpr ⟨hr,hskip⟩)
    exact ⟨fde,hfde,(hcovers pc).mpr hin⟩
  · refine pairwise_of_forall₂ hfdes ((withStops_pairwise h.sorted).filter _) ?_
    rintro r r' f g ⟨hf,-⟩ ⟨hg,-⟩ hle pc ⟨hpc,hpc'⟩
    have hin := (hf pc).mp hpc
    have hin' := (hg pc).mp hpc'
    have := hin.2
    have := hin'.1
    omega

theorem oneFunction_wellFormed : WellFormed oneFunction.info := ⟨by decide,by decide,by decide⟩

theorem oneFunction_covered : ∃ fde ∈ registeredFdes oneFunction, covers fde 0x100001040 :=
  ((registeredFdes_covers oneFunction_wellFormed (by decide)).1 0x100001040).mpr (by decide)

theorem not_covered {I : Image} (h : WellFormed I.info) (hcount : (compactEntries I.info).length < 2^31)
    {pc : BitVec 64} (hpc : ∀ r ∈ (withStops defaultStop (compactEntries I.info)).filter fun r => !r.1.skipped,
      ¬InRange I.base pc r) :
    ¬∃ fde ∈ registeredFdes I, covers fde pc := by
  rintro ⟨fde,hfde,hcovers⟩
  obtain ⟨r,hr,hrange,-⟩ := exists_left_of_forall₂ (registeredFdes_coveredBy h hcount) hfde
  exact hpc r hr ((hrange pc).mp hcovers)

/-- A page with a function and its continuation. -/
def continued : Image where
  base := 0x100000000
  info := {
    bytes := fun x => ((List.map (leBytes 4) [1,28,0,28,0,28,2,0x1000,52,76,0x2000,0,76,2,0x20008,0x1000,0x04000000,
      0x1100,0x84000000]).flatten).getD x 0
    size := 76 }
  got := fun _ => 0

theorem continued_wellFormed : WellFormed continued.info := ⟨by decide,by decide,by decide⟩

/-- The only function of the first image lies between its entry and the last record of the index, but a
program counter after its first 256 bytes is not covered; and no program counter of a continuation is. -/
theorem registeredFdes_not_covers :
    (¬∀ pc, (∃ fde ∈ registeredFdes oneFunction, covers fde pc) ↔
      ∃ r ∈ withStops (fun _ => (oneFunction.info.index (oneFunction.info.indexCount.toNat - 1)).functionOffset.toNat)
        (compactEntries oneFunction.info), r.1.mode ≠ unwindArm64ModeDwarf ∧ InRange oneFunction.base pc r) ∧
    ¬∀ pc, (∃ fde ∈ registeredFdes continued, covers fde pc) ↔
      ∃ r ∈ withStops defaultStop (compactEntries continued.info),
        r.1.mode ≠ unwindArm64ModeDwarf ∧ InRange continued.base pc r := by
  constructor
  · intro h
    exact not_covered oneFunction_wellFormed (by decide) (by decide) ((h 0x100001100).mpr (by decide))
  · intro h
    exact not_covered continued_wellFormed (by decide) (by decide) ((h 0x100001100).mpr (by decide))

end Machismo.EhFrame
