import Machismo.A64.Memory

/-! # Fat binaries

A fat binary starts with a table of slices. The loader of the main executable and the loader of
dylibs each read this table with a loop of their own: the first keeps the last slice for arm64, the
second returns at the first one. A file is the list of its bytes; `read` hands out as many of them as
there are.
-/
namespace Machismo.Loader
open A64

def fatMagic : BitVec 32 := 0xcafebabe
def fatCigam : BitVec 32 := 0xbebafeca
def cpuTypeAny : BitVec 32 := -1
def cpuArchAbi64 : BitVec 32 := 0x01000000
def cpuTypeArm64 : BitVec 32 := 12 ||| cpuArchAbi64

structure FatArch where
  cputype : BitVec 32
  cpusubtype : BitVec 32
  offset : BitVec 32
  size : BitVec 32
  align : BitVec 32
  deriving DecidableEq, Repr

/-- The little-endian word of the first four bytes. -/
def word32 : List Byte → BitVec 32
  | b0 :: b1 :: b2 :: b3 :: _ => b3 ++ b2 ++ b1 ++ b0
  | _ => 0

def bswap32 (w : BitVec 32) : BitVec 32 :=
  w.extractLsb' 0 8 ++ w.extractLsb' 8 8 ++ w.extractLsb' 16 8 ++ w.extractLsb' 24 8

def swap32 (swap : Bool) (w : BitVec 32) : BitVec 32 := if swap then bswap32 w else w

/-- A record of the table, in the byte order of the machine. -/
def fatArchOf (swap : Bool) (bytes : List Byte) : FatArch where
  cputype := swap32 swap (word32 bytes)
  cpusubtype := swap32 swap (word32 (bytes.drop 4))
  offset := swap32 swap (word32 (bytes.drop 8))
  size := swap32 swap (word32 (bytes.drop 12))
  align := swap32 swap (word32 (bytes.drop 16))

/-- One `read` of a record: `none` if fewer than its 20 bytes are left. -/
def readFatArch (swap : Bool) (file : List Byte) : Option (FatArch × List Byte) :=
  if (file.take 20).length ≠ 20 then none else some (fatArchOf swap (file.take 20),file.drop 20)

def loadFatLoop (swap : Bool) (forcedArch : BitVec 32) : ℕ → FatArch → List Byte → Option FatArch
  | 0, best, _ => some best
  | n + 1, best, file =>
    match readFatArch swap file with
    | none => none
    | some (arch,file) =>
      if forcedArch = 0 then
        loadFatLoop swap forcedArch n (if arch.cputype = cpuTypeArm64 then arch else best) file
      else
        loadFatLoop swap forcedArch n (if arch.cputype = forcedArch then arch else best) file

/-- The offset from which `load_fat` loads its slice; `none` where it exits. -/
def loadFat (forcedArch : BitVec 32) (file : List Byte) : Option (BitVec 32) :=
  if (file.take 8).length ≠ 8 then none
  else
    let swap : Bool := word32 file = fatCigam
    let nfatArch := swap32 swap (word32 (file.drop 4))
    match loadFatLoop swap forcedArch nfatArch.toNat ⟨cpuTypeAny,0,0,0,0⟩ (file.drop 8) with
    | none => none
    | some best =>
      if best.cputype = cpuTypeAny then none
      else if best.cputype &&& cpuArchAbi64 ≠ 0 then some best.offset
      else none

def findArm64Loop (swap : Bool) : ℕ → List Byte → Option (BitVec 32 × BitVec 32)
  | 0, _ => none
  | n + 1, file =>
    match readFatArch swap file with
    | none => none
    | some (fa,file) => if fa.cputype = cpuTypeArm64 then some (fa.offset,fa.size) else findArm64Loop swap n file

/-- Offset and size of the slice. `stale` are the bytes `narch` has before it is read: the result of
this `read` is not checked. -/
def findArm64Slice (stale : List Byte) (file : List Byte) : Option (BitVec 32 × BitVec 32) :=
  if (file.take 4).length ≠ 4 then none
  else
    let magic := word32 file
    if magic = fatMagic ∨ magic = fatCigam then
      let swap : Bool := magic = fatCigam
      let got := (file.drop 4).take 4
      let narch := swap32 swap (word32 (got ++ stale.drop got.length))
      findArm64Loop swap narch.toNat (file.drop 8)
    else some (0,BitVec.ofNat 32 file.length)

def IsFat (file : List Byte) : Prop := 4 ≤ file.length ∧ (word32 file = fatMagic ∨ word32 file = fatCigam)

instance (file : List Byte) : Decidable (IsFat file) := inferInstanceAs (Decidable (_ ∧ _))

/-- The records the file holds, of the `n` it announces. -/
def fatRecords (swap : Bool) : ℕ → List Byte → List FatArch
  | 0, _ => []
  | n + 1, file =>
    match readFatArch swap file with
    | none => []
    | some (arch,file) => arch :: fatRecords swap n file

def fatSwap (file : List Byte) : Bool := word32 file = fatCigam
def nfatArch (file : List Byte) : ℕ := (swap32 (fatSwap file) (word32 (file.drop 4))).toNat
def fatTable (file : List Byte) : List FatArch := fatRecords (fatSwap file) (nfatArch file) (file.drop 8)
def arm64Slices (file : List Byte) : List FatArch := (fatTable file).filter fun arch => arch.cputype = cpuTypeArm64

/-- The table has no arm64 slice, or it is complete and its first and last arm64 slices start at one offset. -/
def OneArm64Slice (file : List Byte) : Prop :=
  arm64Slices file = [] ∨ (fatTable file).length = nfatArch file ∧
    (arm64Slices file).head?.map FatArch.offset = (arm64Slices file).getLast?.map FatArch.offset

instance (file : List Byte) : Decidable (OneArm64Slice file) := inferInstanceAs (Decidable (_ ∨ _))

theorem loadFatLoop_eq (swap : Bool) (n : ℕ) (best : FatArch) (file : List Byte) :
    loadFatLoop swap 0 n best file =
      if (fatRecords swap n file).length = n then
        some (((fatRecords swap n file).filter fun arch => arch.cputype = cpuTypeArm64).getLast?.getD best)
      else none := by
  induction n generalizing best file with
  | zero => simp [loadFatLoop, fatRecords]
  | succ n ih =>
    unfold loadFatLoop fatRecords
    cases readFatArch swap file with
    | none => simp
    | some r =>
      obtain ⟨arch,rest⟩ := r
      simp only [↓reduceIte, ih, List.length_cons, Nat.add_right_cancel_iff]
      by_cases harm : arch.cputype = cpuTypeArm64
      · simp [harm, List.getLast?_cons]
      · simp [harm]

theorem findArm64Loop_eq (swap : Bool) (n : ℕ) (file : List Byte) :
    findArm64Loop swap n file =
      ((fatRecords swap n file).filter fun arch => arch.cputype = cpuTypeArm64).head?.map
        fun arch => (arch.offset,arch.size) := by
  induction n generalizing file with
  | zero => rfl
  | succ n ih =>
    unfold findArm64Loop fatRecords
    cases readFatArch swap file with
    | none => rfl
    | some r =>
      obtain ⟨arch,rest⟩ := r
      by_cases harm : arch.cputype = cpuTypeArm64
      · simp [harm]
      · simp [harm, ih]

theorem fatRecords_of_short (swap : Bool) (n : ℕ) {file : List Byte} (h : file.length < 20) :
    fatRecords swap n file = [] := by
  cases n with
  | zero => rfl
  | succ n =>
    have hread : readFatArch swap file = none := if_pos (by rw [List.length_take]; omega)
    simp [fatRecords, hread]

theorem cputype_of_mem {file : List Byte} {arch : FatArch} (h : arch ∈ arm64Slices file) :
    arch.cputype = cpuTypeArm64 := by simpa using (List.mem_filter.mp h).2

theorem loadFat_eq (file : List Byte) :
    loadFat 0 file =
      if (fatTable file).length = nfatArch file then (arm64Slices file).getLast?.map FatArch.offset else none := by
  unfold loadFat
  split
  next hshort =>
    have hlen : file.length < 8 := by
      rw [List.length_take] at hshort
      omega
    have hnil : fatTable file = [] := fatRecords_of_short _ _ (by rw [List.length_drop]; omega)
    simp [arm64Slices, hnil]
  next =>
    have hloop : loadFatLoop (word32 file = fatCigam) 0
          (swap32 (word32 file = fatCigam) (word32 (file.drop 4))).toNat ⟨cpuTypeAny,0,0,0,0⟩ (file.drop 8) =
        if (fatTable file).length = nfatArch file then
          some ((arm64Slices file).getLast?.getD ⟨cpuTypeAny,0,0,0,0⟩)
        else none := loadFatLoop_eq _ _ _ _
    simp only [hloop]
    by_cases hfull : (fatTable file).length = nfatArch file
    · rw [if_pos hfull, if_pos hfull]
      cases hlast : (arm64Slices file).getLast? with
      | none => rfl
      | some arch =>
        have harm := cputype_of_mem (List.mem_of_getLast? hlast)
        simp only [Option.getD_some, harm]
        rfl
    · rw [if_neg hfull, if_neg hfull]

theorem findArm64Slice_eq (stale : List Byte) {file : List Byte} (h : IsFat file) :
    (findArm64Slice stale file).map Prod.fst = (arm64Slices file).head?.map FatArch.offset := by
  obtain ⟨hlen,hmagic⟩ := h
  have htake : (file.take 4).length = 4 := by rw [List.length_take]; omega
  simp only [findArm64Slice, htake, ne_eq, not_true_eq_false, ↓reduceIte, hmagic, findArm64Loop_eq, Option.map_map]
  by_cases h8 : 8 ≤ file.length
  · have hgot : ((file.drop 4).take 4).length = 4 := by
      rw [List.length_take, List.length_drop]
      omega
    have hnarch : word32 ((file.drop 4).take 4 ++ stale.drop 4) = word32 (file.drop 4) := by
      obtain ⟨b0,b1,b2,b3,rest,hd⟩ : ∃ b0 b1 b2 b3 rest, file.drop 4 = b0 :: b1 :: b2 :: b3 :: rest := by
        rcases hd : file.drop 4 with _ | ⟨b0,_ | ⟨b1,_ | ⟨b2,_ | ⟨b3,rest⟩⟩⟩⟩ <;>
          first | exact ⟨_,_,_,_,_,rfl⟩ | (rw [hd] at hgot; simp at hgot)
      rw [hd]
      rfl
    rw [hgot, hnarch]
    rfl
  · have hdrop : (file.drop 8).length < 20 := by
      rw [List.length_drop]
      omega
    simp [arm64Slices, fatTable, fatRecords_of_short _ _ hdrop]

/-- The two loaders agree on a fat binary exactly if it has one arm64 slice, counted by offset, in a
complete table, or none. -/
theorem loadFat_eq_findArm64Slice_iff (stale : List Byte) (file : List Byte) (h : IsFat file) :
    loadFat 0 file = (findArm64Slice stale file).map Prod.fst ↔ OneArm64Slice file := by
  rw [loadFat_eq, findArm64Slice_eq stale h]
  unfold OneArm64Slice
  constructor
  · intro heq
    cases hslices : arm64Slices file with
    | nil => exact .inl rfl
    | cons arch rest =>
      rw [hslices] at heq
      split at heq
      next hfull => exact .inr ⟨hfull,heq.symm⟩
      next => cases heq
  · rintro (hnil | ⟨hfull,heq⟩)
    · simp [hnil]
    · rw [if_pos hfull, heq]

/-- A big-endian fat binary with the given records (CPU type, subtype, offset, size). -/
def fatFile (archs : List (BitVec 32 × BitVec 32 × BitVec 32 × BitVec 32)) : List Byte :=
  let be := fun (w : BitVec 32) => [w.extractLsb' 24 8,w.extractLsb' 16 8,w.extractLsb' 8 8,w.extractLsb' 0 8]
  be fatMagic ++ be (BitVec.ofNat 32 archs.length) ++
    archs.flatMap fun a => be a.1 ++ be a.2.1 ++ be a.2.2.1 ++ be a.2.2.2 ++ be 14

theorem x86_arm64_slice_agrees :
    IsFat (fatFile [(0x01000007,3,0x4000,0x1000),(cpuTypeArm64,0,0x8000,0x1000)]) ∧
      loadFat 0 (fatFile [(0x01000007,3,0x4000,0x1000),(cpuTypeArm64,0,0x8000,0x1000)]) =
        (findArm64Slice [0,0,0,0] (fatFile [(0x01000007,3,0x4000,0x1000),(cpuTypeArm64,0,0x8000,0x1000)])).map
          Prod.fst :=
  ⟨by decide,(loadFat_eq_findArm64Slice_iff _ _ (by decide)).mpr (by decide)⟩

/-- With slices for arm64 and arm64e the executable is loaded from the second, a dylib from the first. -/
theorem arm64e_slice_differs :
    IsFat (fatFile [(cpuTypeArm64,0,0x4000,0x1000),(cpuTypeArm64,0x80000002,0x8000,0x1000)]) ∧
      loadFat 0 (fatFile [(cpuTypeArm64,0,0x4000,0x1000),(cpuTypeArm64,0x80000002,0x8000,0x1000)]) = some 0x8000 ∧
      loadFat 0 (fatFile [(cpuTypeArm64,0,0x4000,0x1000),(cpuTypeArm64,0x80000002,0x8000,0x1000)]) ≠
        (findArm64Slice [0,0,0,0]
          (fatFile [(cpuTypeArm64,0,0x4000,0x1000),(cpuTypeArm64,0x80000002,0x8000,0x1000)])).map Prod.fst := by
  decide

end Machismo.Loader
