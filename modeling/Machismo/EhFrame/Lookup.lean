import Machismo.EhFrame.Capacity

/-! # What the collected entries hold

The records of the LSDA of a page lie between its offset in the index and that of the next page.  In
records that are in order the binary search gives what a search from the first record on would give.
With it an entry is collected for each second-level entry, and all of them are in order.
-/
namespace Machismo.EhFrame
open A64 (Byte)
open Data

structure LsdaRecord where
  functionOffset : BitVec 32
  lsdaOffset : BitVec 32
  deriving DecidableEq

section Tables
variable (u : UnwindInfo) (idx : ℕ)

def UnwindInfo.lsdaStart : ℕ := (u.index idx).lsdaIndexArraySectionOffset.toNat

def UnwindInfo.lsdaRecord (k : ℕ) : LsdaRecord := ⟨u.u32 (u.lsdaStart idx + 8*k),u.u32 (u.lsdaStart idx + 8*k + 4)⟩

def UnwindInfo.lsdaRecords : List LsdaRecord :=
  (List.range ((u.lsdaStart (idx+1) - u.lsdaStart idx)/8)).map (u.lsdaRecord idx)

/-- The array does not end before it starts, and its functions are in order. -/
structure UnwindInfo.LsdaSorted : Prop where
  ends : u.lsdaStart idx ≤ u.lsdaStart (idx+1)
  sorted : (u.lsdaRecords idx).Pairwise fun r r' => r.functionOffset ≤ r'.functionOffset

/-- The common encodings and those of a page, as the entries of a compressed page number them. -/
def UnwindInfo.encodings (page : ℕ) : List (BitVec 32) :=
  (List.range u.commonEncodingsArrayCount.toNat).map (fun i =>
      u.u32 (u.commonEncodingsArraySectionOffset.toNat + 4*i)) ++
    (List.range (u.u16 (page+10)).toNat).map fun i => u.u32 (page + (u.u16 (page+8)).toNat + 4*i)

def UnwindInfo.secondLevelEntries : List (ℕ×ℕ) :=
  (List.range (u.indexCount.toNat - 1)).flatMap fun idx => (List.range (u.entryCount idx)).map (idx,·)

/-- The offset of the function of a second-level entry and its encoding. -/
def UnwindInfo.secondLevelEntry (i : ℕ) : BitVec 32×BitVec 32 :=
  let page := (u.index idx).secondLevelPagesSectionOffset.toNat
  let entries := page + (u.u16 (page+4)).toNat
  if u.pageKind idx = some unwindSecondLevelCompressed then
    ((u.index idx).functionOffset + (u.u32 (entries + 4*i) &&& 0x00FFFFFF),
      (u.encodings page).getD (u.u32 (entries + 4*i) >>> 24).toNat 0)
  else (u.u32 (entries + 8*i),u.u32 (entries + 8*i + 4))

end Tables

/-- The LSDA of a function that has one: that of a record of the function, and none without a record. -/
def LsdaOf (records : List LsdaRecord) (funcOffset encoding lsda : BitVec 32) : Prop :=
  if encoding &&& unwindHasLsda ≠ 0 then
    (∃ r ∈ records, r.functionOffset = funcOffset ∧ r.lsdaOffset = lsda) ∨
      (∀ r ∈ records, r.functionOffset ≠ funcOffset) ∧ lsda = 0
  else lsda = 0

/-- The search from the first record on. -/
def linearLsda (records : List LsdaRecord) (funcOffset encoding : BitVec 32) : BitVec 32 :=
  if encoding &&& unwindHasLsda ≠ 0 then
    ((records.find? fun r => r.functionOffset = funcOffset).map LsdaRecord.lsdaOffset).getD 0
  else 0

/-- What is collected for a second-level entry; a function is meant to have one LSDA. -/
structure UnwindInfo.Collects (u : UnwindInfo) (place : ℕ×ℕ) (e : CuEntry) : Prop where
  funcOffset : e.funcOffset = (u.secondLevelEntry place.1 place.2).1
  encoding : e.encoding = (u.secondLevelEntry place.1 place.2).2
  lsda : LsdaOf (u.lsdaRecords place.1) e.funcOffset e.encoding e.lsdaOffset
  linear : (∀ r ∈ u.lsdaRecords place.1, ∀ r' ∈ u.lsdaRecords place.1, r.functionOffset = r'.functionOffset →
    r.lsdaOffset = r'.lsdaOffset) → e.lsdaOffset = linearLsda (u.lsdaRecords place.1) e.funcOffset e.encoding

section Search
variable {u : UnwindInfo} {idx : ℕ} {funcOffset encoding lsda : BitVec 32}

section Interval
variable {start count n : ℕ} {lo hi : ℤ}

/-- The functions below the interval come before the one that is searched for, those above it after. -/
structure Narrowed (u : UnwindInfo) (start count : ℕ) (funcOffset : BitVec 32) (lo hi : ℤ) : Prop where
  before : ∀ k : ℕ, k < lo → u.u32 (start + 8*k) < funcOffset
  after : ∀ k : ℕ, hi < k → k < count → funcOffset < u.u32 (start + 8*k)

theorem Narrowed.absent (h : Narrowed u start count funcOffset lo hi) (hlt : hi < lo) :
    ∀ k < count, u.u32 (start + 8*k) ≠ funcOffset := by
  intro k hk
  rcases lt_or_ge (k : ℤ) lo with hkl | hkl
  · exact BitVec.ne_of_lt (h.before k hkl)
  · exact (BitVec.ne_of_lt (h.after k (by omega) hk)).symm

theorem lsdaSearch_spec (hsorted : ∀ i j : ℕ, i ≤ j → j < count → u.u32 (start + 8*i) ≤ u.u32 (start + 8*j))
    (h : Narrowed u start count funcOffset lo hi) (hlo : 0 ≤ lo) (hhi : hi < count) (hn : hi + 1 ≤ lo + n) :
    (∃ k < count, u.u32 (start + 8*k) = funcOffset ∧
      lsdaSearch u start funcOffset n lo hi = u.u32 (start + 8*k + 4)) ∨
    (∀ k < count, u.u32 (start + 8*k) ≠ funcOffset) ∧ lsdaSearch u start funcOffset n lo hi = 0 := by
  induction n generalizing lo hi with
  | zero => exact .inr ⟨h.absent (by omega),rfl⟩
  | succ n ih =>
    rw [lsdaSearch]
    by_cases hle : lo ≤ hi
    · obtain ⟨mid,hmid⟩ : ∃ mid : ℕ, (lo + hi)/2 = mid := Int.eq_ofNat_of_zero_le (by omega)
      rw [if_pos hle]
      dsimp only
      rw [hmid, Int.toNat_natCast]
      by_cases hfound : u.u32 (start + 8*mid) = funcOffset
      · rw [if_pos hfound]
        exact .inl ⟨mid,by omega,hfound,rfl⟩
      · rw [if_neg hfound]
        by_cases hless : u.u32 (start + 8*mid) < funcOffset
        · rw [if_pos hless]
          refine ih ⟨fun k hk => ?_,h.after⟩ (by omega) hhi (by omega)
          have hk' := hsorted k mid (by omega) (by omega)
          rw [BitVec.lt_def] at hless ⊢
          rw [BitVec.le_def] at hk'
          omega
        · rw [if_neg hless]
          refine ih ⟨h.before,fun k hk hkc => ?_⟩ hlo (by omega) (by omega)
          have hmore := BitVec.lt_of_le_ne (BitVec.not_lt.mp hless) (Ne.symm hfound)
          have hk' := hsorted mid k (by omega) hkc
          rw [BitVec.lt_def] at hmore ⊢
          rw [BitVec.le_def] at hk'
          omega
    · rw [if_neg hle]
      exact .inr ⟨h.absent (by omega),rfl⟩

end Interval

theorem lsdaCount_eq (hs : u.LsdaSorted idx) : u.lsdaCount idx = (u.lsdaStart (idx+1) - u.lsdaStart idx)/8 := by
  unfold UnwindInfo.lsdaCount
  rw [BitVec.toNat_sub_of_le hs.ends]
  rfl

theorem lsdaOf_lsdaOffset (hs : u.LsdaSorted idx) :
    LsdaOf (u.lsdaRecords idx) funcOffset encoding (lsdaOffset u idx funcOffset encoding) := by
  unfold LsdaOf lsdaOffset
  by_cases hflag : encoding &&& unwindHasLsda ≠ 0
  · rw [if_pos hflag,if_pos hflag]
    have hcount := lsdaCount_eq hs
    have hsorted : ∀ i j : ℕ, i ≤ j → j < u.lsdaCount idx →
        u.u32 (u.lsdaStart idx + 8*i) ≤ u.u32 (u.lsdaStart idx + 8*j) := by
      intro i j hij hj
      rcases Nat.eq_or_lt_of_le hij with rfl | hlt
      · exact BitVec.le_refl _
      · rw [hcount] at hj
        have hlen : (u.lsdaRecords idx).length = (u.lsdaStart (idx+1) - u.lsdaStart idx)/8 := by
          simp [UnwindInfo.lsdaRecords]
        have hle := List.pairwise_iff_getElem.mp hs.sorted i j (by omega) (by omega) hlt
        simpa [UnwindInfo.lsdaRecords,UnwindInfo.lsdaRecord] using hle
    have hmem : ∀ r, r ∈ u.lsdaRecords idx ↔ ∃ k < u.lsdaCount idx, u.lsdaRecord idx k = r := by
      intro r
      rw [hcount]
      simp [UnwindInfo.lsdaRecords]
    have hall : Narrowed u (u.lsdaStart idx) (u.lsdaCount idx) funcOffset 0 (u.lsdaCount idx - 1) :=
      ⟨fun k hk => absurd hk (by omega),fun k hk hkc => absurd hkc (by omega)⟩
    rcases lsdaSearch_spec (n := u.lsdaCount idx) hsorted hall le_rfl (by omega) (by omega) with
      ⟨k,hk,hkey,hresult⟩ | ⟨hnone,hresult⟩
    · exact .inl ⟨_,(hmem _).mpr ⟨k,hk,rfl⟩,hkey,hresult.symm⟩
    · refine .inr ⟨fun r hr => ?_,hresult⟩
      obtain ⟨k,hk,rfl⟩ := (hmem r).mp hr
      exact hnone k hk
  · rw [if_neg hflag,if_neg hflag]

theorem LsdaOf.eq_linearLsda {records : List LsdaRecord} (h : LsdaOf records funcOffset encoding lsda)
    (hone : ∀ r ∈ records, ∀ r' ∈ records, r.functionOffset = r'.functionOffset → r.lsdaOffset = r'.lsdaOffset) :
    lsda = linearLsda records funcOffset encoding := by
  unfold LsdaOf at h
  unfold linearLsda
  split_ifs at h ⊢ with hflag
  · rcases h with ⟨r,hr,hkey,rfl⟩ | ⟨hnone,rfl⟩
    · cases hfind : records.find? fun r => r.functionOffset = funcOffset with
      | none => exact absurd hkey (by simpa using List.find?_eq_none.mp hfind r hr)
      | some r' =>
        have hkey' : r'.functionOffset = funcOffset := by simpa using List.find?_some hfind
        exact hone r hr r' (List.mem_of_find?_eq_some hfind) (hkey.trans hkey'.symm)
    · have hfind : records.find? (fun r => r.functionOffset = funcOffset) = none :=
        List.find?_eq_none.mpr fun r hr => by simpa using hnone r hr
      rw [hfind]
      rfl
  · exact h

end Search

section Entries
variable {u : UnwindInfo}

theorem length_map_range {α : Type} (f : ℕ → α) (n : ℕ) : ((List.range n).map f).length = n := by
  rw [List.length_map,List.length_range]

theorem compressedEncoding_eq (u : UnwindInfo) (page : ℕ) (encIdx : BitVec 32) :
    compressedEncoding u page encIdx = (u.encodings page).getD encIdx.toNat 0 := by
  unfold compressedEncoding UnwindInfo.encodings
  dsimp only
  by_cases hcommon : encIdx < u.commonEncodingsArrayCount
  · have hlt := hcommon
    rw [BitVec.lt_def] at hlt
    rw [if_pos hcommon,List.getD_append _ _ _ _ (by rwa [length_map_range]),
      List.getD_eq_getElem _ _ (by rwa [length_map_range])]
    simp
  · have hle := BitVec.not_lt.mp hcommon
    have hsub := BitVec.toNat_sub_of_le hle
    have hcount : ((u.u16 (page+10)).setWidth 32).toNat = (u.u16 (page+10)).toNat :=
      BitVec.toNat_setWidth_of_le (by decide)
    rw [BitVec.le_def] at hle
    have hlocal : encIdx - u.commonEncodingsArrayCount < (u.u16 (page+10)).setWidth 32 ↔
        encIdx.toNat - u.commonEncodingsArrayCount.toNat < (u.u16 (page+10)).toNat := by
      rw [BitVec.lt_def,hsub,hcount]
    rw [if_neg hcommon,List.getD_append_right _ _ _ _ (by rwa [length_map_range]),length_map_range]
    by_cases hpage : encIdx.toNat - u.commonEncodingsArrayCount.toNat < (u.u16 (page+10)).toNat
    · rw [if_pos (hlocal.mpr hpage),hsub,List.getD_eq_getElem _ _ (by rwa [length_map_range])]
      simp
    · rw [if_neg (mt hlocal.mp hpage),List.getD_eq_default _ _ (by rw [length_map_range]; omega)]

theorem toNat_topByte (v : BitVec 32) : ((v >>> 24) &&& 0xFF).toNat = (v >>> 24).toNat := by
  have hlt := v.isLt
  have hand : ((v >>> 24) &&& 0xFF).toNat = (v >>> 24).toNat % 256 := Nat.and_two_pow_sub_one_eq_mod _ 8
  rw [hand,BitVec.toNat_ushiftRight,Nat.shiftRight_eq_div_pow]
  omega

theorem pageEntry_collects {idx : ℕ} (hs : u.LsdaSorted idx) (i : ℕ) : u.Collects (idx,i) (pageEntry u idx i) := by
  have hlsda : ∀ e : CuEntry, e.lsdaOffset = lsdaOffset u idx e.funcOffset e.encoding →
      LsdaOf (u.lsdaRecords idx) e.funcOffset e.encoding e.lsdaOffset := by
    intro e he
    rw [he]
    exact lsdaOf_lsdaOffset hs
  unfold pageEntry
  by_cases hkind : u.pageKind idx = some unwindSecondLevelCompressed
  · rw [if_pos hkind]
    have hof := hlsda (compressedEntry u idx i) rfl
    refine ⟨?_,?_,hof,hof.eq_linearLsda⟩
    · simp only [UnwindInfo.secondLevelEntry,if_pos hkind,compressedEntry]
    · simp only [UnwindInfo.secondLevelEntry,if_pos hkind,compressedEntry,compressedEncoding_eq,toNat_topByte]
  · rw [if_neg hkind]
    have hof := hlsda (regularEntry u idx i) rfl
    refine ⟨?_,?_,hof,hof.eq_linearLsda⟩
    · simp only [UnwindInfo.secondLevelEntry,if_neg hkind,regularEntry]
    · simp only [UnwindInfo.secondLevelEntry,if_neg hkind,regularEntry]

theorem compactEntries_eq (u : UnwindInfo) :
    compactEntries u = u.secondLevelEntries.map fun place => pageEntry u place.1 place.2 := by
  unfold compactEntries UnwindInfo.secondLevelEntries pageEntries
  rw [List.map_flatMap]
  simp only [List.map_map,Function.comp_def]

theorem mem_insertEntry {e x : CuEntry} {es : List CuEntry} : x ∈ insertEntry e es ↔ x = e ∨ x ∈ es := by
  induction es with
  | nil => simp [insertEntry]
  | cons e' es ih =>
    unfold insertEntry
    split_ifs
    · rw [List.mem_cons,ih,List.mem_cons]
      exact or_left_comm
    · rw [List.mem_cons]

theorem insertEntry_sorted (e : CuEntry) {es : List CuEntry}
    (h : es.Pairwise fun e e' => e'.funcOffset ≤ e.funcOffset) :
    (insertEntry e es).Pairwise fun e e' => e'.funcOffset ≤ e.funcOffset := by
  induction es with
  | nil => exact List.pairwise_singleton _ _
  | cons e' es ih =>
    obtain ⟨hhead,htail⟩ := List.pairwise_cons.mp h
    unfold insertEntry
    split_ifs with hgt
    · refine List.pairwise_cons.mpr ⟨fun x hx => ?_,ih htail⟩
      rcases mem_insertEntry.mp hx with rfl | hx
      · exact BitVec.le_of_lt hgt
      · exact hhead x hx
    · have hle := BitVec.not_lt.mp hgt
      refine List.pairwise_cons.mpr ⟨fun x hx => ?_,h⟩
      rcases List.mem_cons.mp hx with rfl | hx
      · exact hle
      · exact BitVec.le_trans (hhead x hx) hle

theorem sortEntries_sorted (es : List CuEntry) :
    (sortEntries es).Pairwise fun e e' => e.funcOffset ≤ e'.funcOffset := by
  have hfold : ∀ es sorted : List CuEntry, sorted.Pairwise (fun e e' => e'.funcOffset ≤ e.funcOffset) →
      (es.foldl (fun sorted tmp => insertEntry tmp sorted) sorted).Pairwise
        fun e e' => e'.funcOffset ≤ e.funcOffset := by
    intro es
    induction es with
    | nil => exact fun sorted h => h
    | cons e es ih => exact fun sorted h => ih _ (insertEntry_sorted e h)
  exact List.pairwise_reverse.mpr (hfold es [] .nil)

end Entries

/-- The fields that are collected; the size of a function is the gap to the next one. -/
def CuEntry.collected (e : CuEntry) : CuEntry := { e with funcSize := 0 }

/-- One entry for each second-level entry, in the order of their functions, each with its own encoding and
the LSDA that a search from the first record on finds. -/
def UnwindInfo.Collected (u : UnwindInfo) (result : Option (List CuEntry)) : Prop :=
  ∃ es l, result = some es ∧ es.Pairwise (fun e e' => e.funcOffset ≤ e'.funcOffset) ∧
    List.Forall₂ u.Collects u.secondLevelEntries l ∧ (es.map CuEntry.collected).Perm l

theorem collectEntriesInt_collected {u : UnwindInfo} (hversion : u.version = 1)
    (hsorted : ∀ idx < u.indexCount.toNat - 1, u.LsdaSorted idx) (hcount : (compactEntries u).length < 2^31) :
    u.Collected (collectEntriesInt u) := by
  have hresult : collectEntriesInt u = some (setSizes (sortEntries (compactEntries u))) := by
    rw [collectEntriesInt_eq hversion,firstEntries_eq hcount,if_neg (by omega)]
  refine ⟨_,compactEntries u,hresult,?_,?_,?_⟩
  · have hoffsets := map_setSizes (f := CuEntry.funcOffset) (fun _ _ => rfl) (sortEntries (compactEntries u))
    have hpairs := List.pairwise_map.mpr (sortEntries_sorted (compactEntries u))
    rw [← hoffsets] at hpairs
    exact List.pairwise_map.mp hpairs
  · rw [compactEntries_eq,List.forall₂_map_right_iff,List.forall₂_same]
    intro place hmem
    obtain ⟨idx,hidx,hi⟩ := List.mem_flatMap.mp hmem
    obtain ⟨i,-,rfl⟩ := List.mem_map.mp hi
    exact pageEntry_collects (hsorted idx (List.mem_range.mp hidx)) i
  · have hkept : (compactEntries u).map CuEntry.collected = compactEntries u := by
      have hzero : ∀ idx i, (pageEntry u idx i).collected = pageEntry u idx i := by
        intro idx i
        unfold pageEntry
        split_ifs <;> rfl
      rw [compactEntries_eq,List.map_map]
      exact List.map_congr_left fun place _ => hzero place.1 place.2
    rw [map_setSizes fun _ _ => rfl]
    exact ((sortEntries_perm (compactEntries u)).map CuEntry.collected).trans (.of_eq hkept)

section Counter
variable {u : UnwindInfo}

theorem length_compactEntries (u : UnwindInfo) : (compactEntries u).length = u.secondLevelEntries.length := by
  rw [compactEntries_eq,List.length_map]

theorem length_setSizes (es : List CuEntry) : (setSizes es).length = es.length := by
  have hmap := congrArg List.length (map_setSizes (f := CuEntry.encoding) (fun _ _ => rfl) es)
  rwa [List.length_map,List.length_map] at hmap

theorem length_lt_of_collected (hversion : u.version = 1) (h : u.Collected (collectEntriesInt u)) :
    u.secondLevelEntries.length < 2^31 := by
  obtain ⟨es,l,hresult,-,hl,hperm⟩ := h
  have hlen : es.length = u.secondLevelEntries.length := by
    rw [hl.length_eq,← hperm.length_eq,List.length_map]
  rw [collectEntriesInt_eq hversion] at hresult
  split_ifs at hresult with hcount
  obtain rfl := Option.some.inj hresult
  rw [length_setSizes,(sortEntries_perm _).length_eq,firstEntries,List.length_take,length_compactEntries] at hlen
  rw [length_compactEntries] at hcount
  omega

/-- The entries are collected as they should be exactly when there are fewer than 2^31. -/
theorem collectEntriesInt_iff (hversion : u.version = 1)
    (hsorted : ∀ idx < u.indexCount.toNat - 1, u.LsdaSorted idx) :
    u.Collected (collectEntriesInt u) ↔ u.secondLevelEntries.length < 2^31 := by
  constructor
  · exact length_lt_of_collected hversion
  · intro h
    exact collectEntriesInt_collected hversion hsorted (length_compactEntries u ▸ h)

end Counter

/-- A compressed page of two functions: the encoding of the first is a common one and has an LSDA. -/
def twoFunctions : UnwindInfo where
  bytes := fun x => ((List.map (leBytes 4) [1,28,1,32,0,32,2,0x54000000,0x1000,72,56,0x2000,0,72,0x1000,0x9000,
    0x1040,0x9010,3,0x2000c,0x10014,0,0x1000040,0x04000000]).flatten).getD x 0
  size := 96

example : collectEntriesInt twoFunctions =
    some [⟨0x1000,0x40,0x54000000,0x9000⟩,⟨0x1040,256,0x04000000,0⟩] := by decide

theorem collectEntriesInt_two : twoFunctions.Collected (collectEntriesInt twoFunctions) := by
  refine (collectEntriesInt_iff (by decide) fun idx hidx => ?_).mpr (by decide)
  have hcount : twoFunctions.indexCount.toNat - 1 = 1 := by decide
  obtain rfl : idx = 0 := by omega
  exact ⟨by decide,by decide⟩

/-- 32769 pages that are one and the same regular page of 65535 entries. -/
def manyEntries : UnwindInfo where
  bytes := fun x =>
    if x < 28 then ((List.map (leBytes 4) [1,28,0,28,0,28,32770]).flatten).getD x 0
    else if x < 393268 then (leBytes 4 0 ++ leBytes 4 393268 ++ leBytes 4 0).getD ((x-28) % 12) 0
    else (leBytes 4 2 ++ leBytes 4 0xFFFF0008).getD (x-393268) 0
  size := 917556

theorem manyEntries_index {idx : ℕ} (h : idx < 32770) : manyEntries.index idx = ⟨0,393268,0⟩ := by
  have hoff : manyEntries.indexSectionOffset.toNat = 28 := by decide
  have hbytes : ∀ w < 3, ∀ j < 4, (leBytes 4 0 ++ leBytes 4 393268 ++ leBytes 4 0).getD (4*w + j) 0 =
      (leBytes 4 ([0,393268,0].getD w 0)).getD j 0 := by decide
  have hword : ∀ w < 3, manyEntries.u32 (28 + 12*idx + 4*w) = BitVec.ofNat 32 ([0,393268,0].getD w 0) := by
    intro w hw
    refine u32_of_bytes fun j hj => ?_
    have hmod : (28 + 12*idx + 4*w + j - 28) % 12 = 4*w + j := by omega
    simp only [manyEntries]
    rw [if_neg (by omega),if_pos (by omega),hmod,hbytes w hw j hj]
  have hfunction : manyEntries.u32 (28 + 12*idx) = 0 := hword 0 (by decide)
  have hpage : manyEntries.u32 (28 + 12*idx + 4) = 393268 := hword 1 (by decide)
  have hlsda : manyEntries.u32 (28 + 12*idx + 8) = 0 := hword 2 (by decide)
  rw [UnwindInfo.index,hoff,hfunction,hpage,hlsda]

theorem manyEntries_sorted {idx : ℕ} (h : idx < 32769) : manyEntries.LsdaSorted idx := by
  have hstart : ∀ i < 32770, manyEntries.lsdaStart i = 0 := by
    intro i hi
    rw [UnwindInfo.lsdaStart,manyEntries_index hi]
    rfl
  constructor
  · rw [hstart idx (by omega),hstart (idx+1) (by omega)]
  · rw [UnwindInfo.lsdaRecords,hstart idx (by omega),hstart (idx+1) (by omega)]
    exact .nil

theorem length_manyEntries : manyEntries.secondLevelEntries.length = 32769*65535 := by
  have hcount : manyEntries.indexCount.toNat - 1 = 32769 := by decide
  have hkind : manyEntries.u32 393268 = unwindSecondLevelRegular := by decide
  have hentries : (manyEntries.u16 393274).toNat = 65535 := by decide
  have hlen : ∀ idx ∈ List.range 32769, ((List.range (manyEntries.entryCount idx)).map (idx,·)).length = 65535 := by
    intro idx hidx
    have hindex := manyEntries_index (Nat.lt_succ_of_lt (List.mem_range.mp hidx))
    have hsome : (manyEntries.pageKind idx).isSome := by
      have hinside : ¬((393268 : BitVec 32) = 0 ∨ (393268 : BitVec 32).setWidth 64 ≥ manyEntries.size) := by decide
      have hu32 : manyEntries.u32 (393268 : BitVec 32).toNat = unwindSecondLevelRegular := hkind
      rw [UnwindInfo.pageKind,hindex]
      dsimp only
      rw [if_neg hinside,hu32]
      rfl
    rw [length_map_range,UnwindInfo.entryCount,if_pos hsome,hindex]
    exact hentries
  rw [UnwindInfo.secondLevelEntries,hcount,List.length_flatMap,List.map_congr_left hlen,List.map_const',
    List.length_range,List.sum_replicate_nat]

/-- The counter of 2147516415 entries is negative, and nothing is collected. -/
theorem collectEntriesInt_overflows : ∃ u : UnwindInfo, u.version = 1 ∧
    (∀ idx < u.indexCount.toNat - 1, u.LsdaSorted idx) ∧ ¬u.Collected (collectEntriesInt u) := by
  have hcount : manyEntries.indexCount.toNat - 1 = 32769 := by decide
  have hversion : manyEntries.version = 1 := by decide
  have hsorted : ∀ idx < manyEntries.indexCount.toNat - 1, manyEntries.LsdaSorted idx :=
    fun idx hidx => manyEntries_sorted (hcount ▸ hidx)
  refine ⟨manyEntries,hversion,hsorted,?_⟩
  intro h
  have hlt := length_lt_of_collected hversion h
  rw [length_manyEntries] at hlt
  exact absurd hlt (by decide)

end Machismo.EhFrame
