import Machismo.EhFrame.Emit

/-! # Collecting the compact entries

A `__unwind_info` section is an index of second-level pages, the last record of which only ends the range
of the one before. The entries of all pages are counted, collected into one array, sorted by the offset of
their function, and given the gap to the next entry as their size.
-/
namespace Machismo.EhFrame
open A64 (Byte)
open Data

/-- The bytes of the section by their distance from its start, with the size of the section. -/
structure UnwindInfo where
  bytes : Content
  size : BitVec 64

def UnwindInfo.u32 (u : UnwindInfo) (off : ℕ) : BitVec 32 := BitVec.ofNat 32 (leNat (bytesFrom u.bytes off 4))
def UnwindInfo.u16 (u : UnwindInfo) (off : ℕ) : BitVec 16 := BitVec.ofNat 16 (leNat (bytesFrom u.bytes off 2))

/-! The header. -/

def UnwindInfo.version (u : UnwindInfo) : BitVec 32 := u.u32 0
def UnwindInfo.commonEncodingsArraySectionOffset (u : UnwindInfo) : BitVec 32 := u.u32 4
def UnwindInfo.commonEncodingsArrayCount (u : UnwindInfo) : BitVec 32 := u.u32 8
def UnwindInfo.personalityArraySectionOffset (u : UnwindInfo) : BitVec 32 := u.u32 12
def UnwindInfo.personalityArrayCount (u : UnwindInfo) : BitVec 32 := u.u32 16
def UnwindInfo.indexSectionOffset (u : UnwindInfo) : BitVec 32 := u.u32 20
def UnwindInfo.indexCount (u : UnwindInfo) : BitVec 32 := u.u32 24

structure IndexEntry where
  functionOffset : BitVec 32
  secondLevelPagesSectionOffset : BitVec 32
  lsdaIndexArraySectionOffset : BitVec 32

def UnwindInfo.index (u : UnwindInfo) (idx : ℕ) : IndexEntry :=
  let off := u.indexSectionOffset.toNat + 12*idx
  ⟨u.u32 off,u.u32 (off+4),u.u32 (off+8)⟩

def unwindSecondLevelRegular : BitVec 32 := 2
def unwindSecondLevelCompressed : BitVec 32 := 3

def unwindIsNotFunctionStart : BitVec 32 := 0x80000000
def unwindHasLsda : BitVec 32 := 0x40000000
def unwindPersonalityMask : BitVec 32 := 0x30000000
def unwindArm64ModeMask : BitVec 32 := 0x0F000000
def unwindArm64ModeFrameless : BitVec 32 := 0x02000000
def unwindArm64ModeDwarf : BitVec 32 := 0x03000000
def unwindArm64ModeFrame : BitVec 32 := 0x04000000

structure CuEntry where
  funcOffset : BitVec 32
  funcSize : BitVec 32
  encoding : BitVec 32
  lsdaOffset : BitVec 32
  deriving DecidableEq, Repr

/-- The binary search in the array of LSDA records at `start`, among the records `lo` to `hi`. -/
def lsdaSearch (u : UnwindInfo) (start : ℕ) (funcOffset : BitVec 32) : ℕ → ℤ → ℤ → BitVec 32
  | 0, _, _ => 0
  | n + 1, lo, hi =>
    if lo ≤ hi then
      let mid := (lo + hi) / 2
      let functionOffset := u.u32 (start + 8*mid.toNat)
      if functionOffset = funcOffset then u.u32 (start + 8*mid.toNat + 4)
      else if functionOffset < funcOffset then lsdaSearch u start funcOffset n (mid+1) hi
      else lsdaSearch u start funcOffset n lo (mid-1)
    else 0

/-- The number of LSDA records of a page; the difference of the offsets is one of 32 bits. -/
def UnwindInfo.lsdaCount (u : UnwindInfo) (idx : ℕ) : ℕ :=
  ((u.index (idx+1)).lsdaIndexArraySectionOffset - (u.index idx).lsdaIndexArraySectionOffset).toNat / 8

def lsdaOffset (u : UnwindInfo) (idx : ℕ) (funcOffset encoding : BitVec 32) : BitVec 32 :=
  if encoding &&& unwindHasLsda ≠ 0 then
    lsdaSearch u (u.index idx).lsdaIndexArraySectionOffset.toNat funcOffset (u.lsdaCount idx) 0 (u.lsdaCount idx - 1)
  else 0

/-- The encoding with an index of a compressed entry: of all pages, or of this page. -/
def compressedEncoding (u : UnwindInfo) (page : ℕ) (encIdx : BitVec 32) : BitVec 32 :=
  let commonCount := u.commonEncodingsArrayCount
  if encIdx < commonCount then u.u32 (u.commonEncodingsArraySectionOffset.toNat + 4*encIdx.toNat)
  else if encIdx - commonCount < (u.u16 (page+10)).setWidth 32 then
    u.u32 (page + (u.u16 (page+8)).toNat + 4*(encIdx - commonCount).toNat)
  else 0

def compressedEntry (u : UnwindInfo) (idx i : ℕ) : CuEntry :=
  let page := (u.index idx).secondLevelPagesSectionOffset.toNat
  let entry := u.u32 (page + (u.u16 (page+4)).toNat + 4*i)
  let funcOffset := (u.index idx).functionOffset + (entry &&& 0x00FFFFFF)
  let encoding := compressedEncoding u page ((entry >>> 24) &&& 0xFF)
  ⟨funcOffset,0,encoding,lsdaOffset u idx funcOffset encoding⟩

def regularEntry (u : UnwindInfo) (idx i : ℕ) : CuEntry :=
  let page := (u.index idx).secondLevelPagesSectionOffset.toNat
  let entry := page + (u.u16 (page+4)).toNat + 8*i
  let funcOffset := u.u32 entry
  let encoding := u.u32 (entry+4)
  ⟨funcOffset,0,encoding,lsdaOffset u idx funcOffset encoding⟩

/-- A page that is used: its offset lies in the section, and it is of a known kind. -/
def UnwindInfo.pageKind (u : UnwindInfo) (idx : ℕ) : Option (BitVec 32) :=
  let page := (u.index idx).secondLevelPagesSectionOffset
  if page = 0 ∨ page.setWidth 64 ≥ u.size then none
  else
    let kind := u.u32 page.toNat
    if kind = unwindSecondLevelCompressed ∨ kind = unwindSecondLevelRegular then some kind else none

def UnwindInfo.entryCount (u : UnwindInfo) (idx : ℕ) : ℕ :=
  if (u.pageKind idx).isSome then
    (u.u16 ((u.index idx).secondLevelPagesSectionOffset.toNat + 6)).toNat
  else 0

def pageEntry (u : UnwindInfo) (idx i : ℕ) : CuEntry :=
  if u.pageKind idx = some unwindSecondLevelCompressed then compressedEntry u idx i else regularEntry u idx i

/-- The first pass with its counter, an `int`. -/
def countEntriesInt (u : UnwindInfo) : BitVec 32 :=
  (List.range (u.indexCount.toNat - 1)).foldl (fun total idx => total + (BitVec.ofNat 32 (u.entryCount idx))) 0

def collectPage (u : UnwindInfo) (total : ℕ) (entries : List CuEntry) (idx : ℕ) : List CuEntry :=
  (List.range (u.entryCount idx)).foldl
    (fun entries i => if entries.length < total then entries ++ [pageEntry u idx i] else entries) entries

/-- The second pass. -/
def collectPages (u : UnwindInfo) (total : ℕ) : List CuEntry :=
  (List.range (u.indexCount.toNat - 1)).foldl (collectPage u total) []

/-- One round of the insertion sort on the sorted part, which is given from its end. -/
def insertEntry (tmp : CuEntry) : List CuEntry → List CuEntry
  | [] => [tmp]
  | e :: es => if e.funcOffset > tmp.funcOffset then e :: insertEntry tmp es else tmp :: e :: es

def sortEntries (entries : List CuEntry) : List CuEntry :=
  (entries.foldl (fun sorted tmp => insertEntry tmp sorted) []).reverse

/-- The gaps are the sizes, and 256 bytes are the size of the last one. -/
def setSizes : List CuEntry → List CuEntry
  | [] => []
  | [e] => [{ e with funcSize := 256 }]
  | e :: e' :: es => { e with funcSize := e'.funcOffset - e.funcOffset } :: setSizes (e' :: es)

/-- `collect_entries` with its counter; for a negative one `calloc` is asked for more than there can be. -/
def collectEntriesInt (u : UnwindInfo) : Option (List CuEntry) :=
  if u.version ≠ 1 then none
  else
    let total := countEntriesInt u
    if total = 0 then some []
    else if total.toInt < 0 then none
    else some (setSizes (sortEntries (collectPages u total.toNat)))

theorem lsdaSearch_eq {u : UnwindInfo} {start n k : ℕ} {funcOffset : BitVec 32} {lo hi : ℤ} (hlo : 0 ≤ lo)
    (hk : lo ≤ k ∧ k ≤ hi) (hn : hi + 1 ≤ lo + n) (hfound : u.u32 (start + 8*k) = funcOffset)
    (hsorted : ∀ i j : ℕ, i < j → j ≤ hi → u.u32 (start + 8*i) < u.u32 (start + 8*j)) :
    lsdaSearch u start funcOffset n lo hi = u.u32 (start + 8*k + 4) := by
  induction n generalizing lo hi with
  | zero => omega
  | succ n ih =>
    obtain ⟨mid,hmid⟩ : ∃ mid : ℕ, (lo + hi)/2 = mid := Int.eq_ofNat_of_zero_le (by omega)
    rw [lsdaSearch, if_pos (by omega)]
    dsimp only
    rw [hmid, Int.toNat_natCast]
    rcases lt_trichotomy mid k with hlt | rfl | hgt
    · have hless := hsorted mid k hlt hk.2
      rw [hfound] at hless
      rw [if_neg (BitVec.ne_of_lt hless), if_pos hless]
      exact ih (by omega) ⟨by omega,hk.2⟩ (by omega) hsorted
    · rw [if_pos hfound]
    · have hmore := hsorted k mid hgt (by omega)
      rw [hfound] at hmore
      rw [if_neg (BitVec.ne_of_lt hmore).symm, if_neg (BitVec.not_lt.mpr (BitVec.le_of_lt hmore))]
      exact ih hlo ⟨hk.1,by omega⟩ (by omega) fun i j hij hj => hsorted i j hij (by omega)

def pageEntries (u : UnwindInfo) (idx : ℕ) : List CuEntry := (List.range (u.entryCount idx)).map (pageEntry u idx)

/-- The entries of the section: those of every page, in the order of the index. -/
def compactEntries (u : UnwindInfo) : List CuEntry := (List.range (u.indexCount.toNat - 1)).flatMap (pageEntries u)

theorem toNat_countEntriesInt (u : UnwindInfo) : (countEntriesInt u).toNat = (compactEntries u).length % 2^32 := by
  have hfold : ∀ (l : List ℕ) (n : ℕ), (l.foldl (fun total idx => total + (BitVec.ofNat 32 (u.entryCount idx)))
      (BitVec.ofNat 32 n)).toNat = (n + (l.flatMap (pageEntries u)).length) % 2^32 := by
    intro l
    induction l with
    | nil => exact fun n => BitVec.toNat_ofNat n 32
    | cons idx l ih =>
      intro n
      rw [List.foldl_cons, ← BitVec.ofNat_add, ih, List.flatMap_cons, List.length_append, pageEntries, List.length_map,
        List.length_range, Nat.add_assoc]
  have h := hfold (List.range (u.indexCount.toNat - 1)) 0
  rwa [Nat.zero_add] at h

theorem countEntriesInt_neg_iff (u : UnwindInfo) :
    (countEntriesInt u).toInt < 0 ↔ 2^31 ≤ (compactEntries u).length % 2^32 := by
  rw [BitVec.toInt_eq_toNat_cond, toNat_countEntriesInt]
  split_ifs <;> omega

theorem take_take_append {α : Type*} (n : ℕ) (l l' : List α) : (l.take n ++ l').take n = (l ++ l').take n := by
  by_cases h : n ≤ l.length
  · have hlen : n ≤ (l.take n).length := by rw [List.length_take]; omega
    rw [List.take_append_of_le_length h, List.take_append_of_le_length hlen, List.take_take, Nat.min_self]
  · rw [List.take_of_length_le (by omega : l.length ≤ n)]

theorem foldl_push {f : ℕ → CuEntry} {total : ℕ} (l : List ℕ) {entries : List CuEntry} (h : entries.length ≤ total) :
    l.foldl (fun entries i => if entries.length < total then entries ++ [f i] else entries) entries =
      (entries ++ l.map f).take total := by
  induction l generalizing entries with
  | nil => rw [List.foldl_nil, List.map_nil, List.append_nil, List.take_of_length_le h]
  | cons i l ih =>
    rw [List.foldl_cons]
    split
    next hroom =>
      rw [ih (by rw [List.length_append, List.length_singleton]; omega), List.map_cons, List.append_assoc,
        List.singleton_append]
    next hfull =>
      have htotal : total ≤ entries.length := by omega
      rw [ih h, List.take_append_of_le_length htotal, List.take_append_of_le_length htotal]

theorem collectPages_eq (u : UnwindInfo) (total : ℕ) : collectPages u total = (compactEntries u).take total := by
  have hfold : ∀ (l : List ℕ) (entries : List CuEntry), entries.length ≤ total →
      l.foldl (collectPage u total) entries = (entries ++ l.flatMap (pageEntries u)).take total := by
    intro l
    induction l with
    | nil =>
      intro entries h
      rw [List.foldl_nil, List.flatMap_nil, List.append_nil, List.take_of_length_le h]
    | cons idx l ih =>
      intro entries h
      have hpage : collectPage u total entries idx = (entries ++ pageEntries u idx).take total := foldl_push _ h
      rw [List.foldl_cons, hpage, ih _ (by rw [List.length_take]; omega), take_take_append, List.flatMap_cons,
        List.append_assoc]
  rw [collectPages, hfold _ _ (Nat.zero_le _), List.nil_append, compactEntries]

/-- The entries that are collected: where the counter wraps these are only the first. -/
def firstEntries (u : UnwindInfo) : List CuEntry := (compactEntries u).take ((compactEntries u).length % 2^32)

theorem firstEntries_eq {u : UnwindInfo} (h : (compactEntries u).length < 2^31) :
    firstEntries u = compactEntries u := by
  rw [firstEntries, Nat.mod_eq_of_lt (by omega), List.take_length]

theorem sortEntries_of_sorted {entries : List CuEntry}
    (h : entries.Pairwise fun e e' => e.funcOffset ≤ e'.funcOffset) : sortEntries entries = entries := by
  have hfold : ∀ es sorted : List CuEntry, (sorted.reverse ++ es).Pairwise (fun e e' => e.funcOffset ≤ e'.funcOffset) →
      es.foldl (fun sorted tmp => insertEntry tmp sorted) sorted = es.reverse ++ sorted := by
    intro es
    induction es with
    | nil => simp
    | cons e es ih =>
      intro sorted hp
      have hinsert : insertEntry e sorted = e :: sorted := by
        cases sorted with
        | nil => rfl
        | cons e' sorted =>
          have hle : e'.funcOffset ≤ e.funcOffset :=
            (List.pairwise_append.mp hp).2.2 e' (by simp) e List.mem_cons_self
          rw [insertEntry, if_neg (by rw [gt_iff_lt, BitVec.not_lt]; exact hle)]
      rw [List.foldl_cons, hinsert, ih (e :: sorted) (by simpa using hp), List.reverse_cons, List.append_assoc]
      rfl
  rw [sortEntries, hfold entries [] (by simpa using h), List.append_nil, List.reverse_reverse]

theorem sortEntries_perm (entries : List CuEntry) : (sortEntries entries).Perm entries := by
  have hinsert : ∀ (e : CuEntry) (es : List CuEntry), (insertEntry e es).Perm (e :: es) := by
    intro e es
    induction es with
    | nil => exact .refl _
    | cons e' es ih =>
      rw [insertEntry]
      split
      · exact (ih.cons e').trans (.swap e e' es)
      · exact .refl _
  have hfold : ∀ es sorted : List CuEntry,
      (es.foldl (fun sorted tmp => insertEntry tmp sorted) sorted).Perm (es ++ sorted) := by
    intro es
    induction es with
    | nil => exact fun sorted => .refl _
    | cons e es ih =>
      intro sorted
      exact ((ih _).trans ((hinsert e sorted).append_left es)).trans List.perm_middle
  rw [sortEntries]
  have h := hfold entries []
  rw [List.append_nil] at h
  exact (List.reverse_perm _).trans h

theorem map_setSizes {α : Type*} {f : CuEntry → α} (h : ∀ e size, f { e with funcSize := size } = f e)
    (entries : List CuEntry) : (setSizes entries).map f = entries.map f := by
  induction entries with
  | nil => rfl
  | cons e es ih =>
    cases es with
    | nil => simp [setSizes, h]
    | cons e' es =>
      rw [setSizes, List.map_cons, ih, h]
      rfl

theorem collectEntriesInt_eq {u : UnwindInfo} (h : u.version = 1) : collectEntriesInt u =
    if 2^31 ≤ (compactEntries u).length % 2^32 then none else some (setSizes (sortEntries (firstEntries u))) := by
  have hzero : countEntriesInt u = 0 ↔ (compactEntries u).length % 2^32 = 0 := by
    rw [← toNat_countEntriesInt, ← BitVec.toNat_inj]
    rfl
  rw [collectEntriesInt, if_neg (not_not.mpr h)]
  simp only [countEntriesInt_neg_iff, hzero, collectPages_eq, toNat_countEntriesInt]
  split
  next hnone =>
    rw [hnone, if_neg (by decide), firstEntries, hnone]
    rfl
  next => rfl

end Machismo.EhFrame
