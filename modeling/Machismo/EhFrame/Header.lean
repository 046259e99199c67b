import Machismo.EhFrame.Calls
import Machismo.EhFrame.NativeSections

/-! # The merged search table

The FDEs of the generated section are collected by a walk over it, those of the native section by its
parser, and all of them are sorted into one `.eh_frame_hdr`.  An image without a native section has an
empty one.
-/
namespace Machismo.EhFrame
open A64 (Byte)
open Data Dwarf

def cmpHdrEntry (ea eb : HdrEntry) : ℤ :=
  if ea.initialLocation < eb.initialLocation then -1
  else if ea.initialLocation > eb.initialLocation then 1
  else 0

/-- A sort by the comparison, which may leave equal entries in any order. -/
structure HdrSort where
  qsort : List HdrEntry → List HdrEntry
  perm : ∀ l, (qsort l).Perm l
  sorted : ∀ l, (qsort l).Pairwise fun a b => cmpHdrEntry a b ≤ 0

/-- At most `n` rounds of the walk over the generated section, which is stored at `ehfBuf`. -/
def collectSynthetic (ehfBuf : BitVec 64) (s : Ehf) : ℕ → ℕ → List HdrEntry
  | 0, _ => []
  | n + 1, pos =>
    if pos + 4 < s.pos then
      let length := leNat ((s.buf.drop pos).take 4)
      if length = 0 then []
      else
        let cieId := leNat ((s.buf.drop (pos+4)).take 4)
        let initLoc := leNat ((s.buf.drop (pos+8)).take 8)
        let rest := collectSynthetic ehfBuf s n (pos + 4 + length)
        if cieId ≠ 0 then ⟨BitVec.ofNat 64 initLoc,ehfBuf + BitVec.ofNat 64 pos⟩ :: rest else rest
    else []

def hdrRow (e : HdrEntry) : List Byte := leBytes 8 e.initialLocation.toNat ++ leBytes 8 e.fdePtr.toNat

/-- The bytes of the `.eh_frame_hdr`. -/
def ehFrameHdr (Q : HdrSort) (ehfBuf : BitVec 64) (s : Ehf) (natEntries : List HdrEntry) : List Byte :=
  let allEntries := Q.qsort (collectSynthetic ehfBuf s s.pos 0 ++ natEntries)
  [1,dwEhPeAbsptr,dwEhPeAbsptr,dwEhPeAbsptr] ++ leBytes 8 ehfBuf.toNat ++ leBytes 8 allEntries.length ++
    allEntries.flatMap hdrRow

def readRows : ℕ → List Byte → List HdrEntry
  | 0, _ => []
  | n + 1, p =>
    ⟨BitVec.ofNat 64 (leNat (p.take 8)),BitVec.ofNat 64 (leNat ((p.drop 8).take 8))⟩ :: readRows n (p.drop 16)

def hdrTable (hdr : List Byte) : List HdrEntry := readRows ((hdr.length - 20)/16) (hdr.drop 20)

/-- The FDEs of a sequence of calls. -/
def syntheticFdes (ehfBuf : BitVec 64) (calls : List Call) : List HdrEntry :=
  (trace calls .empty).filterMap fun r =>
    match r.2 with
    | .cie _ => none
    | .fde _ _ funcAddr _ _ => some ⟨funcAddr,ehfBuf + BitVec.ofNat 64 r.1.pos⟩

def isFde : Record → Bool
  | .cie _ _ => false
  | .fde _ _ _ _ => true

def nativeFdes (base : ℕ) (S : EhSection) : List HdrEntry :=
  S.placed.filterMap fun r => if isFde r.2 then some ⟨S.location base r,BitVec.ofNat 64 (base + r.1)⟩ else none

/-- A walk over the generated section finds what the calls have emitted. The table built from it and from whatever
the native parser returns is in order and holds every FDE once; where the native section is a well-formed one, the
native FDEs are those of the section. -/
structure EmitsWell (Q : HdrSort) (ehfBuf : BitVec 64) (calls : List Call) (E : NativeSection) : Prop where
  walk : List.Forall₂ Found (trace calls .empty) (records (sectionOf calls).buf)
  merged : ∀ n es, parseNativeEhFrameFdes E n 0 [] = .done es →
    (hdrTable (ehFrameHdr Q ehfBuf (sectionOf calls) es)).Pairwise
      (fun a b => a.initialLocation ≤ b.initialLocation) ∧
    (hdrTable (ehFrameHdr Q ehfBuf (sectionOf calls) es)).Perm (syntheticFdes ehfBuf calls ++ es)
  table : ∀ S : EhSection, S.WellFormed → E.bytes = S.bytes → ∀ n es, parseNativeEhFrameFdes E n 0 [] = .done es →
    (hdrTable (ehFrameHdr Q ehfBuf (sectionOf calls) es)).Pairwise
      (fun a b => a.initialLocation ≤ b.initialLocation) ∧
    (hdrTable (ehFrameHdr Q ehfBuf (sectionOf calls) es)).Perm (syntheticFdes ehfBuf calls ++ nativeFdes E.base S)

theorem word_leBytes (v : BitVec 64) : BitVec.ofNat 64 (leNat (leBytes 8 v.toNat)) = v := by
  have hpow : 256^8 = 2^64 := by norm_num
  rw [leNat_leBytes, hpow, Nat.mod_eq_of_lt v.isLt, BitVec.ofNat_toNat, BitVec.setWidth_eq]

theorem readRows_flatMap (es : List HdrEntry) : readRows es.length (es.flatMap hdrRow) = es := by
  induction es with
  | nil => rfl
  | cons e es ih =>
    obtain ⟨loc,ptr⟩ := e
    have hdrop : ∀ q, (leBytes 8 loc.toNat ++ (leBytes 8 ptr.toNat ++ q)).drop 16 = q := by
      intro q
      have hsum : 16 = 8 + 8 := rfl
      rw [hsum, ← List.drop_drop, List.drop_left' (length_leBytes 8 _), List.drop_left' (length_leBytes 8 _)]
    rw [List.length_cons, readRows, List.flatMap_cons, hdrRow, List.append_assoc, hdrop, ih,
      List.take_left' (length_leBytes 8 _), List.drop_left' (length_leBytes 8 _), List.take_left' (length_leBytes 8 _),
      word_leBytes, word_leBytes]

theorem hdrTable_ehFrameHdr (Q : HdrSort) (ehfBuf : BitVec 64) (s : Ehf) (natEntries : List HdrEntry) :
    hdrTable (ehFrameHdr Q ehfBuf s natEntries) = Q.qsort (collectSynthetic ehfBuf s s.pos 0 ++ natEntries) := by
  unfold ehFrameHdr
  generalize Q.qsort (collectSynthetic ehfBuf s s.pos 0 ++ natEntries) = es
  have hrows : (es.flatMap hdrRow).length = 16*es.length := by
    induction es with
    | nil => rfl
    | cons e es ih =>
      rw [List.flatMap_cons, List.length_append, ih, hdrRow, List.length_append, length_leBytes, length_leBytes,
        List.length_cons]
      omega
  have hhead : ([1,dwEhPeAbsptr,dwEhPeAbsptr,dwEhPeAbsptr] ++ leBytes 8 ehfBuf.toNat ++ leBytes 8 es.length).length =
      20 := by simp
  have hcount : (20 + 16*es.length - 20)/16 = es.length := by omega
  rw [hdrTable, List.drop_left' hhead, List.length_append, hhead, hrows, hcount, readRows_flatMap]

theorem le_of_cmpHdrEntry {a b : HdrEntry} (h : cmpHdrEntry a b ≤ 0) : a.initialLocation ≤ b.initialLocation := by
  unfold cmpHdrEntry at h
  split_ifs at h with hlt hgt
  · exact BitVec.le_of_lt hlt
  · exact absurd h (by decide)
  · exact BitVec.not_lt.mp hgt

/-- What the walk notes for a record. -/
def syntheticEntry (ehfBuf : BitVec 64) (e : ℕ×List Byte) : Option HdrEntry :=
  if leNat (e.2.take 4) ≠ 0 then
    some ⟨BitVec.ofNat 64 (leNat ((e.2.drop 4).take 8)),ehfBuf + BitVec.ofNat 64 e.1⟩
  else none

theorem collectSynthetic_eq (ehfBuf : BitVec 64) {s : Ehf} {bodies : List (List Byte)}
    (hbodies : ∀ body ∈ bodies, 12 ≤ body.length ∧ body.length < 2^32) {n : ℕ} (hn : bodies.length ≤ n)
    {before : List Byte} (h : s.buf = before ++ (bodies.flatMap withLength ++ leBytes 4 0)) :
    collectSynthetic ehfBuf s n before.length = (placeBodies before.length bodies).filterMap (syntheticEntry ehfBuf) := by
  induction bodies generalizing n before with
  | nil =>
    cases n with
    | zero => rfl
    | succ n =>
      have hpos : s.pos = before.length + 4 := by rw [Ehf.pos, h]; simp
      rw [collectSynthetic, if_neg (by omega)]
      rfl
  | cons body bodies ih =>
    obtain ⟨n,rfl⟩ := Nat.exists_eq_add_of_le' hn
    obtain ⟨hge,hlt⟩ := hbodies body List.mem_cons_self
    have hbuf : s.buf = before ++ (withLength body ++ (bodies.flatMap withLength ++ leBytes 4 0)) := by
      rw [h, List.flatMap_cons, List.append_assoc]
    have hnext : before.length + 4 + body.length = (before ++ withLength body).length := by
      rw [List.length_append, withLength, List.length_append, length_leBytes, Nat.add_assoc]
    have hpos : before.length + 4 < s.pos := by
      rw [Ehf.pos, hbuf, ← List.append_assoc, List.length_append, ← hnext]
      omega
    have hlength : leNat ((s.buf.drop before.length).take 4) = body.length := by
      rw [hbuf, List.drop_left, take_withLength hlt]
    have hbody : s.buf.drop (before.length + 4) = body ++ (bodies.flatMap withLength ++ leBytes 4 0) := by
      rw [hbuf, ← List.drop_drop, List.drop_left, withLength, List.append_assoc, List.drop_left' (length_leBytes 4 _)]
    have hid : (s.buf.drop (before.length + 4)).take 4 = body.take 4 := by
      rw [hbody, List.take_append_of_le_length (by omega)]
    have hloc : (s.buf.drop (before.length + 8)).take 8 = (body.drop 4).take 8 := by
      have hsum : before.length + 8 = before.length + 4 + 4 := rfl
      rw [hsum, ← List.drop_drop, hbody, List.drop_append_of_le_length (by omega),
        List.take_append_of_le_length (by rw [List.length_drop]; omega)]
    have hrest : collectSynthetic ehfBuf s (n + bodies.length) (before ++ withLength body).length = _ :=
      ih (fun b hb => hbodies b (List.mem_cons_of_mem _ hb)) (by omega) (by rw [hbuf, List.append_assoc])
    rw [← hnext] at hrest
    rw [List.length_cons, ← Nat.add_assoc, collectSynthetic, if_pos hpos, placeBodies]
    dsimp only
    rw [hlength, if_neg (by omega), hid, hloc, hrest, List.filterMap_cons, syntheticEntry]
    by_cases hzero : leNat (body.take 4) = 0
    · rw [if_neg (not_not.mpr hzero), if_neg (not_not.mpr hzero)]
    · rw [if_pos hzero, if_pos hzero]

theorem syntheticEntry_call (ehfBuf : BitVec 64) {r : Ehf×Call} (h : Ready r) :
    syntheticEntry ehfBuf (r.1.pos,r.2.body r.1.pos) =
      match r.2 with
      | .cie _ => none
      | .fde _ _ funcAddr _ _ => some ⟨funcAddr,ehfBuf + BitVec.ofNat 64 r.1.pos⟩ := by
  obtain ⟨s,call⟩ := r
  obtain ⟨haligned,hbefore⟩ := h
  cases call with
  | cie personalityAddr => rfl
  | fde kind cieOffset funcAddr funcSize lsdaAddr =>
    obtain ⟨hmod,hoff⟩ := hbefore _ _ _ _ _ rfl
    have hbody : ∃ q, fdeBody kind.cfiBytes cieOffset funcAddr funcSize lsdaAddr s.pos =
        leBytes 4 (s.pos + 4 - cieOffset) ++ (leBytes 8 funcAddr.toNat ++ q) := by
      unfold fdeBody fdeFields
      dsimp only
      generalize padding _ = n
      exact ⟨leBytes 8 funcSize.toNat ++ augmentationBytes lsdaAddr ++ kind.cfiBytes ++ List.replicate n 0,by simp⟩
    obtain ⟨q,hq⟩ := hbody
    dsimp only at haligned hoff
    have hne : leNat (leBytes 4 (s.pos + 4 - cieOffset)) ≠ 0 := by
      rw [leNat_leBytes]
      omega
    rw [syntheticEntry, Call.body]
    dsimp only
    rw [hq, List.take_left' (length_leBytes 4 _), if_pos hne, List.drop_left' (length_leBytes 4 _),
      List.take_left' (length_leBytes 8 _), word_leBytes]

theorem collectSynthetic_sectionOf (ehfBuf : BitVec 64) {calls : List Call} (h : Legal [] .empty calls) :
    collectSynthetic ehfBuf (sectionOf calls) (sectionOf calls).pos 0 = syntheticFdes ehfBuf calls := by
  have hready := ready_of_legal h rfl (by simp)
  obtain ⟨hrun,hplaces⟩ := emitCalls_run calls Run.empty
  rw [List.nil_append] at hrun
  have hbuf : (sectionOf calls).buf = [] ++
      (((trace calls .empty).map fun r => r.2.body r.1.pos).flatMap withLength ++ leBytes 4 0) := by
    rw [← hrun.buf]
    rfl
  have hlen : ((trace calls .empty).map fun r => r.2.body r.1.pos).length ≤ (sectionOf calls).pos := by
    rw [Ehf.pos, hbuf, List.nil_append, List.length_append]
    exact (length_le_flatMap _).trans (Nat.le_add_right _ _)
  have hbodies : ∀ body ∈ (trace calls .empty).map fun r => r.2.body r.1.pos, 12 ≤ body.length ∧ body.length < 2^32 := by
    intro body hbody
    obtain ⟨r,-,rfl⟩ := List.mem_map.mp hbody
    exact r.2.length_body r.1.pos
  have hcollect : collectSynthetic ehfBuf (sectionOf calls) (sectionOf calls).pos 0 = _ :=
    collectSynthetic_eq ehfBuf hbodies hlen hbuf
  rw [hcollect]
  refine (congrArg (List.filterMap (syntheticEntry ehfBuf)) hplaces).trans ?_
  rw [List.filterMap_map, syntheticFdes]
  exact List.filterMap_congr fun r hr => syntheticEntry_call ehfBuf (hready r hr)

/-- The parser reads the location of every FDE as its CIE encodes it, and none is zero. -/
def LocationsRead (E : NativeSection) (S : EhSection) : Prop :=
  ∀ r ∈ S.placed, isFde r.2 → locationRead E S r = S.location E.base r ∧ S.location E.base r ≠ 0

theorem entryOf_location_ne {base : ℕ} {f : ℕ×Record → BitVec 64} {r : ℕ×Record} {e : HdrEntry}
    (h : entryOf base f r = some e) : f r = e.initialLocation ∧ f r ≠ 0 := by
  unfold entryOf at h
  split_ifs at h with hne
  rw [← Option.some.inj h]
  exact ⟨rfl,hne⟩

theorem nativeFdes_perm_iff {E : NativeSection} {S : EhSection} (hE : E.bytes = S.bytes) :
    (S.placed.filterMap (entryOf E.base (locationRead E S))).Perm (nativeFdes E.base S) ↔ LocationsRead E S := by
  constructor
  · intro h r hr hfde
    have hmem : (⟨S.location E.base r,BitVec.ofNat 64 (E.base + r.1)⟩ : HdrEntry) ∈ nativeFdes E.base S :=
      List.mem_filterMap.mpr ⟨r,hr,if_pos hfde⟩
    obtain ⟨heq,hne⟩ := entryOf_location_ne (entryOf_of_mem hE hr (h.mem_iff.mpr hmem) rfl)
    exact ⟨heq,fun hzero => hne (heq.trans hzero)⟩
  · intro h
    refine List.Perm.of_eq (List.filterMap_congr fun r hr => ?_)
    obtain ⟨off,record⟩ := r
    cases record with
    | cie extended c => exact if_neg fun hne => hne rfl
    | fde extended ofCie location rest =>
      obtain ⟨heq,hne⟩ := h _ hr rfl
      rw [entryOf, heq, if_pos hne]
      rfl

section Both
variable (Q : HdrSort) (ehfBuf : BitVec 64) {calls : List Call} {E : NativeSection}

theorem table_merged (h : Legal [] .empty calls) (es : List HdrEntry) :
    (hdrTable (ehFrameHdr Q ehfBuf (sectionOf calls) es)).Pairwise
      (fun a b => a.initialLocation ≤ b.initialLocation) ∧
    (hdrTable (ehFrameHdr Q ehfBuf (sectionOf calls) es)).Perm (syntheticFdes ehfBuf calls ++ es) := by
  rw [hdrTable_ehFrameHdr, collectSynthetic_sectionOf ehfBuf h]
  exact ⟨(Q.sorted _).imp le_of_cmpHdrEntry,Q.perm _⟩

theorem table_perm_iff (h : Legal [] .empty calls) {S : EhSection} (hS : S.WellFormed) (hE : E.bytes = S.bytes) {n : ℕ}
    {es : List HdrEntry} (hes : parseNativeEhFrameFdes E n 0 [] = .done es) :
    (hdrTable (ehFrameHdr Q ehfBuf (sectionOf calls) es)).Perm (syntheticFdes ehfBuf calls ++ nativeFdes E.base S) ↔
      LocationsRead E S := by
  rw [(table_merged Q ehfBuf h es).2.congr_left, parse_unique hes (parse_section hE hS), List.perm_append_left_iff,
    nativeFdes_perm_iff hE]

/-- The emitters and the table do well exactly if every FDE follows its CIE at a distance of 32 bits and the
parser reads the locations of the native FDEs, none of which is zero. -/
theorem emitsWell_iff (h : Legal [] .empty calls) :
    EmitsWell Q ehfBuf calls E ↔ (∀ r ∈ trace calls .empty, Near r) ∧
      ∀ S : EhSection, S.WellFormed → E.bytes = S.bytes → LocationsRead E S := by
  constructor
  · rintro ⟨hwalk,-,htable⟩
    refine ⟨(forall₂_found_iff h).mp hwalk,fun S hS hE => ?_⟩
    have hes := parse_section hE hS
    exact (table_perm_iff Q ehfBuf h hS hE hes).mp (htable S hS hE _ _ hes).2
  · rintro ⟨hnear,hread⟩
    refine ⟨(forall₂_found_iff h).mpr hnear,fun n es _ => table_merged Q ehfBuf h es,fun S hS hE n es hes => ⟨?_,?_⟩⟩
    · exact (table_merged Q ehfBuf h es).1
    · exact (table_perm_iff Q ehfBuf h hS hE hes).mpr (hread S hS hE)

end Both

theorem cmpHdrEntry_le_iff (a b : HdrEntry) : cmpHdrEntry a b ≤ 0 ↔ a.initialLocation ≤ b.initialLocation := by
  refine ⟨le_of_cmpHdrEntry,fun h => ?_⟩
  unfold cmpHdrEntry
  split_ifs with hlt hgt
  · decide
  · exact absurd h (BitVec.not_le.mpr hgt)
  · decide

def stableSort : HdrSort where
  qsort l := l.mergeSort fun a b => decide (cmpHdrEntry a b ≤ 0)
  perm l := l.mergeSort_perm _
  sorted l := by
    refine (List.pairwise_mergeSort ?_ ?_ l).imp of_decide_eq_true
    · intro a b c hab hbc
      simp only [decide_eq_true_eq, cmpHdrEntry_le_iff, BitVec.le_def] at hab hbc ⊢
      exact hab.trans hbc
    · intro a b
      simp only [Bool.or_eq_true, decide_eq_true_eq, cmpHdrEntry_le_iff, BitVec.le_def]
      exact Nat.le_total _ _

def oneFrame : List Call := [.cie 0x7f0000001000,.fde (.frame 0x04000000) 0 0x100001000 0x40 0x100002000]

theorem oneFrame_legal : Legal [] .empty oneFrame := ⟨List.mem_singleton.mpr rfl,trivial⟩

theorem emitsWell_oneFrame : EmitsWell stableSort 0x7e0000000000 oneFrame ⟨0x10000,[],fun _ => 0,by decide⟩ := by
  refine (emitsWell_iff stableSort 0x7e0000000000 oneFrame_legal).mpr ⟨?_,?_⟩
  · intro r hr kind cieOffset funcAddr funcSize lsdaAddr heq
    rcases List.mem_cons.mp hr with rfl | hr
    · cases heq
    · rw [List.mem_singleton.mp hr] at heq ⊢
      cases heq
      decide
  · intro S hS hE r hr
    exact absurd (offset_lt hE hr) (Nat.not_lt_zero _)

/-- A section whose CIE is that of a signal frame, with locations relative to where they stand. -/
def signalSection : EhSection :=
  ⟨[.cie false ⟨1,.sized [.flag 0x53,.fdePointer 0x1b] [1],[4],[0x78],[30],[0x0c,31,0]⟩,
    .fde false 0 [0xe0,0x0f,0,0] [0x40,0,0,0,0]],none⟩

theorem signalSection_wellFormed : signalSection.WellFormed := by
  have hcie : CieRecord.WellFormed ⟨1,.sized [.flag 0x53,.fdePointer 0x1b] [1],[4],[0x78],[30],[0x0c,31,0]⟩ := by
    refine ⟨.inl rfl,⟨?_,?_,?_,?_⟩,?_,?_,?_,?_⟩
    · simp [AugItem.WellFormed]
    · simp [IsLeb]
    · decide
    · decide
    · simp [IsLeb]
    · simp [IsLeb]
    · simp
    · decide
  intro r hr
  rcases List.mem_cons.mp hr with rfl | hr
  · exact hcie
  · rw [List.mem_singleton.mp hr]
    refine ⟨?_,by decide,by decide,false,_,List.mem_cons_self,?_,.inr (by decide)⟩
    · rw [lengthFits, if_neg Bool.false_ne_true]
      decide
    · rfl

def signalNative : NativeSection := ⟨0x10000,signalSection.bytes,fun _ => 0,by decide⟩

/-- The parser stops at the letter of the signal frame and takes the location for an absolute one. -/
theorem not_emitsWell_signalFrame : ¬EmitsWell stableSort 0x7e0000000000 oneFrame signalNative := by
  intro h
  have hes := parse_section rfl signalSection_wellFormed (E := signalNative)
  have hread := (table_perm_iff stableSort 0x7e0000000000 oneFrame_legal signalSection_wellFormed rfl hes).mp
    (h.table _ signalSection_wellFormed rfl _ _ hes).2
  have hfde := hread _ (List.mem_cons_of_mem _ List.mem_cons_self) rfl
  revert hfde
  decide

end Machismo.EhFrame
