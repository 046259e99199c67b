import Machismo.EhFrame.Collect
import Machismo.EhFrame.Unwind

/-! # The synthetic section

One CIE without a personality and one for each of the first four personalities, then an entry for each
compact entry that is neither described by the native `__eh_frame` nor the continuation of a function,
and a zero length at the end.
-/
namespace Machismo.EhFrame
open A64 (Byte)
open Data Dwarf Relation

/-- What the main function is given: the address of `__TEXT` with the slide, the section, and the
pointers in the global offset table. -/
structure Image where
  base : BitVec 64
  info : UnwindInfo
  got : BitVec 64 → BitVec 64

def Image.personalityCount (I : Image) : ℕ := min I.info.personalityArrayCount.toNat 4

/-- The array holds signed distances from the start of `__TEXT` to slots of the global offset table. -/
def Image.personality (I : Image) (i : ℕ) : BitVec 64 :=
  I.got (I.base + (I.info.u32 (I.info.personalityArraySectionOffset.toNat + 4*i)).signExtend 64)

def Image.personalities (I : Image) : List (BitVec 64) := (List.range I.personalityCount).map I.personality

def ehfCapacity (count : ℕ) : ℕ := count*80 + 4096

def emitCieBy (st : List ℕ × Ehf) (personality : BitVec 64) : List ℕ × Ehf :=
  let cie := emitCie personality st.2
  (st.1 ++ [cie.1],cie.2)

def emitCies (personalities : List (BitVec 64)) (s : Ehf) : List ℕ × Ehf := personalities.foldl emitCieBy ([],s)

def CuEntry.mode (e : CuEntry) : BitVec 32 := e.encoding &&& unwindArm64ModeMask

def CuEntry.lsdaAddr (base : BitVec 64) (e : CuEntry) : BitVec 64 :=
  if e.encoding &&& unwindHasLsda ≠ 0 ∧ e.lsdaOffset ≠ 0 then base + e.lsdaOffset.setWidth 64 else 0

/-- The CIE by the one-based index of the personality; a missing personality has that without one. -/
def CuEntry.cie (cieWithoutPersonality : ℕ) (cieByPersonality : List ℕ) (e : CuEntry) : ℕ :=
  let personalityIndex := ((e.encoding &&& unwindPersonalityMask) >>> 28).toNat
  if personalityIndex > 0 then cieByPersonality.getD (personalityIndex - 1) cieWithoutPersonality
  else cieWithoutPersonality

def CuEntry.skipped (e : CuEntry) : Bool :=
  e.mode = unwindArm64ModeDwarf ∨ e.encoding &&& unwindIsNotFunctionStart ≠ 0

def emitCuEntry (base : BitVec 64) (cieWithoutPersonality : ℕ) (cieByPersonality : List ℕ) (s : Ehf) (e : CuEntry) :
    Ehf :=
  let cie := e.cie cieWithoutPersonality cieByPersonality
  let funcAddr := base + e.funcOffset.setWidth 64
  if e.skipped then s
  else if e.mode = unwindArm64ModeFrame then emitFdeFrame cie funcAddr e.funcSize e.encoding (e.lsdaAddr base) s
  else if e.mode = unwindArm64ModeFrameless then
    emitFdeFrameless cie funcAddr e.funcSize e.encoding (e.lsdaAddr base) s
  else emitFdeMinimal cie funcAddr e.funcSize (e.lsdaAddr base) s

def emitSection (base : BitVec 64) (personalities : List (BitVec 64)) (entries : List CuEntry) : Ehf :=
  let cieWithoutPersonality := emitCie 0 .empty
  let cies := emitCies personalities cieWithoutPersonality.2
  ehfU32 0 (entries.foldl (emitCuEntry base cieWithoutPersonality.1 cies.1) cies.2)

/-- The capacity of the buffer and what is written to it; `none` where no buffer is made: where the entries
are not collected, and where there are none. -/
def ehFrameRegisterMacho (I : Image) : Option (ℕ × Ehf) :=
  (collectEntriesInt I.info).bind fun entries =>
    if entries.length = 0 then none
    else some (ehfCapacity entries.length,emitSection I.base I.personalities entries)

def frameInsns (encoding : BitVec 32) : List CfaInsn :=
  .advanceLoc 1 :: .defCfa 29 16 :: .offset 30 1 :: .offset 29 2 :: offsetsFrom 3 (savedRegs encoding)

def CuEntry.cfiBytes (e : CuEntry) : List Byte :=
  if e.mode = unwindArm64ModeFrame then frameBytes e.encoding
  else if e.mode = unwindArm64ModeFrameless then framelessBytes e.encoding
  else []

/-- The instructions that the encoding of an entry calls for. -/
def CuEntry.cfiInsns (e : CuEntry) : List CfaInsn :=
  if e.mode = unwindArm64ModeFrame then frameInsns e.encoding
  else if e.mode = unwindArm64ModeFrameless then framelessInsns e.encoding
  else []

theorem CuEntry.cfiBytes_encodes (e : CuEntry) : Encodes e.cfiBytes e.cfiInsns := by
  unfold cfiBytes cfiInsns
  split
  · exact frameBytes_encodes e.encoding
  · split
    · exact framelessBytes_encodes e.encoding
    · exact .nil

theorem CuEntry.length_cfiBytes_le (e : CuEntry) : e.cfiBytes.length ≤ 62 := by
  have hregs := length_regs e.encoding
  have hframe := length_frameBytes e.encoding
  have hframeless := length_framelessBytes_le e.encoding
  unfold cfiBytes
  split
  · omega
  · split
    · omega
    · simp

theorem emitCuEntry_eq {base : BitVec 64} {cie₀ : ℕ} {cies : List ℕ} {s : Ehf} {e : CuEntry} (h : e.skipped = false) :
    emitCuEntry base cie₀ cies s e = s.entry (fdeBody e.cfiBytes (e.cie cie₀ cies) (base + e.funcOffset.setWidth 64)
      e.funcSize (e.lsdaAddr base) s.pos) := by
  unfold emitCuEntry CuEntry.cfiBytes
  simp only [h, Bool.false_eq_true, if_false]
  split
  · rw [emitFdeFrame, emitFde_eq (frameCfi_eq e.encoding)]
  · split
    · rw [emitFdeFrameless, emitFde_eq (framelessCfi_eq e.encoding)]
    · rw [emitFdeMinimal, emitFde_eq fun s => (push_nil s).symm]

/-- The buffer is a sequence of entries with these bodies, each at a multiple of eight, and every index
below the position has been written. -/
structure Run (s : Ehf) (bodies : List (List Byte)) : Prop where
  buf : s.buf = bodies.flatMap withLength
  aligned : s.pos % 8 = 0
  bodies : ∀ body ∈ bodies, body ≠ [] ∧ body.length < 2^32
  written : ∀ i, i ∈ s.written ↔ i < s.pos

theorem Run.empty : Run .empty [] := ⟨rfl,rfl,by simp,by simp [Ehf.empty, Ehf.pos]⟩

theorem Run.entry {s : Ehf} {bodies : List (List Byte)} (h : Run s bodies) {body : List Byte} (hne : body ≠ [])
    (hlen : body.length < 2^32) (hpos : (s.entry body).pos % 8 = 0) : Run (s.entry body) (bodies ++ [body]) where
  buf := by
    rw [List.flatMap_append, ← h.buf]
    simp [Ehf.entry]
  aligned := hpos
  bodies := by
    intro b hb
    rcases List.mem_append.mp hb with hb | hb
    · exact h.bodies b hb
    · rw [List.mem_singleton.mp hb]
      exact ⟨hne,hlen⟩
  written := by
    intro i
    rw [pos_entry]
    simp only [Ehf.entry, List.mem_append, List.mem_range'_1, h.written]
    omega

theorem readFde_zero (p : List Byte) : readFde (leBytes 4 0 ++ p) = none := by
  unfold readFde
  rw [readFixed_leBytes, Option.bind_some]
  simp

theorem readFde_cieBody (personalityAddr : BitVec 64) (pos : ℕ) : readFde (cieBody personalityAddr pos) = none := by
  unfold cieBody cieFields
  simp only [List.append_assoc]
  exact readFde_zero _

theorem Run.cie {s : Ehf} {bodies : List (List Byte)} (h : Run s bodies) (personalityAddr : BitVec 64) :
    Run (emitCie personalityAddr s).2 (bodies ++ [cieBody personalityAddr s.pos]) := by
  have hlen := length_cieBody_le personalityAddr s.pos
  rw [emitCie_eq]
  refine h.entry ?_ (by omega) (pos_entry_padded s _)
  intro hnil
  have := congrArg List.length hnil
  simp [cieBody, cieFields] at this

def roundUp8 (n : ℕ) : ℕ := (n + 7)/8*8

def cieSize (personalityAddr : BitVec 64) : ℕ := if personalityAddr = 0 then 24 else 32

/-- The bytes that a compact entry takes: with the mode `FRAME` they grow with the saved registers. -/
def CuEntry.fdeSize (base : BitVec 64) (e : CuEntry) : ℕ :=
  let lsda := if e.lsdaAddr base = 0 then 0 else 8
  if e.skipped then 0
  else if e.mode = unwindArm64ModeFrame then
    roundUp8 (33 + lsda + 2 * (xRegs e.encoding).length + 3 * (dRegs e.encoding).length)
  else 32 + lsda

theorem pos_padded {s : Ehf} (h : s.pos % 8 = 0) (bs : List Byte) :
    (s.entry (bs ++ List.replicate (padding (s.pos + 4 + bs.length)) 0)).pos = s.pos + roundUp8 (4 + bs.length) := by
  rw [pos_entry, List.length_append, List.length_replicate]
  unfold padding roundUp8
  omega

theorem pos_emitCie {s : Ehf} (h : s.pos % 8 = 0) (personalityAddr : BitVec 64) :
    (emitCie personalityAddr s).2.pos = s.pos + cieSize personalityAddr := by
  rw [emitCie_eq]
  refine (pos_padded h _).trans (congrArg _ ?_)
  unfold cieSize cieFields
  by_cases hp : personalityAddr = 0#64
  · simp [hp, roundUp8]
  · simp [hp, roundUp8]

theorem pos_emitCuEntry (base : BitVec 64) (cie₀ : ℕ) (cies : List ℕ) {s : Ehf} (h : s.pos % 8 = 0) (e : CuEntry) :
    (emitCuEntry base cie₀ cies s e).pos = s.pos + e.fdeSize base := by
  cases hskip : e.skipped with
  | true => simp [emitCuEntry, CuEntry.fdeSize, hskip]
  | false =>
    rw [emitCuEntry_eq hskip]
    refine (pos_padded h _).trans (congrArg _ ?_)
    have haug : (augmentationBytes (e.lsdaAddr base)).length = 1 + if e.lsdaAddr base = 0 then 0 else 8 := by
      unfold augmentationBytes
      split <;> simp_all
    have hframe := length_frameBytes e.encoding
    have hframeless := length_framelessBytes_le e.encoding
    simp only [fdeFields, List.length_append, length_leBytes, haug, CuEntry.fdeSize, hskip, CuEntry.cfiBytes,
      Bool.false_eq_true, if_false]
    have hlsda : (if e.lsdaAddr base = 0 then 0 else 8) = 0 ∨ (if e.lsdaAddr base = 0 then 0 else 8) = 8 := by
      split <;> simp
    generalize (if e.lsdaAddr base = 0 then 0 else 8) = lsda at hlsda ⊢
    unfold roundUp8
    by_cases hmode : e.mode = unwindArm64ModeFrame
    · rw [if_pos hmode, if_pos hmode]
      omega
    · rw [if_neg hmode, if_neg hmode]
      split
      · omega
      · rw [List.length_nil]
        omega

def Describes (base : BitVec 64) (e : CuEntry) (fde : Fde) : Prop :=
  fde.location = (base + e.funcOffset.setWidth 64).toNat ∧ fde.range = e.funcSize.toNat ∧
    ∃ n, fde.insns = e.cfiInsns ++ List.replicate n .nop

/-- An offset of an entry that was emitted before. -/
def Ehf.Before (s : Ehf) (off : ℕ) : Prop := off % 8 = 0 ∧ off ≤ s.pos

theorem emitCies_run (personalities : List (BitVec 64)) {s : Ehf} {bodies : List (List Byte)} (h : Run s bodies)
    (hbodies : bodies.filterMap readFde = []) {cies : List ℕ} (hcies : ∀ off ∈ cies, s.Before off) :
    (∃ bodies', Run (personalities.foldl emitCieBy (cies,s)).2 bodies' ∧ bodies'.filterMap readFde = []) ∧
    (∀ off ∈ (personalities.foldl emitCieBy (cies,s)).1, (personalities.foldl emitCieBy (cies,s)).2.Before off) ∧
    (personalities.foldl emitCieBy (cies,s)).2.pos = s.pos + (personalities.map cieSize).sum := by
  induction personalities generalizing s bodies cies with
  | nil => exact ⟨⟨bodies,h,hbodies⟩,hcies,rfl⟩
  | cons personality personalities ih =>
    have hpos := pos_emitCie h.aligned personality
    have hbodies' : (bodies ++ [cieBody personality s.pos]).filterMap readFde = [] := by
      rw [List.filterMap_append, hbodies]
      simp [readFde_cieBody]
    have hcies' : ∀ off ∈ cies ++ [(emitCie personality s).1], (emitCie personality s).2.Before off := by
      intro off hoff
      rcases List.mem_append.mp hoff with hoff | hoff
      · obtain ⟨hmod,hle⟩ := hcies off hoff
        exact ⟨hmod,by omega⟩
      · rw [List.mem_singleton.mp hoff]
        exact ⟨h.aligned,by rw [hpos, emitCie]; omega⟩
    obtain ⟨hrun,hbefore,hsum⟩ := ih (h.cie personality) hbodies' hcies'
    refine ⟨hrun,hbefore,hsum.trans ?_⟩
    rw [hpos, List.map_cons, List.sum_cons, Nat.add_assoc]

section Entries
variable {base : BitVec 64} {cie₀ : ℕ} {cies : List ℕ} {s : Ehf} {bodies : List (List Byte)}

theorem CuEntry.cie_before (h₀ : s.Before cie₀) (h : ∀ off ∈ cies, s.Before off) (e : CuEntry) :
    s.Before (e.cie cie₀ cies) := by
  unfold CuEntry.cie
  dsimp only
  split
  · rw [List.getD_eq_getElem?_getD]
    cases hget : cies[((e.encoding &&& unwindPersonalityMask) >>> 28).toNat - 1]? with
    | none => exact h₀
    | some off => exact h off (List.mem_of_getElem? hget)
  · exact h₀

theorem Run.cuEntry (base : BitVec 64) (h : Run s bodies) (h₀ : s.Before cie₀) (hcies : ∀ off ∈ cies, s.Before off)
    {e : CuEntry} (he : e.skipped = false) :
    ∃ body fde, Run (emitCuEntry base cie₀ cies s e) (bodies ++ [body]) ∧ readFde body = some fde ∧
      Describes base e fde := by
  obtain ⟨hmod,hle⟩ := e.cie_before h₀ hcies
  have haligned := h.aligned
  have hlen := length_fdeBody_le e.cfiBytes (e.cie cie₀ cies) (base + e.funcOffset.setWidth 64) e.funcSize
    (e.lsdaAddr base) s.pos
  have hcfi := e.length_cfiBytes_le
  obtain ⟨n,hread⟩ : ∃ n, readFde (fdeBody e.cfiBytes (e.cie cie₀ cies) (base + e.funcOffset.setWidth 64) e.funcSize
      (e.lsdaAddr base) s.pos) = some ⟨_,_,_,_,e.cfiInsns ++ List.replicate n .nop⟩ :=
    readFde_fdeBody e.cfiBytes_encodes (by omega)
  refine ⟨_,_,?_,hread,rfl,rfl,n,rfl⟩
  rw [emitCuEntry_eq he]
  refine h.entry ?_ (by omega) (pos_entry_padded s _)
  intro hnil
  rw [hnil] at hread
  cases hread

theorem emitCuEntries_run (base : BitVec 64) (entries : List CuEntry) (h : Run s bodies) (h₀ : s.Before cie₀)
    (hcies : ∀ off ∈ cies, s.Before off) :
    (∃ bodies' fdes, Run (entries.foldl (emitCuEntry base cie₀ cies) s) bodies' ∧
      bodies'.filterMap readFde = bodies.filterMap readFde ++ fdes ∧
      List.Forall₂ (Describes base) (entries.filter fun e => !e.skipped) fdes) ∧
    (entries.foldl (emitCuEntry base cie₀ cies) s).pos = s.pos + (entries.map (CuEntry.fdeSize base)).sum := by
  induction entries generalizing s bodies with
  | nil => exact ⟨⟨bodies,[],h,by simp,.nil⟩,rfl⟩
  | cons e entries ih =>
    have hpos := pos_emitCuEntry base cie₀ cies h.aligned e
    have hbefore : ∀ off, s.Before off → (emitCuEntry base cie₀ cies s e).Before off := by
      rintro off ⟨hmod,hle⟩
      exact ⟨hmod,by omega⟩
    cases he : e.skipped with
    | true =>
      have hsame : emitCuEntry base cie₀ cies s e = s := by simp [emitCuEntry, he]
      obtain ⟨⟨bodies',fdes,hrun,hread,hdesc⟩,hsum⟩ := ih h h₀ hcies
      rw [List.foldl_cons, hsame, List.filter_cons_of_neg (by simp [he])]
      refine ⟨⟨bodies',fdes,hrun,hread,hdesc⟩,?_⟩
      rw [hsame] at hpos
      rw [hsum, List.map_cons, List.sum_cons]
      omega
    | false =>
      obtain ⟨body,fde,hrun,hread,hdesc⟩ := h.cuEntry base h₀ hcies he
      obtain ⟨⟨bodies',fdes,hrun',hread',hdesc'⟩,hsum⟩ :=
        ih hrun (hbefore _ h₀) fun off hoff => hbefore off (hcies off hoff)
      rw [List.foldl_cons, List.filter_cons_of_pos (by simp [he])]
      refine ⟨⟨bodies',fde :: fdes,hrun',?_,.cons hdesc hdesc'⟩,?_⟩
      · rw [hread', List.filterMap_append]
        simp [hread]
      · rw [hsum, hpos, List.map_cons, List.sum_cons, Nat.add_assoc]

end Entries

/-- The frame descriptor entries that an unwinder finds in a section. -/
def fdesOf (B : List Byte) : List Fde := (entries B.length B).filterMap readFde

theorem length_le_flatMap (bodies : List (List Byte)) : bodies.length ≤ (bodies.flatMap withLength).length := by
  induction bodies with
  | nil => simp
  | cons body bodies ih =>
    rw [List.flatMap_cons, List.length_append, List.length_cons, withLength, List.length_append, length_leBytes]
    omega

theorem Run.walk_eq {s : Ehf} {bodies : List (List Byte)} (h : Run s bodies) :
    walk (ehfU32 0 s).buf.length 0 (ehfU32 0 s).buf = placeBodies 0 bodies := by
  have hlen := length_le_flatMap bodies
  have hbuf : (ehfU32 0 s).buf = bodies.flatMap withLength ++ (leBytes 4 0 ++ []) := by
    rw [← h.buf, List.append_nil]
    rfl
  rw [hbuf]
  refine walk_flatMap h.bodies ?_ 0 []
  rw [List.length_append]
  omega

theorem Run.entries_eq {s : Ehf} {bodies : List (List Byte)} (h : Run s bodies) :
    entries (ehfU32 0 s).buf.length (ehfU32 0 s).buf = bodies := by
  rw [← walk_snd _ 0, h.walk_eq, placeBodies_snd]

/-- The section holds an entry for each compact entry that is not skipped, in their order; its size is the
sum of the sizes of the entries, and exactly the indices below it have been written. -/
theorem emitSection_spec (base : BitVec 64) (personalities : List (BitVec 64)) (es : List CuEntry) :
    List.Forall₂ (Describes base) (es.filter fun e => !e.skipped) (fdesOf (emitSection base personalities es).buf) ∧
    (∀ i, i ∈ (emitSection base personalities es).written ↔ i < (emitSection base personalities es).pos) ∧
    (emitSection base personalities es).pos =
      24 + (personalities.map cieSize).sum + (es.map (CuEntry.fdeSize base)).sum + 4 := by
  set cie₀ := emitCie 0 .empty
  set cies := emitCies personalities cie₀.2
  have hpos : cie₀.2.pos = 24 := pos_emitCie rfl 0
  have hbodies : ([] ++ [cieBody 0 Ehf.empty.pos]).filterMap readFde = [] := by simp [readFde_cieBody]
  obtain ⟨⟨bodies,hrun,hread⟩,hbefore,hsum⟩ : (∃ bodies, Run cies.2 bodies ∧ bodies.filterMap readFde = []) ∧
      (∀ off ∈ cies.1, cies.2.Before off) ∧ cies.2.pos = cie₀.2.pos + (personalities.map cieSize).sum :=
    emitCies_run personalities (Run.empty.cie 0) hbodies (by simp)
  have hbefore₀ : cies.2.Before cie₀.1 := ⟨rfl,Nat.zero_le _⟩
  obtain ⟨⟨bodies',fdes,hrun',hread',hdesc⟩,hsum'⟩ := emitCuEntries_run base es hrun hbefore₀ hbefore
  have hsection : emitSection base personalities es = ehfU32 0 (es.foldl (emitCuEntry base cie₀.1 cies.1) cies.2) := rfl
  rw [hread, List.nil_append] at hread'
  rw [hsection]
  refine ⟨?_,?_,?_⟩
  · rw [fdesOf, hrun'.entries_eq, hread']
    exact hdesc
  · intro i
    rw [ehfU32_eq, pos_push, length_leBytes]
    simp only [Ehf.push, List.mem_append, List.mem_range'_1, length_leBytes]
    rw [hrun'.written]
    omega
  · rw [ehfU32_eq, pos_push, length_leBytes, hsum', hsum, hpos]

theorem ehFrameRegisterMacho_eq {I : Image} (h : I.info.version = 1)
    (hcount : (compactEntries I.info).length % 2^32 < 2^31) (hne : firstEntries I.info ≠ []) :
    ehFrameRegisterMacho I = some (ehfCapacity (firstEntries I.info).length,
      emitSection I.base I.personalities (setSizes (sortEntries (firstEntries I.info)))) := by
  have hlen : (setSizes (sortEntries (firstEntries I.info))).length = (firstEntries I.info).length := by
    have hmap : (setSizes (sortEntries (firstEntries I.info))).map CuEntry.encoding =
        (sortEntries (firstEntries I.info)).map CuEntry.encoding := map_setSizes (fun _ _ => rfl) _
    rw [← List.length_map CuEntry.encoding, hmap, List.length_map, (sortEntries_perm _).length_eq]
  rw [ehFrameRegisterMacho, collectEntriesInt_eq h, if_neg (Nat.not_le.mpr hcount), Option.bind_some, hlen,
    if_neg (mt List.length_eq_zero_iff.mp hne)]

theorem ehFrameRegisterMacho_some {I : Image} {cap : ℕ} {s : Ehf} (h : ehFrameRegisterMacho I = some (cap,s)) :
    I.info.version = 1 ∧ (compactEntries I.info).length % 2^32 < 2^31 ∧ firstEntries I.info ≠ [] := by
  by_cases hversion : I.info.version = 1
  · rw [ehFrameRegisterMacho, collectEntriesInt_eq hversion] at h
    split_ifs at h with hcount
    · cases h
    · refine ⟨hversion,by omega,fun hnil => ?_⟩
      rw [hnil] at h
      cases h
  · rw [ehFrameRegisterMacho, collectEntriesInt, if_pos hversion] at h
    cases h

end Machismo.EhFrame
