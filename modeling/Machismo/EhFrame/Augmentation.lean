import Machismo.EhFrame.Calls

/-! # Augmentation data

The calls that the main function makes, and what the FDEs of the section carry.  Which CIE an FDE is given
depends on the personality in its encoding, whether it carries an LSDA on the LSDA alone.
-/
namespace Machismo.EhFrame
open A64 (Byte)
open Data Dwarf

def CuEntry.kind (e : CuEntry) : FdeKind :=
  if e.mode = unwindArm64ModeFrame then .frame e.encoding
  else if e.mode = unwindArm64ModeFrameless then .frameless e.encoding
  else .minimal

def CuEntry.call (base : BitVec 64) (cie₀ : ℕ) (cies : List ℕ) (e : CuEntry) : Call :=
  .fde e.kind (e.cie cie₀ cies) (base + e.funcOffset.setWidth 64) e.funcSize (e.lsdaAddr base)

def cieOffsets (personalities : List (BitVec 64)) : List ℕ := (emitCies personalities (emitCie 0 .empty).2).1

def emittedEntries (es : List CuEntry) : List CuEntry := es.filter fun e => !e.skipped

def fdeCalls (base : BitVec 64) (personalities : List (BitVec 64)) (es : List CuEntry) : List Call :=
  (emittedEntries es).map (CuEntry.call base 0 (cieOffsets personalities))

def sectionCalls (base : BitVec 64) (personalities : List (BitVec 64)) (es : List CuEntry) : List Call :=
  .cie 0 :: (personalities.map .cie ++ fdeCalls base personalities es)

theorem emitCuEntry_call {base : BitVec 64} {cie₀ : ℕ} {cies : List ℕ} {s : Ehf} {e : CuEntry}
    (h : e.skipped = false) : emitCuEntry base cie₀ cies s e = (e.call base cie₀ cies).emit s := by
  unfold emitCuEntry CuEntry.call CuEntry.kind
  simp only [h, Bool.false_eq_true, if_false]
  split
  · rfl
  · split <;> rfl

theorem foldl_emitCuEntry (base : BitVec 64) (cie₀ : ℕ) (cies : List ℕ) (es : List CuEntry) (s : Ehf) :
    es.foldl (emitCuEntry base cie₀ cies) s = emitCalls ((emittedEntries es).map (CuEntry.call base cie₀ cies)) s := by
  induction es generalizing s with
  | nil => rfl
  | cons e es ih =>
    cases he : e.skipped with
    | true =>
      have hsame : emitCuEntry base cie₀ cies s e = s := by simp [emitCuEntry, he]
      rw [List.foldl_cons, hsame, ih, emittedEntries, emittedEntries, List.filter_cons_of_neg (by simp [he])]
    | false =>
      rw [List.foldl_cons, emitCuEntry_call he, ih, emittedEntries, emittedEntries,
        List.filter_cons_of_pos (by simp [he])]
      rfl

/-- The offsets are those at which the CIEs were emitted. -/
theorem foldl_emitCieBy (personalities : List (BitVec 64)) (cies : List ℕ) (s : Ehf) :
    personalities.foldl emitCieBy (cies,s) =
      (cies ++ (trace (personalities.map .cie) s).map fun r => r.1.pos,emitCalls (personalities.map .cie) s) := by
  induction personalities generalizing cies s with
  | nil => simp [trace, emitCalls]
  | cons p ps ih =>
    rw [List.foldl_cons, emitCieBy, ih, List.append_assoc]
    rfl

theorem cieOffsets_eq (personalities : List (BitVec 64)) : cieOffsets personalities =
    (trace (personalities.map .cie) ((Call.cie 0).emit .empty)).map fun r => r.1.pos := by
  rw [cieOffsets, emitCies, foldl_emitCieBy]
  rfl

theorem emitSection_eq (base : BitVec 64) (personalities : List (BitVec 64)) (es : List CuEntry) :
    emitSection base personalities es = sectionOf (sectionCalls base personalities es) := by
  have hcies : emitCies personalities (emitCie 0 .empty).2 =
      (cieOffsets personalities,emitCalls (personalities.map .cie) ((Call.cie 0).emit .empty)) := by
    rw [cieOffsets, emitCies, foldl_emitCieBy]
    rfl
  rw [emitSection, hcies]
  dsimp only
  rw [foldl_emitCuEntry, sectionOf, sectionCalls]
  refine congrArg _ ?_
  refine Eq.trans ?_ (emitCalls_append (.cie 0 :: personalities.map .cie) _ .empty).symm
  rfl

theorem legal_cies (ps : List (BitVec 64)) {cies : List ℕ} {s : Ehf} {calls : List Call}
    (h : Legal (cies ++ (trace (ps.map .cie) s).map fun r => r.1.pos) (emitCalls (ps.map .cie) s) calls) :
    Legal cies s (ps.map .cie ++ calls) := by
  induction ps generalizing cies s with
  | nil => simpa [trace, emitCalls] using h
  | cons p ps ih =>
    refine ih ?_
    rw [List.append_assoc]
    exact h

theorem legal_fdes {base : BitVec 64} {cie₀ : ℕ} {offsets cies : List ℕ} {es : List CuEntry} {s : Ehf}
    (h : ∀ e ∈ es, e.cie cie₀ offsets ∈ cies) : Legal cies s (es.map (CuEntry.call base cie₀ offsets)) := by
  induction es generalizing s with
  | nil => trivial
  | cons e es ih => exact ⟨h e List.mem_cons_self,ih fun e' he => h e' (List.mem_cons_of_mem _ he)⟩

theorem CuEntry.cie_mem (cie₀ : ℕ) (cies : List ℕ) (e : CuEntry) : e.cie cie₀ cies ∈ cie₀ :: cies := by
  unfold CuEntry.cie
  dsimp only
  split
  · rw [List.getD_eq_getElem?_getD]
    cases hget : cies[((e.encoding &&& unwindPersonalityMask) >>> 28).toNat - 1]? with
    | none => exact List.mem_cons_self
    | some off => exact List.mem_cons_of_mem _ (List.mem_of_getElem? hget)
  · exact List.mem_cons_self

theorem sectionCalls_legal (base : BitVec 64) (personalities : List (BitVec 64)) (es : List CuEntry) :
    Legal [] .empty (sectionCalls base personalities es) := by
  refine legal_cies personalities (legal_fdes fun e _ => ?_)
  have hmem := e.cie_mem 0 (cieOffsets personalities)
  have hlist : 0 :: cieOffsets personalities =
      0 :: (trace (personalities.map .cie) (emitCie 0 .empty).2).map fun r => r.1.pos :=
    congrArg _ (cieOffsets_eq personalities)
  rw [hlist] at hmem
  exact hmem

/-- The FDEs of a section with their offsets. -/
def fdesAt (B : List Byte) : List (ℕ×Fde) := (records B).filterMap fun e => (readFde e.2).map (e.1,·)

def CuEntry.personalityIndex (e : CuEntry) : ℕ := ((e.encoding &&& unwindPersonalityMask) >>> 28).toNat

def CuEntry.HasPersonality (personalities : List (BitVec 64)) (e : CuEntry) : Prop :=
  ∃ i personality, e.personalityIndex = i + 1 ∧ personalities[i]? = some personality ∧ personality ≠ 0

/-- The encoding announces an LSDA and one was found, at another address than zero. -/
def CuEntry.HasLsda (base : BitVec 64) (e : CuEntry) : Prop :=
  e.encoding &&& unwindHasLsda ≠ 0 ∧ e.lsdaOffset ≠ 0 ∧ base + e.lsdaOffset.setWidth 64 ≠ 0

/-- The augmentation data that a CIE announces: with `L` the pointer to the LSDA, null for none. -/
def announced (augmentation : List Byte) (lsdaAddr : BitVec 64) : List Byte :=
  if augmentation.contains 0x4c then leBytes 8 lsdaAddr.toNat else []

/-- The FDE at an offset is that of an entry, and it names the CIE that was chosen for the entry. -/
def FdeOf (cie : CuEntry → ℕ) (e : CuEntry) (f : ℕ×Fde) : Prop := f.2.ciePointer = (f.1 + 4 - cie e) % 2^32

section Carries
variable (B : List Byte) (base : BitVec 64) (cie : CuEntry → ℕ)

/-- After `zPLR` there is a pointer to the LSDA, and after `zR` none for an encoding without one. -/
def Carries (e : CuEntry) (f : ℕ×Fde) : Prop :=
  FdeOf cie e f ∧ ∃ c, readCie (entryAt B (cie e)) = some c ∧
    (c.augmentation = [0x7a,0x50,0x4c,0x52] → f.2.augmentationData = leBytes 8 (e.lsdaAddr base).toNat) ∧
    (c.augmentation = [0x7a,0x52] → e.encoding &&& unwindHasLsda = 0 → f.2.augmentationData = [])

/-- The data are those that the CIE announces, also after `zR` for an encoding with an LSDA. -/
def CarriesExactly (e : CuEntry) (f : ℕ×Fde) : Prop :=
  FdeOf cie e f ∧ ∃ c, readCie (entryAt B (cie e)) = some c ∧
    f.2.augmentationData = announced c.augmentation (e.lsdaAddr base)

end Carries

def CuEntry.personality (personalities : List (BitVec 64)) (e : CuEntry) : BitVec 64 :=
  if e.personalityIndex > 0 then personalities.getD (e.personalityIndex - 1) 0 else 0

theorem personality_ne_iff {personalities : List (BitVec 64)} {e : CuEntry} :
    e.personality personalities ≠ 0 ↔ e.HasPersonality personalities := by
  unfold CuEntry.personality CuEntry.HasPersonality
  cases e.personalityIndex with
  | zero => simp
  | succ i =>
    rw [if_pos (Nat.succ_pos i), Nat.add_sub_cancel, List.getD_eq_getElem?_getD]
    cases hget : personalities[i]? with
    | none =>
      simp only [Option.getD_none, ne_eq, not_true_eq_false, false_iff]
      rintro ⟨j,p,hj,hp,-⟩
      obtain rfl := Nat.succ.inj hj
      rw [hget] at hp
      cases hp
    | some p =>
      refine ⟨fun hne => ⟨i,p,rfl,hget,hne⟩,?_⟩
      rintro ⟨j,q,hj,hq,hne⟩
      obtain rfl := Nat.succ.inj hj
      rw [hget] at hq
      rw [Option.some.inj hq]
      exact hne

theorem lsdaAddr_ne_iff {base : BitVec 64} {e : CuEntry} : e.lsdaAddr base ≠ 0 ↔ e.HasLsda base := by
  unfold CuEntry.lsdaAddr CuEntry.HasLsda
  split
  next h => exact ⟨fun hne => ⟨h.1,h.2,hne⟩,fun h => h.2.2⟩
  next h => exact ⟨fun hne => absurd rfl hne,fun hall => absurd ⟨hall.1,hall.2.1⟩ h⟩

theorem exists_cie_call (base : BitVec 64) (personalities : List (BitVec 64)) (es : List CuEntry) (e : CuEntry) :
    ∃ s, (s,Call.cie (e.personality personalities)) ∈ trace (sectionCalls base personalities es) .empty ∧
      s.pos = e.cie 0 (cieOffsets personalities) := by
  have hhead : (Ehf.empty,Call.cie 0) ∈ trace (sectionCalls base personalities es) .empty := List.mem_cons_self
  have htail : ∀ r ∈ trace (personalities.map .cie) ((Call.cie 0).emit .empty),
      r ∈ trace (sectionCalls base personalities es) .empty := by
    intro r hr
    refine List.mem_cons_of_mem _ ?_
    rw [trace_append]
    exact List.mem_append_left _ hr
  have hindex : ((e.encoding &&& unwindPersonalityMask) >>> 28).toNat = e.personalityIndex := rfl
  unfold CuEntry.cie CuEntry.personality
  dsimp only
  rw [hindex]
  by_cases hpos : e.personalityIndex > 0
  · rw [if_pos hpos, if_pos hpos, List.getD_eq_getElem?_getD, List.getD_eq_getElem?_getD, cieOffsets_eq,
      List.getElem?_map]
    have hcall := congrArg (·[e.personalityIndex - 1]?)
      (trace_snd (personalities.map .cie) ((Call.cie 0).emit .empty))
    simp only [List.getElem?_map] at hcall
    cases hget : (trace (personalities.map .cie) ((Call.cie 0).emit .empty))[e.personalityIndex - 1]? with
    | none =>
      rw [hget] at hcall
      rw [Option.map_eq_none_iff.mp hcall.symm]
      exact ⟨.empty,hhead,rfl⟩
    | some r =>
      rw [hget] at hcall
      obtain ⟨p,hp,hr⟩ := Option.map_eq_some_iff.mp hcall.symm
      rw [hp]
      refine ⟨r.1,?_,rfl⟩
      have hmem := htail r (List.mem_of_getElem? hget)
      rw [Option.getD_some, hr]
      exact hmem
  · rw [if_neg hpos, if_neg hpos]
    exact ⟨.empty,hhead,rfl⟩

/-- What the walk reads as an FDE. -/
def readAt (e : ℕ×List Byte) : Option (ℕ×Fde) := (readFde e.2).map (e.1,·)

theorem readAt_cies (ps : List (BitVec 64)) (s : Ehf) :
    ((trace (ps.map .cie) s).map fun r => (r.1.pos,r.2.body r.1.pos)).filterMap readAt = [] := by
  rw [List.filterMap_map, List.filterMap_eq_nil_iff]
  intro r hr
  have hcall : r.2 ∈ ps.map Call.cie := by
    rw [← trace_snd (ps.map .cie) s]
    exact List.mem_map_of_mem hr
  obtain ⟨p,-,hp⟩ := List.mem_map.mp hcall
  rw [Function.comp_apply, ← hp, readAt, Call.body, readFde_cieBody]
  rfl

theorem readAt_fdes {base : BitVec 64} {cie₀ : ℕ} {cies : List ℕ} {es : List CuEntry} {s : Ehf}
    (h : ∀ r ∈ trace (es.map (CuEntry.call base cie₀ cies)) s, Ready r) :
    List.Forall₂ (fun e f => FdeOf (CuEntry.cie cie₀ cies) e f ∧
        f.2.augmentationData = (augmentationBytes (e.lsdaAddr base)).tail) es
      (((trace (es.map (CuEntry.call base cie₀ cies)) s).map fun r => (r.1.pos,r.2.body r.1.pos)).filterMap
        readAt) := by
  induction es generalizing s with
  | nil => exact .nil
  | cons e es ih =>
    obtain ⟨haligned,hbefore⟩ := h _ List.mem_cons_self
    obtain ⟨hmod,hle⟩ := hbefore _ _ _ _ _ rfl
    dsimp only at haligned hle
    obtain ⟨fde,hread,hptr,haug⟩ : ∃ fde, readFde ((e.call base cie₀ cies).body s.pos) = some fde ∧
        fde.ciePointer = (s.pos + 4 - e.cie cie₀ cies) % 2^32 ∧
        fde.augmentationData = (augmentationBytes (e.lsdaAddr base)).tail := by
      obtain ⟨n,hread⟩ : ∃ n, readFde (fdeBody e.kind.cfiBytes (e.cie cie₀ cies) (base + e.funcOffset.setWidth 64)
          e.funcSize (e.lsdaAddr base) s.pos) = some ⟨_,_,_,_,e.kind.cfiInsns ++ List.replicate n .nop⟩ :=
        readFde_fdeBody e.kind.cfiBytes_encodes (by omega)
      exact ⟨_,hread,rfl,rfl⟩
    have hat : readAt (s.pos,(e.call base cie₀ cies).body s.pos) = some (s.pos,fde) := by
      rw [readAt, hread]
      rfl
    rw [List.map_cons, trace, List.map_cons, List.filterMap_cons_some hat]
    exact .cons ⟨hptr,haug⟩ (ih fun r hr => h r (List.mem_cons_of_mem _ hr))

section Section
variable (base : BitVec 64) (personalities : List (BitVec 64)) (es : List CuEntry)

theorem readCie_entryAt (e : CuEntry) :
    ∃ c, readCie (entryAt (emitSection base personalities es).buf (e.cie 0 (cieOffsets personalities))) = some c ∧
      c.augmentation = cieAugmentation (e.personality personalities) := by
  obtain ⟨s,hmem,hpos⟩ := exists_cie_call base personalities es e
  obtain ⟨hrun,hplaces⟩ := emitCalls_run (sectionCalls base personalities es) Run.empty
  rw [List.nil_append] at hrun
  have hbuf : (emitSection base personalities es).buf = [] ++
      (((trace (sectionCalls base personalities es) .empty).map fun r => r.2.body r.1.pos).flatMap withLength ++
        leBytes 4 0) := by
    rw [emitSection_eq, ← hrun.buf]
    rfl
  have hplaced : (s.pos,cieBody (e.personality personalities) s.pos) ∈
      placeBodies 0 ((trace (sectionCalls base personalities es) .empty).map fun r => r.2.body r.1.pos) := by
    refine hplaces ▸ List.mem_map.mpr ⟨_,hmem,rfl⟩
  have hentry : entryAt (emitSection base personalities es).buf s.pos = cieBody (e.personality personalities) s.pos := by
    rw [hbuf]
    exact entryAt_of_mem (fun body hbody => (hrun.bodies body hbody).2) hplaced
  obtain ⟨c,-,hread,-,-,-,-,haug⟩ := readCie_cieBody (e.personality personalities) s.pos
  exact ⟨c,by rw [← hpos, hentry]; exact hread,haug⟩

theorem fdesAt_emitSection :
    List.Forall₂ (fun e f => FdeOf (CuEntry.cie 0 (cieOffsets personalities)) e f ∧
        f.2.augmentationData = (augmentationBytes (e.lsdaAddr base)).tail)
      (emittedEntries es) (fdesAt (emitSection base personalities es).buf) := by
  have hready := ready_of_legal (sectionCalls_legal base personalities es) rfl (by simp)
  have hsplit : trace (sectionCalls base personalities es) .empty =
      trace ((0 :: personalities).map .cie) .empty ++
        trace (fdeCalls base personalities es) (emitCalls ((0 :: personalities).map .cie) .empty) :=
    trace_append ((0 :: personalities).map .cie) (fdeCalls base personalities es) .empty
  rw [hsplit] at hready
  have hfdes : fdesAt (emitSection base personalities es).buf =
      (records (emitSection base personalities es).buf).filterMap readAt := rfl
  rw [hfdes, emitSection_eq, records_sectionOf, hsplit, List.map_append, List.filterMap_append, readAt_cies,
    List.nil_append]
  exact readAt_fdes fun r hr => hready r (List.mem_append_right _ hr)

end Section

theorem tail_augmentationBytes (lsdaAddr : BitVec 64) :
    (augmentationBytes lsdaAddr).tail = if lsdaAddr ≠ 0 then leBytes 8 lsdaAddr.toNat else [] := by
  unfold augmentationBytes
  split <;> rfl

theorem announced_cieAugmentation (personalityAddr lsdaAddr : BitVec 64) :
    announced (cieAugmentation personalityAddr) lsdaAddr =
      if personalityAddr ≠ 0 then leBytes 8 lsdaAddr.toNat else [] := by
  unfold announced cieAugmentation
  by_cases hp : personalityAddr = 0
  · rw [if_neg (not_not.mpr hp), if_neg (not_not.mpr hp)]
    rfl
  · rw [if_pos hp, if_pos hp]
    rfl

theorem leBytes_eight_ne (v : ℕ) : leBytes 8 v ≠ [] := by
  intro h
  have hlen := congrArg List.length h
  rw [length_leBytes] at hlen
  cases hlen

section Entry
variable {base : BitVec 64} {personalities : List (BitVec 64)} {es : List CuEntry} {e : CuEntry} {f : ℕ×Fde}
  (hfde : FdeOf (CuEntry.cie 0 (cieOffsets personalities)) e f)
  (haug : f.2.augmentationData = (augmentationBytes (e.lsdaAddr base)).tail)
include hfde haug

theorem carries_iff :
    Carries (emitSection base personalities es).buf base (CuEntry.cie 0 (cieOffsets personalities)) e f ↔
      (e.HasPersonality personalities → e.HasLsda base) := by
  obtain ⟨c,hread,hc⟩ := readCie_entryAt base personalities es e
  rw [← personality_ne_iff, ← lsdaAddr_ne_iff]
  rw [tail_augmentationBytes] at haug
  constructor
  · rintro ⟨-,c',hread',hplr,-⟩ hp hl
    obtain rfl := Option.some.inj (hread.symm.trans hread')
    rw [cieAugmentation, if_pos hp] at hc
    have hdata := hplr hc
    rw [haug, if_neg (not_not.mpr hl)] at hdata
    exact leBytes_eight_ne _ hdata.symm
  · intro h
    refine ⟨hfde,c,hread,fun hplr => ?_,fun _ hflag => ?_⟩
    · have hp : e.personality personalities ≠ 0 := by
        intro hp
        rw [hc, cieAugmentation, if_neg (not_not.mpr hp)] at hplr
        cases hplr
      rw [haug, if_pos (h hp)]
    · have hl : e.lsdaAddr base = 0 := if_neg fun hlsda => hlsda.1 hflag
      rw [haug, if_neg (not_not.mpr hl)]

theorem carriesExactly_iff :
    CarriesExactly (emitSection base personalities es).buf base (CuEntry.cie 0 (cieOffsets personalities)) e f ↔
      (e.HasPersonality personalities ↔ e.HasLsda base) := by
  obtain ⟨c,hread,hc⟩ := readCie_entryAt base personalities es e
  have hdata : CarriesExactly (emitSection base personalities es).buf base (CuEntry.cie 0 (cieOffsets personalities)) e f ↔
      (if e.lsdaAddr base ≠ 0 then leBytes 8 (e.lsdaAddr base).toNat else []) =
        if e.personality personalities ≠ 0 then leBytes 8 (e.lsdaAddr base).toNat else [] := by
    rw [← announced_cieAugmentation (e.personality personalities), ← hc, ← tail_augmentationBytes, ← haug]
    refine ⟨?_,fun h => ⟨hfde,c,hread,h⟩⟩
    rintro ⟨-,c',hread',h⟩
    obtain rfl := Option.some.inj (hread.symm.trans hread')
    exact h
  rw [hdata, ← personality_ne_iff, ← lsdaAddr_ne_iff]
  have hne := leBytes_eight_ne (e.lsdaAddr base).toNat
  by_cases hp : e.personality personalities = 0
  · by_cases hl : e.lsdaAddr base = 0
    · rw [if_neg (not_not.mpr hl), if_neg (not_not.mpr hp)]
      exact ⟨fun _ => ⟨fun h => absurd hp h,fun h => absurd hl h⟩,fun _ => rfl⟩
    · rw [if_pos hl, if_neg (not_not.mpr hp)]
      exact ⟨fun h => absurd h hne,fun h => absurd hp (h.mpr hl)⟩
  · by_cases hl : e.lsdaAddr base = 0
    · rw [if_neg (not_not.mpr hl), if_pos hp]
      exact ⟨fun h => absurd h.symm (leBytes_eight_ne _),fun h => absurd hl (h.mp hp)⟩
    · rw [if_pos hl, if_pos hp]
      exact ⟨fun _ => ⟨fun _ => hl,fun _ => hp⟩,fun _ => rfl⟩

end Entry

theorem forall₂_iff_of_forall₂ {α β : Type*} {R P : α → β → Prop} {Q : α → Prop} {l : List α} {l' : List β}
    (h : List.Forall₂ R l l') (hP : ∀ a b, R a b → (P a b ↔ Q a)) : List.Forall₂ P l l' ↔ ∀ a ∈ l, Q a := by
  induction h with
  | nil => simp
  | cons hab _ ih => rw [List.forall₂_cons, ih, hP _ _ hab, List.forall_mem_cons]

theorem forall₂_carries_iff (base : BitVec 64) (personalities : List (BitVec 64)) (es : List CuEntry) :
    List.Forall₂ (Carries (emitSection base personalities es).buf base (CuEntry.cie 0 (cieOffsets personalities)))
        (emittedEntries es) (fdesAt (emitSection base personalities es).buf) ↔
      ∀ e ∈ emittedEntries es, e.HasPersonality personalities → e.HasLsda base :=
  forall₂_iff_of_forall₂ (fdesAt_emitSection base personalities es) fun _ _ h => carries_iff h.1 h.2

theorem forall₂_carriesExactly_iff (base : BitVec 64) (personalities : List (BitVec 64)) (es : List CuEntry) :
    List.Forall₂ (CarriesExactly (emitSection base personalities es).buf base
          (CuEntry.cie 0 (cieOffsets personalities)))
        (emittedEntries es) (fdesAt (emitSection base personalities es).buf) ↔
      ∀ e ∈ emittedEntries es, (e.HasPersonality personalities ↔ e.HasLsda base) :=
  forall₂_iff_of_forall₂ (fdesAt_emitSection base personalities es) fun _ _ h => carriesExactly_iff h.1 h.2

/-- Every FDE carries a pointer after `zPLR` exactly if every emitted entry with a personality has an LSDA;
and all data are those announced, exactly if the entries with an LSDA are those with a personality. -/
theorem emitSection_carries_iff (base : BitVec 64) (personalities : List (BitVec 64)) (es : List CuEntry) :
    (List.Forall₂ (Carries (emitSection base personalities es).buf base (CuEntry.cie 0 (cieOffsets personalities)))
        (emittedEntries es) (fdesAt (emitSection base personalities es).buf) ↔
      ∀ e ∈ emittedEntries es, e.HasPersonality personalities → e.HasLsda base) ∧
    (List.Forall₂ (CarriesExactly (emitSection base personalities es).buf base
          (CuEntry.cie 0 (cieOffsets personalities)))
        (emittedEntries es) (fdesAt (emitSection base personalities es).buf) ↔
      ∀ e ∈ emittedEntries es, (e.HasPersonality personalities ↔ e.HasLsda base)) :=
  ⟨forall₂_carries_iff base personalities es,forall₂_carriesExactly_iff base personalities es⟩

/-- A frame with a personality and without an LSDA. -/
def personalityOnly : CuEntry := ⟨0x1000,0x40,0x14000000,0⟩

/-- Its CIE announces a pointer that the FDE does not have. -/
theorem not_carries_personalityOnly :
    ¬List.Forall₂ (Carries (emitSection 0x100000000 [0x7f0000001000] [personalityOnly]).buf 0x100000000
        (CuEntry.cie 0 (cieOffsets [0x7f0000001000])))
      (emittedEntries [personalityOnly]) (fdesAt (emitSection 0x100000000 [0x7f0000001000] [personalityOnly]).buf) := by
  rw [forall₂_carries_iff]
  intro hall
  have hlsda := hall personalityOnly (by decide) ⟨0,0x7f0000001000,by decide,rfl,by decide⟩
  exact absurd hlsda.1 (by decide)

end Machismo.EhFrame
