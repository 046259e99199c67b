import Machismo.IsaEmul.Patch
import Machismo.Loader.Segments

/-! # Rewriting instructions at load time

`LDAPR` is downgraded in place, and the atomics are replaced by branches to islands. The ranges of the
executable that are rewritten are its sections of instructions; those of a dylib are its executable
segments with all that is in them. A range is gone over twice, first for `LDAPR` and then by
`isa_emul_patch`, so a pass is a list of steps, one for each word and loop.
-/
namespace Machismo.Loader
open A64 IsaEmul Trampoline

/-- An image in memory with its pool of islands. -/
structure Image where
  header : MachHeader
  slide : Addr
  pool : Addr
  poolWords : ℕ
  pool_end : pool.toNat + 4*poolWords < 2^64

def Image.poolEnd (I : Image) : Addr := I.pool + BitVec.ofNat 64 (4*I.poolWords)
def Image.InPool (I : Image) (b : Addr) : Prop := (b - I.pool).toNat < 4*I.poolWords

structure RewriteState where
  mem : Memory
  island : Addr
  patched : ℕ
  stopped : Bool

def isRcpc (w : Word) : Bool := w &&& 0x3FFFFC00#32 = 0x38BFC000#32
def downgradeRcpc (w : Word) : Word := (w &&& 0xC00003FF#32) ||| 0x08DFFC00#32

/-- Code is addressed by words: the byte address is divided by four. -/
def wordAddr (a : Addr) : ℤ := (a.toNat / 4 : ℕ)

def storeWords (m : Memory) (a : Addr) : List Word → Memory
  | [] => m
  | w :: ws => storeWords (store m a 4 w) (a + 4) ws

/-- What an iteration of `isa_emul_patch` sees. -/
def RewriteState.wordState (s : RewriteState) (a : Addr) : PatchState :=
  ⟨fun _ => load s.mem a 4,wordAddr s.island,s.patched,s.stopped⟩

def emulStep (poolEnd : Addr) (s : RewriteState) (a : Addr) : RewriteState :=
  if s.stopped then s
  else match outcome (wordAddr poolEnd) (s.wordState a) (wordAddr a) with
    | .stop => { s with stopped := true }
    | .skip => s
    | .place words => {
        mem := store (storeWords s.mem s.island words) a 4 (encB (wordAddr s.island - wordAddr a))
        island := s.island + BitVec.ofNat 64 (4*words.length)
        patched := s.patched + 1
        stopped := false }

inductive Rewrite where
  | rcpc (a : Addr)
  | enter
  | emul (a : Addr)
  deriving DecidableEq

def rewriteStep (poolEnd : Addr) (s : RewriteState) : Rewrite → RewriteState
  | .rcpc a => if isRcpc (load s.mem a 4) then
      { s with mem := store s.mem a 4 (downgradeRcpc (load s.mem a 4)) } else s
  | .enter => { s with stopped := false }
  | .emul a => emulStep poolEnd s a

/-- Both loops over a range of `count` words; without a pool there is only the first. -/
def rewriteRange (pool : Addr) (code : Addr) (count : ℕ) : List Rewrite :=
  let words := (List.range count).map fun j => code + BitVec.ofNat 64 (4*j)
  words.map .rcpc ++ if pool = 0 then [] else .enter :: words.map .emul

def SegmentCommand.executable (seg : SegmentCommand) : Bool := seg.maxprot &&& vmProtExecute ≠ 0

namespace Image
variable (I : Image)

/-- The executable: the sections of instructions of its executable segments. -/
def mainPass : List Rewrite :=
  (I.header.segments.filter SegmentCommand.executable).flatMap fun seg =>
    (seg.sections.filter Section.hasInstructions).flatMap fun sec =>
      rewriteRange I.pool (sec.addr + I.slide) (sec.size.toNat / 4)

/-- A dylib: its executable segments. -/
def dylibPass : List Rewrite :=
  (I.header.segments.filter SegmentCommand.executable).flatMap fun seg =>
    rewriteRange I.pool (seg.vmaddr + I.slide) (seg.vmsize.toNat / 4)

def start (m : Memory) : RewriteState := ⟨m,I.pool,0,false⟩

def run (steps : List Rewrite) (m : Memory) : RewriteState := steps.foldl (rewriteStep I.poolEnd) (I.start m)

/-- A byte of a section of instructions. -/
def CodeByte (b : Addr) : Prop :=
  ∃ seg ∈ I.header.segments, ∃ sec ∈ seg.sections, sec.hasInstructions ∧
    (b - (sec.addr + I.slide)).toNat < sec.size.toNat

instance (b : Addr) : Decidable (I.CodeByte b) := inferInstanceAs (Decidable (∃ seg ∈ _, ∃ sec ∈ _, _ ∧ _))

def CodeWord (a : Addr) : Prop := ∀ k < 4, I.CodeByte (a + BitVec.ofNat 64 k)

instance (a : Addr) : Decidable (I.CodeWord a) := Nat.decidableBallLT 4 _

/-- Everything but code and islands is as it was. -/
def KeepsData (steps : List Rewrite) (m : Memory) : Prop :=
  ∀ b, ¬I.CodeByte b → ¬I.InPool b → (I.run steps m).mem b = m b

/-- A byte of an executable segment. -/
def TextByte (b : Addr) : Prop :=
  ∃ seg ∈ I.header.segments, seg.executable ∧ (b - (seg.vmaddr + I.slide)).toNat < seg.vmsize.toNat

/-- The data in executable segments are as they were. -/
def KeepsText (steps : List Rewrite) (m : Memory) : Prop :=
  ∀ b, I.TextByte b → ¬I.CodeByte b → (I.run steps m).mem b = m b

def PoolOutsideText : Prop := ∀ b, I.TextByte b → ¬I.InPool b

end Image

def RewriteState.rewrites (poolEnd : Addr) (s : RewriteState) : Rewrite → Option Addr
  | .rcpc a => if isRcpc (load s.mem a 4) then some a else none
  | .enter => none
  | .emul a => if s.stopped then none
    else match outcome (wordAddr poolEnd) (s.wordState a) (wordAddr a) with
      | .place _ => some a
      | _ => none

/-- Every word that is taken for an instruction to rewrite, in the state in which it is met, is code. -/
def Image.RewritesCode (I : Image) (steps : List Rewrite) (m : Memory) : Prop :=
  ∀ before step after, steps = before ++ step :: after →
    ∀ a ∈ (I.run before m).rewrites I.poolEnd step, I.CodeWord a

theorem storeWords_outside {m : Memory} {a b : Addr} {ws : List Word} (h : 4*ws.length ≤ (b - a).toNat) :
    storeWords m a ws b = m b := by
  induction ws generalizing m a with
  | nil => rfl
  | cons w ws ih =>
    rw [List.length_cons] at h
    rw [storeWords, ih, store_outside _ _ _ _ (by omega)]
    have hsub : b - (a + 4) = b - a - 4#64 := by
      simp only [BitVec.ofNat_eq_ofNat]
      ring
    rw [hsub, BitVec.toNat_sub_of_le (by rw [BitVec.le_def, BitVec.toNat_ofNat]; omega), BitVec.toNat_ofNat]
    omega

/-- A word that neither loop rewrites. -/
def Settled (w : Word) : Prop := isRcpc w = false ∧ decodeLse w = none ∧ decodeBcax w = none

theorem mask_ne {w mask pat : Word} {i : ℕ} (hw : w.getLsbD i = false) (hp : pat.getLsbD i = true) :
    w &&& mask ≠ pat := by
  intro h
  have hi := congrArg (BitVec.getLsbD · i) h
  simp only [BitVec.getLsbD_and, hw, hp, Bool.false_and] at hi
  cases hi

theorem settled_encB (off : ℤ) : Settled (encB off) := by
  have h27 : (encB off).getLsbD 27 = false := by simp [encB]
  refine ⟨decide_eq_false (mask_ne h27 (by decide)),?_,if_pos (mask_ne h27 (by decide))⟩
  by_contra h
  exact encB_ne_of_decodeLse (Option.isSome_iff_ne_none.mpr h) off rfl

theorem settled_downgradeRcpc (w : Word) : Settled (downgradeRcpc w) := by
  have h29 : (downgradeRcpc w).getLsbD 29 = false := by simp [downgradeRcpc]
  have h26 : (downgradeRcpc w).getLsbD 26 = false := by simp [downgradeRcpc]
  have h21 : (downgradeRcpc w).getLsbD 21 = false := by simp [downgradeRcpc]
  refine ⟨decide_eq_false (mask_ne h29 (by decide)),?_,if_pos (mask_ne h26 (by decide))⟩
  rw [decodeLse, if_neg (mask_ne h29 (by decide)), if_neg (mask_ne h21 (by decide))]

section Steps
variable {I : Image} {m : Memory}

/-- The cursor stands at a word of the pool or at its end. -/
def Image.CursorIn (I : Image) (s : RewriteState) : Prop :=
  ∃ k ≤ I.poolWords, s.island = I.pool + BitVec.ofNat 64 (4*k)

theorem toNat_pool_add (I : Image) {k : ℕ} (hk : k ≤ I.poolWords) :
    (I.pool + BitVec.ofNat 64 (4*k)).toNat = I.pool.toNat + 4*k := by
  have := I.pool_end
  rw [BitVec.toNat_add, BitVec.toNat_ofNat]
  omega

/-- A step that writes over a word puts a settled one in its place, and an island behind the cursor. -/
structure Image.Writes (I : Image) (s s' : RewriteState) (a : Addr) (ws : List Word) (w : Word) : Prop where
  mem : s'.mem = store (storeWords s.mem s.island ws) a 4 w
  cursor : I.CursorIn s'
  island : ∀ b, ¬I.InPool b → 4*ws.length ≤ (b - s.island).toNat
  unsettled : ¬Settled (load s.mem a 4)
  settled : Settled w

theorem emulStep_writes {s : RewriteState} (hs : I.CursorIn s) {a : Addr} {ws : List Word}
    (hrun : s.stopped = false) (ho : outcome (wordAddr I.poolEnd) (s.wordState a) (wordAddr a) = .place ws) :
    I.Writes s (emulStep I.poolEnd s a) a ws (encB (wordAddr s.island - wordAddr a)) := by
  obtain ⟨k,hk,hisland⟩ := hs
  have hp : Placing (wordAddr I.poolEnd) (s.wordState a) (wordAddr a) ws := Places.placing ⟨hrun,ho⟩
  have hroom : wordAddr s.island + ws.length ≤ wordAddr I.poolEnd := hp.room
  have hlen : k + ws.length ≤ I.poolWords := by
    rw [hisland, Image.poolEnd, wordAddr, wordAddr, toNat_pool_add I hk, toNat_pool_add I le_rfl] at hroom
    omega
  have hstep : emulStep I.poolEnd s a = {
      mem := store (storeWords s.mem s.island ws) a 4 (encB (wordAddr s.island - wordAddr a))
      island := s.island + BitVec.ofNat 64 (4*ws.length)
      patched := s.patched + 1
      stopped := false } := by simp [emulStep, hrun, ho]
  rw [hstep]
  refine ⟨rfl,⟨k + ws.length,hlen,?_⟩,fun b hb => ?_,fun hset => ?_,settled_encB _⟩
  · dsimp only
    rw [hisland, Nat.mul_add, BitVec.ofNat_add, BitVec.add_assoc]
  · have hout : 4*I.poolWords ≤ (b - I.pool).toNat := by
      unfold Image.InPool at hb
      omega
    have := I.pool_end
    have hle : BitVec.ofNat 64 (4*k) ≤ b - I.pool := by
      rw [BitVec.le_def, BitVec.toNat_ofNat]
      omega
    rw [hisland, show b - (I.pool + BitVec.ofNat 64 (4*k)) = b - I.pool - BitVec.ofNat 64 (4*k) by ring,
      BitVec.toNat_sub_of_le hle, BitVec.toNat_ofNat]
    omega
  · rcases hp.recognised with hrec | hrec
    · change (decodeLse (load s.mem a 4)).isSome at hrec
      rw [hset.2.1] at hrec
      cases hrec
    · change isBcax (load s.mem a 4) = true at hrec
      rw [← decodeBcax_isSome, hset.2.2] at hrec
      cases hrec

theorem rewriteStep_cases {s : RewriteState} (hs : I.CursorIn s) (step : Rewrite) :
    (s.rewrites I.poolEnd step = none ∧ (rewriteStep I.poolEnd s step).mem = s.mem ∧
      I.CursorIn (rewriteStep I.poolEnd s step)) ∨
    ∃ a ws w, s.rewrites I.poolEnd step = some a ∧ I.Writes s (rewriteStep I.poolEnd s step) a ws w := by
  cases step with
  | rcpc a =>
    by_cases hw : isRcpc (load s.mem a 4)
    · refine .inr ⟨a,[],downgradeRcpc (load s.mem a 4),if_pos hw,?_⟩
      rw [rewriteStep, if_pos hw]
      refine ⟨rfl,hs,by simp,fun hset => ?_,settled_downgradeRcpc _⟩
      rw [hset.1] at hw
      cases hw
    · rw [rewriteStep, if_neg hw]
      exact .inl ⟨if_neg hw,rfl,hs⟩
  | enter => exact .inl ⟨rfl,rfl,hs⟩
  | emul a =>
    cases hrun : s.stopped
    · cases ho : outcome (wordAddr I.poolEnd) (s.wordState a) (wordAddr a) with
      | stop =>
        have hstep : emulStep I.poolEnd s a = { s with stopped := true } := by simp [emulStep, hrun, ho]
        rw [rewriteStep, hstep]
        exact .inl ⟨by simp [RewriteState.rewrites, hrun, ho],rfl,hs⟩
      | skip =>
        have hstep : emulStep I.poolEnd s a = s := by simp [emulStep, hrun, ho]
        rw [rewriteStep, hstep]
        exact .inl ⟨by simp [RewriteState.rewrites, hrun, ho],rfl,hs⟩
      | place ws =>
        exact .inr ⟨a,ws,_,by simp [RewriteState.rewrites, hrun, ho],emulStep_writes hs hrun ho⟩
    · have hstep : emulStep I.poolEnd s a = s := by simp [emulStep, hrun]
      rw [rewriteStep, hstep]
      exact .inl ⟨by simp [RewriteState.rewrites, hrun],rfl,hs⟩

theorem run_concat (steps : List Rewrite) (step : Rewrite) :
    I.run (steps ++ [step]) m = rewriteStep I.poolEnd (I.run steps m) step := by
  rw [Image.run, List.foldl_append]
  rfl

theorem run_cursor (steps : List Rewrite) : I.CursorIn (I.run steps m) := by
  induction steps using List.reverseRecOn with
  | nil => exact ⟨0,Nat.zero_le _,by simp [Image.run, Image.start]⟩
  | append_singleton steps step ih =>
    rw [run_concat]
    rcases rewriteStep_cases ih step with ⟨-,-,h⟩ | ⟨a,ws,w,-,h⟩
    · exact h
    · exact h.cursor

/-- A byte outside of the pool and of every word that is written over keeps its value. -/
theorem run_frame (steps : List Rewrite) {b : Addr} (hpool : ¬I.InPool b)
    (h : ∀ before step after, steps = before ++ step :: after →
      ∀ a ∈ (I.run before m).rewrites I.poolEnd step, 4 ≤ (b - a).toNat) : (I.run steps m).mem b = m b := by
  induction steps using List.reverseRecOn with
  | nil => rfl
  | append_singleton steps step ih =>
    have hprev := ih fun before step' after he =>
      h before step' (after ++ [step]) (by rw [he, List.append_assoc, List.cons_append])
    rw [run_concat]
    rcases rewriteStep_cases (run_cursor steps) step with ⟨-,hmem,-⟩ | ⟨a,ws,w,ha,hw⟩
    · rw [hmem, hprev]
    · have hfar := h steps step [] rfl a ha
      rw [hw.mem, store_outside _ _ _ _ hfar, storeWords_outside (hw.island b hpool), hprev]

theorem keepsData_of_rewritesCode {steps : List Rewrite} (h : I.RewritesCode steps m) : I.KeepsData steps m := by
  intro b hb hpool
  refine run_frame steps hpool fun before step after he a ha => ?_
  by_contra hnear
  have hword := h before step after he a ha (b - a).toNat (by omega)
  rw [BitVec.ofNat_toNat, BitVec.setWidth_eq, BitVec.add_comm, BitVec.sub_add_cancel] at hword
  exact hb hword

/-! ## The executable -/

def Rewrite.site : Rewrite → Option Addr
  | .rcpc a => some a
  | .enter => none
  | .emul a => some a

theorem site_of_rewrites {poolEnd : Addr} {s : RewriteState} {step : Rewrite} {a : Addr}
    (h : s.rewrites poolEnd step = some a) : step.site = some a := by
  cases step with
  | rcpc a' =>
    simp only [RewriteState.rewrites] at h
    split at h
    · exact h
    · cases h
  | enter => cases h
  | emul a' =>
    simp only [RewriteState.rewrites] at h
    split at h
    · cases h
    · split at h
      · exact h
      · cases h

theorem site_of_mem_rewriteRange {pool code : Addr} {count : ℕ} {step : Rewrite}
    (h : step ∈ rewriteRange pool code count) {a : Addr} (ha : step.site = some a) :
    ∃ j < count, a = code + BitVec.ofNat 64 (4*j) := by
  have hword : ∀ a ∈ (List.range count).map fun j => code + BitVec.ofNat 64 (4*j),
      ∃ j < count, a = code + BitVec.ofNat 64 (4*j) := by
    intro a ha
    obtain ⟨j,hj,rfl⟩ := List.mem_map.mp ha
    exact ⟨j,List.mem_range.mp hj,rfl⟩
  rcases List.mem_append.mp h with h | h
  · obtain ⟨a',ha',rfl⟩ := List.mem_map.mp h
    cases ha
    exact hword _ ha'
  · split at h
    · cases h
    · rcases List.mem_cons.mp h with rfl | h
      · cases ha
      · obtain ⟨a',ha',rfl⟩ := List.mem_map.mp h
        cases ha
        exact hword _ ha'

theorem toNat_sub_of_word {code : Addr} {size : BitVec 64} {j k : ℕ} (hj : j < size.toNat / 4) (hk : k < 4) :
    (code + BitVec.ofNat 64 (4*j) + BitVec.ofNat 64 k - code).toNat = 4*j + k := by
  have := size.isLt
  rw [show code + BitVec.ofNat 64 (4*j) + BitVec.ofNat 64 k - code = BitVec.ofNat 64 (4*j) + BitVec.ofNat 64 k by ring,
    ← BitVec.ofNat_add, BitVec.toNat_ofNat, Nat.mod_eq_of_lt (by omega)]

theorem mainPass_rewritesCode : I.RewritesCode I.mainPass m := by
  intro before step after he a ha k hk
  have hmem : step ∈ I.mainPass := by simp [he]
  obtain ⟨seg,hseg,hmem⟩ := List.mem_flatMap.mp hmem
  obtain ⟨sec,hsec,hmem⟩ := List.mem_flatMap.mp hmem
  obtain ⟨hsec,hins⟩ := List.mem_filter.mp hsec
  obtain ⟨j,hj,rfl⟩ := site_of_mem_rewriteRange hmem (site_of_rewrites ha)
  refine ⟨seg,(List.mem_filter.mp hseg).1,sec,hsec,hins,?_⟩
  rw [toNat_sub_of_word hj hk]
  omega

/-- Segments and sections of instructions consist of whole words, and the pool is not in a segment. -/
structure Image.WellPlaced (I : Image) : Prop where
  segments : ∀ seg ∈ I.header.segments, seg.executable → (seg.vmaddr + I.slide).toNat % 4 = 0
  sections : ∀ seg ∈ I.header.segments, ∀ sec ∈ seg.sections, sec.hasInstructions →
    (sec.addr + I.slide).toNat % 4 = 0 ∧ sec.size.toNat % 4 = 0
  apart : ∀ seg ∈ I.header.segments, seg.executable →
    ∀ b, (b - (seg.vmaddr + I.slide)).toNat < seg.vmsize.toNat → ¬I.InPool b

theorem Image.WellPlaced.poolOutsideText (hI : I.WellPlaced) : I.PoolOutsideText := by
  rintro b ⟨seg,hseg,hexec,hin⟩
  exact hI.apart seg hseg hexec b hin

/-- The words a dylib pass goes over. -/
def Image.Site (I : Image) (a : Addr) : Prop :=
  a.toNat % 4 = 0 ∧ ∀ k < 4, I.TextByte (a + BitVec.ofNat 64 k) ∧ ¬I.InPool (a + BitVec.ofNat 64 k)

theorem site_of_mem_dylibPass (hI : I.WellPlaced) {step : Rewrite} (h : step ∈ I.dylibPass) {a : Addr}
    (ha : step.site = some a) : I.Site a := by
  obtain ⟨seg,hseg,hmem⟩ := List.mem_flatMap.mp h
  obtain ⟨hseg,hexec⟩ := List.mem_filter.mp hseg
  obtain ⟨j,hj,rfl⟩ := site_of_mem_rewriteRange hmem ha
  constructor
  · have haligned := hI.segments seg hseg hexec
    rw [BitVec.toNat_add, BitVec.toNat_ofNat]
    omega
  · intro k hk
    have htext : I.TextByte (seg.vmaddr + I.slide + BitVec.ofNat 64 (4*j) + BitVec.ofNat 64 k) := by
      refine ⟨seg,hseg,hexec,?_⟩
      rw [toNat_sub_of_word hj hk]
      omega
    exact ⟨htext,hI.poolOutsideText _ htext⟩

theorem not_codeByte_of_not_codeWord (hI : I.WellPlaced) {a : Addr} (ha : a.toNat % 4 = 0) (h : ¬I.CodeWord a) {k : ℕ}
    (hk : k < 4) : ¬I.CodeByte (a + BitVec.ofNat 64 k) := by
  rintro ⟨seg,hseg,sec,hsec,hins,hin⟩
  obtain ⟨haddr,hsize⟩ := hI.sections seg hseg sec hsec hins
  refine h fun i hi => ⟨seg,hseg,sec,hsec,hins,?_⟩
  simp only [BitVec.toNat_sub, BitVec.toNat_add a, BitVec.toNat_ofNat] at hin ⊢
  omega

theorem apart_of_aligned {a a' : Addr} (ha : a.toNat % 4 = 0) (ha' : a'.toNat % 4 = 0) (hne : a ≠ a') :
    Apart a 4 a' 4 := by
  have hne' : a.toNat ≠ a'.toNat := fun h => hne (BitVec.eq_of_toNat_eq h)
  unfold Apart
  rw [BitVec.toNat_sub, BitVec.toNat_sub]
  omega

theorem rewriteStep_word {s : RewriteState} (hs : I.CursorIn s) {step : Rewrite}
    (hstep : ∀ a', step.site = some a' → I.Site a') {a : Addr} (ha : I.Site a) :
    (s.rewrites I.poolEnd step ≠ some a ∧
      load (rewriteStep I.poolEnd s step).mem a 4 = load s.mem a 4) ∨
    (¬Settled (load s.mem a 4) ∧ Settled (load (rewriteStep I.poolEnd s step).mem a 4)) := by
  rcases rewriteStep_cases hs step with ⟨hnone,hmem,-⟩ | ⟨a',ws,w,hsome,hw⟩
  · rw [hmem, hnone]
    exact .inl ⟨nofun,rfl⟩
  · by_cases heq : a = a'
    · subst heq
      refine .inr ⟨hw.unsettled,?_⟩
      rw [hw.mem, load_store_same _ _ _ _ (by decide)]
      exact hw.settled
    · refine .inl ⟨by rw [hsome]; exact fun h => heq (Option.some.inj h).symm,?_⟩
      have ha' := hstep a' (site_of_rewrites hsome)
      rw [hw.mem, load_store_apart _ _ (apart_of_aligned ha.1 ha'.1 heq)]
      exact load_congr fun k hk => storeWords_outside (hw.island _ (ha.2 k hk).2)

theorem run_word_before (steps : List Rewrite) (hsteps : ∀ step ∈ steps, ∀ a', step.site = some a' → I.Site a')
    {a : Addr} (ha : I.Site a) (hsettled : ¬Settled (load (I.run steps m).mem a 4)) :
    load (I.run steps m).mem a 4 = load m a 4 := by
  induction steps using List.reverseRecOn with
  | nil => rfl
  | append_singleton steps step ih =>
    rw [run_concat] at hsettled ⊢
    rcases rewriteStep_word (run_cursor steps) (hsteps step (by simp)) ha with ⟨-,hsame⟩ | ⟨-,hset⟩
    · rw [hsame] at hsettled ⊢
      exact ih (fun step hstep => hsteps step (by simp [hstep])) hsettled
    · exact absurd hset hsettled

theorem run_word_after (before after : List Rewrite)
    (hafter : ∀ step ∈ after, ∀ a', step.site = some a' → I.Site a') {a : Addr} (ha : I.Site a)
    (hsettled : Settled (load (I.run before m).mem a 4)) : Settled (load (I.run (before ++ after) m).mem a 4) := by
  induction after using List.reverseRecOn with
  | nil => rwa [List.append_nil]
  | append_singleton after step ih =>
    have hprev := ih fun step hstep => hafter step (by simp [hstep])
    rw [← List.append_assoc, run_concat]
    rcases rewriteStep_word (run_cursor (before ++ after)) (hafter step (by simp)) ha with ⟨-,hsame⟩ | ⟨-,hset⟩
    · rwa [hsame]
    · exact hset

theorem Image.KeepsData.keepsText {steps : List Rewrite} (h : I.KeepsData steps m) (hpool : I.PoolOutsideText) :
    I.KeepsText steps m :=
  fun b htext hcode => h b hcode (hpool b htext)

theorem rewritesCode_of_keepsText (hI : I.WellPlaced) (h : I.KeepsText I.dylibPass m) :
    I.RewritesCode I.dylibPass m := by
  intro before step after he a ha
  by_contra hcode
  have hsites : ∀ other ∈ before ++ step :: after, ∀ a', other.site = some a' → I.Site a' := by
    rw [← he]
    exact fun other hother a' ha' => site_of_mem_dylibPass hI hother ha'
  have hsite := hsites step (by simp) a (site_of_rewrites ha)
  -- data are kept, so the word is in the end what it was
  have hkept : load (I.run I.dylibPass m).mem a 4 = load m a 4 :=
    load_congr fun k hk => h _ (hsite.2 k hk).1 (not_codeByte_of_not_codeWord hI hsite.1 hcode hk)
  rcases rewriteStep_word (run_cursor (m := m) before) (hsites step (by simp)) hsite with ⟨hne,-⟩ | ⟨hbefore,hafter⟩
  · exact hne ha
  · have hstart := run_word_before before (fun other hother => hsites other (by simp [hother])) hsite hbefore
    rw [← run_concat] at hafter
    have hend := run_word_after (before ++ [step]) after (fun other hother => hsites other (by simp [hother])) hsite
      hafter
    rw [List.append_assoc, List.singleton_append, ← he, hkept, ← hstart] at hend
    exact hbefore hend

end Steps

/-- Memory after the executable and then these dylibs have been gone over. -/
def rewritten (main : Image) (dylibs : List Image) (m : Memory) : Memory :=
  dylibs.foldl (fun m I => (I.run I.dylibPass m).mem) (main.run main.mainPass m).mem

/-- A property of the pass of every dylib, with memory as it is when its turn comes. -/
def EachDylib (main : Image) (dylibs : List Image) (m : Memory) (P : Image → Memory → Prop) : Prop :=
  ∀ before I after, dylibs = before ++ I :: after → P I (rewritten main before m)

theorem rewritten_concat (main : Image) (dylibs : List Image) (I : Image) (m : Memory) :
    rewritten main (dylibs ++ [I]) m = (I.run I.dylibPass (rewritten main dylibs m)).mem := by
  rw [rewritten, List.foldl_append]
  rfl

theorem rewritten_data {main : Image} {dylibs : List Image} {m : Memory}
    (h : EachDylib main dylibs m fun I m => I.RewritesCode I.dylibPass m) {b : Addr}
    (hb : ∀ I ∈ main :: dylibs, ¬I.CodeByte b ∧ ¬I.InPool b) : rewritten main dylibs m b = m b := by
  induction dylibs using List.reverseRecOn with
  | nil =>
    obtain ⟨hcode,hpool⟩ := hb main List.mem_cons_self
    exact keepsData_of_rewritesCode mainPass_rewritesCode b hcode hpool
  | append_singleton dylibs I ih =>
    obtain ⟨hcode,hpool⟩ := hb I (by simp)
    rw [rewritten_concat, keepsData_of_rewritesCode (h dylibs I [] rfl) b hcode hpool]
    refine ih (fun before J after he => h before J (after ++ [I]) (by simp [he])) fun J hJ => hb J ?_
    rw [← List.cons_append]
    exact List.mem_append_left _ hJ

/-- The executable keeps its data. Dylibs keep theirs exactly if every word of their executable segments
that is taken for an instruction to rewrite lies in a section of instructions. Where the pool lies outside of the
text, islands are no exception. -/
theorem rewritten_keepsData_iff (main : Image) (dylibs : List Image) (m : Memory) :
    (main.KeepsData main.mainPass m ∧ (main.PoolOutsideText → main.KeepsText main.mainPass m)) ∧
      ((∀ I ∈ dylibs, I.WellPlaced) →
        ((EachDylib main dylibs m fun I m => I.KeepsData I.dylibPass m) ↔
          EachDylib main dylibs m fun I m => I.RewritesCode I.dylibPass m) ∧
        ((EachDylib main dylibs m fun I m => I.KeepsText I.dylibPass m) ↔
          EachDylib main dylibs m fun I m => I.RewritesCode I.dylibPass m)) ∧
      ((EachDylib main dylibs m fun I m => I.RewritesCode I.dylibPass m) →
        (EachDylib main dylibs m fun I m => I.KeepsData I.dylibPass m) ∧
        (EachDylib main dylibs m fun I m => I.PoolOutsideText → I.KeepsText I.dylibPass m) ∧
        ∀ b, (∀ I ∈ main :: dylibs, ¬I.CodeByte b ∧ ¬I.InPool b) → rewritten main dylibs m b = m b) := by
  have hmain : main.KeepsData main.mainPass m := keepsData_of_rewritesCode mainPass_rewritesCode
  have hkeeps : (EachDylib main dylibs m fun I m => I.RewritesCode I.dylibPass m) →
      EachDylib main dylibs m fun I m => I.KeepsData I.dylibPass m :=
    fun h before I after he => keepsData_of_rewritesCode (h before I after he)
  refine ⟨⟨hmain,hmain.keepsText⟩,fun hplaced => ?_,fun h => ⟨hkeeps h,fun before I after he => ?_,fun b => ?_⟩⟩
  · have hrewrites : (EachDylib main dylibs m fun I m => I.KeepsText I.dylibPass m) →
        EachDylib main dylibs m fun I m => I.RewritesCode I.dylibPass m :=
      fun h before I after he => rewritesCode_of_keepsText (hplaced I (by simp [he])) (h before I after he)
    have htext : (EachDylib main dylibs m fun I m => I.KeepsData I.dylibPass m) →
        EachDylib main dylibs m fun I m => I.KeepsText I.dylibPass m :=
      fun h before I after he => (h before I after he).keepsText (hplaced I (by simp [he])).poolOutsideText
    exact ⟨⟨fun h => hrewrites (htext h),hkeeps⟩,⟨hrewrites,fun h => htext (hkeeps h)⟩⟩
  · exact (hkeeps h before I after he).keepsText
  · exact rewritten_data h

/-- A dylib whose executable segment is one section of one word. -/
def oneWordImage (flags : BitVec 32) : Image where
  header := ⟨152,[⟨152,some ⟨"__TEXT".toList,0x4000,4,0,4,5,5,[⟨0x4000,4,flags⟩]⟩⟩]⟩
  slide := 0
  pool := 0x8000
  poolWords := 24
  pool_end := by decide

theorem wellPlaced_oneWordImage (flags : BitVec 32) : (oneWordImage flags).WellPlaced := by
  have hsegs : (oneWordImage flags).header.segments =
      [⟨"__TEXT".toList,0x4000,4,0,4,5,5,[⟨0x4000,4,flags⟩]⟩] := rfl
  constructor
  · rw [hsegs]
    simp only [List.mem_singleton, forall_eq]
    intro _
    simp [oneWordImage]
  · rw [hsegs]
    simp only [List.mem_singleton, forall_eq]
    intro _
    simp [oneWordImage]
  · rw [hsegs]
    simp only [List.mem_singleton, forall_eq]
    intro _ b hb hpool
    unfold Image.InPool at hpool
    simp only [oneWordImage, BitVec.toNat_sub, BitVec.toNat_add, BitVec.ofNat_eq_ofNat, BitVec.toNat_ofNat] at hb hpool
    omega

theorem rewritesCode_oneWordImage (m : Memory) :
    (oneWordImage sAttrSomeInstructions).RewritesCode (oneWordImage sAttrSomeInstructions).dylibPass m := by
  intro before step after he a ha
  have hmem : step ∈ rewriteRange 0x8000 0x4000 1 := by
    have hpass : (oneWordImage sAttrSomeInstructions).dylibPass = rewriteRange 0x8000 0x4000 1 := by decide
    rw [← hpass, he]
    simp
  obtain ⟨j,hj,rfl⟩ := site_of_mem_rewriteRange hmem (site_of_rewrites ha)
  rw [show j = 0 by omega]
  decide

theorem oneWordImage_keepsData :
    (∀ I ∈ [oneWordImage sAttrSomeInstructions], I.WellPlaced) ∧
      EachDylib (oneWordImage 0) [oneWordImage sAttrSomeInstructions] (store (fun _ => 0) 0x4000 4 0xB8BFC000#32)
        (fun I m => I.KeepsData I.dylibPass m) ∧
      EachDylib (oneWordImage 0) [oneWordImage sAttrSomeInstructions] (store (fun _ => 0) 0x4000 4 0xB8BFC000#32)
        fun I m => I.KeepsText I.dylibPass m := by
  have hplaced : ∀ I ∈ [oneWordImage sAttrSomeInstructions], I.WellPlaced := by
    simp only [List.mem_singleton, forall_eq]
    exact wellPlaced_oneWordImage _
  have hrewrites : EachDylib (oneWordImage 0) [oneWordImage sAttrSomeInstructions]
      (store (fun _ => 0) 0x4000 4 0xB8BFC000#32) fun I m => I.RewritesCode I.dylibPass m := by
    intro before I after he
    have hI : I ∈ [oneWordImage sAttrSomeInstructions] := by simp [he]
    rw [List.mem_singleton.mp hI]
    exact rewritesCode_oneWordImage _
  obtain ⟨hdata,htext⟩ := (rewritten_keepsData_iff (oneWordImage 0) _ _).2.1 hplaced
  exact ⟨hplaced,hdata.mpr hrewrites,htext.mpr hrewrites⟩

/-- A string constant in `__TEXT` of a dylib that reads as `LDAPR W0, [X0]` is changed. -/
theorem cstring_rewritten :
    ¬(oneWordImage 2).KeepsData (oneWordImage 2).dylibPass (store (fun _ => 0) 0x4000 4 0xB8BFC000#32) := by
  intro h
  have hbyte := h 0x4001 (by decide) (by unfold Image.InPool; decide)
  revert hbyte
  decide

end Machismo.Loader
