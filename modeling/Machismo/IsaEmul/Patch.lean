import Machismo.IsaEmul.BcaxRun

/-! # The patcher

`isaEmulPatch` scans an array of code words and replaces each recognised instruction by a branch to
an island placed at the cursor of a pool. Memory is word-addressed; a state is kept for every number
of iterations, so that what an iteration did can be traced in the final memory.
-/
namespace Machismo.IsaEmul
open A64

abbrev WordMem := ℤ → Word

def writeWords (mem : WordMem) (a : ℤ) (ws : List Word) : WordMem := fun p =>
  if a ≤ p then (ws[(p - a).toNat]?).getD (mem p) else mem p

structure PatchState where
  mem : WordMem
  island : ℤ
  patched : ℕ
  stopped : Bool

/-- What the scan does at one code word. -/
inductive Outcome where
  | stop
  | skip
  | place (words : List Word)

def outOfBRange (offset : ℤ) : Bool := offset > 0x01FFFFFF ∨ offset < -0x02000000

def outcome (poolEnd : ℤ) (s : PatchState) (addr : ℤ) : Outcome :=
  match decodeLse (s.mem addr) with
  | some d =>
    if s.island + 24 > poolEnd then .stop
    else if outOfBRange (s.island - addr) then .skip
    else
      let words := emitIsland d s.island addr
      if words.length ≤ 0 then .skip else .place words
  | none =>
    match decodeBcax (s.mem addr) with
    | some b =>
      if s.island + 5 > poolEnd then .stop
      else if outOfBRange (s.island - addr) then .skip
      else .place (emitBcaxIsland b s.island addr)
    | none => .skip

/-- One iteration of the scan; after a `break` the remaining ones do nothing. -/
def patchOne (poolEnd : ℤ) (s : PatchState) (addr : ℤ) : PatchState :=
  if s.stopped then s
  else match outcome poolEnd s addr with
    | .stop => { s with stopped := true }
    | .skip => s
    | .place words => {
        mem := Function.update (writeWords s.mem s.island words) addr (encB (s.island - addr))
        island := s.island + words.length
        patched := s.patched + 1
        stopped := false }

/-- The arguments of a call: the code array and the island pool, which do not overlap. -/
structure PatchInput where
  mem : WordMem
  code : ℤ
  codeSize : ℕ
  pool : ℤ
  poolEnd : ℤ
  apart : ∀ k < codeSize / 4, code + k < pool ∨ poolEnd ≤ code + k

def PatchInput.count (I : PatchInput) : ℕ := I.codeSize / 4

def PatchInput.loop (I : PatchInput) : ℕ → PatchState
  | 0 => ⟨I.mem,I.pool,0,false⟩
  | k + 1 => patchOne I.poolEnd (I.loop k) (I.code + k)

/-- The final state; its `island` is the new `*pool_ptr`, its `patched` the result. -/
def isaEmulPatch (I : PatchInput) : PatchState := I.loop I.count

theorem length_emitIsland (d : LseDecoded) (island origAddr : ℤ) :
    3 ≤ (emitIsland d island origAddr).length ∧ (emitIsland d island origAddr).length ≤ 24 := by
  unfold emitIsland
  split
  · have h := length_of_decode (decode_emitCasIsland d island origAddr)
    rw [h]
    unfold casInsns moveResult casSave casRestore
    split <;> simp
  · have h := length_of_decode (decode_emitRmwIsland d island origAddr)
    have hop := length_opInsns_le d (rmwS1 d) (rmwS2 d) (rmwS3 d)
    rw [h]
    unfold rmwInsns moveResult rmwSave rmwRestore rmwBody
    split <;> simp <;> omega

theorem length_emitBcaxIsland (b : Bcax) (island origAddr : ℤ) :
    3 ≤ (emitBcaxIsland b island origAddr).length ∧ (emitBcaxIsland b island origAddr).length ≤ 5 := by
  rw [length_of_decode (decode_emitBcaxIsland b island origAddr)]
  unfold bcaxBody
  split <;> simp

theorem last_branchBack (words : List Word) (island origAddr : ℤ) :
    (branchBack words island origAddr)[(branchBack words island origAddr).length - 1]? =
      some (encB (backOffset island origAddr (branchBack words island origAddr).length)) := by
  simp [branchBack, backOffset]

theorem emitIsland_branchBack (d : LseDecoded) (island origAddr : ℤ) :
    ∃ words, emitIsland d island origAddr = branchBack words island origAddr := by
  unfold emitIsland
  split
  · exact ⟨_,rfl⟩
  · exact ⟨_,rfl⟩

theorem encB_ne_of_decodeLse {w : Word} (h : (decodeLse w).isSome) (off : ℤ) : encB off ≠ w := by
  have hb : (encB off).getLsbD 27 = false := by simp [encB]
  have hw : w.getLsbD 27 = true := by
    unfold decodeLse at h
    split at h
    next hm => simpa using congrArg (BitVec.getLsbD · 27) hm
    next =>
      split at h
      next hm => simpa using congrArg (BitVec.getLsbD · 27) hm
      next => cases h
  rintro rfl
  exact absurd (hb.symm.trans hw) (by decide)

theorem toInt_ofInt_iff (off : ℤ) : (BitVec.ofInt 26 off).toInt = off ↔ -2^25 ≤ off ∧ off < 2^25 := by
  have hlo := BitVec.le_toInt (BitVec.ofInt 26 off)
  have hhi := BitVec.toInt_lt (x := BitVec.ofInt 26 off)
  constructor
  · intro h
    rw [h] at hlo hhi
    exact ⟨hlo,hhi⟩
  · rintro ⟨h1,h2⟩
    rw [BitVec.toInt_ofInt]
    exact Int.bmod_eq_of_le (by omega) (by omega)

/-- The word at `a` is a branch whose decoded target is `target`. -/
def BranchesTo (mem : WordMem) (a target : ℤ) : Prop :=
  ∃ imm, decode (mem a) = some (.b imm) ∧ a + imm.toInt = target

theorem branchesTo_encB {mem : WordMem} {a off : ℤ} (h : mem a = encB off) :
    BranchesTo mem a (a + off) ↔ -2^25 ≤ off ∧ off < 2^25 := by
  have hd := decode_encB off
  rw [← toInt_ofInt_iff]
  constructor
  · rintro ⟨imm,hi,ht⟩
    rw [h, hd] at hi
    cases hi
    omega
  · intro ht
    exact ⟨_,h ▸ hd,by rw [ht]⟩

/-- The word is one of those the patcher is for: an ARMv8.1 atomic or `BCAX`. -/
def Emulated (w : Word) : Prop := (decodeAtomic w).isSome ∨ isBcax w

instance (w : Word) : Decidable (Emulated w) := inferInstanceAs (Decidable (_ ∨ _))

/-- Everything an iteration that places an island relies on. -/
structure Placing (poolEnd : ℤ) (s : PatchState) (addr : ℤ) (ws : List Word) : Prop where
  running : s.stopped = false
  recognised : (decodeLse (s.mem addr)).isSome ∨ isBcax (s.mem addr)
  reach : -0x02000000 ≤ s.island - addr ∧ s.island - addr ≤ 0x01FFFFFF
  long : 3 ≤ ws.length
  room : s.island + ws.length ≤ poolEnd
  back : ws[ws.length - 1]? = some (encB (backOffset s.island addr ws.length))

/-- The iteration at `addr` places the island `ws` at the cursor. -/
def Places (poolEnd : ℤ) (s : PatchState) (addr : ℤ) (ws : List Word) : Prop :=
  s.stopped = false ∧ outcome poolEnd s addr = .place ws

theorem not_outOfBRange {offset : ℤ} (h : ¬outOfBRange offset) : -0x02000000 ≤ offset ∧ offset ≤ 0x01FFFFFF := by
  simp only [outOfBRange, decide_eq_true_eq] at h
  omega

theorem Places.placing {poolEnd : ℤ} {s : PatchState} {addr : ℤ} {ws : List Word}
    (h : Places poolEnd s addr ws) : Placing poolEnd s addr ws := by
  obtain ⟨hrun,h⟩ := h
  unfold outcome at h
  split at h
  next d hd =>
    split at h
    next => cases h
    next hroom =>
      split at h
      next => cases h
      next hrange =>
        obtain ⟨hlo,hhi⟩ := length_emitIsland d s.island addr
        rw [if_neg (by omega)] at h
        cases h
        obtain ⟨words,hw⟩ := emitIsland_branchBack d s.island addr
        refine ⟨hrun,.inl (by simp [hd]),not_outOfBRange hrange,hlo,by omega,?_⟩
        rw [hw]
        exact last_branchBack words s.island addr
  next =>
    split at h
    next b hb =>
      split at h
      next => cases h
      next hroom =>
        split at h
        next => cases h
        next hrange =>
          cases h
          obtain ⟨hlo,hhi⟩ := length_emitBcaxIsland b s.island addr
          have hbcax : isBcax (s.mem addr) := by rw [← decodeBcax_isSome, hb]; rfl
          exact ⟨hrun,.inr hbcax,not_outOfBRange hrange,hlo,by omega,last_branchBack _ s.island addr⟩
    next => cases h

theorem patchOne_cases (poolEnd : ℤ) (s : PatchState) (addr : ℤ) :
    (∃ ws, Places poolEnd s addr ws ∧
      (patchOne poolEnd s addr).mem =
        Function.update (writeWords s.mem s.island ws) addr (encB (s.island - addr)) ∧
      (patchOne poolEnd s addr).island = s.island + ws.length) ∨
    ((∀ ws, ¬Places poolEnd s addr ws) ∧ (patchOne poolEnd s addr).mem = s.mem ∧
      (patchOne poolEnd s addr).island = s.island) := by
  unfold patchOne Places
  cases hs : s.stopped
  · cases ho : outcome poolEnd s addr <;> simp
  · simp

theorem Places.patchOne {poolEnd : ℤ} {s : PatchState} {addr : ℤ} {ws : List Word}
    (h : Places poolEnd s addr ws) :
    (patchOne poolEnd s addr).mem =
        Function.update (writeWords s.mem s.island ws) addr (encB (s.island - addr)) ∧
      (patchOne poolEnd s addr).island = s.island + ws.length := by
  obtain ⟨hs,ho⟩ := h
  simp [IsaEmul.patchOne, hs, ho]

theorem writeWords_outside (mem : WordMem) {a p : ℤ} {ws : List Word} (h : p < a ∨ a + ws.length ≤ p) :
    writeWords mem a ws p = mem p := by
  unfold writeWords
  split
  next hle =>
    rw [List.getElem?_eq_none (by omega)]
    rfl
  next => rfl

theorem writeWords_inside (mem : WordMem) (a : ℤ) {ws : List Word} {j : ℕ} (h : j < ws.length) :
    some (writeWords mem a ws (a + j)) = ws[j]? := by
  simp [writeWords, h]

theorem patchOne_island (poolEnd : ℤ) (s : PatchState) (addr : ℤ) :
    s.island ≤ (patchOne poolEnd s addr).island ∧
      ((patchOne poolEnd s addr).island = s.island ∨ (patchOne poolEnd s addr).island ≤ poolEnd) := by
  rcases patchOne_cases poolEnd s addr with ⟨ws,h,-,hi⟩ | ⟨-,-,hi⟩
  · have := h.placing.room
    omega
  · omega

theorem patchOne_frame (poolEnd : ℤ) (s : PatchState) {addr a : ℤ} (hne : a ≠ addr)
    (ha : a < s.island ∨ (patchOne poolEnd s addr).island ≤ a) : (patchOne poolEnd s addr).mem a = s.mem a := by
  rcases patchOne_cases poolEnd s addr with ⟨ws,-,hm,hi⟩ | ⟨-,hm,-⟩
  · rw [hm, Function.update_of_ne hne, writeWords_outside]
    omega
  · rw [hm]

namespace PatchInput
variable (I : PatchInput)

theorem loop_island_mono {j k : ℕ} (h : j ≤ k) : (I.loop j).island ≤ (I.loop k).island := by
  induction k, h using Nat.le_induction with
  | base => exact le_rfl
  | succ k _ ih => exact ih.trans (patchOne_island _ _ _).1

theorem loop_island_inside (k : ℕ) : I.pool ≤ (I.loop k).island ∧
    ((I.loop k).island = I.pool ∨ (I.loop k).island ≤ I.poolEnd) := by
  refine ⟨I.loop_island_mono (Nat.zero_le k),?_⟩
  induction k with
  | zero => exact .inl rfl
  | succ k ih =>
    have h := (patchOne_island I.poolEnd (I.loop k) (I.code + k)).2
    simp only [loop]
    rcases h with h | h
    · rwa [h]
    · exact .inr h

/-- Between two iterations, code words already scanned and words below the cursor keep their contents. -/
theorem loop_frame {j k : ℕ} (h : j ≤ k) {a : ℤ} (hc : a < I.code + j ∨ I.code + k ≤ a)
    (hi : a < (I.loop j).island ∨ (I.loop k).island ≤ a) : (I.loop k).mem a = (I.loop j).mem a := by
  induction k, h using Nat.le_induction with
  | base => rfl
  | succ k hjk ih =>
    have hj := I.loop_island_mono hjk
    have hk := (patchOne_island I.poolEnd (I.loop k) (I.code + k)).1
    simp only [loop] at hi ⊢
    push_cast at hc
    rw [patchOne_frame _ _ (by omega) (by omega), ih (by omega) (by omega)]

theorem code_outside {k : ℕ} (hk : k < I.count) (j n : ℕ) :
    I.code + k < (I.loop j).island ∨ (I.loop n).island ≤ I.code + k := by
  have h := I.apart k hk
  have hj := (I.loop_island_inside j).1
  have hn := (I.loop_island_inside n).2
  omega

theorem loop_mem_code {k : ℕ} (hk : k < I.count) : (I.loop k).mem (I.code + k) = I.mem (I.code + k) :=
  I.loop_frame (Nat.zero_le k) (by omega) (I.code_outside hk 0 k)

/-- Iteration `k` of the scan places the island `ws`. -/
def PlacesAt (k : ℕ) (ws : List Word) : Prop := k < I.count ∧ Places I.poolEnd (I.loop k) (I.code + k) ws

variable {I}

theorem PlacesAt.loop_succ {k : ℕ} {ws : List Word} (h : I.PlacesAt k ws) :
    (I.loop (k+1)).mem = Function.update (writeWords (I.loop k).mem (I.loop k).island ws) (I.code + k)
        (encB ((I.loop k).island - (I.code + k))) ∧
      (I.loop (k+1)).island = (I.loop k).island + ws.length := h.2.patchOne

theorem PlacesAt.site_mem {k : ℕ} {ws : List Word} (h : I.PlacesAt k ws) :
    (isaEmulPatch I).mem (I.code + k) = encB ((I.loop k).island - (I.code + k)) := by
  rw [isaEmulPatch, I.loop_frame h.1 (by push_cast; omega) (I.code_outside h.1 _ _), h.loop_succ.1,
    Function.update_self]

theorem PlacesAt.island_mem {k : ℕ} {ws : List Word} (h : I.PlacesAt k ws) {j : ℕ} (hj : j < ws.length) :
    some ((isaEmulPatch I).mem ((I.loop k).island + j)) = ws[j]? := by
  have hroom := h.2.placing.room
  have hin := (I.loop_island_inside k).1
  have hsucc := h.loop_succ
  have hcode : ∀ i < I.count, (I.loop k).island + j ≠ I.code + i := by
    intro i hi he
    have := I.apart i hi
    omega
  have hout : (I.loop k).island + j < I.code + (k+1 : ℕ) ∨ I.code + I.count ≤ (I.loop k).island + j := by
    by_contra hcon
    push_cast at hcon
    exact hcode ((I.loop k).island + j - I.code).toNat (by omega) (by omega)
  rw [isaEmulPatch, I.loop_frame h.1 hout (.inl (by rw [hsucc.2]; omega)), hsucc.1,
    Function.update_of_ne (hcode k h.1), writeWords_inside _ _ hj]

theorem mem_of_not_placesAt {k : ℕ} (hk : k < I.count) (h : ∀ ws, ¬I.PlacesAt k ws) :
    (isaEmulPatch I).mem (I.code + k) = I.mem (I.code + k) := by
  have hstep : (I.loop (k+1)).mem = (I.loop k).mem := by
    rcases patchOne_cases I.poolEnd (I.loop k) (I.code + k) with ⟨ws,hp,-⟩ | ⟨-,hm,-⟩
    · exact absurd ⟨hk,hp⟩ (h ws)
    · exact hm
  rw [isaEmulPatch, I.loop_frame hk (by push_cast; omega) (I.code_outside hk _ _), hstep, I.loop_mem_code hk]

theorem PlacesAt.disjoint {j k : ℕ} {ws : List Word} (hj : I.PlacesAt j ws) (hjk : j < k) :
    (I.loop j).island + ws.length ≤ (I.loop k).island := by
  rw [← hj.loop_succ.2]
  exact I.loop_island_mono hjk

variable (I)

/-- The outcome of a correct scan. -/
structure Correct : Prop where
  site : ∀ k ws, I.PlacesAt k ws → BranchesTo (isaEmulPatch I).mem (I.code + k) (I.loop k).island
  back : ∀ k ws, I.PlacesAt k ws → BranchesTo (isaEmulPatch I).mem ((I.loop k).island + ws.length - 1)
    (I.code + k + 1)
  inside : ∀ k ws, I.PlacesAt k ws → I.pool ≤ (I.loop k).island ∧ (I.loop k).island + ws.length ≤ I.poolEnd
  disjoint : ∀ j k ws ws', I.PlacesAt j ws → I.PlacesAt k ws' → j ≠ k →
    (I.loop j).island + ws.length ≤ (I.loop k).island ∨ (I.loop k).island + ws'.length ≤ (I.loop j).island
  words : ∀ k ws, I.PlacesAt k ws → ∀ j < ws.length,
    some ((isaEmulPatch I).mem ((I.loop k).island + j)) = ws[j]?
  kept : ∀ k < I.count, (∀ ws, ¬I.PlacesAt k ws) → (isaEmulPatch I).mem (I.code + k) = I.mem (I.code + k)
  unchanged : ∀ k < I.count, ¬Emulated (I.mem (I.code + k)) →
    (isaEmulPatch I).mem (I.code + k) = I.mem (I.code + k)

/-- Iteration `k` goes well: what it patches is an instruction to emulate, and the closing branch of
the island reaches back to the code. -/
def SafeAt (k : ℕ) : Prop := ∀ ws, I.PlacesAt k ws →
  Emulated (I.mem (I.code + k)) ∧ (I.loop k).island + ws.length - 2 - (I.code + k) ≤ 2^25

variable {I}

theorem PlacesAt.site {k : ℕ} {ws : List Word} (h : I.PlacesAt k ws) :
    BranchesTo (isaEmulPatch I).mem (I.code + k) (I.loop k).island := by
  have hreach := h.2.placing.reach
  have hb := (branchesTo_encB h.site_mem).mpr (by omega)
  rwa [add_sub_cancel] at hb

theorem PlacesAt.back_iff {k : ℕ} {ws : List Word} (h : I.PlacesAt k ws) :
    BranchesTo (isaEmulPatch I).mem ((I.loop k).island + ws.length - 1) (I.code + k + 1) ↔
      (I.loop k).island + ws.length - 2 - (I.code + k) ≤ 2^25 := by
  have hp := h.2.placing
  have hlong := hp.long
  have hreach := hp.reach
  have hmem : (isaEmulPatch I).mem ((I.loop k).island + ws.length - 1) =
      encB (backOffset (I.loop k).island (I.code + k) ws.length) := by
    have hj := h.island_mem (j := ws.length - 1) (by omega)
    rw [hp.back] at hj
    have ha : (I.loop k).island + ((ws.length - 1 : ℕ) : ℤ) = (I.loop k).island + ws.length - 1 := by omega
    rw [← ha]
    exact Option.some.inj hj
  have htarget : I.code + k + 1 = (I.loop k).island + ws.length - 1 +
      backOffset (I.loop k).island (I.code + k) ws.length := by
    unfold backOffset
    ring
  rw [htarget, branchesTo_encB hmem]
  unfold backOffset
  omega

/-- The word of a patched site that is no instruction to emulate has been overwritten. -/
theorem PlacesAt.changed {k : ℕ} {ws : List Word} (h : I.PlacesAt k ws) (hw : ¬Emulated (I.mem (I.code + k))) :
    (isaEmulPatch I).mem (I.code + k) ≠ I.mem (I.code + k) := by
  have hrec := h.2.placing.recognised
  rw [I.loop_mem_code h.1] at hrec
  rw [h.site_mem]
  rcases hrec with hrec | hrec
  · exact encB_ne_of_decodeLse hrec _
  · exact absurd (.inr hrec) hw

variable (I)

/-- The scan is correct exactly when every iteration goes well. -/
theorem isaEmulPatch_correct_iff : I.Correct ↔ ∀ k < I.count, I.SafeAt k := by
  constructor
  · intro h k hk ws hp
    refine ⟨?_,hp.back_iff.mp (h.back k ws hp)⟩
    by_contra hw
    exact hp.changed hw (h.unchanged k hk hw)
  · intro h
    exact {
      site := fun k ws hp => hp.site
      back := fun k ws hp => hp.back_iff.mpr (h k hp.1 ws hp).2
      inside := fun k ws hp => ⟨(I.loop_island_inside k).1,hp.2.placing.room⟩
      disjoint := fun j k ws ws' hj hk hne => by
        rcases Nat.lt_or_gt_of_ne hne with hlt | hlt
        · exact .inl (hj.disjoint hlt)
        · exact .inr (hk.disjoint hlt)
      words := fun k ws hp j hj => hp.island_mem hj
      kept := fun k hk hp => mem_of_not_placesAt hk hp
      unchanged := fun k hk hw => mem_of_not_placesAt hk fun ws hp => hw (h k hk ws hp).1 }

end PatchInput

/-- One word `w` at address 0, and a pool of 24 words at `pool`. -/
def oneWord (w : Word) (pool : ℤ) (h : 0 < pool) : PatchInput where
  mem := fun a => if a = 0 then w else 0#32
  code := 0
  codeSize := 4
  pool := pool
  poolEnd := pool + 24
  apart := fun k hk => .inl (by omega)

theorem placesAt_oneWord {w : Word} {pool : ℤ} (h : 0 < pool) (hpool : pool ≤ 0x01FFFFFF) {d : LseDecoded}
    (hd : decodeLse w = some d) : (oneWord w pool h).PlacesAt 0 (emitIsland d pool 0) := by
  have hlo := (length_emitIsland d pool 0).1
  have hr : outOfBRange pool = false := by
    simp only [outOfBRange, decide_eq_false_iff_not]
    omega
  refine ⟨show 0 < 4 / 4 by decide,rfl,?_⟩
  simp only [outcome, oneWord, PatchInput.loop, Nat.cast_zero, add_zero, ↓reduceIte, hd, gt_iff_lt, lt_self_iff_false,
    sub_zero, hr, Bool.false_eq_true]
  rw [if_neg (by omega)]

/-- `LDADD X2, X3, [X1]` with its island at the end of the branch range cannot be returned to, and
`LDAPR X0, [X1]`, which is not an ARMv8.1 atomic, is overwritten. -/
theorem isaEmulPatch_not_correct :
    ¬(oneWord ldaddWord 0x01FFFFFF (by decide)).Correct ∧ ¬(oneWord 0xF8BFC020#32 1 (by decide)).Correct := by
  constructor
  · intro h
    have hp := placesAt_oneWord (show 0 < 0x01FFFFFF by decide) (by decide)
      (show decodeLse ldaddWord = some ldaddX by decide)
    have hlen : (emitIsland ldaddX 0x01FFFFFF 0).length = 16 := by decide
    have hb := hp.back_iff.mp (h.back 0 _ hp)
    rw [hlen] at hb
    exact absurd hb (by decide)
  · intro h
    have hp := placesAt_oneWord (w := 0xF8BFC020#32) (d := ⟨.swp,3#2,true,false,31#5,0#5,1#5⟩)
      (show 0 < 1 by decide) (by decide) (by decide)
    have hw : ¬Emulated 0xF8BFC020#32 := by decide
    exact hp.changed hw (h.unchanged 0 (by decide) hw)

end Machismo.IsaEmul
