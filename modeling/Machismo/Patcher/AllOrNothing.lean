import Machismo.Patcher.Apply
import Mathlib.Data.List.Forall2

/-! # All or nothing

A file that fails before its words are written leaves memory as it was. A file that is applied has been
resolved, encoded and checked against memory as it was, and afterwards its words stand in their places.
-/
namespace Machismo.Patcher
open A64 IsaEmul

section Ok
variable {ε α β : Type*}

theorem bind_eq_ok {x : Except ε α} {f : α → Except ε β} {b : β} (h : x.bind f = .ok b) :
    ∃ a, x = .ok a ∧ f a = .ok b := by
  cases x with
  | error e => cases h
  | ok a => exact ⟨a,rfl,h⟩

theorem map_eq_ok {x : Except ε α} {f : α → β} {b : β} (h : x.map f = .ok b) : ∃ a, x = .ok a ∧ f a = b := by
  cases x with
  | error e => cases h
  | ok a =>
    cases h
    exact ⟨a,rfl,rfl⟩

theorem mapM_eq_ok {f : α → Except ε β} {l : List α} {l' : List β} (h : l.mapM f = .ok l') :
    List.Forall₂ (fun a b => f a = .ok b) l l' := by
  induction l generalizing l' with
  | nil =>
    cases h
    exact .nil
  | cons a l ih =>
    rw [List.mapM_cons] at h
    obtain ⟨b,hb,h⟩ := bind_eq_ok h
    obtain ⟨bs,hbs,h⟩ := bind_eq_ok h
    cases h
    exact .cons hb (ih hbs)

end Ok

/-- The target of a `b`, or of a `bl`, at an address. -/
def branchTarget (link : Bool) (w : Word) (pc : Addr) : Option Addr :=
  if bits w 26 6 = (if link then 0x25#6 else 0x05#6) then some (pc + (bits w 0 26).signExtend 64 * 4) else none

theorem signExtend_ofInt_mul {diff : ℤ} (h : arm64BranchInRange diff) :
    (BitVec.ofInt 26 (diff / 4)).signExtend 64 * 4 = BitVec.ofInt 64 diff := by
  unfold arm64BranchInRange at h
  split at h
  · cases h
  · rw [decide_eq_true_eq] at h
    have hs : (BitVec.ofInt 26 (diff / 4)).toInt = diff / 4 := by
      rw [BitVec.toInt_ofInt, Int.bmod_def]
      omega
    apply BitVec.eq_of_toInt_eq
    rw [BitVec.toInt_mul, BitVec.toInt_signExtend_of_le (by omega), hs, BitVec.toInt_ofInt]
    congr 1
    change diff / 4 * 4 = _
    omega

theorem branchTarget_of_encodeBranch {enc : ℤ → Word} {link : Bool}
    (henc : ∀ off, bits (enc off) 26 6 = (if link then 0x25#6 else 0x05#6) ∧ bits (enc off) 0 26 = BitVec.ofInt 26 off)
    {addr target : Addr} {w : Word} (h : encodeBranch enc addr target = .ok w) :
    branchTarget link w addr = some target := by
  unfold encodeBranch at h
  dsimp only at h
  split at h
  next hrange =>
    cases h
    obtain ⟨hop,himm⟩ := henc ((target - addr).toInt / 4)
    rw [branchTarget, if_pos hop, himm, signExtend_ofInt_mul hrange, BitVec.ofInt_toInt, BitVec.add_comm,
      BitVec.sub_add_cancel]
  next => cases h

theorem bits_encB (off : ℤ) : bits (encB off) 26 6 = 0x05#6 ∧ bits (encB off) 0 26 = BitVec.ofInt 26 off := by
  have h : BitVec.ofInt 32 off &&& 0x03FFFFFF#32 = place (BitVec.ofInt 26 off) 0 := ofInt_and_mask off 26 (by decide)
  simp [encB, h]

theorem bits_encBl (off : ℤ) : bits (encBl off) 26 6 = 0x25#6 ∧ bits (encBl off) 0 26 = BitVec.ofInt 26 off := by
  have h : BitVec.ofInt 32 off &&& 0x03FFFFFF#32 = place (BitVec.ofInt 26 off) 0 := ofInt_and_mask off 26 (by decide)
  simp [encBl, h]

section Placed
variable (E : Env) (mem : Memory) (labels : List Label)

/-- The word is the instruction of a line at an address. -/
def Instructs (addr : Addr) (w : Word) : InsnExpr → Prop
  | .raw insn => w = insn
  | .b target => ∃ t, resolveLoc E mem labels target = .ok t ∧ branchTarget false w addr = some t
  | .bl target => ∃ t, resolveLoc E mem labels target = .ok t ∧ branchTarget true w addr = some t

/-- A word and its place are those of a line, whose expectation is met by memory. -/
structure Placed (patch : Patch) (p : Addr × Word) : Prop where
  loc : resolveLoc E mem labels patch.loc = .ok p.1
  insn : Instructs E mem labels p.1 p.2 patch.insn
  expected : ∀ w, patch.expected = some w → load mem p.1 4 = w

variable {E mem labels}

theorem instructs_of_encodeInsn {addr : Addr} {insn : InsnExpr} {w : Word}
    (h : encodeInsn E mem labels addr insn = .ok w) : Instructs E mem labels addr w insn := by
  cases insn with
  | raw insn =>
    cases h
    rfl
  | b target =>
    obtain ⟨t,ht,hw⟩ := bind_eq_ok h
    exact ⟨t,ht,branchTarget_of_encodeBranch bits_encB hw⟩
  | bl target =>
    obtain ⟨t,ht,hw⟩ := bind_eq_ok h
    exact ⟨t,ht,branchTarget_of_encodeBranch bits_encBl hw⟩

theorem placed_of_encodePatch {patch : Patch} {q : Addr × Patch} {p : Addr × Word}
    (hresolve : resolvePatch E mem labels patch = .ok q) (hencode : encodePatch E mem labels q = .ok p) :
    Placed E mem labels patch p := by
  obtain ⟨addr,haddr,rfl⟩ := map_eq_ok hresolve
  obtain ⟨w,hw,hencode⟩ := bind_eq_ok hencode
  obtain ⟨u,hexpect,rfl⟩ := map_eq_ok hencode
  refine ⟨haddr,instructs_of_encodeInsn hw,fun v hv => ?_⟩
  dsimp only at hexpect hv
  rw [hv, checkExpected] at hexpect
  split at hexpect
  · assumption
  · cases hexpect

theorem forall₂_placed {patches : List Patch} {qs : List (Addr × Patch)} {ps : List (Addr × Word)}
    (hresolve : List.Forall₂ (fun patch q => resolvePatch E mem labels patch = .ok q) patches qs)
    (hencode : List.Forall₂ (fun q p => encodePatch E mem labels q = .ok p) qs ps) :
    List.Forall₂ (Placed E mem labels) patches ps := by
  induction hresolve generalizing ps with
  | nil =>
    cases hencode
    exact .nil
  | cons hq _ ih =>
    cases hencode with
    | cons hp hps => exact .cons (placed_of_encodePatch hq hp) (ih hps)

end Placed

/-- The three passes before the last give a word and a place for each line that is not a `let`. -/
theorem preparePatches_ok {E : Env} {mem : Memory} {lines : List PatchLine} {ps : List (Addr × Word)}
    (h : preparePatches E mem lines = .ok ps) :
    ∃ labels, resolveLabels E mem lines (registerLabels lines) = .ok labels ∧
      List.Forall₂ (Placed E mem labels) (lines.filterMap PatchLine.patch) ps := by
  obtain ⟨labels,hlabels,h⟩ := bind_eq_ok h
  obtain ⟨qs,hqs,h⟩ := bind_eq_ok h
  exact ⟨labels,hlabels,forall₂_placed (mapM_eq_ok hqs) (mapM_eq_ok h)⟩

def putWords (mem : Memory) (ps : List (Addr × Word)) : Memory := ps.foldl (fun m p => store m p.1 4 p.2) mem

theorem writePatches_ok {E : Env} {ps : List (Addr × Word)} {applied n : ℕ} {mem : Memory}
    (h : (writePatches E ps applied mem).1 = .ok n) :
    n = applied + ps.length ∧ (writePatches E ps applied mem).2 = putWords mem ps := by
  induction ps generalizing applied mem with
  | nil =>
    cases h
    exact ⟨rfl,rfl⟩
  | cons p ps ih =>
    rw [writePatches] at h ⊢
    split at h
    next hprotect =>
      obtain ⟨hn,hmem⟩ := ih h
      rw [if_pos hprotect, List.length_cons]
      exact ⟨by omega,hmem⟩
    next => cases h

theorem writePatches_error {E : Env} {ps : List (Addr × Word)} {applied : ℕ} {mem : Memory} {e : Failure}
    (h : (writePatches E ps applied mem).1 = .error e) : e = .writeFailed := by
  induction ps generalizing applied mem with
  | nil => cases h
  | cons p ps ih =>
    rw [writePatches] at h
    split at h
    · exact ih h
    · cases h
      rfl

theorem putWords_outside {ps : List (Addr × Word)} {b : Addr} (h : ∀ p ∈ ps, 4 ≤ (b - p.1).toNat) (mem : Memory) :
    putWords mem ps b = mem b := by
  induction ps generalizing mem with
  | nil => rfl
  | cons p ps ih =>
    have hrest := ih (fun q hq => h q (List.mem_cons_of_mem _ hq)) (store mem p.1 4 p.2)
    exact hrest.trans (store_outside _ _ _ _ (h p List.mem_cons_self))

theorem load_putWords_apart {ps : List (Addr × Word)} {a : Addr} (h : ∀ p ∈ ps, Apart a 4 p.1 4) (mem : Memory) :
    load (putWords mem ps) a 4 = load mem a 4 := by
  induction ps generalizing mem with
  | nil => rfl
  | cons p ps ih =>
    have hrest := ih (fun q hq => h q (List.mem_cons_of_mem _ hq)) (store mem p.1 4 p.2)
    exact hrest.trans (load_store_apart mem (k := 4) p.2 (h p List.mem_cons_self))

theorem load_putWords_last {l l' : List (Addr × Word)} {p : Addr × Word} (h : ∀ q ∈ l', Apart p.1 4 q.1 4)
    (mem : Memory) : load (putWords mem (l ++ p :: l')) p.1 4 = p.2 := by
  have hsplit : putWords mem (l ++ p :: l') = putWords (store (putWords mem l) p.1 4 p.2) l' := by
    rw [putWords, List.foldl_append]
    rfl
  rw [hsplit, load_putWords_apart h]
  exact load_store_same (putWords mem l) p.1 4 p.2 (by omega)

theorem patcherApply_ok {E : Env} {patchFile : Option Text} {mem : Memory} {n : ℕ}
    (h : (patcherApply E patchFile mem).1 = .ok n) :
    ∃ text lines ps, patchFile = some text ∧ parsePatchFile text = some lines ∧ preparePatches E mem lines = .ok ps ∧
      n = ps.length ∧ (patcherApply E patchFile mem).2 = putWords mem ps := by
  unfold patcherApply at h ⊢
  cases patchFile with
  | none => cases h
  | some text =>
    dsimp only at h ⊢
    cases hlines : parsePatchFile text with
    | none =>
      rw [hlines] at h
      cases h
    | some lines =>
      rw [hlines] at h
      dsimp only at h ⊢
      cases hps : preparePatches E mem lines with
      | error e =>
        rw [hps] at h
        cases h
      | ok ps =>
        rw [hps] at h
        obtain ⟨hn,hmem⟩ := writePatches_ok h
        exact ⟨text,lines,ps,rfl,hlines,hps,by omega,hmem⟩

theorem patcherApply_error {E : Env} {patchFile : Option Text} {mem : Memory} {e : Failure}
    (h : (patcherApply E patchFile mem).1 = .error e) (he : e ≠ .writeFailed) :
    (patcherApply E patchFile mem).2 = mem := by
  unfold patcherApply at h ⊢
  cases patchFile with
  | none => rfl
  | some text =>
    dsimp only at h ⊢
    cases hlines : parsePatchFile text with
    | none => rfl
    | some lines =>
      rw [hlines] at h
      dsimp only at h ⊢
      cases hps : preparePatches E mem lines with
      | error e => rfl
      | ok ps =>
        rw [hps] at h
        exact absurd (writePatches_error h) he

/-- A line that has a place, a word for it and, if it expects one, the word that is there. -/
structure Prepares (E : Env) (mem : Memory) (labels : List Label) (patch : Patch) (p : Addr × Word) : Prop where
  loc : resolveLoc E mem labels patch.loc = .ok p.1
  insn : encodeInsn E mem labels p.1 patch.insn = .ok p.2
  expected : ∀ w, patch.expected = some w → load mem p.1 4 = w

theorem preparePatches_of_prepares {E : Env} {mem : Memory} {lines : List PatchLine} {labels : List Label}
    {ps : List (Addr × Word)} (hlabels : resolveLabels E mem lines (registerLabels lines) = .ok labels)
    (hps : List.Forall₂ (Prepares E mem labels) (lines.filterMap PatchLine.patch) ps) :
    preparePatches E mem lines = .ok ps := by
  have hmapM : ∀ (patches : List Patch) (ps : List (Addr × Word)), List.Forall₂ (Prepares E mem labels) patches ps →
      (patches.mapM (resolvePatch E mem labels)).bind (fun qs => qs.mapM (encodePatch E mem labels)) = .ok ps := by
    intro patches ps h
    induction h with
    | nil => rfl
    | @cons patch p patches ps hp _ ih =>
      obtain ⟨qs,hqs,hencode⟩ := bind_eq_ok ih
      have hresolve : resolvePatch E mem labels patch = .ok (p.1,patch) := by
        rw [resolvePatch, hp.loc]
        rfl
      have hchecked : checkExpected mem p.1 patch.expected = .ok () := by
        cases hw : patch.expected with
        | none => rfl
        | some w => exact if_pos (hp.expected w hw)
      have hfirst : encodePatch E mem labels (p.1,patch) = .ok p := by
        rw [encodePatch, hp.insn, Except.bind, hchecked]
        rfl
      rw [List.mapM_cons, hresolve, hqs]
      change (((p.1,patch) :: qs).mapM (encodePatch E mem labels)) = _
      rw [List.mapM_cons, hfirst, hencode]
      rfl
  rw [preparePatches, hlabels]
  exact hmapM _ _ hps

/-- A file whose lines are all parsed, resolved, encoded and met by memory is applied, if its pages can be
made writable. -/
theorem patcherApply_of_prepares {E : Env} {mem : Memory} {text : Text} {lines : List PatchLine}
    {labels : List Label} {ps : List (Addr × Word)} (hlines : parsePatchFile text = some lines)
    (hlabels : resolveLabels E mem lines (registerLabels lines) = .ok labels)
    (hps : List.Forall₂ (Prepares E mem labels) (lines.filterMap PatchLine.patch) ps)
    (hprotect : ∀ p ∈ ps, E.protect (p.1 &&& ~~~(E.pageSize - 1))) :
    patcherApply E (some text) mem = (.ok ps.length,putWords mem ps) := by
  have hwrite : ∀ (ps : List (Addr × Word)) (applied : ℕ) (mem : Memory),
      (∀ p ∈ ps, E.protect (p.1 &&& ~~~(E.pageSize - 1))) →
        writePatches E ps applied mem = (.ok (applied + ps.length),putWords mem ps) := by
    intro ps
    induction ps with
    | nil => exact fun applied mem _ => rfl
    | cons p ps ih =>
      intro applied mem h
      rw [writePatches, if_pos (h p List.mem_cons_self), ih _ _ fun q hq => h q (List.mem_cons_of_mem _ hq),
        List.length_cons, Nat.add_assoc, Nat.add_comm 1]
      rfl
  simp only [patcherApply, hlines, preparePatches_of_prepares hlabels hps, hwrite ps 0 mem hprotect, Nat.zero_add]

def PatchLine.isLet : PatchLine → Bool
  | .lineLet _ _ => true
  | _ => false

theorem length_filterMap_patch (lines : List PatchLine) :
    (lines.filterMap PatchLine.patch).length = (lines.filter fun line => !line.isLet).length := by
  induction lines with
  | nil => rfl
  | cons line lines ih =>
    cases line with
    | lineAbs addr insn => exact congrArg Nat.succ ih
    | lineAt loc insn expected => exact congrArg Nat.succ ih
    | lineLet labelName loc => exact ih

/-- The places of two words are the same or have no byte in common. -/
def SameOrApart (p q : Addr × Word) : Prop := p.1 = q.1 ∨ Apart p.1 4 q.1 4

/-- If the file fails before the writes, nothing has changed. If it is applied, as many words have been
written as there are lines other than `let`; each place has the instruction of the last line for it, the
expectations were met by memory as it was, and no other byte has changed. -/
theorem patcherApply_allOrNothing (E : Env) (patchFile : Option Text) (mem : Memory) :
    (∀ e, (patcherApply E patchFile mem).1 = .error e → e ≠ .writeFailed → (patcherApply E patchFile mem).2 = mem) ∧
    ∀ n, (patcherApply E patchFile mem).1 = .ok n → ∃ text lines labels ps,
      patchFile = some text ∧ parsePatchFile text = some lines ∧ n = (lines.filter fun line => !line.isLet).length ∧
      resolveLabels E mem lines (registerLabels lines) = .ok labels ∧
      List.Forall₂ (Placed E mem labels) (lines.filterMap PatchLine.patch) ps ∧
      (ps.Pairwise SameOrApart →
        (∀ l p l', ps = l ++ p :: l' → (∀ q ∈ l', q.1 ≠ p.1) → load (patcherApply E patchFile mem).2 p.1 4 = p.2) ∧
        ∀ b, (∀ p ∈ ps, 4 ≤ (b - p.1).toNat) → (patcherApply E patchFile mem).2 b = mem b) := by
  refine ⟨fun e => patcherApply_error,fun n hn => ?_⟩
  obtain ⟨text,lines,ps,hfile,hlines,hps,rfl,hmem⟩ := patcherApply_ok hn
  obtain ⟨labels,hlabels,hplaced⟩ := preparePatches_ok hps
  refine ⟨text,lines,labels,ps,hfile,hlines,?_,hlabels,hplaced,fun hapart => ⟨?_,?_⟩⟩
  · rw [← hplaced.length_eq, length_filterMap_patch]
  · rintro l p l' rfl hlast
    rw [hmem]
    refine load_putWords_last (fun q hq => ?_) mem
    have hpq := (List.pairwise_cons.mp (List.pairwise_append.mp hapart).2.1).1 q hq
    exact hpq.resolve_left (hlast q hq).symm
  · intro b hb
    rw [hmem]
    exact putWords_outside hb mem

/-- A process without an image, in which every page can be made writable. -/
def bareEnv : Env := ⟨none,0,id,0x1000,fun _ => true⟩

def branchFile : Text := "let L = 0x2000\nat 0x1000 b L+8 ; expect 0\n".toList

theorem parsePatchFile_branchFile : parsePatchFile branchFile =
    some [.lineLet ['L'] (.abs 0x2000),.lineAt (.abs 0x1000) (.b (.label ['L'] 8)) (some 0)] := by
  decide +kernel

theorem patcherApply_branchFile : patcherApply bareEnv (some branchFile) (fun _ => 0) =
    (.ok 1,putWords (fun _ => 0) [(0x1000,0x14000402)]) := by
  have hps : List.Forall₂ (Prepares bareEnv (fun _ => 0) [⟨['L'],some 0x2000⟩])
      [⟨.abs 0x1000,.b (.label ['L'] 8),some 0⟩] [(0x1000,0x14000402)] := by
    refine .cons ⟨rfl,by decide +kernel,fun w hw => ?_⟩ .nil
    cases hw
    decide +kernel
  have hlabels : resolveLabels bareEnv (fun _ => 0)
      [.lineLet ['L'] (.abs 0x2000),.lineAt (.abs 0x1000) (.b (.label ['L'] 8)) (some 0)] [⟨['L'],none⟩] =
        .ok [⟨['L'],some 0x2000⟩] := rfl
  exact patcherApply_of_prepares parsePatchFile_branchFile hlabels hps fun _ _ => rfl

/-- One line is applied: a branch to eight bytes behind the label. -/
theorem patcherApply_allOrNothing_branchFile :
    branchTarget false (load (patcherApply bareEnv (some branchFile) (fun _ => 0)).2 0x1000 4) 0x1000 =
      some 0x2008 := by
  obtain ⟨text,lines,labels,ps,hfile,hlines,-,hlabels,hplaced,hmem⟩ :=
    (patcherApply_allOrNothing bareEnv (some branchFile) fun _ => 0).2 1 (by rw [patcherApply_branchFile])
  obtain rfl := Option.some.inj hfile
  obtain rfl := Option.some.inj (hlines.symm.trans parsePatchFile_branchFile)
  cases hlabels
  cases hplaced with
  | @cons _ p _ _ hp hrest =>
    cases hrest
    obtain ⟨addr,w⟩ := p
    have hloc : addr = 0x1000 := by
      have hloc := hp.loc
      cases hloc
      rfl
    subst hloc
    obtain ⟨target,htarget,hbranch⟩ := hp.insn
    have hword := (hmem (List.pairwise_singleton _ _)).1 [] _ [] rfl (by simp)
    rw [hword, hbranch]
    cases htarget
    rfl

end Machismo.Patcher
