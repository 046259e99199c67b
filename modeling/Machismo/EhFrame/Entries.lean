import Machismo.EhFrame.Emit

/-! # The emitted entries

Every writer puts a string of bytes at the end of the buffer, so an entry is its length and its body.
Read as DWARF, the body is the entry it is meant to be.
-/
namespace Machismo.EhFrame
open A64 (Byte)
open Data Dwarf

@[simp] theorem pos_push (s : Ehf) (bs : List Byte) : (s.push bs).pos = s.pos + bs.length := List.length_append

@[simp] theorem push_nil (s : Ehf) : s.push [] = s := by simp [Ehf.push]

@[simp] theorem push_push (s : Ehf) (as bs : List Byte) : (s.push as).push bs = s.push (as ++ bs) := by
  simp [Ehf.push, Ehf.pos]

theorem ehfU8_eq (v : Byte) (s : Ehf) : ehfU8 v s = s.push [v] := rfl
theorem ehfU32_eq (v : BitVec 32) (s : Ehf) : ehfU32 v s = s.push (leBytes 4 v.toNat) := rfl
theorem ehfU64_eq (v : BitVec 64) (s : Ehf) : ehfU64 v s = s.push (leBytes 8 v.toNat) := rfl

theorem low_group (v : BitVec 64) : ((v &&& 0x7f).setWidth 8 : Byte) = BitVec.ofNat 8 (v.toNat % 128) := by
  apply BitVec.eq_of_toNat_eq
  have hand : (v &&& 0x7f).toNat = v.toNat % 128 := Nat.and_two_pow_sub_one_eq_mod v.toNat 7
  rw [BitVec.toNat_setWidth, hand, BitVec.toNat_ofNat]

theorem continued_group {n : ℕ} (h : n < 128) : (BitVec.ofNat 8 n ||| 0x80 : Byte) = BitVec.ofNat 8 (n + 128) := by
  have hall : ∀ n < 128, (BitVec.ofNat 8 n ||| 0x80 : Byte) = BitVec.ofNat 8 (n + 128) := by decide
  exact hall n h

theorem toNat_rest (v : BitVec 64) : (v >>> 7).toNat = v.toNat / 128 := by
  rw [BitVec.toNat_ushiftRight, Nat.shiftRight_eq_div_pow]

theorem rest_eq_zero (v : BitVec 64) : v >>> 7 = 0 ↔ v.toNat < 128 := by
  have hzero : (0 : BitVec 64).toNat = 0 := rfl
  rw [← BitVec.toNat_inj, toNat_rest, hzero]
  omega

theorem ulebLoop_eq {n : ℕ} {v : BitVec 64} (h : v.toNat < 128^(n+1)) (s : Ehf) :
    ulebLoop (n+1) v s = s.push (encodeUleb n v.toNat) := by
  induction n generalizing v s with
  | zero =>
    have hv : v.toNat < 128 := by simpa using h
    rw [ulebLoop, if_neg (not_not.mpr ((rest_eq_zero v).mpr hv)), ehfU8_eq, low_group, Nat.mod_eq_of_lt hv, encodeUleb]
  | succ n ih =>
    rw [ulebLoop, encodeUleb]
    by_cases hv : v.toNat < 128
    · rw [if_neg (not_not.mpr ((rest_eq_zero v).mpr hv)), if_pos hv, ehfU8_eq, low_group, Nat.mod_eq_of_lt hv]
    · have hrest : (v >>> 7).toNat < 128^(n+1) := by
        rw [toNat_rest, Nat.div_lt_iff_lt_mul (by decide), ← pow_succ]
        exact h
      rw [if_pos (mt (rest_eq_zero v).mp hv), if_neg hv, ih hrest, ehfU8_eq, push_push, toNat_rest, low_group,
        continued_group (Nat.mod_lt _ (by decide))]
      rfl

theorem ehfUleb128_eq (v : BitVec 64) (s : Ehf) : ehfUleb128 v s = s.push (encodeUleb 9 v.toNat) :=
  ulebLoop_eq (lt_trans v.isLt (by decide)) s

theorem ehfSleb128_eq (s : Ehf) : ehfSleb128 (-8) s = s.push [0x78] := by
  rfl

/-- The distance to the next multiple of eight. -/
def padding (pos : ℕ) : ℕ := (8 - pos % 8) % 8

theorem alignLoop_eq {n : ℕ} {s : Ehf} (h : padding s.pos ≤ n) :
    alignLoop 8 n s = s.push (List.replicate (padding s.pos) 0) := by
  induction n generalizing s with
  | zero =>
    rw [Nat.le_zero.mp h]
    simp [alignLoop]
  | succ n ih =>
    unfold padding at h
    rw [alignLoop]
    split
    next hpos =>
      have hpad : padding s.pos = padding (s.pos + 1) + 1 := by
        unfold padding
        omega
      rw [ehfU8_eq, ih (by rw [pos_push, List.length_singleton]; unfold padding; omega), push_push, pos_push,
        List.length_singleton, hpad, List.replicate_succ]
      rfl
    next hpos =>
      have hpad : padding s.pos = 0 := by
        unfold padding
        omega
      simp [hpad]

theorem ehfAlign_eq (s : Ehf) : ehfAlign 8 s = s.push (List.replicate (padding s.pos) 0) :=
  alignLoop_eq (by unfold padding; omega)

/-- A complete entry: what was written from its start on, with the length over the placeholder. -/
def Ehf.entry (s : Ehf) (body : List Byte) : Ehf :=
  ⟨s.buf ++ withLength body,s.written ++ List.range' s.pos (4 + body.length) ++ List.range' s.pos 4⟩

theorem emitEntry_eq {fields : Ehf → Ehf} {s : Ehf} {bs : List Byte}
    (h : fields (s.push (leBytes 4 0)) = s.push (leBytes 4 0 ++ bs)) :
    emitEntry fields s = s.entry (bs ++ List.replicate (padding (s.pos + 4 + bs.length)) 0) := by
  have hpad : ehfAlign 8 (fields (s.push (leBytes 4 0))) =
      s.push (leBytes 4 0 ++ (bs ++ List.replicate (padding (s.pos + 4 + bs.length)) 0)) := by
    rw [h, ehfAlign_eq, push_push, pos_push, List.append_assoc, List.length_append, length_leBytes, Nat.add_assoc]
  generalize bs ++ List.replicate (padding (s.pos + 4 + bs.length)) 0 = body at hpad
  have hlen : (s.push (leBytes 4 0 ++ body)).pos - (s.push (leBytes 4 0)).pos = body.length := by
    simp only [pos_push, List.length_append, length_leBytes]
    omega
  have hmod : leBytes 4 (BitVec.ofNat 32 body.length).toNat = leBytes 4 body.length := leBytes_mod 4 body.length
  have htake : (s.buf ++ (leBytes 4 0 ++ body)).take s.pos = s.buf := List.take_left
  have hdrop : (s.buf ++ (leBytes 4 0 ++ body)).drop (s.pos + 4) = body := by
    rw [← List.drop_drop, Ehf.pos, List.drop_left, List.drop_left' (length_leBytes 4 0)]
  have hzero : ehfU32 0 s = s.push (leBytes 4 0) := rfl
  unfold emitEntry
  simp only [hzero, hpad, hlen]
  unfold patchLength Ehf.entry Ehf.push
  rw [htake, hdrop, hmod, withLength, List.append_assoc, List.length_append, length_leBytes]

def cieFields (personalityAddr : BitVec 64) : List Byte :=
  leBytes 4 0 ++ [1] ++ (if personalityAddr ≠ 0 then [0x7a,0x50,0x4c,0x52,0] else [0x7a,0x52,0]) ++ [4,0x78,30] ++
    (if personalityAddr ≠ 0 then [11,0] ++ leBytes 8 personalityAddr.toNat ++ [0,0] else [1,0]) ++ [0x0c,31,0]

def cieBody (personalityAddr : BitVec 64) (pos : ℕ) : List Byte :=
  cieFields personalityAddr ++ List.replicate (padding (pos + 4 + (cieFields personalityAddr).length)) 0

theorem emitCieFields_eq (personalityAddr : BitVec 64) (s : Ehf) :
    emitCieFields personalityAddr s = s.push (cieFields personalityAddr) := by
  unfold emitCieFields cieFields
  simp only [ehfSleb128_eq]
  by_cases hp : personalityAddr = 0#64
  · simp [hp, ehfU8_eq, ehfU32_eq, ehfUleb128_eq, encodeUleb, dwEhPeAbsptr, dwCfaDefCfa]
  · simp [hp, ehfU8_eq, ehfU32_eq, ehfU64_eq, ehfUleb128_eq, encodeUleb, dwEhPeAbsptr, dwCfaDefCfa]

theorem emitCie_eq (personalityAddr : BitVec 64) (s : Ehf) :
    emitCie personalityAddr s = (s.pos,s.entry (cieBody personalityAddr s.pos)) := by
  rw [emitCie, emitEntry_eq (by rw [emitCieFields_eq, push_push]), cieBody]

theorem readCie_eq (aug data : List Byte) {bs : List Byte} {insns : List CfaInsn} (haug : ∀ b ∈ aug, b ≠ 0)
    (hz : aug.head? = some 0x7a) (hdata : data.length < 128) (hbs : Encodes bs insns) :
    readCie (leBytes 4 0 ++ (1 :: (aug ++ 0 :: 4 :: 0x78 :: 30 :: BitVec.ofNat 8 data.length :: (data ++ bs)))) =
      some ⟨aug,4,-8,30,data,insns⟩ := by
  have hversion : ∀ p, readFixed 1 (1 :: p) = some (1,p) := by
    intro p
    simp [readFixed, leNat]
  have hreturn : ∀ p, readFixed 1 (30 :: p) = some (30,p) := by
    intro p
    simp [readFixed, leNat]
  have hdata' : ∀ p, readSleb (0x78 :: p) = some (-8,p) := fun _ => rfl
  have hcode : ∀ p, readUleb (4 :: p) = some (4,p) := fun _ => rfl
  unfold readCie
  simp only [readFixed_leBytes, Option.bind_some, hversion, readString_append haug, hcode, hdata', hreturn,
    readUleb_small hdata, List.drop_left, List.take_left]
  rw [hbs.readInsns (by simp), Option.bind_some, if_pos (by simp [hz])]

/-- The augmentation of a CIE: with a personality there is an LSDA, too. -/
def cieAugmentation (personalityAddr : BitVec 64) : List Byte :=
  if personalityAddr ≠ 0 then [0x7a,0x50,0x4c,0x52] else [0x7a,0x52]

/-- The alignment factors, the return address column and the initial row are those for AArch64. -/
theorem readCie_cieBody (personalityAddr : BitVec 64) (pos : ℕ) :
    ∃ cie n, readCie (cieBody personalityAddr pos) = some cie ∧ cie.codeAlign = 4 ∧ cie.dataAlign = -8 ∧
      cie.returnReg = 30 ∧ cie.insns = .defCfa 31 0 :: List.replicate n .nop ∧
      cie.augmentation = cieAugmentation personalityAddr := by
  have hinsns : ∀ n, Encodes (0x0c :: 31 :: 0 :: List.replicate n 0) (.defCfa 31 0 :: List.replicate n .nop) := by
    intro n
    have h : Encodes (0x0c :: (encodeUleb 0 31 ++ encodeUleb 0 0)) [.defCfa 31 0] :=
      encodes_defCfa (by decide) (by decide)
    exact h.append (encodes_nops n)
  unfold cieBody
  generalize padding (pos + 4 + (cieFields personalityAddr).length) = n
  unfold cieFields
  by_cases hp : personalityAddr = 0#64
  · have h := readCie_eq [0x7a,0x52] [0] (by decide) rfl (by decide) (hinsns n)
    refine ⟨⟨[0x7a,0x52],4,-8,30,[0],.defCfa 31 0 :: List.replicate n .nop⟩,n,?_,rfl,rfl,rfl,rfl,?_⟩
    · rw [← h]
      simp [hp]
    · simp [cieAugmentation, hp]
  · have h := readCie_eq [0x7a,0x50,0x4c,0x52] (0 :: (leBytes 8 personalityAddr.toNat ++ [0,0])) (by decide) rfl
      (by simp) (hinsns n)
    refine ⟨⟨[0x7a,0x50,0x4c,0x52],4,-8,30,0 :: (leBytes 8 personalityAddr.toNat ++ [0,0]),
      .defCfa 31 0 :: List.replicate n .nop⟩,n,?_,rfl,rfl,rfl,rfl,?_⟩
    · rw [← h]
      simp [hp]
    · simp [cieAugmentation, hp]

def augmentationBytes (lsdaAddr : BitVec 64) : List Byte :=
  if lsdaAddr ≠ 0 then 8 :: leBytes 8 lsdaAddr.toNat else [0]

def fdeFields (cieOffset : ℕ) (funcAddr : BitVec 64) (funcSize : BitVec 32) (lsdaAddr : BitVec 64) (pos : ℕ) :
    List Byte :=
  leBytes 4 (pos + 4 - cieOffset) ++
    (leBytes 8 funcAddr.toNat ++ (leBytes 8 funcSize.toNat ++ augmentationBytes lsdaAddr))

/-- The body of an entry at `pos` with the given bytes of instructions. -/
def fdeBody (cfi : List Byte) (cieOffset : ℕ) (funcAddr : BitVec 64) (funcSize : BitVec 32) (lsdaAddr : BitVec 64)
    (pos : ℕ) : List Byte :=
  let fields := fdeFields cieOffset funcAddr funcSize lsdaAddr pos ++ cfi
  fields ++ List.replicate (padding (pos + 4 + fields.length)) 0

section Fde
variable {cfi : List Byte} {cieOffset : ℕ} {funcAddr : BitVec 64} {funcSize : BitVec 32} {lsdaAddr : BitVec 64}

theorem emitFdeFields_eq (s : Ehf) :
    emitFdeFields cieOffset funcAddr funcSize lsdaAddr (s.push (leBytes 4 0)) =
      s.push (leBytes 4 0 ++ fdeFields cieOffset funcAddr funcSize lsdaAddr s.pos) := by
  have hmod : leBytes 4 (BitVec.ofNat 32 (s.pos + 4 - cieOffset)).toNat = leBytes 4 (s.pos + 4 - cieOffset) :=
    leBytes_mod 4 _
  have hsize : (funcSize.setWidth 64).toNat = funcSize.toNat := BitVec.toNat_setWidth_of_le (by decide)
  unfold emitFdeFields fdeFields augmentationBytes
  by_cases hl : lsdaAddr = 0#64
  · simp [hl, ehfU32_eq, ehfU64_eq, ehfUleb128_eq, encodeUleb, hmod, hsize, -BitVec.toNat_setWidth, -BitVec.toNat_ofNat]
  · simp [hl, ehfU32_eq, ehfU64_eq, ehfUleb128_eq, encodeUleb, hmod, hsize, -BitVec.toNat_setWidth, -BitVec.toNat_ofNat]

theorem emitFde_eq {f : Ehf → Ehf} (hf : ∀ s, f s = s.push cfi) (s : Ehf) :
    emitFde f cieOffset funcAddr funcSize lsdaAddr s =
      s.entry (fdeBody cfi cieOffset funcAddr funcSize lsdaAddr s.pos) := by
  rw [emitFde, emitEntry_eq (by rw [emitFdeFields_eq, hf, push_push, List.append_assoc])]
  rfl

theorem readFde_fdeBody {insns : List CfaInsn} (hcfi : Encodes cfi insns) {pos : ℕ}
    (hcie : (pos + 4 - cieOffset) % 2^32 ≠ 0) :
    ∃ n, readFde (fdeBody cfi cieOffset funcAddr funcSize lsdaAddr pos) = some
      ⟨(pos + 4 - cieOffset) % 2^32,funcAddr.toNat,funcSize.toNat,(augmentationBytes lsdaAddr).tail,
        insns ++ List.replicate n .nop⟩ := by
  unfold fdeBody
  dsimp only
  generalize padding _ = n
  refine ⟨n,?_⟩
  have hinsns := hcfi.append (encodes_nops n)
  have haddr : funcAddr.toNat % 256^8 = funcAddr.toNat := Nat.mod_eq_of_lt funcAddr.isLt
  have hsize : funcSize.toNat % 256^8 = funcSize.toNat := Nat.mod_eq_of_lt (lt_trans funcSize.isLt (by decide))
  have haug : ∀ p, ∃ len,
      readUleb (augmentationBytes lsdaAddr ++ p) = some (len,(augmentationBytes lsdaAddr).tail ++ p) ∧
      len = (augmentationBytes lsdaAddr).tail.length := by
    intro p
    unfold augmentationBytes
    split
    · exact ⟨8,rfl,by simp⟩
    · exact ⟨0,rfl,rfl⟩
  obtain ⟨len,hread,rfl⟩ := haug (cfi ++ List.replicate n 0)
  unfold readFde fdeFields
  simp only [List.append_assoc, readFixed_leBytes, Option.bind_some, hread, List.drop_left, List.take_left]
  have hpow : 256^4 = 2^32 := by norm_num
  rw [hinsns.readInsns (by simp), Option.bind_some, hpow, if_pos hcie, haddr, hsize]

end Fde

end Machismo.EhFrame
