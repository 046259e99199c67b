import Machismo.EhFrame.Native
import Machismo.EhFrame.Entries
import Machismo.Resolver.Leb128

/-! # Numbers written and read back

The writers of variable-length numbers against the two readers of each kind, the one of the fixup
interpreter and the one of the unwind parser. A reading also has the amounts shifted by: a shift of 64
or more is not defined by C, here it goes by the low six bits as on the processor.
-/
namespace Machismo.EhFrame.Leb
open A64 (Byte)

structure Reading where
  value : BitVec 64
  rest : List Byte
  shifts : List ℕ
  deriving DecidableEq

def Reading.after (shift : ℕ) (r : Reading) : Reading := ⟨r.value,r.rest,shift :: r.shifts⟩

def addGroup (shift : ℕ) (result : BitVec 64) (byte : Byte) : BitVec 64 :=
  result ||| (byte &&& 0x7f).setWidth 64 <<< (shift % 64)

/-- The loop of both unsigned readers. -/
def ulebScan (shift : ℕ) (result : BitVec 64) : List Byte → Reading
  | [] => ⟨result,[],[]⟩
  | byte :: p =>
    if byte &&& 0x80 = 0 then ⟨addGroup shift result byte,p,[shift]⟩
    else (ulebScan (shift+7) (addGroup shift result byte) p).after shift

/-- What both signed readers do after their loops. -/
def extendSign (shift : ℕ) (result : BitVec 64) (byte : Byte) (p : List Byte) : Reading :=
  if shift < 64 ∧ byte &&& 0x40 ≠ 0 then ⟨result ||| -(1#64 <<< shift),p,[shift]⟩ else ⟨result,p,[]⟩

def slebScan (shift : ℕ) (result : BitVec 64) (last : Byte) : List Byte → Reading
  | [] => extendSign shift result last []
  | byte :: p =>
    if byte &&& 0x80 = 0 then (extendSign (shift+7) (addGroup shift result byte) byte p).after shift
    else (slebScan (shift+7) (addGroup shift result byte) byte p).after shift

def readUleb128 (p : List Byte) : Reading := ulebScan 0 0#64 p

def readSleb128 (p : List Byte) : Reading := slebScan 0 0#64 0 p

def ehReadUleb128 (p : List Byte) : Reading := ulebScan 0 0#64 p

/-- `eh_read_sleb128`; `byte` is what its variable holds, which nothing is assigned to before the loop. -/
def ehReadSleb128 (byte : Byte) (p : List Byte) : Reading := slebScan 0 0#64 byte p

/-! The functions the two parsers are modelled with are these. -/

theorem readUlebFrom_eq (shift : ℕ) (result : BitVec 64) (p : List Byte) :
    Resolver.readUlebFrom shift result p = ((ulebScan shift result p).value,(ulebScan shift result p).rest) := by
  induction p generalizing shift result with
  | nil => rfl
  | cons byte p ih =>
    unfold Resolver.readUlebFrom ulebScan
    split
    next => rfl
    next => exact ih (shift+7) (addGroup shift result byte)

theorem resolver_readUleb128 (p : List Byte) :
    Resolver.readUleb128 p = ((readUleb128 p).value,(readUleb128 p).rest) := readUlebFrom_eq 0 0#64 p

theorem slebScan_eq (shift : ℕ) (result : BitVec 64) (last : Byte) (p : List Byte) :
    let (result',shift',last',p') := Resolver.readSlebFrom shift result last p
    ∃ before, slebScan shift result last p =
      ⟨(extendSign shift' result' last' p').value,p',before ++ (extendSign shift' result' last' p').shifts⟩ := by
  have hrest : ∀ shift result last p, (extendSign shift result last p).rest = p := by
    intro shift result last p
    unfold extendSign
    split <;> rfl
  induction p generalizing shift result last with
  | nil =>
    refine ⟨[],?_⟩
    rw [slebScan,List.nil_append]
    exact congrArg (fun rest => Reading.mk _ rest _) (hrest shift result last [])
  | cons byte p ih =>
    unfold Resolver.readSlebFrom slebScan
    by_cases hstop : byte &&& 0x80 = 0
    · rw [if_pos hstop,if_pos hstop]
      refine ⟨[shift],?_⟩
      exact congrArg (fun rest => Reading.mk _ rest _) (hrest (shift+7) (addGroup shift result byte) byte p)
    · rw [if_neg hstop,if_neg hstop]
      obtain ⟨before,hbefore⟩ := ih (shift+7) (addGroup shift result byte) byte
      refine ⟨shift :: before,?_⟩
      rw [hbefore]
      rfl

theorem resolver_readSleb128 (p : List Byte) :
    Resolver.readSleb128 p = ((readSleb128 p).value,(readSleb128 p).rest) := by
  obtain ⟨before,h⟩ := slebScan_eq 0 0#64 0 p
  rw [readSleb128,h]
  unfold Resolver.readSleb128 extendSign
  obtain ⟨result,shift,last,p⟩ := Resolver.readSlebFrom 0 0#64 0 p
  by_cases hsign : shift < 64 ∧ last &&& 0x40 ≠ 0
  · simp only [if_pos hsign]
  · simp only [if_neg hsign]

theorem ulebFrom_eq (shift : ℕ) (result : BitVec 64) (p : List Byte) :
    ulebFrom shift result p p.length = some ((ulebScan shift result p).value,
      ⟨(ulebScan shift result p).rest,(ulebScan shift result p).rest.length⟩) := by
  induction p generalizing shift result with
  | nil => rfl
  | cons byte p ih =>
    rw [List.length_cons]
    unfold ulebFrom ulebScan
    split
    next => rfl
    next => exact ih (shift+7) (addGroup shift result byte)

theorem native_readUleb128 (p : List Byte) : EhFrame.ehReadUleb128 ⟨p,p.length⟩ =
    some ((ehReadUleb128 p).value,⟨(ehReadUleb128 p).rest,(ehReadUleb128 p).rest.length⟩) := ulebFrom_eq 0 0#64 p

theorem slebFrom_eq (shift : ℕ) (result : BitVec 64) (last : Byte) (p : List Byte) :
    slebFrom p p.length =
      some ⟨(slebScan shift result last p).rest,(slebScan shift result last p).rest.length⟩ := by
  induction p generalizing shift result last with
  | nil =>
    unfold slebScan extendSign
    split <;> rfl
  | cons byte p ih =>
    rw [List.length_cons]
    unfold slebFrom slebScan
    by_cases hstop : byte &&& 0x80 = 0
    · simp only [if_pos hstop,extendSign,Reading.after]
      split <;> rfl
    · simp only [if_neg hstop,Reading.after]
      exact ih (shift+7) (addGroup shift result byte) byte

theorem native_readSleb128 (byte : Byte) (p : List Byte) : EhFrame.ehReadSleb128 ⟨p,p.length⟩ =
    some ⟨(ehReadSleb128 byte p).rest,(ehReadSleb128 byte p).rest.length⟩ := slebFrom_eq 0 0#64 byte p

/-- The value so far is the number as far as its first `k` groups. -/
def Low (v : BitVec 64) (k : ℕ) (result : BitVec 64) : Prop :=
  ∀ i < 64, result.getLsbD i = (decide (i < 7*k) && v.getLsbD i)

theorem low_zero (v : BitVec 64) : Low v 0 0#64 := by
  intro i hi
  simp

/-- What the writers take of a number: its low seven bits. -/
def lowByte (w : BitVec 64) : Byte := (w &&& 0x7f).setWidth 8

theorem getLsbD_lowByte (w : BitVec 64) (j : ℕ) : (lowByte w).getLsbD j = (decide (j < 7) && w.getLsbD j) := by
  have hmask : (0x7f : BitVec 64) = (BitVec.allOnes 7).setWidth 64 := rfl
  rw [lowByte,hmask,BitVec.getLsbD_setWidth,BitVec.getLsbD_and,BitVec.getLsbD_setWidth,BitVec.getLsbD_allOnes]
  by_cases hj : j < 7
  · have h8 : j < 8 := by omega
    have h64 : j < 64 := by omega
    simp [hj,h8,h64]
  · simp [hj]

theorem lowByte_high (w : BitVec 64) : lowByte w &&& 0x80 = 0 ∧ (lowByte w ||| 0x80) &&& 0x80 ≠ 0 ∧
    (lowByte w ||| 0x80) &&& 0x7f = lowByte w ∧ lowByte w &&& 0x7f = lowByte w := by
  have hlow : lowByte w = lowByte w &&& 0x7f := by
    have hmask : (0x7f : Byte) = (BitVec.allOnes 7).setWidth 8 := rfl
    apply BitVec.eq_of_getLsbD_eq
    intro i hi
    rw [hmask,BitVec.getLsbD_and,BitVec.getLsbD_setWidth,BitVec.getLsbD_allOnes,getLsbD_lowByte]
    by_cases h7 : i < 7 <;> simp [h7,hi]
  have hall : ∀ b : Byte, (b &&& 0x7f) &&& 0x80 = 0 ∧ ((b &&& 0x7f) ||| 0x80) &&& 0x80 ≠ 0 ∧
      ((b &&& 0x7f) ||| 0x80) &&& 0x7f = b &&& 0x7f ∧ b &&& 0x7f &&& 0x7f = b &&& 0x7f := by decide
  have h := hall (lowByte w)
  rwa [← hlow] at h

theorem Low.next {v w result : BitVec 64} {k : ℕ} {byte : Byte} (hlow : Low v k result) (hk : k ≤ 9)
    (hw : ∀ j < 7, 7*k+j < 64 → w.getLsbD j = v.getLsbD (7*k+j)) (hbyte : byte &&& 0x7f = lowByte w) :
    Low v (k+1) (addGroup (7*k) result byte) := by
  intro i hi
  have hmod : 7*k % 64 = 7*k := Nat.mod_eq_of_lt (by omega)
  rw [addGroup,hbyte,hmod,BitVec.getLsbD_or,hlow i hi,BitVec.getLsbD_shiftLeft,decide_eq_true hi,Bool.true_and,
    BitVec.getLsbD_setWidth,getLsbD_lowByte]
  by_cases h1 : i < 7*k
  · have h2 : i < 7*(k+1) := by omega
    simp [h1,h2]
  · by_cases h2 : i < 7*(k+1)
    · have hj : i-7*k < 7 := by omega
      have h64 : i-7*k < 64 := by omega
      have hplace : 7*k+(i-7*k) = i := by omega
      rw [hw (i-7*k) hj (by omega),hplace]
      simp [h1,h2,hj,h64]
    · have hj : ¬i-7*k < 7 := by omega
      simp [h1,h2,hj]

theorem Low.eq_of_clear {v result : BitVec 64} {k : ℕ} (hlow : Low v k result)
    (hclear : ∀ i < 64, 7*k ≤ i → v.getLsbD i = false) : result = v := by
  apply BitVec.eq_of_getLsbD_eq
  intro i hi
  rw [hlow i hi]
  by_cases h1 : i < 7*k
  · simp [h1]
  · rw [hclear i hi (by omega),Bool.and_false]

theorem Low.eq_of_set {v result : BitVec 64} {k : ℕ} (hlow : Low v k result) (hk : 7*k < 64)
    (hset : ∀ i < 64, 7*k ≤ i → v.getLsbD i = true) : result ||| -(1#64 <<< (7*k)) = v := by
  have hall : ∀ shift : ℕ, shift < 64 → -(1#64 <<< shift) = BitVec.allOnes 64 <<< shift := by
    decide +kernel
  apply BitVec.eq_of_getLsbD_eq
  intro i hi
  rw [hall (7*k) hk,BitVec.getLsbD_or,hlow i hi,BitVec.getLsbD_shiftLeft,BitVec.getLsbD_allOnes]
  by_cases h1 : i < 7*k
  · simp [h1]
  · have h64 : i-7*k < 64 := by omega
    rw [hset i hi (by omega)]
    simp [h1,hi,h64]

section Written
variable (v : BitVec 64)

theorem getLsbD_shifted (k : ℕ) : ∀ j < 7, 7*k+j < 64 → (v >>> (7*k)).getLsbD j = v.getLsbD (7*k+j) := by
  intro j hj hbit
  rw [BitVec.getLsbD_ushiftRight]

theorem getLsbD_sshifted (k : ℕ) : ∀ j < 7, 7*k+j < 64 → (v.sshiftRight (7*k)).getLsbD j = v.getLsbD (7*k+j) := by
  intro j hj hbit
  have h64 : ¬64 ≤ j := by omega
  rw [BitVec.getLsbD_sshiftRight,if_pos hbit,decide_eq_false h64,Bool.not_false,Bool.true_and]

/-- What `ehf_uleb128` appends from the `k`-th group on is read back above the groups before. -/
theorem ulebLoop_read {n k : ℕ} (hn : n+1+k = 10) (s : Ehf) {result : BitVec 64} (hlow : Low v k result) :
    ∃ bs, (ulebLoop (n+1) (v >>> (7*k)) s).buf = s.buf ++ bs ∧
      ∀ t, (ulebScan (7*k) result (bs ++ t)).value = v ∧ (ulebScan (7*k) result (bs ++ t)).rest = t := by
  induction n generalizing k s result with
  | zero =>
    obtain rfl : k = 9 := by omega
    obtain ⟨hstop,-,-,hgroup⟩ := lowByte_high (v >>> (7*9))
    have hzero : v >>> (7*9) >>> 7 = 0 := by
      rw [← BitVec.shiftRight_add]
      exact BitVec.ushiftRight_eq_zero (by decide)
    refine ⟨[lowByte (v >>> (7*9))],?_,?_⟩
    · simp only [ulebLoop,hzero,ne_eq,not_true_eq_false,↓reduceIte]
      rfl
    · intro t
      rw [List.singleton_append,ulebScan,if_pos hstop]
      exact ⟨(hlow.next (by decide) (getLsbD_shifted v 9) hgroup).eq_of_clear (by omega),rfl⟩
  | succ n ih =>
    obtain ⟨hstop,hmore,hcontinued,hgroup⟩ := lowByte_high (v >>> (7*k))
    have hshift : v >>> (7*k) >>> 7 = v >>> (7*(k+1)) := by
      rw [← BitVec.shiftRight_add]
      rfl
    by_cases hrest : v >>> (7*(k+1)) = 0
    · refine ⟨[lowByte (v >>> (7*k))],?_,?_⟩
      · simp only [ulebLoop,hshift,hrest,ne_eq,not_true_eq_false,↓reduceIte]
        rfl
      · intro t
        rw [List.singleton_append,ulebScan,if_pos hstop]
        refine ⟨(hlow.next (by omega) (getLsbD_shifted v k) hgroup).eq_of_clear ?_,rfl⟩
        intro i hi hle
        have hbit := congrArg (fun w => w.getLsbD (i-7*(k+1))) hrest
        simp only [BitVec.getLsbD_ushiftRight,Nat.add_sub_cancel' hle] at hbit
        rw [hbit]
        exact BitVec.getLsbD_zero
    · have hnext := hlow.next (by omega) (getLsbD_shifted v k) hcontinued
      obtain ⟨bs,hbuf,hread⟩ := ih (by omega) (ehfU8 (lowByte (v >>> (7*k)) ||| 0x80) s) hnext
      refine ⟨(lowByte (v >>> (7*k)) ||| 0x80) :: bs,?_,?_⟩
      · rw [ulebLoop]
        simp only [hshift,ne_eq,hrest,not_false_eq_true,↓reduceIte]
        refine hbuf.trans ?_
        exact List.append_assoc s.buf [_] bs
      · intro t
        rw [List.cons_append,ulebScan,if_neg hmore]
        exact hread t

theorem sshiftRight_seven (k : ℕ) : (v.sshiftRight (7*k)).sshiftRight 7 = v.sshiftRight (7*(k+1)) :=
  (BitVec.sshiftRight_add (x := v)).symm

theorem sign_clear (byte : Byte) : byte &&& 0x40 = 0 ↔ byte.getLsbD 6 = false := by
  revert byte
  decide

/-- The writer's test: nothing but the sign is left, and the byte has the sign. -/
def Done (rest : BitVec 64) (byte : Byte) : Prop :=
  (rest = 0 ∧ byte &&& 0x40 = 0) ∨ (rest = -1 ∧ byte &&& 0x40 ≠ 0)

instance (rest : BitVec 64) (byte : Byte) : Decidable (Done rest byte) :=
  inferInstanceAs (Decidable ((rest = 0 ∧ byte &&& 0x40 = 0) ∨ (rest = -1 ∧ byte &&& 0x40 ≠ 0)))

theorem slebLoop_succ (n : ℕ) (w : BitVec 64) (s : Ehf) : slebLoop (n+1) w s =
    if Done (w.sshiftRight 7) (lowByte w) then ehfU8 (lowByte w) s
    else slebLoop n (w.sshiftRight 7) (ehfU8 (lowByte w ||| 0x80) s) := rfl

theorem done_tenth : Done (v.sshiftRight (7*(9+1))) (lowByte (v.sshiftRight (7*9))) := by
  have hbit : (lowByte (v.sshiftRight (7*9))).getLsbD 6 = v.msb := by
    rw [getLsbD_lowByte,BitVec.getLsbD_sshiftRight]
    simp
  have hrest : ∀ i < 64, (v.sshiftRight (7*(9+1))).getLsbD i = v.msb := by
    intro i hi
    have h64 : ¬64 ≤ i := by omega
    have hbeyond : ¬7*(9+1)+i < 64 := by omega
    rw [BitVec.getLsbD_sshiftRight,if_neg hbeyond,decide_eq_false h64,Bool.not_false,Bool.true_and]
  rw [Done,Ne,sign_clear,hbit]
  cases hmsb : v.msb with
  | false =>
    refine Or.inl ⟨?_,rfl⟩
    apply BitVec.eq_of_getLsbD_eq
    intro i hi
    rw [hrest i hi,hmsb]
    exact BitVec.getLsbD_zero.symm
  | true =>
    refine Or.inr ⟨?_,by simp⟩
    apply BitVec.eq_of_getLsbD_eq
    intro i hi
    rw [hrest i hi,hmsb]
    exact (decide_eq_true hi).symm.trans BitVec.getLsbD_allOnes.symm

theorem extendSign_read {k : ℕ} {result : BitVec 64} {byte : Byte} (hlow : Low v k result)
    (hdone : Done (v.sshiftRight (7*k)) byte) (t : List Byte) :
    (extendSign (7*k) result byte t).value = v ∧ (extendSign (7*k) result byte t).rest = t := by
  have hbits : ∀ i < 64, 7*k ≤ i → v.getLsbD i = (v.sshiftRight (7*k)).getLsbD (i-7*k) := by
    intro i hi hle
    have h64 : ¬64 ≤ i-7*k := by omega
    rw [BitVec.getLsbD_sshiftRight,Nat.add_sub_cancel' hle,if_pos hi,decide_eq_false h64,Bool.not_false,Bool.true_and]
  obtain ⟨hrest,hbyte⟩ | ⟨hrest,hbyte⟩ := hdone
  · have hno : ¬(7*k < 64 ∧ byte &&& 0x40 ≠ 0) := fun h => h.2 hbyte
    rw [extendSign,if_neg hno]
    refine ⟨hlow.eq_of_clear ?_,rfl⟩
    intro i hi hle
    rw [hbits i hi hle,hrest]
    exact BitVec.getLsbD_zero
  · by_cases hk : 7*k < 64
    · rw [extendSign,if_pos ⟨hk,hbyte⟩]
      refine ⟨hlow.eq_of_set hk ?_,rfl⟩
      intro i hi hle
      have h64 : i-7*k < 64 := by omega
      rw [hbits i hi hle,hrest]
      exact BitVec.getLsbD_allOnes.trans (decide_eq_true h64)
    · have hno : ¬(7*k < 64 ∧ byte &&& 0x40 ≠ 0) := fun h => hk h.1
      rw [extendSign,if_neg hno]
      exact ⟨hlow.eq_of_clear (by omega),rfl⟩

/-- What `ehf_sleb128` appends from the `k`-th group on is read back above the groups before. -/
theorem slebLoop_read {n k : ℕ} (hn : n+1+k = 10) (s : Ehf) {result : BitVec 64} (hlow : Low v k result) :
    ∃ bs, (slebLoop (n+1) (v.sshiftRight (7*k)) s).buf = s.buf ++ bs ∧ ∀ last t,
      (slebScan (7*k) result last (bs ++ t)).value = v ∧ (slebScan (7*k) result last (bs ++ t)).rest = t := by
  induction n generalizing k s result with
  | zero =>
    obtain rfl : k = 9 := by omega
    obtain ⟨hstop,-,-,hgroup⟩ := lowByte_high (v.sshiftRight (7*9))
    have hdone := done_tenth v
    have hnext := hlow.next (by decide) (getLsbD_sshifted v 9) hgroup
    refine ⟨[lowByte (v.sshiftRight (7*9))],?_,?_⟩
    · rw [slebLoop_succ,sshiftRight_seven,if_pos hdone]
      rfl
    · intro last t
      rw [List.singleton_append,slebScan,if_pos hstop]
      exact extendSign_read v hnext hdone t
  | succ n ih =>
    obtain ⟨hstop,hmore,hcontinued,hgroup⟩ := lowByte_high (v.sshiftRight (7*k))
    by_cases hdone : Done (v.sshiftRight (7*(k+1))) (lowByte (v.sshiftRight (7*k)))
    · have hnext := hlow.next (by omega) (getLsbD_sshifted v k) hgroup
      refine ⟨[lowByte (v.sshiftRight (7*k))],?_,?_⟩
      · rw [slebLoop_succ,sshiftRight_seven,if_pos hdone]
        rfl
      · intro last t
        rw [List.singleton_append,slebScan,if_pos hstop]
        exact extendSign_read v hnext hdone t
    · have hnext := hlow.next (by omega) (getLsbD_sshifted v k) hcontinued
      obtain ⟨bs,hbuf,hread⟩ := ih (by omega) (ehfU8 (lowByte (v.sshiftRight (7*k)) ||| 0x80) s) hnext
      refine ⟨(lowByte (v.sshiftRight (7*k)) ||| 0x80) :: bs,?_,?_⟩
      · rw [slebLoop_succ,sshiftRight_seven,if_neg hdone]
        refine hbuf.trans ?_
        exact List.append_assoc s.buf [_] bs
      · intro last t
        rw [List.cons_append,slebScan,if_neg hmore]
        exact hread (lowByte (v.sshiftRight (7*k)) ||| 0x80) t

end Written

/-- The same value after the same number of bytes, and no shift out of the register. -/
def Agree (a b : Reading) : Prop :=
  a.value = b.value ∧ a.rest.length = b.rest.length ∧ ∀ shift ∈ a.shifts ++ b.shifts, shift < 64

def ReadersAgree (p : List Byte) : Prop :=
  Agree (readUleb128 p) (ehReadUleb128 p) ∧ ∀ byte, Agree (readSleb128 p) (ehReadSleb128 byte p)

/-- There is a number, and its tenth byte does not announce another one that is there. -/
def AtMostTen (p : List Byte) : Prop :=
  p ≠ [] ∧ (p.length ≤ 10 ∨ ∃ byte ∈ p.take 10, byte &&& 0x80 = 0)

theorem ulebScan_shifts {n shift : ℕ} (hn : shift+7*n = 70) (result : BitVec 64) (p : List Byte) :
    (∀ s ∈ (ulebScan shift result p).shifts, s < 64) ↔ p.length ≤ n ∨ ∃ byte ∈ p.take n, byte &&& 0x80 = 0 := by
  induction p generalizing n shift result with
  | nil => simp [ulebScan]
  | cons byte p ih =>
    unfold ulebScan
    cases n with
    | zero =>
      have hout : ¬shift < 64 := by omega
      split <;> simp [Reading.after,hout]
    | succ n =>
      have hin : shift < 64 := by omega
      split
      next hstop =>
        refine iff_of_true (by simp [hin]) (Or.inr ⟨byte,?_,hstop⟩)
        rw [List.take_succ_cons]
        exact List.mem_cons_self
      next hmore =>
        have hnext := ih (show shift+7+7*n = 70 by omega) (addGroup shift result byte)
        simp only [Reading.after,List.mem_cons,forall_eq_or_imp,hin,true_and,hnext,List.length_cons,
          List.take_succ_cons,Nat.add_le_add_iff_right,exists_eq_or_imp,hmore,false_or]

theorem extendSign_shifts (shift : ℕ) (result : BitVec 64) (byte : Byte) (p : List Byte) :
    ∀ s ∈ (extendSign shift result byte p).shifts, s < 64 := by
  unfold extendSign
  split
  next h => simp [h.1]
  next => simp

theorem slebScan_shifts (shift : ℕ) (result : BitVec 64) (last : Byte) (p : List Byte) :
    (∀ s ∈ (slebScan shift result last p).shifts, s < 64) ↔ ∀ s ∈ (ulebScan shift result p).shifts, s < 64 := by
  induction p generalizing shift result last with
  | nil =>
    refine iff_of_true (extendSign_shifts shift result last []) ?_
    intro s hs
    exact absurd hs List.not_mem_nil
  | cons byte p ih =>
    unfold slebScan ulebScan
    split
    next =>
      have hsign := extendSign_shifts (shift+7) (addGroup shift result byte) byte p
      simp only [Reading.after,List.mem_cons,forall_eq_or_imp,List.not_mem_nil,false_imp_iff,implies_true,and_true]
      exact and_iff_left hsign
    next =>
      simp only [Reading.after,List.mem_cons,forall_eq_or_imp]
      exact and_congr_right fun _ => ih (shift+7) (addGroup shift result byte) byte

theorem agree_self (r : Reading) : Agree r r ↔ ∀ s ∈ r.shifts, s < 64 := by
  simp [Agree]

theorem readersAgree_iff (p : List Byte) : ReadersAgree p ↔ AtMostTen p := by
  have hshifts := ulebScan_shifts (n := 10) (show 0+7*10 = 70 by decide) 0#64 p
  cases p with
  | nil =>
    -- the byte of the unwind parser's reader is left as it was
    refine iff_of_false (fun h => ?_) (fun h => h.1 rfl)
    exact absurd (h.2 0x40).1 (by decide)
  | cons byte p =>
    have hsame : ∀ junk, ehReadSleb128 junk (byte :: p) = readSleb128 (byte :: p) := fun junk => rfl
    have hsigned := slebScan_shifts 0 0#64 0 (byte :: p)
    rw [ReadersAgree,AtMostTen,← hshifts]
    constructor
    · rintro ⟨hunsigned,-⟩
      exact ⟨List.cons_ne_nil byte p,(agree_self _).mp hunsigned⟩
    · rintro ⟨-,hbounded⟩
      refine ⟨(agree_self _).mpr hbounded,?_⟩
      intro junk
      rw [hsame]
      exact (agree_self _).mpr (hsigned.mpr hbounded)

/-- What is written is read back by all four, whatever follows. On other bytes the two readers of a kind
agree, with all shifts inside the register, just when there are bytes and the number ends in time. -/
theorem leb128_read_back_and_agree_iff (u v : BitVec 64) (s : Ehf) (p : List Byte) :
    (∃ bs, (ehfUleb128 u s).buf = s.buf ++ bs ∧ ∀ t,
      ((readUleb128 (bs ++ t)).value = u ∧ (readUleb128 (bs ++ t)).rest = t) ∧
      ((ehReadUleb128 (bs ++ t)).value = u ∧ (ehReadUleb128 (bs ++ t)).rest = t)) ∧
    (∃ bs, (ehfSleb128 v s).buf = s.buf ++ bs ∧ ∀ t,
      ((readSleb128 (bs ++ t)).value = v ∧ (readSleb128 (bs ++ t)).rest = t) ∧
      ∀ byte, (ehReadSleb128 byte (bs ++ t)).value = v ∧ (ehReadSleb128 byte (bs ++ t)).rest = t) ∧
    (ReadersAgree p ↔ AtMostTen p) := by
  refine ⟨?_,?_,readersAgree_iff p⟩
  · obtain ⟨bs,hbuf,hread⟩ := ulebLoop_read u (n := 9) (k := 0) rfl s (low_zero u)
    have hu : u >>> (7*0) = u := BitVec.ushiftRight_zero u
    rw [hu] at hbuf
    exact ⟨bs,hbuf,fun t => ⟨hread t,hread t⟩⟩
  · have hv : v.sshiftRight (7*0) = v := BitVec.sshiftRight_zero
    obtain ⟨bs,hbuf,hread⟩ := slebLoop_read v (n := 9) (k := 0) rfl s (low_zero v)
    rw [hv] at hbuf
    exact ⟨bs,hbuf,fun t => ⟨hread 0 t,fun byte => hread byte t⟩⟩

/-- Eleven bytes that go on: both readers of a kind shift by 70. -/
theorem eleven_bytes_shift_beyond : ¬ReadersAgree (List.replicate 11 0x80) ∧ ¬ReadersAgree [] := by
  constructor
  · intro h
    exact absurd (h.1.2.2 70 (by decide)) (by decide)
  · intro h
    exact absurd (h.2 0x40).1 (by decide)

end Machismo.EhFrame.Leb
