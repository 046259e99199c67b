import Mathlib.Data.BitVec
import Mathlib.Tactic.Ring

/-! # Byte-addressed little-endian memory

Memory is a total function from 64-bit addresses to bytes. An access of `n` bytes at `a`
touches the bytes `a`, `a+1`, ..., `a+n-1`, with the address arithmetic of the machine: the
span may wrap around address zero. Loads and stores are polymorphic in the byte count, so that
one pair of lemmas serves bytes, halfwords, words, doublewords and quadwords.
-/
namespace Machismo.A64

abbrev Addr := BitVec 64
abbrev Byte := BitVec 8
abbrev Memory := Addr → Byte

def loadNat (m : Memory) (a : Addr) : ℕ → ℕ
  | 0 => 0
  | n + 1 => 2^8 * loadNat m (a + 1) n + (m a).toNat

/-- The little-endian value of the `n` bytes at `a`. -/
def load (m : Memory) (a : Addr) (n : ℕ) : BitVec (8*n) := BitVec.ofNat (8*n) (loadNat m a n)

/-- Byte `k` of the stored value goes to address `a + k`; every other byte is kept. -/
def store (m : Memory) (a : Addr) (n : ℕ) (v : BitVec (8*n)) : Memory := fun b =>
  if (b - a).toNat < n then v.extractLsb' (8*(b - a).toNat) 8 else m b

/-- The spans `[a, a+n)` and `[b, b+k)` share no byte. -/
def Apart (a : Addr) (n : ℕ) (b : Addr) (k : ℕ) : Prop :=
  n ≤ (b - a).toNat ∧ k ≤ (a - b).toNat

instance (a : Addr) (n : ℕ) (b : Addr) (k : ℕ) : Decidable (Apart a n b k) :=
  inferInstanceAs (Decidable (_ ∧ _))

theorem Apart.symm {a b : Addr} {n k : ℕ} (h : Apart a n b k) : Apart b k a n := ⟨h.2,h.1⟩

theorem testBit_loadNat (m : Memory) (a : Addr) (n i : ℕ) :
    (loadNat m a n).testBit i =
      (decide (i < 8*n) && (m (a + BitVec.ofNat 64 (i/8))).getLsbD (i%8)) := by
  induction n generalizing a i with
  | zero => simp [loadNat]
  | succ n ih =>
    rw [loadNat, Nat.testBit_two_pow_mul_add _ (m a).isLt]
    by_cases hi : i < 8
    · have h0 : i/8 = 0 := by omega
      have h1 : i%8 = i := by omega
      have h2 : i < 8*(n+1) := by omega
      simp [hi, h0, h1, h2, BitVec.getLsbD]
    · have h0 : i/8 = (i-8)/8 + 1 := by omega
      have h1 : i%8 = (i-8)%8 := by omega
      have h2 : (i < 8*(n+1)) ↔ (i-8 < 8*n) := by omega
      have h3 : a + 1 + BitVec.ofNat 64 ((i-8)/8) = a + BitVec.ofNat 64 (i/8) := by
        rw [h0, BitVec.ofNat_add]
        simp only [BitVec.ofNat_eq_ofNat]
        ac_rfl
      rw [if_neg hi, ih, h3, h1]
      simp only [h2]

theorem getLsbD_load (m : Memory) (a : Addr) (n i : ℕ) :
    (load m a n).getLsbD i =
      (decide (i < 8*n) && (m (a + BitVec.ofNat 64 (i/8))).getLsbD (i%8)) := by
  rw [load, BitVec.getLsbD_ofNat, testBit_loadNat]
  by_cases h : i < 8*n <;> simp [h]

theorem load_congr {m m' : Memory} {a : Addr} {n : ℕ}
    (h : ∀ i < n, m' (a + BitVec.ofNat 64 i) = m (a + BitVec.ofNat 64 i)) :
    load m' a n = load m a n := by
  apply BitVec.eq_of_getLsbD_eq
  intro i hi
  rw [getLsbD_load, getLsbD_load, h (i/8) (by omega)]

theorem store_inside (m : Memory) (a : Addr) (n : ℕ) (v : BitVec (8*n)) {i : ℕ}
    (hn : n ≤ 2^64) (hi : i < n) :
    store m a n v (a + BitVec.ofNat 64 i) = v.extractLsb' (8*i) 8 := by
  have hk : (a + BitVec.ofNat 64 i - a).toNat = i := by
    rw [BitVec.add_comm, BitVec.add_sub_cancel, BitVec.toNat_ofNat, Nat.mod_eq_of_lt (by omega)]
  simp only [store, hk, hi, ↓reduceIte]

theorem store_outside (m : Memory) (a : Addr) (n : ℕ) (v : BitVec (8*n)) {b : Addr}
    (h : n ≤ (b - a).toNat) : store m a n v b = m b := if_neg (by omega)

@[simp] theorem load_store_same (m : Memory) (a : Addr) (n : ℕ) (v : BitVec (8*n))
    (hn : n ≤ 2^64) : load (store m a n v) a n = v := by
  apply BitVec.eq_of_getLsbD_eq
  intro i hi
  rw [getLsbD_load, store_inside m a n v hn (by omega), BitVec.getLsbD_extractLsb']
  have h8 : i % 8 < 8 := Nat.mod_lt _ (by omega)
  have he : 8*(i/8) + i%8 = i := by omega
  simp [hi, h8, he]

theorem store_load_same (m : Memory) (a : Addr) (n : ℕ) : store m a n (load m a n) = m := by
  funext b
  unfold store
  split
  next hlt =>
    have hb : a + BitVec.ofNat 64 (b - a).toNat = b := by
      rw [BitVec.ofNat_toNat, BitVec.setWidth_eq, BitVec.add_comm, BitVec.sub_add_cancel]
    apply BitVec.eq_of_getLsbD_eq
    intro i hi
    have h1 : (8*(b - a).toNat + i) / 8 = (b - a).toNat := by omega
    have h2 : (8*(b - a).toNat + i) % 8 = i := by omega
    have h3 : 8*(b - a).toNat + i < 8*n := by omega
    simp only [BitVec.getLsbD_extractLsb', getLsbD_load, hi, h1, h2, h3, hb, decide_true, Bool.true_and]
  next => rfl

theorem Apart.toNat_sub {a b : Addr} {n k : ℕ} (h : Apart a n b k) {i : ℕ} (hi : i < n) :
    k ≤ (a + BitVec.ofNat 64 i - b).toNat := by
  obtain ⟨h1,h2⟩ := h
  simp only [BitVec.toNat_sub, BitVec.toNat_add, BitVec.toNat_ofNat] at *
  omega

theorem load_store_apart (m : Memory) {a b : Addr} {n k : ℕ} (v : BitVec (8*k))
    (h : Apart a n b k) : load (store m b k v) a n = load m a n :=
  load_congr (fun _ hi => store_outside m b k v (h.toNat_sub hi))

end Machismo.A64
