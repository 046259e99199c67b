import Machismo.A64.Memory
import Mathlib.Algebra.Group.Nat.Defs

/-! # Strings of bytes

Little-endian numbers in lists of bytes, and contents that are addressed by their distance from a
start: reading a string of bytes out of such contents, and writing one over them.
-/
namespace Machismo.Data
open A64 (Byte)

def leNat : List Byte → ℕ
  | [] => 0
  | b :: bs => b.toNat + 256 * leNat bs

def leBytes : ℕ → ℕ → List Byte
  | 0, _ => []
  | n + 1, v => BitVec.ofNat 8 v :: leBytes n (v / 256)

@[simp] theorem length_leBytes (n v : ℕ) : (leBytes n v).length = n := by
  induction n generalizing v with
  | zero => rfl
  | succ n ih => simp [leBytes, ih]

theorem leNat_append (as bs : List Byte) : leNat (as ++ bs) = leNat as + 256^as.length * leNat bs := by
  induction as with
  | nil => simp [leNat]
  | cons a as ih =>
    rw [List.cons_append, leNat, leNat, ih, List.length_cons]
    ring

theorem leNat_lt (bs : List Byte) : leNat bs < 256^bs.length := by
  induction bs with
  | nil => simp [leNat]
  | cons b bs ih =>
    have hb := b.isLt
    rw [leNat, List.length_cons, pow_succ']
    omega

theorem leNat_leBytes (n v : ℕ) : leNat (leBytes n v) = v % 256^n := by
  induction n generalizing v with
  | zero => simp [leNat, leBytes, Nat.mod_one]
  | succ n ih =>
    have h8 : (BitVec.ofNat 8 v).toNat = v % 256 := BitVec.toNat_ofNat v 8
    rw [leBytes, leNat, ih, h8, pow_succ', Nat.mod_mul]

theorem leBytes_mod (n v : ℕ) : leBytes n (v % 256^n) = leBytes n v := by
  induction n generalizing v with
  | zero => rfl
  | succ n ih =>
    have hlow : BitVec.ofNat 8 (v % 256^(n+1)) = BitVec.ofNat 8 v := by
      apply BitVec.eq_of_toNat_eq
      rw [BitVec.toNat_ofNat, BitVec.toNat_ofNat, pow_succ, Nat.mod_mul_left_mod]
    rw [leBytes, leBytes, hlow, pow_succ', Nat.mod_mul_right_div_self, ih]

abbrev Content := ℕ → Byte

def bytesFrom (c : Content) (off n : ℕ) : List Byte := (List.range n).map fun i => c (off + i)

@[simp] theorem length_bytesFrom (c : Content) (off n : ℕ) : (bytesFrom c off n).length = n := by simp [bytesFrom]

theorem bytesFrom_congr {c c' : Content} {off n : ℕ} (h : ∀ x, off ≤ x → x < off + n → c x = c' x) :
    bytesFrom c off n = bytesFrom c' off n := by
  apply List.map_congr_left
  intro i hi
  exact h _ (by omega) (by have := List.mem_range.mp hi; omega)

theorem bytesFrom_add (c : Content) (off n k : ℕ) :
    bytesFrom c off (n + k) = bytesFrom c off n ++ bytesFrom c (off + n) k := by
  simp [bytesFrom, List.range_add, Nat.add_assoc]

/-- A string of bytes written over the contents from `off` on. -/
def put (c : Content) (off : ℕ) (bs : List Byte) : Content := fun x =>
  if off ≤ x then bs[x - off]?.getD (c x) else c x

theorem put_outside (c : Content) {off x : ℕ} {bs : List Byte} (h : x < off ∨ off + bs.length ≤ x) :
    put c off bs x = c x := by
  unfold put
  split
  · rw [List.getElem?_eq_none (by omega)]
    rfl
  · rfl

theorem put_inside (c : Content) (off : ℕ) {bs : List Byte} {i : ℕ} (h : i < bs.length) :
    put c off bs (off + i) = bs[i] := by
  simp [put, h]

theorem bytesFrom_put_outside (c : Content) {off a n : ℕ} {bs : List Byte} (h : a + n ≤ off ∨ off + bs.length ≤ a) :
    bytesFrom (put c off bs) a n = bytesFrom c a n :=
  bytesFrom_congr fun _ _ _ => put_outside c (by omega)

theorem bytesFrom_put_inside (c : Content) (off : ℕ) {bs : List Byte} {j n : ℕ} (h : j + n ≤ bs.length) :
    bytesFrom (put c off bs) (off + j) n = (bs.drop j).take n := by
  apply List.ext_getElem
  · simp
    omega
  · intro i hi _
    rw [length_bytesFrom] at hi
    simp only [bytesFrom, List.getElem_map, List.getElem_range, Nat.add_assoc, List.getElem_take, List.getElem_drop]
    exact put_inside c off (by omega)

theorem put_put (c : Content) (off : ℕ) (as bs : List Byte) :
    put (put c off bs) off as = put c off (as ++ bs.drop as.length) := by
  funext x
  by_cases hx : off ≤ x
  · obtain ⟨i,rfl⟩ := Nat.exists_eq_add_of_le hx
    by_cases hi : i < as.length
    · simp [put, hi, List.getElem?_append]
    · have hle : as.length ≤ i := by omega
      simp [put, List.getElem?_append_right hle, hle]
  · simp [put, hx]

end Machismo.Data
