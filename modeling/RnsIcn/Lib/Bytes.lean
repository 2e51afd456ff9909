import Mathlib.Data.Nat.Basic
import Mathlib.Tactic.Positivity
import Mathlib.Tactic.Ring

/-! # Big-endian byte strings

Fixed-width big-endian encodings of natural numbers. Decoding inverts encoding
below the bound of the width, so the encoder is injective there.
-/

namespace ByteString

def ofNatBE : ℕ → ℕ → List UInt8
  | 0, _ => []
  | k + 1, n => UInt8.ofNat (n / 256 ^ k) :: ofNatBE k n

def toNatBE : List UInt8 → ℕ
  | [] => 0
  | b :: bs => b.toNat * 256 ^ bs.length + toNatBE bs

@[simp] theorem length_ofNatBE (k n : ℕ) : (ofNatBE k n).length = k := by
  induction k with
  | zero => rfl
  | succ k ih => simp [ofNatBE, ih]

theorem toNatBE_ofNatBE_mod (k n : ℕ) : toNatBE (ofNatBE k n) = n % 256 ^ k := by
  induction k with
  | zero => simp [ofNatBE, toNatBE, Nat.mod_one]
  | succ k ih =>
    have hd : (UInt8.ofNat (n / 256 ^ k)).toNat = n / 256 ^ k % 256 := by simp
    rw [ofNatBE, toNatBE, ih, length_ofNatBE, hd, pow_succ, Nat.mod_mul]
    ring

theorem toNatBE_ofNatBE {k n : ℕ} (h : n < 256 ^ k) : toNatBE (ofNatBE k n) = n := by
  rw [toNatBE_ofNatBE_mod, Nat.mod_eq_of_lt h]

theorem ofNatBE_inj {k m n : ℕ} (hm : m < 256 ^ k) (hn : n < 256 ^ k)
    (h : ofNatBE k m = ofNatBE k n) : m = n := by
  rw [← toNatBE_ofNatBE hm, h, toNatBE_ofNatBE hn]

theorem toNatBE_lt (b : List UInt8) : toNatBE b < 256 ^ b.length := by
  induction b with
  | nil => simp [toNatBE]
  | cons x b ih =>
    have hx : x.toNat ≤ 255 := Nat.le_of_lt_succ x.toNat_lt
    calc toNatBE (x :: b) = x.toNat * 256 ^ b.length + toNatBE b := rfl
      _ < 255 * 256 ^ b.length + 256 ^ b.length :=
        Nat.add_lt_add_of_le_of_lt (Nat.mul_le_mul_right _ hx) ih
      _ = 256 ^ (x :: b).length := by rw [List.length_cons]; ring

theorem ofNatBE_add_mul (k m n : ℕ) : ofNatBE k (m * 256 ^ k + n) = ofNatBE k n := by
  induction k generalizing m n with
  | zero => rfl
  | succ k ih =>
    have hp : m * 256 ^ (k + 1) + n = n + m * 256 * 256 ^ k := by ring
    have hd : (m * 256 ^ (k + 1) + n) / 256 ^ k = n / 256 ^ k + m * 256 := by
      rw [hp, Nat.add_mul_div_right _ _ (by positivity)]
    have hb : UInt8.ofNat (n / 256 ^ k + m * 256) = UInt8.ofNat (n / 256 ^ k) := by
      apply UInt8.toNat_inj.mp; simp
    rw [ofNatBE, ofNatBE, hd, hb, hp, Nat.add_comm n, ih]

theorem ofNatBE_toNatBE (b : List UInt8) : ofNatBE b.length (toNatBE b) = b := by
  induction b with
  | nil => rfl
  | cons x b ih =>
    have hd : (x.toNat * 256 ^ b.length + toNatBE b) / 256 ^ b.length = x.toNat := by
      rw [Nat.mul_comm, Nat.mul_add_div (by positivity), Nat.div_eq_of_lt (toNatBE_lt b),
        Nat.add_zero]
    rw [List.length_cons, ofNatBE, toNatBE, hd, ofNatBE_add_mul, ih, UInt8.ofNat_toNat]

end ByteString
