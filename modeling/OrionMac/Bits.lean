import Mathlib.Data.Nat.Defs
import Mathlib.Tactic.Ring

/-!
# Masks, shifts and ors as arithmetic

The limb code of Poly1305 masks with `2 ^ n - 1`, ors together parts that occupy disjoint
bits, and masks a whole 128-bit number limb by limb. These lemmas turn each into `%`, `/`
and `+`, where `omega` and `ring` take over.
-/

namespace OrionMac

theorem land_3ffffff (x : Nat) : x &&& 0x3ffffff = x % 2 ^ 26 :=
  Nat.and_pow_two_sub_one_eq_mod x 26

theorem land_ffffffff (x : Nat) : x &&& 0xffffffff = x % 2 ^ 32 :=
  Nat.and_pow_two_sub_one_eq_mod x 32

theorem lor_two_pow_mul {a k : Nat} (b : Nat) (h : a < 2 ^ k) : a ||| 2 ^ k * b = a + 2 ^ k * b := by
  rw [Nat.or_comm, ← Nat.mul_add_lt_is_or h, Nat.add_comm]

theorem mod_two_pow_land {m n : Nat} (y : Nat) (hm : m < 2 ^ n) : y % 2 ^ n &&& m = y &&& m := by
  apply Nat.eq_of_testBit_eq
  intro i
  simp only [Nat.testBit_and, Nat.testBit_mod_two_pow]
  by_cases hi : i < n
  · simp [hi]
  · have : m.testBit i = false :=
      Nat.testBit_lt_two_pow (hm.trans_le (Nat.pow_le_pow_right (by norm_num) (by omega)))
    simp [this]

theorem land_split {m k : Nat} (x M : Nat) (hm : m < 2 ^ k) :
    x &&& (m + 2 ^ k * M) = (x % 2 ^ k &&& m) + 2 ^ k * (x >>> k &&& M) := by
  have hlow : x % 2 ^ k &&& m < 2 ^ k := Nat.and_lt_two_pow _ hm
  apply Nat.eq_of_testBit_eq
  intro j
  rw [Nat.add_comm, Nat.testBit_and, Nat.testBit_mul_pow_two_add _ hm,
    Nat.add_comm, Nat.testBit_mul_pow_two_add _ hlow]
  by_cases hj : j < k
  · simp [hj]
  · simp only [hj, if_false, Nat.testBit_and, Nat.testBit_shiftRight]
    rw [Nat.add_sub_cancel' (by omega)]

end OrionMac
