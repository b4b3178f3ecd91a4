import Mathlib.Algebra.Group.Int.Defs
import Mathlib.Algebra.Group.Nat.Defs
import Mathlib.Tactic.Common

/-! Unsigned 64-bit arithmetic on natural numbers, and the conversions to and from signed numbers. -/

namespace CWord

/-- The value of a sum in a `uint64_t`. -/
@[irreducible] def wrap (x : ℕ) : ℕ := x % 2 ^ 64

/-- `a - b` in a `uint64_t`. -/
@[irreducible] def wsub (a b : ℕ) : ℕ := (a + (2 ^ 64 - b % 2 ^ 64)) % 2 ^ 64

theorem wrap_eq (x : ℕ) : wrap x = x % 2 ^ 64 := by unfold wrap; rfl

theorem wsub_eq (a b : ℕ) : wsub a b = (a + (2 ^ 64 - b % 2 ^ 64)) % 2 ^ 64 := by
  unfold wsub; rfl

theorem wrap_of_lt {x : ℕ} (h : x < 2 ^ 64) : wrap x = x := by
  rw [wrap_eq, Nat.mod_eq_of_lt h]

theorem wsub_of_le {a b : ℕ} (hb : b ≤ a) (ha : a < 2 ^ 64) :
    wsub a b = a - b := by
  rw [wsub_eq]; omega

theorem wsub_wrap_add {a b : ℕ} (hb : b < 2 ^ 64) : wsub (wrap (a + b)) a = b := by
  rw [wsub_eq, wrap_eq]
  omega

/-- The value of an integer in a `uint64_t`. -/
@[irreducible] def u64 (z : ℤ) : ℕ := (z % 2 ^ 64).toNat

theorem u64_eq (z : ℤ) : u64 z = (z % 2 ^ 64).toNat := by unfold u64; rfl

theorem u64_natCast {n : ℕ} (h : n < 2 ^ 64) : u64 n = n := by
  rw [u64_eq]; omega

/-- The value of a `size_t` or `ptrdiff_t` in an `int`. -/
@[irreducible] def toInt (n : ℕ) : ℤ := Int.bmod n (2 ^ 32)

theorem toInt_eq (n : ℕ) :
    toInt n = (n % 2 ^ 32 : ℕ) - if 2 ^ 31 ≤ n % 2 ^ 32 then 2 ^ 32 else 0 := by
  have hmod := Int.bmod_eq_emod n (2 ^ 32)
  unfold toInt
  rw [hmod]
  split <;> split <;> omega

theorem toInt_le (n : ℕ) : toInt n ≤ n := by
  rw [toInt_eq]
  split <;> omega

theorem toInt_of_lt {n : ℕ} (h : n < 2 ^ 31) : toInt n = n := by
  rw [toInt_eq, if_neg (by omega)]
  omega

/-- Of a large length much is lost. -/
theorem toInt_toNat_le {n : ℕ} (h : 2 ^ 31 ≤ n) : (toInt n).toNat + 2 ^ 31 ≤ n := by
  rw [toInt_eq]
  split <;> omega

/-- A length that is kept is small. -/
theorem lt_of_toInt {n : ℕ} (h : toInt n = n) : n < 2 ^ 31 := by
  rw [toInt_eq] at h
  split at h <;> omega

end CWord
