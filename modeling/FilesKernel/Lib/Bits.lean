import Mathlib.Algebra.Group.Int.Defs
import Mathlib.Algebra.Group.Nat.Defs
import Mathlib.Tactic.Common

/-! Single bits of machine words. -/

namespace CBits

variable {w : ℕ} {x m : BitVec w} {i j : ℕ}

theorem and_ne_zero_iff : x &&& m ≠ 0#w ↔ ∃ i, x.getLsbD i = true ∧ m.getLsbD i = true := by
  constructor
  · intro h
    by_contra hno
    refine h (BitVec.eq_of_getLsbD_eq fun i _ => ?_)
    rw [BitVec.getLsbD_and, BitVec.getLsbD_zero, Bool.eq_false_iff, ne_eq, Bool.and_eq_true]
    exact fun hi => hno ⟨i, hi⟩
  · rintro ⟨i, hx, hm⟩ h
    have hi : (x &&& m).getLsbD i = true := by rw [BitVec.getLsbD_and, hx, hm]; rfl
    rw [h, BitVec.getLsbD_zero] at hi
    cases hi

theorem getLsbD_one_shiftLeft (hi : i < w) (j : ℕ) : (1#w <<< i).getLsbD j = decide (j = i) := by
  rw [BitVec.getLsbD_shiftLeft, BitVec.getLsbD_one, Bool.eq_iff_iff]
  simp only [Bool.and_eq_true, decide_eq_true_eq, Bool.not_eq_true', decide_eq_false_iff_not]
  omega

/-- Testing a bit with a mask -/
theorem and_bit_iff (hi : i < w) : x &&& (1#w <<< i) ≠ 0#w ↔ x.getLsbD i = true := by
  rw [and_ne_zero_iff]
  simp only [getLsbD_one_shiftLeft hi, decide_eq_true_eq]
  exact ⟨fun ⟨j, hx, e⟩ => e ▸ hx, fun hx => ⟨i, hx, rfl⟩⟩

/-- Setting a bit with a mask -/
theorem getLsbD_or_bit (hi : i < w) (j : ℕ) :
    (x ||| (1#w <<< i)).getLsbD j = if j = i then true else x.getLsbD j := by
  rw [BitVec.getLsbD_or, getLsbD_one_shiftLeft hi]
  by_cases hj : j = i
  · rw [if_pos hj, decide_eq_true hj, Bool.or_true]
  · rw [if_neg hj, decide_eq_false hj, Bool.or_false]

/-- Clearing a bit with a mask -/
theorem getLsbD_and_not_bit (hi : i < w) (j : ℕ) :
    (x &&& ~~~(1#w <<< i)).getLsbD j = if j = i then false else x.getLsbD j := by
  rw [BitVec.getLsbD_and, BitVec.getLsbD_not, getLsbD_one_shiftLeft hi]
  by_cases hj : j = i
  · rw [if_pos hj, decide_eq_true hj, Bool.not_true, Bool.and_false, Bool.and_false]
  · rw [if_neg hj, decide_eq_false hj, Bool.not_false, Bool.and_true]
    by_cases hjw : j < w
    · rw [decide_eq_true hjw, Bool.and_true]
    · rw [BitVec.getLsbD_of_ge x j (Nat.le_of_not_lt hjw), Bool.false_and]

theorem ofNat_two_pow (i : ℕ) : BitVec.ofNat w (2 ^ i) = 1#w <<< i := by
  refine BitVec.eq_of_toNat_eq ?_
  rw [BitVec.toNat_ofNat, BitVec.toNat_shiftLeft, BitVec.toNat_ofNat, Nat.shiftLeft_eq]
  rw [Nat.mod_mul_mod, Nat.one_mul]

/-- Clearing the bits of a mask takes away the mask at most. -/
theorem sub_le_and_not {y m : ℕ} (hy : y < 2 ^ 64) (hm : m < 2 ^ 64) :
    y - m ≤ y &&& (2 ^ 64 - 1 - m) := by
  have hsplit : BitVec.ofNat 64 y = (BitVec.ofNat 64 y &&& BitVec.ofNat 64 m) +
      (BitVec.ofNat 64 y &&& ~~~BitVec.ofNat 64 m) := by
    rw [BitVec.add_eq_or_of_and_eq_zero]
    · ext i
      simp only [BitVec.getElem_or, BitVec.getElem_and, BitVec.getElem_not]
      cases (BitVec.ofNat 64 m)[i] <;> simp
    · ext i
      simp only [BitVec.getElem_and, BitVec.getElem_not, BitVec.getElem_zero]
      cases (BitVec.ofNat 64 m)[i] <;> simp
  have h := congrArg BitVec.toNat hsplit
  rw [BitVec.toNat_add, BitVec.toNat_and, BitVec.toNat_and, BitVec.toNat_not, BitVec.toNat_ofNat,
    BitVec.toNat_ofNat, Nat.mod_eq_of_lt hy, Nat.mod_eq_of_lt hm] at h
  have hle : y &&& m ≤ m := Nat.and_le_right
  have hmod := Nat.mod_le (y &&& m + (y &&& (2 ^ 64 - 1 - m))) (2 ^ 64)
  omega

end CBits
