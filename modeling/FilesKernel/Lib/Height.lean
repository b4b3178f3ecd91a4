import FilesKernel.Lib.RedBlack
import Mathlib.Algebra.Group.Int.Defs
import Mathlib.Algebra.Group.Nat.Defs
import Mathlib.Algebra.GroupWithZero.Nat
import Mathlib.Data.Nat.Log

/-! The height of a red-black tree is logarithmic in the number of its nodes. -/

namespace RedBlack
namespace ColorTree
variable {α : Type}

/-- The number of nodes on the longest way down -/
def height : ColorTree α → ℕ
  | nil => 0
  | node _ l _ r => max l.height r.height + 1

theorem Balanced.two_pow_le : ∀ {t : ColorTree α} {n : ℕ}, t.Balanced n → 2 ^ n ≤ t.inorder.length + 1
  | nil, n, h => by
      obtain rfl : n = 0 := h
      exact Nat.le_refl _
  | node .red l a r, n, h => by
      have hl := h.1.two_pow_le
      rw [inorder_node, List.length_append, List.length_cons]
      omega
  | node .black l a r, n, h => by
      obtain ⟨m, rfl, hl, hr⟩ := h
      have hl' := hl.two_pow_le
      have hr' := hr.two_pow_le
      rw [inorder_node, List.length_append, List.length_cons, Nat.pow_succ]
      omega

/-- A red node comes on top of each black one at most. -/
theorem Balanced.height_le : ∀ {t : ColorTree α} {n : ℕ}, t.Balanced n →
    t.height ≤ 2 * n + 1 ∧ (t.color = .black → t.height ≤ 2 * n)
  | nil, _, _ => ⟨Nat.zero_le _, fun _ => Nat.zero_le _⟩
  | node .red l a r, n, h => by
      have hl := h.1.height_le.2 h.2.2.1
      have hr := h.2.1.height_le.2 h.2.2.2
      rw [height]
      exact ⟨by omega, by rintro ⟨⟩⟩
  | node .black l a r, n, h => by
      obtain ⟨m, rfl, hl, hr⟩ := h
      have hl' := hl.height_le.1
      have hr' := hr.height_le.1
      rw [height]
      exact ⟨by omega, fun _ => by omega⟩

/-- A red-black tree is flat. -/
theorem Valid.height_le {t : ColorTree α} (h : t.Valid) :
    t.height ≤ 2 * Nat.log 2 (t.inorder.length + 1) := by
  obtain ⟨hc, n, hb⟩ := h
  have hn : n ≤ Nat.log 2 (t.inorder.length + 1) :=
    Nat.le_log_of_pow_le Nat.one_lt_two hb.two_pow_le
  exact (hb.height_le.2 hc).trans (Nat.mul_le_mul_left 2 hn)

end ColorTree
end RedBlack
