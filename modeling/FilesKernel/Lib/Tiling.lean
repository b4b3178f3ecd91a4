import Mathlib.Data.List.Chain
import Mathlib.Data.List.Nodup
import Mathlib.Tactic.Common

/-! Tilings: a stretch of positions cut into consecutive tiles that are not empty.

    Each tile carries a kind, which says nothing about where it lies. -/

namespace Tiling

structure Tile (κ : Type) where
  start : ℕ
  len : ℕ
  kind : κ

variable {κ : Type} {a b m : ℕ} {A B l l' : List (Tile κ)} {x y : Tile κ}

def Tile.stop (x : Tile κ) : ℕ := x.start + x.len

/-- The tiles of the list fill `[a, b)`. -/
def Tiles : ℕ → List (Tile κ) → ℕ → Prop
  | a, [], b => a = b
  | a, x :: l, b => x.start = a ∧ 0 < x.len ∧ Tiles x.stop l b

theorem tiles_append : ∀ {A : List (Tile κ)} {a : ℕ},
    Tiles a (A ++ B) b ↔ ∃ m, Tiles a A m ∧ Tiles m B b
  | [], a => by simp [Tiles]
  | x :: A, a => by
      simp only [List.cons_append, Tiles, tiles_append]
      constructor
      · rintro ⟨hx, hlen, m, hA, hB⟩
        exact ⟨m, ⟨hx, hlen, hA⟩, hB⟩
      · rintro ⟨m, ⟨hx, hlen, hA⟩, hB⟩
        exact ⟨hx, hlen, m, hA, hB⟩

theorem Tiles.le : ∀ {l : List (Tile κ)} {a : ℕ}, Tiles a l b → a ≤ b
  | [], a, h => Nat.le_of_eq h
  | x :: l, a, ⟨hx, _, hl⟩ => by
      have h := hl.le
      rw [Tile.stop] at h
      omega

/-- A tile lies inside. -/
theorem Tiles.mem : ∀ {l : List (Tile κ)} {a : ℕ}, Tiles a l b → ∀ x ∈ l,
    a ≤ x.start ∧ x.stop ≤ b ∧ 0 < x.len
  | y :: l, a, ⟨hy, hlen, hl⟩, x, hx => by
      rcases List.mem_cons.mp hx with rfl | hx
      · exact ⟨Nat.le_of_eq hy.symm, hl.le, hlen⟩
      · obtain ⟨h₁, h₂, h₃⟩ := hl.mem x hx
        rw [Tile.stop] at h₁
        exact ⟨by omega, h₂, h₃⟩

/-- Around a tile: what is before it ends where it starts, what is behind it starts where it
    stops. -/
theorem tiles_middle : Tiles a (A ++ x :: B) b ↔
    Tiles a A x.start ∧ 0 < x.len ∧ Tiles x.stop B b := by
  rw [tiles_append]
  constructor
  · rintro ⟨m, hA, rfl, hlen, hB⟩
    exact ⟨hA, hlen, hB⟩
  · rintro ⟨hA, hlen, hB⟩
    exact ⟨x.start, hA, rfl, hlen, hB⟩

theorem Tiles.before (h : Tiles a (A ++ x :: B) b) : ∀ y ∈ A, y.stop ≤ x.start := fun y hy =>
  ((tiles_middle.mp h).1.mem y hy).2.1

theorem Tiles.behind (h : Tiles a (A ++ x :: B) b) : ∀ y ∈ B, x.stop ≤ y.start := fun y hy =>
  ((tiles_middle.mp h).2.2.mem y hy).1

/-- Tiles are told apart by where they start. -/
theorem Tiles.eq_of_start (h : Tiles a l b) (hx : x ∈ l) (hy : y ∈ l) (e : x.start = y.start) :
    x = y := by
  obtain ⟨A, B, rfl⟩ := List.append_of_mem hx
  have hlen := (h.mem x hx).2.2
  have hylen := (h.mem y hy).2.2
  rcases List.mem_append.mp hy with hy | hy
  · have := h.before y hy
    rw [Tile.stop] at this
    omega
  · rcases List.mem_cons.mp hy with rfl | hy
    · rfl
    · have := h.behind y hy
      rw [Tile.stop] at this
      omega

/-- Different tiles have no position in common. -/
theorem Tiles.apart (h : Tiles a l b) (hx : x ∈ l) (hy : y ∈ l) (hne : x.start ≠ y.start) :
    x.stop ≤ y.start ∨ y.stop ≤ x.start := by
  obtain ⟨A, B, rfl⟩ := List.append_of_mem hx
  rcases List.mem_append.mp hy with hy | hy
  · exact Or.inr (h.before y hy)
  · rcases List.mem_cons.mp hy with rfl | hy
    · exact absurd rfl hne
    · exact Or.inl (h.behind y hy)

/-- The tiles of a stretch can be exchanged for others. -/
theorem Tiles.replace {X Y : List (Tile κ)} (h : Tiles a (A ++ (X ++ B)) b)
    (hXY : ∀ p q, Tiles p X q → Tiles p Y q) : Tiles a (A ++ (Y ++ B)) b := by
  rw [tiles_append] at h ⊢
  obtain ⟨p, hA, h⟩ := h
  rw [tiles_append] at h
  obtain ⟨q, hX, hB⟩ := h
  exact ⟨p, hA, tiles_append.mpr ⟨q, hXY p q hX, hB⟩⟩

end Tiling
