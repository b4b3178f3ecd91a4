import FilesKernel.Slab.General
import Mathlib.Order.Interval.Set.Disjoint

/-! `mem_realloc`.

    The old capacity is read from the descriptor of the page. When it does not do, the bytes are copied
    to a new block before the old one is released; the copy is of the old capacity, which is less than
    that of the new block. -/

namespace FilesKernel.Slab
open CExec CWord LinkedList Buddy

variable {pages : Set ℕ} {s : SlabState} {v : View} {k k' : ℕ × Origin} {size : ℕ}

/-! ### `memcpy` -/

/-- A forward copy between two ranges that do not wrap around and have nothing in common. -/
theorem memcpy_spec : ∀ {bytes : Bytes} {dst src n : ℕ}, dst + n < 2 ^ 64 → src + n < 2 ^ 64 →
    dst + n ≤ src ∨ src + n ≤ dst → ∀ a, memcpy bytes dst src n a =
      if dst ≤ a ∧ a < dst + n then bytes (src + (a - dst)) else bytes a
  | bytes, dst, src, 0, _, _, _, a => by
      rw [memcpy, if_neg (by omega)]
  | bytes, dst, src, n + 1, hd, hs, hdis, a => by
      have hd' : dst + 1 + n < 2 ^ 64 := by omega
      have hs' : src + 1 + n < 2 ^ 64 := by omega
      rw [memcpy, wrap_of_lt (by omega), wrap_of_lt (by omega), memcpy_spec hd' hs' (by omega) a]
      by_cases ha : a = dst
      · rw [if_neg (by omega), if_pos (by omega), ha, Function.update_self, Nat.sub_self, Nat.add_zero]
      · rw [Function.update_of_ne ha]
        by_cases hin : dst + 1 ≤ a ∧ a < dst + 1 + n
        · have hne : src + 1 + (a - (dst + 1)) ≠ dst := by omega
          have he : src + 1 + (a - (dst + 1)) = src + (a - dst) := by omega
          rw [if_pos hin, if_pos (by omega), Function.update_of_ne hne, he]
        · rw [if_neg hin, if_neg (by omega)]

/-- The bytes of `k` are at `ptr`, and outside the new block all bytes are as before. -/
structure Copies (bytes bytes' : Bytes) (ptr src n : ℕ) : Prop where
  copied : ∀ i < n, bytes' (ptr + i) = bytes (src + i)
  kept : ∀ a, a < ptr ∨ ptr + n ≤ a → bytes' a = bytes a

theorem memcpy_copies {bytes : Bytes} {dst src n : ℕ} (hd : dst + n < 2 ^ 64) (hs : src + n < 2 ^ 64)
    (hdis : dst + n ≤ src ∨ src + n ≤ dst) : Copies bytes (memcpy bytes dst src n) dst src n := by
  refine ⟨fun i hi => ?_, fun a ha => ?_⟩
  · rw [memcpy_spec hd hs hdis, if_pos (by omega), Nat.add_sub_cancel_left]
  · rw [memcpy_spec hd hs hdis, if_neg (by omega)]

/-! ### The call -/

/-- What a call of `mem_realloc` for `k` does: nothing where the block is large enough, and nothing
    where there is no memory; else the block moves. -/
inductive Reallocs (pages : Set ℕ) (s : SlabState) (v : View) (bytes : Bytes) (k : ℕ × Origin)
    (size : ℕ) : SlabState × Bytes × ℕ → View → Prop
  | same (hsize : size ≤ capacity s.caches k.2) : Reallocs pages s v bytes k size (s, bytes, k.1) v
  | none (hsize : capacity s.caches k.2 < size) (halloc : memAlloc s size = .ok (s, 0)) :
    Reallocs pages s v bytes k size (s, bytes, 0) v
  | moved {s₁ s₂ : SlabState} {v₁ v₂ : View} {bytes' : Bytes} {ptr : ℕ}
    (hsize : capacity s.caches k.2 < size) (halloc : memAlloc s size = .ok (s₁, ptr))
    (hobtains : Obtains pages s v s₁ v₁ (ptr, originOf size))
    (hfits : size ≤ capacity s.caches (originOf size))
    (hcopies : Copies bytes bytes' ptr k.1 (capacity s.caches k.2))
    (hfree : memFree s₁ k.1 = .ok s₂) (hreleases : Releases pages s₁ v₁ s₂ v₂ k) :
    Reallocs pages s v bytes k size (s₂, bytes', ptr) v₂

theorem memRealloc_spec (h : Inv pages s v) (hst : Stocked s v) (hk : k ∈ owned s v) (bytes : Bytes)
    (size : ℕ) : ∃ r v', memRealloc s bytes k.1 size = .ok r ∧ Reallocs pages s v bytes k size r v' := by
  have hm := h.mem
  obtain ⟨hle, hlt⟩ := hm.owned_lt hk
  have hpos : k.1 ≠ 0 := by
    rw [higherBase] at hle
    omega
  rw [memRealloc, if_neg hpos, oldSize_spec hm hk, ok_bind]
  by_cases hsize : size ≤ capacity s.caches k.2
  · exact ⟨_, v, if_pos hsize, .same hsize⟩
  have hmore := Nat.lt_of_not_le hsize
  rw [if_neg hsize]
  rcases memAlloc_spec h hst size with e | ⟨s₁, v₁, ptr, e, hob, hfits⟩
  · refine ⟨_, v, ?_, .none hmore e⟩
    rw [e, ok_bind]
    exact if_pos rfl
  · have hk₁ : k ∈ owned s₁ v₁ := hob.owned ▸ Or.inr hk
    have hnew : (ptr, originOf size) ∈ owned s₁ v₁ := hob.owned ▸ Or.inl rfl
    have hne : (ptr, originOf size) ≠ k := fun he => hob.fresh (he ▸ hk)
    obtain ⟨hle₁, hlt₁⟩ := hob.inv.mem.owned_lt hnew
    have hptr : ptr ≠ 0 := by
      dsimp only at hle₁
      rw [higherBase] at hle₁
      omega
    have hdis := hob.inv.mem.owned_apart hnew hk₁ hne
    rw [rangeOf, rangeOf, hob.caches, Set.Ico_disjoint_Ico] at hdis
    rw [hob.caches] at hlt₁
    dsimp only at hdis hlt₁
    have hcopies : Copies bytes (memcpy bytes ptr k.1 (capacity s.caches k.2)) ptr k.1
        (capacity s.caches k.2) := memcpy_copies (by omega) hlt (by omega)
    obtain ⟨s₂, v₂, e₂, hrel⟩ := memFree_spec hob.inv hk₁
    refine ⟨_, v₂, ?_, .moved hmore e hob hfits hcopies e₂ hrel⟩
    rw [e, ok_bind]
    dsimp only
    rw [if_neg hptr, e₂, ok_bind]

end FilesKernel.Slab
