import FilesKernel.RbTree.Insert
import FilesKernel.RbTree.Erase

/-! The tree operations seen on the order of the nodes.

    Callers know a tree by the sequence of its nodes. At a node `a` between `A` and `B`, the
    neighbours are the last of `A` and the first of `B`, and erasing it leaves `A ++ B`. -/

namespace FilesKernel.RbTree
open CExec RedBlack
open RedBlack.ColorTree hiding node

variable {m₀ : Links} {s : RbState} {T : ColorTree ℕ} {A B : List ℕ} {a : ℕ}

/-- A node of the order is at the root of a focus that cuts the order at it. -/
theorem exists_focus_at (hn : T.inorder.Nodup) (h : T.inorder = A ++ a :: B) :
    ∃ k c l r, T = Ctx.fill k (.node c l a r) ∧ k.pre ++ l.inorder = A ∧
      r.inorder ++ k.post = B := by
  have hmem : a ∈ T.inorder := by rw [h]; simp
  obtain ⟨k, c, l, r, rfl⟩ := Ctx.exists_focus .left hmem
  have hcut : A ++ a :: B = (k.pre ++ l.inorder) ++ a :: (r.inorder ++ k.post) := by
    rw [← h, Ctx.inorder_fill]; simp [branch]
  rw [h, List.nodup_middle, List.nodup_cons, List.mem_append, not_or] at hn
  obtain ⟨hA, -, hB⟩ := (List.append_cons_inj_of_notMem hn.1.1 hn.1.2).mp hcut
  exact ⟨k, c, l, r, rfl, hA.symm, hB.symm⟩

theorem rbNext_at (hs : Repr m₀ s T) (h : T.inorder = A ++ a :: B) :
    rbNext s a = .ok (B.headD 0) := by
  obtain ⟨k, c, l, r, rfl, -, rfl⟩ := exists_focus_at hs.nodup h
  rw [rbNext_spec hs, List.headD_eq_head?_getD]

theorem rbPrev_at (hs : Repr m₀ s T) (h : T.inorder = A ++ a :: B) :
    rbPrev s a = .ok (A.getLastD 0) := by
  obtain ⟨k, c, l, r, rfl, rfl, -⟩ := exists_focus_at hs.nodup h
  rw [rbPrev_spec hs, List.getLastD_eq_getLast?]

/-- The walk through a tree begins at the first node. -/
theorem rbLeftmost_at (hs : Repr m₀ s T) : rbLeftmost s s.root = .ok (T.inorder.headD 0) := by
  rw [rbLeftmost, hs.root]
  by_cases hT : T = .nil
  · subst hT
    rfl
  · obtain ⟨k, c, a, u, rfl, hk, e⟩ := rbMost_spec (k := .top) .left hs hT
    have hhead : (Ctx.fill k (branch .left c a .nil u)).inorder.head? = some a := hk.head c a u
    rw [e, List.headD_eq_head?_getD, hhead]
    rfl

theorem rbErase_at (hs : Repr s.mem s T) (hv : T.Valid) (h : T.inorder = A ++ a :: B) :
    ∃ s' T', rbErase s a = .ok s' ∧ Repr s.mem s' T' ∧ T'.Valid ∧ T'.inorder = A ++ B := by
  obtain ⟨k, c, l, r, rfl, rfl, rfl⟩ := exists_focus_at hs.nodup h
  obtain ⟨s', T', e, h', hv', hin⟩ := rbErase_spec hs hv
  rw [Function.update_eq_self] at h'
  exact ⟨s', T', e, h', hv', by rw [hin]; simp⟩

end FilesKernel.RbTree
