import FilesKernel.RbTree.Rotate

/-! Walks to the neighbours of a node.

    `rb_next` and `rb_prev` are one walk towards a side: down to the near end of the subtree on that
    side, or up until a step leads towards it. Both return the next node of the in-order sequence. -/

namespace FilesKernel.RbTree
open CExec RedBlack
open RedBlack.ColorTree hiding node

variable {m₀ : Links} {s : RbState} {k : Ctx ℕ}

/-- The walk down ends at the node without a child on side `d`. -/
theorem rbMost_spec (d : Side) {t : ColorTree ℕ} (hs : Repr m₀ s (k.fill t)) (ht : t ≠ nil) :
    ∃ k' c a u, t = k'.fill (branch d c a nil u) ∧ Ctx.Along d k' ∧ rbMost s d (ptr t) = .ok a := by
  have hbody : ∀ n nd, (∃ k' u, t = k'.fill u ∧ Ctx.Along d k' ∧ nd = ptr u ∧ u ≠ nil ∧
      u.inorder.length = n) →
      (∃ nd', rbDownBody s d nd = .ok (.inl nd') ∧ ∃ n' < n, ∃ k' u, t = k'.fill u ∧
        Ctx.Along d k' ∧ nd' = ptr u ∧ u ≠ nil ∧ u.inorder.length = n') ∨
      ∃ a, rbDownBody s d nd = .ok (.inr a) ∧
        ∃ k' c u, t = k'.fill (branch d c a nil u) ∧ Ctx.Along d k' := by
    rintro n nd ⟨k', u, rfl, hk', rfl, hu, rfl⟩
    rw [← Ctx.fill_comp] at hs
    obtain ⟨c, a, v, w, rfl⟩ : ∃ c a v w, u = branch d c a v w := by
      cases u with
      | nil => exact absurd rfl hu
      | node c l a r => exact ⟨c, a, _, _, node_eq_branch d c l a r⟩
    obtain ⟨ha, hm, -⟩ := hs.node
    have hv : Repr m₀ s ((Ctx.under d c a w (k'.comp k)).fill v) := hs
    have hchild : (s.mem a).child d = ptr v := by rw [hm, child_cell]
    have hlen : (branch d c a v w).inorder.length = v.inorder.length + w.inorder.length + 1 := by
      cases d <;> simp [branch] <;> omega
    by_cases h0 : ptr v = 0
    · right
      refine ⟨a, ?_, k', c, w, ?_, hk'⟩
      · rw [rbDownBody, ptr_branch, load_eq ha, ok_bind, hchild, if_neg (not_not.mpr h0)]
      · rw [hv.ptr_eq_zero.mp h0]
    · left
      refine ⟨ptr v, ?_, _, ?_, Ctx.under d c a w k', v, rfl, ⟨rfl, hk'⟩, rfl, ?_, rfl⟩
      · rw [rbDownBody, ptr_branch, load_eq ha, ok_bind, hchild, if_pos h0]
      · rw [hlen]; omega
      · exact fun e => h0 (hv.ptr_eq_zero.mpr e)
  have hfuel : t.inorder.length < maxSteps := by
    have h := hs.length_lt
    rw [Ctx.inorder_fill, List.length_append, List.length_append] at h
    omega
  obtain ⟨a, ha, k', c, u, h, hk'⟩ := loop_spec hbody hfuel ⟨.top, t, rfl, trivial, rfl, ht, rfl⟩
  have h0 : ptr t ≠ 0 := fun e => ht (hs.ptr_eq_zero.mp e)
  exact ⟨k', c, a, u, h, hk', by rw [rbMost, if_neg h0, ha]⟩

/-- The walk up ends at the first node that lies towards side `d`. -/
theorem rbUp_spec (d : Side) {t : ColorTree ℕ} (hs : Repr m₀ s (k.fill t)) (ht : t ≠ nil) :
    loop (rbUpBody s d) maxSteps (ptr t, above k) = .ok ((Ctx.beyond d k).head?.getD 0) := by
  obtain ⟨target, htarget⟩ : ∃ l, l = Ctx.beyond d k := ⟨_, rfl⟩
  have hbody : ∀ n (r : ℕ × ℕ), (∃ k t, Repr m₀ s (k.fill t) ∧ t ≠ nil ∧ r = (ptr t, above k) ∧
      Ctx.beyond d k = target ∧ Ctx.depth k = n) →
      (∃ r', rbUpBody s d r = .ok (.inl r') ∧ ∃ n' < n, ∃ k t, Repr m₀ s (k.fill t) ∧ t ≠ nil ∧
        r' = (ptr t, above k) ∧ Ctx.beyond d k = target ∧ Ctx.depth k = n') ∨
      ∃ a, rbUpBody s d r = .ok (.inr a) ∧ a = target.head?.getD 0 := by
    rintro n r ⟨k, t, hs, ht, rfl, hk, rfl⟩
    have h0 : ptr t ≠ 0 := fun e => ht (hs.ptr_eq_zero.mp e)
    cases k with
    | top => exact Or.inr ⟨0, by rw [above, rbUpBody, if_pos rfl], by rw [← hk]; simp⟩
    | under e c a u k =>
      obtain ⟨ha, hm, hp⟩ := Repr.node (k := k) hs
      have hpar : rbParent (s.mem a) = above k := by rw [hm]; exact rbParent_cell hp _
      rcases Side.eq_or_other d e with rfl | rfl
      · left
        refine ⟨(a, above k), ?_, k.depth, Nat.lt_succ_self _, k, _, hs, ?_, ?_, ?_, rfl⟩
        · rw [rbUpBody, above, if_neg ha.ne, load_eq ha, ok_bind, hm, child_cell, if_pos rfl, ← hm,
            hpar]
        · cases e <;> simp [branch]
        · rw [ptr_branch]
        · rw [← hk, Ctx.beyond_under]
      · right
        refine ⟨a, ?_, ?_⟩
        · have hne : (s.mem a).child d ≠ ptr t := by
            have h : (s.mem a).child d.other.other = ptr u := by rw [hm, child_other_cell]
            rw [Side.other_other] at h
            rw [h]
            exact Repr.ptr_ne (k := k) hs h0
          rw [rbUpBody, above, if_neg ha.ne, load_eq ha, ok_bind, if_neg hne]
        · have h := Ctx.beyond_under_other d.other c a u k
          rw [Side.other_other] at h
          rw [← hk, h]; rfl
  have hfuel : k.depth < maxSteps := by
    have := Ctx.depth_le_length k t
    have := hs.length_lt
    omega
  obtain ⟨a, ha, h⟩ := loop_spec hbody hfuel ⟨k, t, hs, ht, rfl, htarget.symm, rfl⟩
  rw [ha, h, htarget]

/-- The neighbour towards side `d` is the next node in that direction, or null. -/
theorem rbAdjacent_spec (d : Side) {c : Color} {a : ℕ} {t u : ColorTree ℕ}
    (hs : Repr m₀ s (k.fill (branch d c a t u))) :
    rbAdjacent s d a = .ok ((Ctx.order d t ++ Ctx.beyond d k).head?.getD 0) := by
  obtain ⟨ha, hm, hp⟩ := hs.node
  have hpar : rbParent (s.mem a) = above k := by rw [hm]; exact rbParent_cell hp _
  have hchild : (s.mem a).child d = ptr t := by rw [hm, child_cell]
  have ht : Repr m₀ s ((Ctx.under d c a u k).fill t) := hs
  rw [rbAdjacent, if_neg ha.ne, load_eq ha, ok_bind, hchild, hpar]
  by_cases h0 : ptr t = 0
  · obtain rfl := ht.ptr_eq_zero.mp h0
    have hup := rbUp_spec d hs (by cases d <;> simp [branch])
    rw [ptr_branch] at hup
    rw [if_neg (not_not.mpr h0), hup, Ctx.order_nil, List.nil_append]
  · obtain ⟨k', c', b, v, rfl, hk', hmost⟩ := rbMost_spec d.other ht
      fun e => h0 (ht.ptr_eq_zero.mpr e)
    have hhead := hk'.head c' b v
    rw [Side.other_other] at hhead
    rw [if_pos h0, hmost, List.head?_append, hhead]
    rfl

/-- `rb_next` returns the next node of the in-order sequence, or null. -/
theorem rbNext_spec {c : Color} {a : ℕ} {l r : ColorTree ℕ}
    (hs : Repr m₀ s (k.fill (.node c l a r))) :
    rbNext s a = .ok ((r.inorder ++ k.post).head?.getD 0) :=
  rbAdjacent_spec .right hs

/-- `rb_prev` returns the previous node of the in-order sequence, or null. -/
theorem rbPrev_spec {c : Color} {a : ℕ} {l r : ColorTree ℕ}
    (hs : Repr m₀ s (k.fill (.node c l a r))) :
    rbPrev s a = .ok ((k.pre ++ l.inorder).getLast?.getD 0) := by
  have h := rbAdjacent_spec .left hs
  rw [rbPrev, h]
  simp [Ctx.order, Ctx.beyond, Side.pick]

end FilesKernel.RbTree
