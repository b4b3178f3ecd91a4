import FilesKernel.RbTree.Repr

/-! What single writes and rotations do to the tree in memory. -/

namespace FilesKernel.RbTree
open CExec RedBlack RedBlack.ColorTree

/-! ### Writes to one node -/

section
variable {s : RbState} {d : Side} {a t u p q v : ℕ} {c : Color}

/-- The state after one node has been written. -/
def RbState.set (s : RbState) (a : ℕ) (n : RbNode) : RbState :=
  { s with mem := Function.update s.mem a n }

@[simp] theorem set_root (n : RbNode) : (s.set a n).root = s.root := rfl
@[simp] theorem set_self (n : RbNode) : (s.set a n).mem a = n := Function.update_self ..
theorem set_other {b : ℕ} (n : RbNode) (h : b ≠ a) : (s.set a n).mem b = s.mem b :=
  Function.update_of_ne h ..

theorem load_eq (ha : IsNode a) : s.load a = .ok (s.mem a) := if_neg ha.ne

theorem store_eq (ha : IsNode a) (n : RbNode) : s.store a n = .ok (s.set a n) := if_neg ha.ne

theorem setChild_eq (ha : IsNode a) (hm : s.mem a = cell d t u p) :
    s.setChild d a v = .ok (s.set a (cell d v u p)) := by
  rw [RbState.setChild, load_eq ha, ok_bind, hm]
  cases d <;> exact store_eq ha _

theorem setChild_other_eq (ha : IsNode a) (hm : s.mem a = cell d t u p) :
    s.setChild d.other a v = .ok (s.set a (cell d t v p)) := by
  rw [← cell_other] at hm ⊢
  exact setChild_eq ha hm

theorem rbSetParent_eq (ha : IsNode a) (hm : s.mem a = cell d t u (p + bit c)) (hp : p % 2 = 0)
    (hq : q % 2 = 0) : rbSetParent s a q = .ok (s.set a (cell d t u (q + bit c))) := by
  rw [rbSetParent, load_eq ha, ok_bind, hm, store_eq ha, cell_parent, bit_or hp hq]
  rfl

theorem rbSetColor_eq (ha : IsNode a) (hm : s.mem a = cell d t u (p + bit c)) (hp : p % 2 = 0)
    (c' : Color) : rbSetColor s a c' = .ok (s.set a (cell d t u (p + bit c'))) := by
  rw [rbSetColor, load_eq ha, ok_bind, hm, store_eq ha, cell_parent, (bit_spec hp c).2.1]
  rfl

end

/-! ### Writes to a focus -/

section
variable {m₀ : Links} {s : RbState} {k : Ctx ℕ}

theorem Repr.focus {t : ColorTree ℕ} (h : Repr m₀ s (k.fill t)) :
    RepCtx s.mem s.root k (ptr t) ∧ Rep s.mem (above k) t :=
  rep_fill.mp ⟨h.root, h.nodes⟩

theorem Repr.of_focus {t : ColorTree ℕ} (hk : RepCtx s.mem s.root k (ptr t))
    (ht : Rep s.mem (above k) t) (hnd : (k.fill t).inorder.Nodup)
    (hrest : ∀ a, a ∉ (k.fill t).inorder → s.mem a = m₀ a) : Repr m₀ s (k.fill t) :=
  ⟨(rep_fill.mpr ⟨hk, ht⟩).1, (rep_fill.mpr ⟨hk, ht⟩).2, hnd, hrest⟩

/-- What the memory of a focused node holds. -/
theorem Repr.node {d : Side} {c : Color} {a : ℕ} {t u : ColorTree ℕ}
    (h : Repr m₀ s (k.fill (branch d c a t u))) :
    IsNode a ∧ s.mem a = cell d (ptr t) (ptr u) (above k + bit c) ∧ above k % 2 = 0 :=
  ⟨(rep_branch.mp h.focus.2).1, (rep_branch.mp h.focus.2).2.1, above_even h.focus.1⟩

/-- The colour of a focus is read from its root. -/
theorem Repr.rbRed {t : ColorTree ℕ} (h : Repr m₀ s (k.fill t)) :
    rbRed s (ptr t) = true ↔ t.color = .red := by
  cases t with
  | nil => simp [RbTree.rbRed]
  | node c l a r =>
    obtain ⟨ha, hm, hp⟩ := h.node (d := .left) (c := c) (a := a) (t := l) (u := r)
    have hc : rbColor (s.mem a) = c := by rw [hm]; exact rbColor_cell hp c
    simp [RbTree.rbRed, ptr, ha.ne, hc]

theorem Repr.rbBlack {t : ColorTree ℕ} (h : Repr m₀ s (k.fill t)) :
    rbBlack s (ptr t) = true ↔ t.color = .black := by
  rw [RbTree.rbBlack, Bool.not_eq_true', ← Bool.not_eq_true, h.rbRed]
  cases t.color <;> simp

/-- The two subtrees of a node start at different nodes. -/
theorem Repr.ptr_ne {d : Side} {c : Color} {a : ℕ} {t u : ColorTree ℕ}
    (h : Repr m₀ s (k.fill (branch d c a t u))) (ht : ptr t ≠ 0) : ptr u ≠ ptr t := by
  intro e
  have hdis := (nodup_branch.mp (Ctx.nodup_fill.mp h.nodup).1).2.2.2.2
  refine hdis (ptr t) (ptr_mem ht) ?_
  rw [← e]
  exact ptr_mem (e ▸ ht)

/-- Which side of its node a subtree is on is read from the node's `left` link. -/
theorem Repr.left_eq_iff {d : Side} {c : Color} {a : ℕ} {t u : ColorTree ℕ}
    (h : Repr m₀ s (k.fill (branch d c a t u))) (hne : ptr u ≠ ptr t) :
    ptr t = (s.mem a).left ↔ d = .left := by
  rw [h.node.2.1]
  cases d with
  | left => simp [cell, Side.pick]
  | right => simpa [cell, Side.pick] using hne.symm

theorem Repr.ptr_eq_zero {t : ColorTree ℕ} (h : Repr m₀ s (k.fill t)) : ptr t = 0 ↔ t = nil :=
  h.focus.2.ptr_eq_zero

/-- The other subtree of a node is a focus as well. -/
theorem Repr.swap {d : Side} {c : Color} {a : ℕ} {t u : ColorTree ℕ}
    (h : Repr m₀ s (k.fill (branch d c a t u))) :
    Repr m₀ s ((Ctx.under d.other c a t k).fill u) := by
  rw [Ctx.fill_under, branch_other]
  exact h

theorem ptr_ne_zero_of_red {t : ColorTree ℕ} (h : Repr m₀ s (k.fill t)) (hc : t.color = .red) :
    ptr t ≠ 0 := by
  cases t with
  | nil => cases hc
  | node c l a r => exact (h.isNode a (Ctx.mem_fill.mpr (Or.inl (by simp)))).ne

/-- Recolouring a node. -/
theorem Repr.setColor {d : Side} {c : Color} {a : ℕ} {t u : ColorTree ℕ}
    (h : Repr m₀ s (k.fill (branch d c a t u))) (c' : Color) :
    ∃ s', rbSetColor s a c' = .ok s' ∧ Repr m₀ s' (k.fill (branch d c' a t u)) := by
  obtain ⟨ha, hm, hp⟩ := h.node
  obtain ⟨hnt, hnk, hdis⟩ := Ctx.nodup_fill.mp h.nodup
  obtain ⟨hat, hau, -, -, -⟩ := nodup_branch.mp hnt
  have hak : a ∉ k.elems := hdis a (mem_branch.mpr (Or.inl rfl))
  have hin : (k.fill (branch d c' a t u)).inorder = (k.fill (branch d c a t u)).inorder :=
    Ctx.inorder_fill_congr (by cases d <;> rfl)
  refine ⟨_, rbSetColor_eq ha hm hp c', Repr.of_focus ?_ ?_ (hin ▸ h.nodup) ?_⟩
  · have hk := h.focus.1
    rw [ptr_branch] at hk ⊢
    exact hk.congr fun b hb => set_other _ fun e => hak (e ▸ hb)
  · obtain ⟨-, -, ht, hu⟩ := rep_branch.mp h.focus.2
    exact rep_branch.mpr ⟨ha, set_self _, ht.congr fun b hb => set_other _ fun e => hat (e ▸ hb),
      hu.congr fun b hb => set_other _ fun e => hau (e ▸ hb)⟩
  · intro b hb
    rw [hin] at hb
    have hne : b ≠ a := fun e => hb (Ctx.mem_fill.mpr (Or.inl (mem_branch.mpr (Or.inl e))))
    rw [set_other _ hne, h.rest b hb]

/-- Linking a subtree to a new parent. -/
theorem setParentIf_spec {t : ColorTree ℕ} {parent parent' : ℕ} (ht : Rep s.mem parent t)
    (hnd : t.inorder.Nodup) (hp : parent % 2 = 0) (hp' : parent' % 2 = 0) :
    ∃ s', setParentIf s (ptr t) parent' = .ok s' ∧ s'.root = s.root ∧ Rep s'.mem parent' t ∧
      ∀ a, a ∉ t.inorder → s'.mem a = s.mem a := by
  cases t with
  | nil => exact ⟨s, if_pos rfl, rfl, trivial, fun _ _ => rfl⟩
  | node c l a r =>
    obtain ⟨ha, hm, hl, hr⟩ := ht
    obtain ⟨hal, har, -, -, -⟩ := (nodup_branch (d := .left)).mp hnd
    have hset := rbSetParent_eq (d := .left) (c := c) ha hm hp hp'
    refine ⟨_, (if_neg ha.ne).trans hset, rfl, ⟨ha, set_self _, ?_, ?_⟩, fun b hb => ?_⟩
    · exact hl.congr fun b hb => set_other _ fun e => hal (e ▸ hb)
    · exact hr.congr fun b hb => set_other _ fun e => har (e ▸ hb)
    · have hne : b ≠ a := fun e => hb (by rw [e]; simp)
      exact set_other _ hne

/-- The link to a hole below a node is set. -/
theorem relink_spec {d : Side} {c : Color} {a old : ℕ} {u : ColorTree ℕ} (new : ℕ)
    (hk : RepCtx s.mem s.root (.under d c a u k) old) (hnd : (Ctx.under d c a u k).elems.Nodup) :
    ∃ s', s.setChild d a new = .ok s' ∧ RepCtx s'.mem s'.root (.under d c a u k) new ∧
      ∀ b, b ≠ a → s'.mem b = s.mem b := by
  obtain ⟨ha, hm, hu, hk⟩ := hk
  obtain ⟨hau, hak, -, -, -⟩ := Ctx.nodup_under.mp hnd
  refine ⟨_, setChild_eq ha hm, ⟨ha, set_self _, ?_, ?_⟩, fun b hb => set_other _ hb⟩
  · exact hu.congr fun b hb => set_other _ fun e => hau (e ▸ hb)
  · exact hk.congr fun b hb => set_other _ fun e => hak (e ▸ hb)

/-- The hole of a context is linked to another tree. -/
theorem replaceChild_spec {old : ℕ} (new : ℕ) (hk : RepCtx s.mem s.root k old) (hold : old ≠ 0)
    (hmem : old ∉ k.elems) (hnd : k.elems.Nodup) :
    ∃ s', replaceChild s (above k) old new = .ok s' ∧ RepCtx s'.mem s'.root k new ∧
      ∀ a, a ∉ k.elems → s'.mem a = s.mem a := by
  cases k with
  | top => exact ⟨_, if_pos rfl, rfl, fun _ _ => rfl⟩
  | under d c a u k =>
    obtain ⟨s', e, hk', f⟩ := relink_spec new hk hnd
    obtain ⟨ha, hm, -, -⟩ := hk
    rw [Ctx.mem_elems_under, not_or, not_or] at hmem
    -- the link that is not to the hole leads to the other subtree
    have hu' : ptr u ≠ old := fun e => by
      have hne : ptr u ≠ 0 := by rw [e]; exact hold
      exact hmem.2.1 (e ▸ ptr_mem hne)
    refine ⟨s', ?_, hk', fun b hb => f b fun e => hb (Ctx.mem_elems_under.mpr (Or.inl e))⟩
    rw [replaceChild, above, if_neg ha.ne, load_eq ha, ok_bind, hm]
    cases d with
    | left => exact (if_pos rfl).trans e
    | right => exact (if_neg hu').trans e

/-! ### Rotations -/

/-- A rotation takes `x` down and its child on the other side up, and changes nothing else. -/
theorem rbRotate_spec {d : Side} {cx cr : Color} {x r : ℕ} {A B E : ColorTree ℕ}
    (h : Repr m₀ s (k.fill (branch d cx x A (branch d cr r B E)))) :
    ∃ s', rbRotate s d x = .ok s' ∧
      Repr m₀ s' (k.fill (branch d cr r (branch d cx x A B) E)) := by
  have hin : (k.fill (branch d cr r (branch d cx x A B) E)).inorder =
      (k.fill (branch d cx x A (branch d cr r B E))).inorder :=
    Ctx.inorder_fill_congr (by cases d <;> simp [branch])
  obtain ⟨hk, hx⟩ := h.focus
  obtain ⟨nx, mx, hA, hr⟩ := rep_branch.mp hx
  obtain ⟨nr, mr, hB, hE⟩ := rep_branch.mp hr
  have hp := above_even hk
  rw [ptr_branch] at hk mx
  obtain ⟨hnt, hnk, hdis⟩ := Ctx.nodup_fill.mp h.nodup
  simp only [mem_branch] at hdis
  obtain ⟨hxA, hxr, -, hnr, hAr⟩ := nodup_branch.mp hnt
  obtain ⟨hrB, hrE, hnB, -, hBE⟩ := nodup_branch.mp hnr
  simp only [mem_branch, not_or] at hxr hAr
  obtain ⟨hxr, hxB, hxE⟩ := hxr
  have hxk : x ∉ k.elems := hdis x (by simp)
  have hrk : r ∉ k.elems := hdis r (by simp)
  have hnext : (s.mem x).child d.other = r := by rw [mx, child_other_cell]
  have hmid : (s.mem r).child d = ptr B := by rw [mr, child_cell]
  have hpar : rbParent (s.mem x) = above k := by rw [mx]; exact rbParent_cell hp cx
  -- `x` and its new subtree
  have e₁ := setChild_other_eq (v := ptr B) nx mx
  have hB₁ : Rep (s.set x (cell d (ptr A) (ptr B) (above k + bit cx))).mem r B :=
    hB.congr fun b hb => set_other _ fun e => hxB (e ▸ hb)
  obtain ⟨s₂, e₂, hroot₂, hB₂, f₂⟩ := setParentIf_spec hB₁ hnB nr.even nx.even
  -- `r` above `x`
  have mr₂ : s₂.mem r = cell d (ptr B) (ptr E) (x + bit cr) := by
    rw [f₂ r hrB, set_other _ (Ne.symm hxr), mr]
  have e₃ := setChild_eq (v := x) nr mr₂
  have e₄ := rbSetParent_eq (s := s₂.set r (cell d x (ptr E) (x + bit cr))) nr (set_self _) nx.even hp
  obtain ⟨s₄, hs₄⟩ : ∃ s₄, s₄ = (s₂.set r (cell d x (ptr E) (x + bit cr))).set r
    (cell d x (ptr E) (above k + bit cr)) := ⟨_, rfl⟩
  rw [← hs₄] at e₄
  have f₄ : ∀ b, b ≠ r → b ∉ B.inorder → b ≠ x → s₄.mem b = s.mem b := fun b hr hB hx => by
    rw [hs₄, set_other _ hr, set_other _ hr, f₂ b hB, set_other _ hx]
  have mr₄ : s₄.mem r = cell d x (ptr E) (above k + bit cr) := by rw [hs₄, set_self]
  have mx₄ : s₄.mem x = cell d (ptr A) (ptr B) (above k + bit cx) := by
    rw [hs₄, set_other _ hxr, set_other _ hxr, f₂ x hxB, set_self]
  -- the link from above
  have hk₄ : RepCtx s₄.mem s₄.root k x := by
    have hroot : s₄.root = s.root := by rw [hs₄]; exact hroot₂
    rw [hroot]
    exact hk.congr fun b hb => f₄ b (fun e => hrk (e ▸ hb))
      (fun hbB => hdis b (by simp [hbB]) hb) fun e => hxk (e ▸ hb)
  obtain ⟨s₅, e₅, hk₅, f₅⟩ := replaceChild_spec r hk₄ nx.ne hxk hnk
  have mx₅ : s₅.mem x = cell d (ptr A) (ptr B) (above k + bit cx) := by rw [f₅ x hxk, mx₄]
  have e₆ := rbSetParent_eq nx mx₅ hp nr.even
  refine ⟨s₅.set x (cell d (ptr A) (ptr B) (r + bit cx)), ?_,
    Repr.of_focus ?_ ?_ (hin ▸ h.nodup) ?_⟩
  · simp only [rbRotate, load_eq nx, ok_bind, hpar, hnext, load_eq nr, hmid, e₁, e₂, e₃, e₄,
      e₅, e₆]
  · rw [ptr_branch]
    exact hk₅.congr fun b hb => set_other _ fun e => hxk (e ▸ hb)
  · refine rep_branch.mpr ⟨nr, ?_, rep_branch.mpr ⟨nx, set_self _, ?_, ?_⟩, ?_⟩
    · rw [set_other _ (Ne.symm hxr), ptr_branch]
      exact (f₅ r hrk).trans mr₄
    · refine hA.congr fun b hb => ?_
      have hbx : b ≠ x := fun e => hxA (e ▸ hb)
      rw [set_other _ hbx]
      refine (f₅ b (hdis b (by simp [hb]))).trans (f₄ b ?_ ?_ hbx)
      · exact (hAr b hb).1
      · exact (hAr b hb).2.1
    · refine hB₂.congr fun b hb => ?_
      have hbr : b ≠ r := fun e => hrB (e ▸ hb)
      have hbx : b ≠ x := fun e => hxB (e ▸ hb)
      rw [set_other _ hbx]
      refine (f₅ b (hdis b (by simp [hb]))).trans ?_
      rw [hs₄, set_other _ hbr, set_other _ hbr]
    · refine hE.congr fun b hb => ?_
      have hbx : b ≠ x := fun e => hxE (e ▸ hb)
      rw [set_other _ hbx]
      refine (f₅ b (hdis b (by simp [hb]))).trans (f₄ b ?_ ?_ hbx)
      · exact fun e => hrE (e ▸ hb)
      · exact fun hbB => hBE b hbB hb
  · intro b hb
    rw [hin] at hb
    have hbk : b ∉ k.elems := fun e => hb (Ctx.mem_fill.mpr (Or.inr e))
    have hbt : b ∉ (branch d cx x A (branch d cr r B E)).inorder := fun e =>
      hb (Ctx.mem_fill.mpr (Or.inl e))
    simp only [mem_branch, not_or] at hbt
    rw [set_other _ hbt.1]
    exact ((f₅ b hbk).trans (f₄ b hbt.2.2.1 hbt.2.2.2.1 hbt.1)).trans (h.rest b hb)

end

end FilesKernel.RbTree
