import FilesKernel.RbTree.Rotate

/-! The repair after an erasure.

    The loop of `rb_erase_fix` carries a focus that is one black node short of what its context
    expects. A red focus is painted black; below a black sibling the shortage is mended by at most
    two rotations or passed on to the parent; a red sibling is first rotated above the parent. -/

namespace FilesKernel.RbTree
open CExec RedBlack
open RedBlack.ColorTree hiding node

variable {m₀ : Links} {s : RbState} {k : Ctx ℕ} {L : List ℕ}

/-- The focus is balanced once its root is painted black, or is black and one short. -/
def Short (t : ColorTree ℕ) (h : ℕ) : Prop :=
  (t.color = .red ∧ (t.paint .black).Balanced (h + 1)) ∨ (t.color = .black ∧ t.Balanced h)

theorem short_of_balanced {t : ColorTree ℕ} {h : ℕ} (ht : t.Balanced h) : Short t h := by
  cases hc : t.color with
  | red => exact Or.inl ⟨hc, ht.paint_black hc⟩
  | black => exact Or.inr ⟨hc, ht⟩

/-- The number of rounds left: one for each level, and one for a black focus. -/
def fixSteps (k : Ctx ℕ) (t : ColorTree ℕ) : ℕ := k.depth + bit t.color

/-- What holds at the head of the loop. -/
def EraseInv (m₀ : Links) (L : List ℕ) (n : ℕ) : RbState × ℕ × ℕ → Prop
  | (s, child, parent) => ∃ k t h, n = fixSteps k t ∧ Repr m₀ s (k.fill t) ∧
      (k.fill t).inorder = L ∧ child = ptr t ∧ parent = above k ∧ k.Balanced (h + 1) ∧ Short t h

/-- What the loop leaves: a tree that is valid once `child` has been painted black. -/
def EraseDone (m₀ : Links) (L : List ℕ) : RbState × ℕ → Prop
  | (s, child) => ∃ (k : Ctx ℕ) (t : ColorTree ℕ), Repr m₀ s (k.fill t) ∧ (k.fill t).inorder = L ∧
      child = ptr t ∧ (k.fill (t.paint .black)).Valid

/-- What a node above a focus that is one short expects of the context. -/
theorem expect_cases {c : Color} {d : Side} {p h : ℕ} {u : ColorTree ℕ}
    (hk : (Ctx.under d c p u k).Balanced h) : u.Balanced h ∧
      ((c = .red ∧ u.color = .black ∧ k.color = .black ∧ k.Balanced h) ∨
        (c = .black ∧ k.Balanced (h + 1))) := by
  cases c with
  | red => exact ⟨hk.1, Or.inl ⟨rfl, hk.2.1, hk.2.2.1, hk.2.2.2⟩⟩
  | black => exact ⟨hk.1, Or.inr ⟨rfl, hk.2⟩⟩

/-- The last rotation: the sibling `y` takes the place and the colour of the parent `p`. -/
theorem mend_spec {d : Side} {c : Color} {p y : ℕ} {t N F : ColorTree ℕ}
    (hs : Repr m₀ s (k.fill (branch d c p t (branch d .black y N F)))) (hF : F.color = .red) :
    ∃ s', (do
      let np ← s.load p
      let s ← rbSetColor s y (rbColor np)
      let s ← rbSetBlack s p
      let ny ← s.load y
      let s ← setBlackIf s (ny.child d.other)
      rbRotate s d p) = .ok s' ∧
      Repr m₀ s' (k.fill (branch d c y (branch d .black p t N) (F.paint .black))) := by
  obtain ⟨np, mp, hp⟩ := hs.node
  have hcol : rbColor (s.mem p) = c := by rw [mp]; exact rbColor_cell hp c
  obtain ⟨s₁, e₁, h₁⟩ := hs.swap.setColor c
  rw [Ctx.fill_under, branch_other] at h₁
  obtain ⟨s₂, e₂, h₂⟩ := h₁.setColor .black
  obtain ⟨ny, my, -⟩ := h₂.swap.node
  have hfar : (s₂.mem y).child d.other = ptr F := by rw [my, child_other_cell]
  -- the far nephew
  have hF₂ := h₂.swap
  rw [← branch_other d c, ← Ctx.fill_under] at hF₂
  have hF0 : ptr F ≠ 0 := ptr_ne_zero_of_red hF₂ hF
  obtain ⟨c', f, f₁, f₂, rfl⟩ : ∃ c' f f₁ f₂, F = branch .left c' f f₁ f₂ := by
    cases F with
    | nil => cases hF
    | node c' l f r => exact ⟨c', f, l, r, rfl⟩
  obtain ⟨s₃, e₃, h₃⟩ := hF₂.setColor .black
  rw [Ctx.fill_under, Ctx.fill_under, branch_other, branch_other] at h₃
  obtain ⟨s₄, e₄, h₄⟩ := rbRotate_spec h₃
  refine ⟨s₄, ?_, by rw [paint_branch]; exact h₄⟩
  rw [ptr_branch] at hfar hF0
  simp only [load_eq np, ok_bind, hcol, e₁, rbSetBlack, e₂, load_eq ny, hfar, setBlackIf,
    if_neg hF0, e₃, e₄]

/-- A shortage below a black sibling, made up for by the sibling's red nephews. -/
theorem valid_mended {d : Side} {c : Color} {p y h : ℕ} {t u N F : ColorTree ℕ}
    (hk : (Ctx.under d c p u k).Balanced (h + 1)) (ht : t.Balanced h) (hN : N.Balanced h)
    (hF : F.Balanced h) (hFc : F.color = .red) :
    (k.fill (branch d c y (branch d .black p t N) (F.paint .black))).Valid := by
  have hp : (branch d .black p t N).Balanced (h + 1) := balanced_branch_black.mpr ⟨ht, hN⟩
  have hF' := hF.paint_black hFc
  have hFc' : (F.paint .black).color = .black := by cases F <;> rfl
  rcases (expect_cases hk).2 with ⟨rfl, -, hkc, hk'⟩ | ⟨rfl, hk'⟩
  · exact hk'.valid_fill (balanced_branch_red.mpr ⟨hp, hF', color_branch .., hFc'⟩) fun _ => hkc
  · refine hk'.valid_fill (balanced_branch_black.mpr ⟨hp, hF'⟩) fun hc => ?_
    rw [color_branch] at hc; cases hc

/-- One round of the loop below a black sibling `u`. -/
theorem rbEraseBlack_spec {d : Side} {c : Color} {p h n : ℕ} {t u : ColorTree ℕ}
    (hs : Repr m₀ s (k.fill (branch d c p t u)))
    (hL : (k.fill (branch d c p t u)).inorder = L)
    (hk : (Ctx.under d c p u k).Balanced (h + 1)) (ht : t.Balanced h) (huc : u.color = .black)
    (hn : k.depth + bit c < n) :
    (∃ r, rbEraseBlack s d p (ptr u) = .ok (.inl r) ∧ ∃ n' < n, EraseInv m₀ L n' r) ∨
      ∃ r, rbEraseBlack s d p (ptr u) = .ok (.inr r) ∧ EraseDone m₀ L r := by
  obtain ⟨hu, hcases⟩ := expect_cases hk
  obtain ⟨b, N, F, rfl, hN, hF⟩ := hu.black_cases d huc
  obtain ⟨nb, mb, -⟩ := hs.swap.node
  have hnear : (s.mem b).child d = ptr N := by rw [mb, child_cell]
  have hfar : (s.mem b).child d.other = ptr F := by rw [mb, child_other_cell]
  have hsN : Repr m₀ s ((Ctx.under d .black b F (.under d.other c p t k)).fill N) := hs.swap
  have hsF : Repr m₀ s ((Ctx.under d.other .black b N (.under d.other c p t k)).fill F) :=
    hs.swap.swap
  rw [ptr_branch]
  by_cases hboth : N.color = .black ∧ F.color = .black
  · left
    obtain ⟨s₁, e₁, h₁⟩ := hs.swap.setColor .red
    rw [Ctx.fill_under, branch_other] at h₁
    obtain ⟨np, mp, hp⟩ := h₁.node
    have hpar : rbParent (s₁.mem p) = above k := by rw [mp]; exact rbParent_cell hp _
    have hcond : (rbBlack s (ptr N) && rbBlack s (ptr F)) = true := by
      rw [Bool.and_eq_true]
      exact ⟨hsN.rbBlack.mpr hboth.1, hsF.rbBlack.mpr hboth.2⟩
    have hred : (branch d .red b N F).Balanced h := balanced_branch_red.mpr ⟨hN, hF, hboth⟩
    refine ⟨(s₁, p, above k), ?_, fixSteps k (branch d c p t (branch d .red b N F)), ?_, k,
      branch d c p t (branch d .red b N F), ?_⟩
    · simp only [rbEraseBlack, load_eq nb, ok_bind, hnear, hfar, if_pos hcond, rbSetRed, e₁,
        load_eq np, hpar]
    · rw [fixSteps, color_branch]; exact hn
    · have hin : (k.fill (branch d c p t (branch d .red b N F))).inorder = L := by
        rw [← hL]; exact Ctx.inorder_fill_congr (by cases d <;> simp [branch])
      rcases hcases with ⟨rfl, -, -, hk'⟩ | ⟨rfl, hk'⟩
      · refine ⟨h, rfl, h₁, hin, (ptr_branch ..).symm, rfl, hk', Or.inl ⟨color_branch .., ?_⟩⟩
        rw [paint_branch]; exact balanced_branch_black.mpr ⟨ht, hred⟩
      · exact ⟨h + 1, rfl, h₁, hin, (ptr_branch ..).symm, rfl, hk',
          Or.inr ⟨color_branch .., balanced_branch_black.mpr ⟨ht, hred⟩⟩⟩
  · right
    have hcond : ¬ (rbBlack s (ptr N) && rbBlack s (ptr F)) = true := by
      rw [Bool.and_eq_true, hsN.rbBlack, hsF.rbBlack]
      exact hboth
    -- the first rotation, when the far nephew is black, brings the near one up
    obtain ⟨s₁, y, N', F', e₁, h₁, hin, hN', hF', hFc'⟩ : ∃ s₁ y N' F',
        (if rbBlack s (ptr F) then do
            let s ← rbSetBlack s (ptr N)
            let s ← rbSetRed s b
            let s ← rbRotate s d.other b
            let np ← s.load p
            .ok (s, np.child d.other)
          else .ok (s, b) : Exec (RbState × ℕ)) = .ok (s₁, y) ∧
        Repr m₀ s₁ (k.fill (branch d c p t (branch d .black y N' F'))) ∧
        (branch d .black y N' F').inorder = (branch d .black b N F).inorder ∧
        N'.Balanced h ∧ F'.Balanced h ∧ F'.color = .red := by
      cases hFc : F.color with
      | red =>
        have hF0 : ¬ rbBlack s (ptr F) = true := by rw [hsF.rbBlack, hFc]; simp
        exact ⟨s, b, N, F, if_neg hF0, hs, rfl, hN, hF, hFc⟩
      | black =>
        have hNc : N.color = .red := by
          cases hc : N.color with
          | red => rfl
          | black => exact absurd ⟨hc, hFc⟩ hboth
        obtain ⟨x, n₁, n₂, rfl, hn₁, hn₂, -, hn₂c⟩ := hN.red_cases d hNc
        obtain ⟨s₁, e₁, h₁⟩ := hsN.setColor .black
        rw [Ctx.fill_under] at h₁
        obtain ⟨s₂, e₂, h₂⟩ := h₁.setColor .red
        rw [← branch_other d .red, ← branch_other d .black x] at h₂
        obtain ⟨s₃, e₃, h₃⟩ := rbRotate_spec h₂
        rw [Ctx.fill_under, branch_other, branch_other, branch_other] at h₃
        obtain ⟨np, mp, -⟩ := h₃.node
        have hy : (s₃.mem p).child d.other = x := by rw [mp, child_other_cell, ptr_branch]
        refine ⟨s₃, x, n₁, branch d .red b n₂ F, ?_, h₃, ?_, hn₁,
          balanced_branch_red.mpr ⟨hn₂, hF, hn₂c, hFc⟩, color_branch ..⟩
        · rw [if_pos (hsF.rbBlack.mpr hFc), ptr_branch]
          simp only [rbSetBlack, e₁, ok_bind, rbSetRed, e₂, e₃, load_eq np, hy]
        · cases d <;> simp [branch]
    obtain ⟨s₂, e₂, h₂⟩ := mend_spec h₁ hFc'
    have hvalid : (k.fill (branch d c y (branch d .black p t N') (F'.paint .black))).Valid :=
      valid_mended hk ht hN' hF' hFc'
    refine ⟨(s₂, s₂.root), ?_, .top, _, h₂, ?_, h₂.root, ?_⟩
    · simp only [bind_eq_ok] at e₂
      obtain ⟨np, a₁, t₁, a₂, t₂, a₃, ny, a₄, t₃, a₅, a₆⟩ := e₂
      simp only [rbEraseBlack, load_eq nb, ok_bind, hnear, hfar, if_neg hcond, e₁, a₁, a₂, a₃, a₄,
        a₅, a₆]
    · rw [← hL, Ctx.fill_top]
      refine Ctx.inorder_fill_congr ?_
      have hup : (branch d c y (branch d .black p t N') (F'.paint .black)).inorder =
          (branch d.other c p (branch d .black y N' F') t).inorder := by
        cases d <;> simp [branch]
      rw [hup, inorder_branch_congr hin, branch_other]
    · rw [Ctx.fill_top, paint_self hvalid.1]
      exact hvalid

/-- One round of the loop below any sibling: a red one is first rotated above the parent. -/
theorem rbEraseSide_spec {d : Side} {c : Color} {p h : ℕ} {t u : ColorTree ℕ}
    (hs : Repr m₀ s (k.fill (branch d c p t u)))
    (hL : (k.fill (branch d c p t u)).inorder = L)
    (hk : (Ctx.under d c p u k).Balanced (h + 1)) (ht : t.Balanced h) (htc : t.color = .black) :
    (∃ r, rbEraseSide s d p = .ok (.inl r) ∧
        ∃ n' < fixSteps (.under d c p u k) t, EraseInv m₀ L n' r) ∨
      ∃ r, rbEraseSide s d p = .ok (.inr r) ∧ EraseDone m₀ L r := by
  obtain ⟨np, mp, -⟩ := hs.node
  have hsib : (s.mem p).child d.other = ptr u := by rw [mp, child_other_cell]
  have hsteps : fixSteps (.under d c p u k) t = k.depth + 2 := by
    rw [fixSteps, htc]; rfl
  have hu := hs.swap
  rw [hsteps]
  cases huc : u.color with
  | black =>
    have hred : ¬ rbRed s (ptr u) = true := by rw [hu.rbRed, huc]; simp
    have hside : rbEraseSide s d p = rbEraseBlack s d p (ptr u) := by
      simp only [rbEraseSide, load_eq np, ok_bind, hsib, if_neg hred]
    rw [hside]
    refine rbEraseBlack_spec hs hL hk ht huc ?_
    cases c <;> simp only [bit] <;> omega
  | red =>
    obtain ⟨hub, hcases⟩ := expect_cases hk
    obtain ⟨b, N, F, rfl, hN, hF, hNc, hFc⟩ := hub.red_cases d huc
    obtain ⟨rfl, hk'⟩ : c = .black ∧ k.Balanced (h + 1 + 1) := by
      rcases hcases with ⟨-, hc, -, -⟩ | hc
      · rw [color_branch] at hc; cases hc
      · exact hc
    obtain ⟨s₁, e₁, h₁⟩ := hs.swap.setColor .black
    rw [Ctx.fill_under, branch_other] at h₁
    obtain ⟨s₂, e₂, h₂⟩ := h₁.setColor .red
    obtain ⟨s₃, e₃, h₃⟩ := rbRotate_spec h₂
    rw [← Ctx.fill_under] at h₃
    obtain ⟨np₃, mp₃, -⟩ := h₃.node
    have hnear : (s₃.mem p).child d.other = ptr N := by rw [mp₃, child_other_cell]
    have hred : rbRed s b = true := by
      have h := hu.rbRed
      rw [ptr_branch, huc] at h
      exact h.mpr rfl
    have hside : rbEraseSide s d p = rbEraseBlack s₃ d p (ptr N) := by
      rw [ptr_branch] at hsib
      simp only [rbEraseSide, load_eq np, ok_bind, hsib, if_pos hred, rbSetBlack, e₁, rbSetRed, e₂,
        e₃, hnear]
    rw [hside]
    refine rbEraseBlack_spec h₃ ?_ ⟨hN, hNc, rfl, hF, hk'⟩ ht hNc ?_
    · rw [← hL, Ctx.fill_under]
      exact Ctx.inorder_fill_congr (by cases d <;> simp [branch])
    · simp only [Ctx.depth, bit]; omega

/-- The root of a tree with a context belongs to the context. -/
theorem ptr_fill_mem : ∀ {k : Ctx ℕ} {d : Side} {c : Color} {a : ℕ} {t u : ColorTree ℕ},
    ptr (k.fill (branch d c a t u)) ∈ (Ctx.under d c a u k).elems
  | .top, d, c, a, t, u => by
      rw [Ctx.fill_top, ptr_branch]
      exact Ctx.mem_elems_under.mpr (Or.inl rfl)
  | .under e c' b v k, d, c, a, t, u => by
      rw [Ctx.fill_under]
      exact Ctx.mem_elems_under.mpr (Or.inr (Or.inr ptr_fill_mem))

/-- The root is the focus only at the top. -/
theorem ptr_eq_root_iff {t : ColorTree ℕ} (hs : Repr m₀ s (k.fill t)) : ptr t = s.root ↔ k = .top := by
  constructor
  · intro h
    cases k with
    | top => rfl
    | under d c a u k =>
      have hmem : ptr t ∈ (Ctx.under d c a u k).elems := by
        rw [h, hs.root]; exact ptr_fill_mem
      have ht : ptr t ≠ 0 := (hs.isNode _ (Ctx.mem_fill.mpr (Or.inr hmem))).ne
      exact absurd hmem ((Ctx.nodup_fill.mp hs.nodup).2.2 _ (ptr_mem ht))
  · rintro rfl
    exact hs.root.symm

/-- One round of the loop. -/
theorem rbEraseBody_spec (n : ℕ) (r : RbState × ℕ × ℕ) (hr : EraseInv m₀ L n r) :
    (∃ r', rbEraseBody r = .ok (.inl r') ∧ ∃ n' < n, EraseInv m₀ L n' r') ∨
      ∃ r', rbEraseBody r = .ok (.inr r') ∧ EraseDone m₀ L r' := by
  obtain ⟨s, child, parent⟩ := r
  obtain ⟨k, t, h, rfl, hs, hL, rfl, rfl, hk, ht⟩ := hr
  have hstop : ¬ (rbBlack s (ptr t) = true ∧ ptr t ≠ s.root) →
      rbEraseBody (s, ptr t, above k) = .ok (.inr (s, ptr t)) := fun hc => by
    rw [rbEraseBody, if_neg hc]
  rcases ht with ⟨htc, ht⟩ | ⟨htc, ht⟩
  · right
    refine ⟨_, hstop fun hc => ?_, k, t, hs, hL, rfl, hk.valid_fill ht fun hc => ?_⟩
    · rw [hs.rbBlack, htc] at hc
      cases hc.1
    · cases t with
      | nil => cases htc
      | node c l a r => cases hc
  · match k with
    | .top =>
      right
      refine ⟨_, hstop fun hc => hc.2 ((ptr_eq_root_iff hs).mpr rfl), .top, t, hs, hL, rfl, ?_⟩
      rw [paint_self htc]
      exact ⟨htc, h, ht⟩
    | .under d c p u k =>
      have hgo : rbBlack s (ptr t) = true ∧ ptr t ≠ s.root :=
        ⟨hs.rbBlack.mpr htc, fun e => by cases (ptr_eq_root_iff hs).mp e⟩
      obtain ⟨np, -, -⟩ := Repr.node (k := k) hs
      -- the sibling has black nodes to spare, so it is not null
      have hsu : Repr m₀ s ((Ctx.under d.other c p t k).fill u) := Repr.swap (k := k) hs
      have hu0 : ptr u ≠ 0 := by
        intro h0
        have hu := (expect_cases hk).1
        rw [hsu.ptr_eq_zero.mp h0] at hu
        cases hu
      have hside := Repr.left_eq_iff (k := k) hs (Repr.ptr_ne (k := k) hsu hu0).symm
      have hbody : rbEraseBody (s, ptr t, p) = rbEraseSide s d p := by
        rw [rbEraseBody, if_pos hgo, load_eq np, ok_bind]
        cases d with
        | left => rw [if_pos (hside.mpr rfl)]
        | right => rw [if_neg fun h => by cases hside.mp h]
      rw [above, hbody]
      exact rbEraseSide_spec hs hL hk ht htc

/-- The repair of a focus that is one black node short. -/
theorem rbEraseFix_spec {h : ℕ} {t : ColorTree ℕ} (hs : Repr m₀ s (k.fill t)) (hk : k.Balanced (h + 1))
    (ht : Short t h) : ∃ s' T, rbEraseFix s (ptr t) (above k) = .ok s' ∧ Repr m₀ s' T ∧ T.Valid ∧
      T.inorder = (k.fill t).inorder := by
  have hinv : EraseInv m₀ (k.fill t).inorder (fixSteps k t) (s, ptr t, above k) :=
    ⟨k, t, h, rfl, hs, rfl, rfl, rfl, hk, ht⟩
  have hfuel : fixSteps k t < maxSteps := by
    have hlen := Ctx.depth_le_length k t
    have hmax := hs.length_lt
    rw [fixSteps]
    cases t.color <;> simp only [bit] <;> omega
  obtain ⟨⟨s₁, child⟩, e₁, k', t', h₁, hL, rfl, hv⟩ := loop_spec rbEraseBody_spec hfuel hinv
  have hfix : rbEraseFix s (ptr t) (above k) = setBlackIf s₁ (ptr t') := by
    rw [rbEraseFix, e₁, ok_bind]
  cases t' with
  | nil => exact ⟨s₁, _, hfix.trans (if_pos rfl), h₁, hv, hL⟩
  | node c l a r =>
    obtain ⟨s₂, e₂, h₂⟩ := Repr.setColor (d := .left) h₁ .black
    have ha := (Repr.node (d := .left) h₁).1
    refine ⟨s₂, _, hfix.trans ((if_neg ha.ne).trans e₂), h₂, hv, ?_⟩
    rw [← hL]
    exact Ctx.inorder_fill_congr rfl

end FilesKernel.RbTree
