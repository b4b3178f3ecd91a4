import FilesKernel.RbTree.Rotate

/-! Insertion.

    The loop of `rb_insert` carries a red focus that is balanced, in a context that is balanced for
    it; only the colour above may be red as well. A red uncle moves the focus up by two, a black one
    ends the loop with at most two rotations. -/

namespace FilesKernel.RbTree
open CExec RedBlack
open RedBlack.ColorTree hiding node

variable {m₀ : Links} {s : RbState} {k : Ctx ℕ} {L : List ℕ}

/-- The second rotation of the loop and its recolouring: the red child `y` on side `e` comes up. -/
theorem rotateUp_spec {e : Side} {g y : ℕ} {P N v : ColorTree ℕ}
    (h : Repr m₀ s (k.fill (branch e .black g (branch e .red y P N) v))) :
    ∃ s₁ s₂ s', rbRotate s e.other g = .ok s₁ ∧ rbSetBlack s₁ y = .ok s₂ ∧
      rbSetRed s₂ g = .ok s' ∧
      Repr m₀ s' (k.fill (branch e.other .black y (branch e.other .red g v N) P)) := by
  rw [← branch_other e, ← branch_other e] at h
  obtain ⟨s₁, e₁, h₁⟩ := rbRotate_spec h
  obtain ⟨s₂, e₂, h₂⟩ := h₁.setColor .black
  rw [← Ctx.fill_under] at h₂
  obtain ⟨s₃, e₃, h₃⟩ := h₂.setColor .red
  exact ⟨s₁, s₂, s₃, e₁, e₂, e₃, h₃⟩

/-- What holds at the head of the loop, `n` steps below the root. -/
def InsertInv (m₀ : Links) (L : List ℕ) (n : ℕ) : RbState × ℕ × ℕ → Prop
  | (s, node, p) => ∃ k t h, n = Ctx.depth k ∧ Repr m₀ s (k.fill t) ∧ (k.fill t).inorder = L ∧
      node = ptr t ∧ p = above k ∧ k.Balanced h ∧ t.Balanced h ∧ t.color = .red

/-- What the loop leaves: a balanced tree, perhaps with a red root. -/
def InsertDone (m₀ : Links) (L : List ℕ) (s : RbState) : Prop :=
  ∃ T h, Repr m₀ s T ∧ T.inorder = L ∧ T.Balanced h

/-- One round of the loop below a red parent `p` and its black parent `g`. -/
theorem rbInsertSide_spec {d e : Side} {p g h : ℕ} {t u v : ColorTree ℕ}
    (hs : Repr m₀ s (k.fill (branch e .black g (branch d .red p t u) v)))
    (hL : (k.fill (branch e .black g (branch d .red p t u) v)).inorder = L)
    (hk : k.Balanced (h + 1)) (ht : t.Balanced h) (hu : u.Balanced h) (hv : v.Balanced h)
    (htc : t.color = .red) (huc : u.color = .black) :
    (∃ r, rbInsertSide s e (ptr t) p g = .ok (.inl r) ∧ InsertInv m₀ L k.depth r) ∨
      ∃ s', rbInsertSide s e (ptr t) p g = .ok (.inr s') ∧ InsertDone m₀ L s' := by
  obtain ⟨ng, mg, -⟩ := hs.node
  have hs' := hs
  rw [← Ctx.fill_under] at hs'
  obtain ⟨np, mp, -⟩ := hs'.node
  have hr : (s.mem g).child e.other = ptr v := by rw [mg, child_other_cell]
  have hred := hs.swap.rbRed
  cases hvc : v.color with
  | red =>
    left
    obtain ⟨w, v₁, v₂, rfl, hv₁, hv₂, -, -⟩ := hv.red_cases .left hvc
    obtain ⟨s₁, e₁, h₁⟩ := hs.setColor .red
    rw [← Ctx.fill_under] at h₁
    obtain ⟨s₂, e₂, h₂⟩ := h₁.setColor .black
    rw [Ctx.fill_under] at h₂
    obtain ⟨s₃, e₃, h₃⟩ := h₂.swap.setColor .black
    rw [Ctx.fill_under, branch_other] at h₃
    obtain ⟨ng₃, mg₃, hpg⟩ := h₃.node
    have hpar : rbParent (s₃.mem g) = above k := by rw [mg₃]; exact rbParent_cell hpg _
    refine ⟨(s₃, g, above k), ?_, k, _, h + 1, rfl, h₃, ?_, (ptr_branch ..).symm, rfl, hk, ?_,
      color_branch ..⟩
    · rw [ptr_branch] at hr hred
      simp only [rbInsertSide, load_eq ng, ok_bind, hr, if_pos (hred.mpr hvc), rbSetRed, rbSetBlack,
        e₁, e₂, e₃, hpar]
    · rw [← hL]
      exact Ctx.inorder_fill_congr (by cases e <;> cases d <;> simp [branch])
    · refine balanced_branch_red.mpr ⟨?_, ?_, color_branch .., color_branch ..⟩
      · exact balanced_branch_black.mpr ⟨ht, hu⟩
      · exact balanced_branch_black.mpr ⟨hv₁, hv₂⟩
  | black =>
    right
    have hnred : ¬ rbRed s (ptr v) = true := by rw [hred, hvc]; simp
    have htp : ptr t ≠ 0 := by
      rw [← Ctx.fill_under, ← Ctx.fill_under] at hs
      exact ptr_ne_zero_of_red hs htc
    -- the first rotation, when the focus is on the inner side
    obtain ⟨s₁, y, P, N, e₁, h₁, hL₁, hP, hN, hNc⟩ : ∃ s₁ y P N,
        (if ptr t = (s.mem p).child e.other then do
            let s ← rbRotate s e p
            .ok (s, ptr t)
          else .ok (s, p) : Exec (RbState × ℕ)) = .ok (s₁, y) ∧
        Repr m₀ s₁ (k.fill (branch e .black g (branch e .red y P N) v)) ∧
        (branch e .red y P N).inorder = (branch d .red p t u).inorder ∧
        P.Balanced h ∧ N.Balanced h ∧ N.color = .black := by
      rcases Side.eq_or_other e d with rfl | rfl
      · have hne : ¬ ptr t = (s.mem p).child d.other := by
          rw [mp, child_other_cell]; exact (hs'.ptr_ne htp).symm
        exact ⟨s, p, t, u, if_neg hne, hs, rfl, ht, hu, huc⟩
      · have heq : ptr t = (s.mem p).child e.other := by rw [mp, child_cell]
        obtain ⟨x, t₁, t₂, rfl, ht₁, ht₂, ht₁c, ht₂c⟩ := ht.red_cases e htc
        rw [branch_other] at hs'
        obtain ⟨s₁, e₁, h₁⟩ := rbRotate_spec hs'
        rw [ptr_branch] at heq ⊢
        refine ⟨s₁, x, _, t₂, ?_, h₁, ?_, balanced_branch_red.mpr ⟨hu, ht₁, huc, ht₁c⟩, ht₂, ht₂c⟩
        · rw [if_pos heq, e₁, ok_bind]
        · rw [branch_other]; cases e <;> simp [branch]
    obtain ⟨s₂, s₃, s₄, e₂, e₃, e₄, h₄⟩ := rotateUp_spec h₁
    have hbal : (branch e.other .black y (branch e.other .red g v N) P).Balanced (h + 1) :=
      balanced_branch_black.mpr ⟨balanced_branch_red.mpr ⟨hv, hN, hvc, hNc⟩, hP⟩
    obtain ⟨-, n, hn⟩ := hk.valid_fill hbal fun hc => by rw [color_branch] at hc; cases hc
    refine ⟨s₄, ?_, _, n, h₄, ?_, hn⟩
    · simp only [rbInsertSide, load_eq ng, ok_bind, hr, if_neg hnred, load_eq np, e₁, e₂, e₃, e₄]
    · rw [← hL]
      refine Ctx.inorder_fill_congr ?_
      have hup : (branch e.other .black y (branch e.other .red g v N) P).inorder =
          (branch e .black g (branch e .red y P N) v).inorder := by
        cases e <;> simp [branch]
      rw [hup, inorder_branch_congr hL₁]

theorem rbInsertBody_stop {nd p : ℕ} (h : ¬ rbRed s p = true) :
    rbInsertBody (s, nd, p) = .ok (.inr s) := by
  rw [rbInsertBody, if_neg h]

/-- One round of the loop: it goes up by two, or ends in a balanced tree. -/
theorem rbInsertBody_spec (n : ℕ) (r : RbState × ℕ × ℕ) (hr : InsertInv m₀ L n r) :
    (∃ r', rbInsertBody r = .ok (.inl r') ∧ ∃ n' < n, InsertInv m₀ L n' r') ∨
      ∃ s', rbInsertBody r = .ok (.inr s') ∧ InsertDone m₀ L s' := by
  obtain ⟨s, nd, p⟩ := r
  obtain ⟨k, t, h, rfl, hs, hL, rfl, rfl, hk, ht, htc⟩ := hr
  match k with
  | .top =>
    right
    have hred : ¬ rbRed s 0 = true := by simp [rbRed]
    exact ⟨s, rbInsertBody_stop hred, t, h, hs, hL, ht⟩
  | .under d .black p u k =>
    right
    have hb : (branch d .black p t u).Balanced (h + 1) := balanced_branch_black.mpr ⟨ht, hk.1⟩
    obtain ⟨-, n, hn⟩ := hk.2.valid_fill hb fun hc => by rw [color_branch] at hc; cases hc
    have hred : ¬ rbRed s p = true := by
      have h := Repr.rbRed (k := k) hs
      rw [ptr_branch, color_branch] at h
      rw [h]; simp
    exact ⟨s, rbInsertBody_stop hred, _, n, hs, hL, hn⟩
  | .under d .red p u .top => cases hk.2.2.1
  | .under d .red p u (.under e .red g v k) => cases hk.2.2.1
  | .under d .red p u (.under e .black g v k) =>
    obtain ⟨hu, huc, -, hv, hk⟩ := hk
    have hred : rbRed s p = true := by
      have h := Repr.rbRed (k := .under e .black g v k) hs
      rw [ptr_branch, color_branch] at h
      rw [h]
    obtain ⟨np, mp, hpg⟩ := Repr.node (k := .under e .black g v k) hs
    obtain ⟨ng, mg, -⟩ := Repr.node (k := k) hs
    have hpar : rbParent (s.mem p) = g := by rw [mp]; exact rbParent_cell hpg _
    have hside := Repr.left_eq_iff (k := k) hs
      (Repr.ptr_ne (k := k) hs (by rw [ptr_branch]; exact np.ne))
    rw [ptr_branch] at hside
    have hbody : rbInsertBody (s, ptr t, p) = rbInsertSide s e (ptr t) p g := by
      simp only [rbInsertBody, if_pos hred, load_eq np, ok_bind, hpar, load_eq ng]
      cases e with
      | left => rw [if_pos (hside.mpr rfl)]
      | right => rw [if_neg (fun h => by cases hside.mp h)]
    rw [above, hbody]
    rcases rbInsertSide_spec hs hL hk ht hu hv htc huc with ⟨r, hr, hi⟩ | ⟨s', hr, hd⟩
    · exact Or.inl ⟨r, hr, k.depth, by simp only [Ctx.depth]; omega, hi⟩
    · exact Or.inr ⟨s', hr, hd⟩

/-- `rb_insert` of a red leaf that has been linked into a red-black tree. -/
theorem rbInsert_spec {nd : ℕ} (hs : Repr m₀ s (k.fill (branch .left .red nd nil nil)))
    (hk : k.Balanced 0) : ∃ s' T, rbInsert s nd = .ok s' ∧ Repr m₀ s' T ∧ T.Valid ∧
      T.inorder = k.pre ++ nd :: k.post := by
  have hL : (k.fill (branch .left .red nd nil nil)).inorder = k.pre ++ nd :: k.post := by
    rw [Ctx.inorder_fill]; simp [branch]
  obtain ⟨nn, mn, hp⟩ := hs.node
  have hpar : rbParent (s.mem nd) = above k := by rw [mn]; exact rbParent_cell hp _
  have hinv : InsertInv m₀ (k.pre ++ nd :: k.post) k.depth (s, nd, above k) :=
    ⟨k, _, 0, rfl, hs, hL, (ptr_branch ..).symm, rfl, hk, ⟨rfl, rfl, rfl, rfl⟩, rfl⟩
  have hfuel : k.depth < maxSteps := by
    have := Ctx.depth_le_length k (branch .left .red nd nil nil)
    have := hs.length_lt
    omega
  obtain ⟨s₁, e₁, T, n, h₁, hT, hb⟩ := loop_spec rbInsertBody_spec hfuel hinv
  cases T with
  | nil =>
    rw [inorder_nil] at hT
    simp at hT
  | node c l a r =>
    obtain ⟨s₂, e₂, h₂⟩ := Repr.setColor (k := .top) (d := .left) h₁ .black
    refine ⟨s₂, _, ?_, h₂, hb.valid_paint, hT⟩
    have hroot : s₁.root = a := h₁.root
    simp only [rbInsert, load_eq nn, ok_bind, hpar, e₁, hroot, rbSetBlack, e₂]

/-- The place of a hole. -/
def plinkOf : Ctx ℕ → Plink
  | .top => .root
  | .under d _ p _ _ => .child d p

/-- `rb_link` puts a red leaf into a hole. -/
theorem rbLink_spec {nd : ℕ} (hs : Repr m₀ s (k.fill nil)) (hn : IsNode nd)
    (hnew : nd ∉ (k.fill nil).inorder) : ∃ s', rbLink s nd (above k) (plinkOf k) = .ok s' ∧
      Repr m₀ s' (k.fill (branch .left .red nd nil nil)) := by
  have hp := above_even hs.focus.1
  obtain ⟨-, hnk, -⟩ := Ctx.nodup_fill.mp hs.nodup
  have hndk : nd ∉ k.elems := fun h => hnew (Ctx.mem_fill.mpr (Or.inr h))
  have hmem : ∀ b, b ∈ (branch .left .red nd nil nil).inorder ↔ b = nd := fun b => by
    simp [branch]
  have hnt : (k.fill (branch .left .red nd nil nil)).inorder.Nodup :=
    Ctx.nodup_fill.mpr ⟨List.nodup_singleton nd, hnk, fun b hb => (hmem b).mp hb ▸ hndk⟩
  have e₁ := store_eq (s := s) hn ⟨0, 0, above k⟩
  have hk₁ : RepCtx (s.set nd ⟨0, 0, above k⟩).mem (s.set nd ⟨0, 0, above k⟩).root k 0 :=
    hs.focus.1.congr fun b hb => set_other _ fun e => hndk (e ▸ hb)
  -- the link from above
  obtain ⟨s₂, e₂, hk₂, f₂⟩ : ∃ s₂, rbLink s nd (above k) (plinkOf k) = .ok s₂ ∧
      RepCtx s₂.mem s₂.root k nd ∧
      ∀ b, b ∉ k.elems → s₂.mem b = (s.set nd ⟨0, 0, above k⟩).mem b := by
    cases k with
    | top =>
      refine ⟨{ s.set nd ⟨0, 0, above .top⟩ with root := nd }, ?_, rfl, fun b hb => rfl⟩
      simp only [rbLink, e₁, ok_bind, plinkOf]
    | under d c p u k =>
      obtain ⟨s₂, e₂, hk₂, f₂⟩ := relink_spec nd hk₁ hnk
      refine ⟨s₂, ?_, hk₂, fun b hb => f₂ b fun e => hb (Ctx.mem_elems_under.mpr (Or.inl e))⟩
      simp only [rbLink, e₁, ok_bind, plinkOf, e₂]
  refine ⟨s₂, e₂, Repr.of_focus (by rw [ptr_branch]; exact hk₂) ?_ hnt fun b hb => ?_⟩
  · refine rep_branch.mpr ⟨hn, ?_, trivial, trivial⟩
    rw [f₂ nd hndk, set_self]
    rfl
  · rw [Ctx.mem_fill, hmem, not_or] at hb
    rw [f₂ b hb.2, set_other _ hb.1]
    refine hs.rest b fun h => ?_
    rcases Ctx.mem_fill.mp h with h | h
    · cases h
    · exact hb.2 h

/-- Linking and inserting a fresh node into a hole of a red-black tree: the tree is one again, with
    the node in the place of the hole. -/
theorem rbLinkInsert_spec {nd : ℕ} (hs : Repr m₀ s (k.fill nil)) (hv : (k.fill nil).Valid)
    (hn : IsNode nd) (hnew : nd ∉ (k.fill nil).inorder) :
    ∃ s₁ s' T, rbLink s nd (above k) (plinkOf k) = .ok s₁ ∧ rbInsert s₁ nd = .ok s' ∧
      Repr m₀ s' T ∧ T.Valid ∧ T.inorder = k.pre ++ nd :: k.post := by
  obtain ⟨n, hk, hb, -⟩ := Ctx.valid_fill_iff.mp hv
  obtain rfl : n = 0 := hb
  obtain ⟨s₁, e₁, h₁⟩ := rbLink_spec hs hn hnew
  obtain ⟨s', T, e, h⟩ := rbInsert_spec h₁ hk
  exact ⟨s₁, s', T, e₁, e, h⟩

end FilesKernel.RbTree
