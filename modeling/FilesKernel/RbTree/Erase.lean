import FilesKernel.RbTree.EraseFix
import FilesKernel.RbTree.Walk

/-! Erasure.

    A node with at most one child gives its place to that child. A node with two gives it, with its
    colour, to its successor, whose right child goes up in turn. Either way a node with at most one
    child has been unlinked, and if it was black its child is one short. -/

namespace FilesKernel.RbTree
open CExec RedBlack
open RedBlack.ColorTree hiding node

variable {m₀ : Links} {s : RbState} {k : Ctx ℕ}

/-- Before the link from above is changed: the context still leads to `a`, whose memory is as it was,
    and `w` is ready to take its place. -/
structure Detached (s s' : RbState) (k : Ctx ℕ) (t : ColorTree ℕ) (a : ℕ) (w : ColorTree ℕ) : Prop where
  ctx : RepCtx s'.mem s'.root k a
  sub : Rep s'.mem (above k) w
  old : s'.mem a = s.mem a
  rest : ∀ b, b ∉ (k.fill t).inorder → s'.mem b = s.mem b

/-- The link from above then makes the tree with `w` in the place of `a`. -/
theorem Detached.replace {s' : RbState} {t w : ColorTree ℕ} {a : ℕ} {l₁ l₂ : List ℕ}
    (hs : Repr m₀ s (k.fill t)) (h : Detached s s' k t a w) (ha : IsNode a)
    (ht : t.inorder = l₁ ++ a :: l₂) (hw : w.inorder = l₁ ++ l₂) :
    ∃ s'', replaceChild s' (above k) a (ptr w) = .ok s'' ∧
      Repr (Function.update m₀ a (s.mem a)) s'' (k.fill w) := by
  obtain ⟨hnt, hnk, hdis⟩ := Ctx.nodup_fill.mp hs.nodup
  have hmem : ∀ b, b ∈ t.inorder ↔ b = a ∨ b ∈ w.inorder := fun b => by
    rw [ht, hw]
    simp only [List.mem_append, List.mem_cons]
    tauto
  rw [ht, List.nodup_middle, ← hw, List.nodup_cons] at hnt
  have hak : a ∉ k.elems := hdis a ((hmem a).mpr (Or.inl rfl))
  have hwk : ∀ b ∈ w.inorder, b ∉ k.elems := fun b hb => hdis b ((hmem b).mpr (Or.inr hb))
  obtain ⟨s'', e, hk'', f⟩ := replaceChild_spec (ptr w) h.ctx ha.ne hak hnk
  refine ⟨s'', e, Repr.of_focus hk'' ?_ ?_ ?_⟩
  · exact h.sub.congr fun b hb => f b (hwk b hb)
  · exact Ctx.nodup_fill.mpr ⟨hnt.2, hnk, hwk⟩
  · intro b hb
    rw [Ctx.mem_fill, not_or] at hb
    rw [f b hb.2]
    by_cases hba : b = a
    · rw [hba, Function.update_self, h.old]
    · have hbt : b ∉ (k.fill t).inorder := by
        rw [Ctx.mem_fill, hmem b]; tauto
      rw [Function.update_of_ne hba, h.rest b hbt, hs.rest b hbt]

/-- What is left of `rb_erase` once the link from above has been changed. -/
theorem fix_spec {c : Color} {t : ColorTree ℕ} (hs : Repr m₀ s (k.fill t))
    (h : (c = .red ∧ (k.fill t).Valid) ∨ (c = .black ∧ ∃ h, k.Balanced (h + 1) ∧ t.Balanced h)) :
    ∃ s' T, (if c = .black then rbEraseFix s (ptr t) (above k) else .ok s : Exec RbState) =
      .ok s' ∧ Repr m₀ s' T ∧ T.Valid ∧ T.inorder = (k.fill t).inorder := by
  rcases h with ⟨rfl, hv⟩ | ⟨rfl, h, hk, ht⟩
  · exact ⟨s, _, rfl, hs, hv, rfl⟩
  · exact rbEraseFix_spec hs hk (short_of_balanced ht)

/-! ### One child -/

/-- The child of a node without one of them goes below the node's parent. -/
theorem rbEraseOne_spec {d : Side} {c : Color} {a : ℕ} {w : ColorTree ℕ}
    (hs : Repr m₀ s (k.fill (branch d c a w nil))) :
    ∃ s', rbEraseOne s (s.mem a) = .ok (s', above k, ptr w, ptr w, c) ∧
      Detached s s' k (branch d c a w nil) a w := by
  obtain ⟨ha, hm, hp⟩ := hs.node
  obtain ⟨hk, hb⟩ := hs.focus
  rw [ptr_branch] at hk
  obtain ⟨-, -, hw, -⟩ := rep_branch.mp hb
  obtain ⟨hnt, hnk, hdis⟩ := Ctx.nodup_fill.mp hs.nodup
  obtain ⟨haw, -, hnw, -, -⟩ := nodup_branch.mp hnt
  have hwk : ∀ b ∈ w.inorder, b ∉ k.elems := fun b hb =>
    hdis b (mem_branch.mpr (Or.inr (Or.inl hb)))
  obtain ⟨s', e, hroot, hw', f⟩ := setParentIf_spec hw hnw ha.even hp
  refine ⟨s', ?_, ?_, hw', f a haw, fun b hb => f b fun hbw => hb ?_⟩
  · have hchild : (if (s.mem a).left ≠ 0 then (s.mem a).left else (s.mem a).right) = ptr w := by
      rw [hm]
      cases d with
      | left =>
        by_cases h0 : ptr w = 0
        · simp [cell, Side.pick, h0]
        · simp [cell, Side.pick, h0]
      | right => simp [cell, Side.pick]
    have hpar : rbParent (s.mem a) = above k := by rw [hm]; exact rbParent_cell hp _
    have hcol : rbColor (s.mem a) = c := by rw [hm]; exact rbColor_cell hp _
    simp only [rbEraseOne, hchild, hpar, hcol, e, ok_bind]
  · rw [hroot]
    exact hk.congr fun b hb => f b fun hbw => hwk b hbw hb
  · exact Ctx.mem_fill.mpr (Or.inl (mem_branch.mpr (Or.inr (Or.inl hbw))))

/-! ### Two children -/

/-- The successor is the leftmost node on the right. -/
theorem rbNext_along {c cx : Color} {a x : ℕ} {l xr : ColorTree ℕ} (k' : Ctx ℕ)
    (hk' : Ctx.Along .left k')
    (hs : Repr m₀ s (k.fill (.node c l a (k'.fill (branch .left cx x nil xr))))) :
    rbNext s a = .ok x := by
  have h : (k'.fill (branch .left cx x nil xr)).inorder.head? = some x := hk'.head cx x xr
  rw [rbNext_spec hs, List.head?_append, h]
  rfl

/-- The successor is the right child: it takes over the left subtree, the colour and the parent. -/
theorem rbEraseTwo_near {c cx : Color} {a x : ℕ} {l xr : ColorTree ℕ} (hl : l ≠ nil)
    (hs : Repr m₀ s (k.fill (branch .left c a l (branch .left cx x nil xr)))) :
    ∃ s', rbEraseTwo s a (s.mem a) = .ok (s', x, ptr xr, x, cx) ∧
      Detached s s' k (branch .left c a l (branch .left cx x nil xr)) a (branch .left c x l xr) := by
  obtain ⟨ha, hm, hp⟩ := hs.node
  obtain ⟨hk, hb⟩ := hs.focus
  rw [ptr_branch] at hk hm
  obtain ⟨-, -, hl', hx⟩ := rep_branch.mp hb
  obtain ⟨nx, mx, -, hxr⟩ := rep_branch.mp hx
  obtain ⟨hnt, hnk, hdis⟩ := Ctx.nodup_fill.mp hs.nodup
  simp only [mem_branch, inorder_nil, List.not_mem_nil, false_or] at hdis
  obtain ⟨hal, hax, hnl, hnx, hlx⟩ := nodup_branch.mp hnt
  obtain ⟨-, hxxr, -, -, -⟩ := nodup_branch.mp hnx
  simp only [mem_branch, inorder_nil, List.not_mem_nil, false_or, not_or] at hax hlx
  have hxl : x ∉ l.inorder := fun h => (hlx x h).1 rfl
  have hl0 : ptr l ≠ 0 := fun h => hl (hl'.ptr_eq_zero.mp h)
  have e₁ := store_eq (s := s) nx ⟨ptr l, ptr xr, above k + bit c⟩
  have hl₁ : Rep (s.set x ⟨ptr l, ptr xr, above k + bit c⟩).mem a l :=
    hl'.congr fun b hb => set_other _ fun e => hxl (e ▸ hb)
  obtain ⟨s₂, e₂, hroot, hl₂, f₂⟩ := setParentIf_spec hl₁ hnl ha.even nx.even
  have f : ∀ b, b ∉ l.inorder → b ≠ x → s₂.mem b = s.mem b := fun b hb hbx => by
    rw [f₂ b hb, set_other _ hbx]
  refine ⟨s₂, ?_, ?_, rep_branch.mpr ⟨nx, ?_, hl₂, ?_⟩, f a hal (fun e => hax.1 e), ?_⟩
  · have hnext : rbNext s a = .ok x := rbNext_along .top trivial hs
    have hcol : rbColor (s.mem x) = cx := by rw [mx]; exact rbColor_cell ha.even _
    have hright : (s.mem x).right = ptr xr := by rw [mx]; rfl
    have hleft : (s.mem a).left = ptr l := by rw [hm]; rfl
    have har : (s.mem a).right = x := by rw [hm]; rfl
    have hparent : (s.mem a).parent = above k + bit c := by rw [hm]; rfl
    rw [setParentIf, if_neg hl0] at e₂
    simp only [rbEraseTwo, hnext, ok_bind, load_eq nx, hcol, har, if_pos, hleft, hparent, hright, e₁,
      e₂]
  · rw [hroot]
    refine hk.congr fun b hb => f b (fun h => hdis b (by simp [h]) hb) fun h => ?_
    exact hdis b (by simp [h]) hb
  · rw [f₂ x hxl, set_self]
    rfl
  · exact hxr.congr fun b hb => f b (fun h => (hlx b h).2 hb) fun e => hxxr (e ▸ hb)
  · intro b hb
    rw [Ctx.mem_fill, mem_branch, mem_branch, not_or, not_or, not_or, not_or] at hb
    exact f b hb.1.2.1 hb.1.2.2.1

/-- A hole below a node does not show at the root. -/
theorem ptr_fill_branch : ∀ {k : Ctx ℕ} {d : Side} {c : Color} {a : ℕ} {t t' u : ColorTree ℕ},
    ptr (k.fill (branch d c a t u)) = ptr (k.fill (branch d c a t' u))
  | .top, d, c, a, t, t', u => by rw [Ctx.fill_top, Ctx.fill_top, ptr_branch, ptr_branch]
  | .under e c' b v k, d, c, a, t, t', u => by
      rw [Ctx.fill_under, Ctx.fill_under]
      exact ptr_fill_branch

/-- The successor `x` lies further down: its right child goes up to `x`'s parent `p`, and `x` takes
    over both subtrees, the colour and the parent. -/
theorem rbEraseTwo_far {c c₁ cx : Color} {a x p : ℕ} {l xr u : ColorTree ℕ} {k' : Ctx ℕ} (hl : l ≠ nil)
    (hk' : Ctx.Along .left k')
    (hs : Repr m₀ s (k.fill (branch .left c a l
      (k'.fill (branch .left c₁ p (branch .left cx x nil xr) u))))) :
    ∃ s', rbEraseTwo s a (s.mem a) = .ok (s', p, ptr xr, x, cx) ∧
      Detached s s' k (branch .left c a l
        (k'.fill (branch .left c₁ p (branch .left cx x nil xr) u))) a
        (branch .left c x l (k'.fill (branch .left c₁ p xr u))) := by
  obtain ⟨K, hKdef⟩ : ∃ K, K = k'.comp (.under .right c a l k) := ⟨_, rfl⟩
  have hK : ∀ t, (Ctx.under .left c₁ p u K).fill t =
      k.fill (branch .left c a l (k'.fill (branch .left c₁ p t u))) := fun t => by
    rw [Ctx.fill_under, hKdef, Ctx.fill_comp, Ctx.fill_under]
    rfl
  obtain ⟨ha, hm, hp⟩ := hs.node
  have hsx := hs
  rw [← hK] at hsx
  obtain ⟨nx, mx, -⟩ := hsx.node
  obtain ⟨hkx, hbx⟩ := hsx.focus
  rw [ptr_branch] at hkx
  have np : IsNode p := hkx.1
  obtain ⟨-, -, -, hxr⟩ := rep_branch.mp hbx
  -- what is distinct around `x` now, and around `a` once `x` has been taken out
  obtain ⟨hnx, hnK, hdisx⟩ := Ctx.nodup_fill.mp hsx.nodup
  simp only [mem_branch, inorder_nil, List.not_mem_nil, false_or] at hdisx
  obtain ⟨-, hxxr, -, hnxr, -⟩ := nodup_branch.mp hnx
  have hxK : x ∉ (Ctx.under .left c₁ p u K).elems := hdisx x (Or.inl rfl)
  have hpK : p ∈ (Ctx.under .left c₁ p u K).elems := Ctx.mem_elems_under.mpr (Or.inl rfl)
  have hpx : p ≠ x := fun e => hxK (e ▸ hpK)
  have hpxr : p ∉ xr.inorder := fun h => hdisx p (Or.inr h) hpK
  have hxT : x ∉ ((Ctx.under .left c₁ p u K).fill xr).inorder := by
    rw [Ctx.mem_fill]; exact not_or.mpr ⟨hxxr, hxK⟩
  have hnT : ((Ctx.under .left c₁ p u K).fill xr).inorder.Nodup :=
    Ctx.nodup_fill.mpr ⟨hnxr, hnK, fun b hb => hdisx b (Or.inr hb)⟩
  rw [hK] at hxT hnT
  rw [Ctx.mem_fill, mem_branch, not_or, not_or, not_or] at hxT
  obtain ⟨⟨hxa, hxl, hxR⟩, hxk⟩ := hxT
  obtain ⟨hnt, hnk, hdis⟩ := Ctx.nodup_fill.mp hnT
  simp only [mem_branch] at hdis
  obtain ⟨hal, haR, hnl, hnR, hlR⟩ := nodup_branch.mp hnt
  -- `x` is taken out
  have e₁ := store_eq (s := s) nx (s.mem a)
  have hk₁ : RepCtx (s.set x (s.mem a)).mem (s.set x (s.mem a)).root (.under .left c₁ p u K) x :=
    hkx.congr fun b hb => set_other _ fun e => hxK (e ▸ hb)
  obtain ⟨s₂, e₂, hk₂, f₂⟩ := relink_spec (ptr xr) hk₁ hnK
  have hxr₂ : Rep s₂.mem x xr := hxr.congr fun b hb => by
    have hbx : b ≠ x := fun e => hxxr (e ▸ hb)
    rw [f₂ b fun e => hpxr (e ▸ hb), set_other _ hbx]
  obtain ⟨s₃, e₃, hroot₃, hxr₃, f₃⟩ := setParentIf_spec hxr₂ hnxr nx.even np.even
  have f : ∀ b, b ≠ x → b ≠ p → b ∉ xr.inorder → s₃.mem b = s.mem b := fun b hx hp hr => by
    rw [f₃ b hr, f₂ b hp, set_other _ hx]
  have mx₃ : s₃.mem x = s.mem a := by rw [f₃ x hxxr, f₂ x hpx.symm, set_self]
  have hk₃ : RepCtx s₃.mem s₃.root (.under .left c₁ p u K) (ptr xr) := by
    rw [hroot₃]
    exact hk₂.congr fun b hb => f₃ b fun hbr => hdisx b (Or.inr hbr) hb
  have hT := rep_fill.mpr ⟨hk₃, hxr₃⟩
  rw [hK] at hT
  obtain ⟨hka, hTa⟩ := rep_fill.mp hT
  rw [ptr_branch] at hka
  obtain ⟨-, ma₃, hl₃, hR₃⟩ := rep_branch.mp hTa
  have hptr : ptr (k'.fill (branch .left c₁ p (branch .left cx x nil xr) u)) =
      ptr (k'.fill (branch .left c₁ p xr u)) := ptr_fill_branch
  rw [← hptr, ← hm] at ma₃
  -- and takes over the subtrees of `a`
  obtain ⟨s₄, e₄, hroot₄, hl₄, f₄⟩ := setParentIf_spec hl₃ hnl ha.even nx.even
  have hR₄ := hR₃.congr fun b hb => f₄ b fun h => hlR b h hb
  obtain ⟨s₅, e₅, hroot₅, hR₅, f₅⟩ := setParentIf_spec hR₄ hnR ha.even nx.even
  have f' : ∀ b, b ∉ l.inorder → b ∉ (k'.fill (branch .left c₁ p xr u)).inorder →
      s₅.mem b = s₃.mem b := fun b hbl hbR => by rw [f₅ b hbR, f₄ b hbl]
  refine ⟨s₅, ?_, ?_, rep_branch.mpr ⟨nx, ?_, ?_, hR₅⟩, ?_, ?_⟩
  · have hnext : rbNext s a = .ok x := rbNext_along (.under .left c₁ p u k') ⟨rfl, hk'⟩ hs
    have hcol : rbColor (s.mem x) = cx := by rw [mx]; exact rbColor_cell np.even _
    have hpar : rbParent (s.mem x) = p := by rw [mx]; exact rbParent_cell np.even _
    have hright : (s.mem x).right = ptr xr := by rw [mx]; rfl
    have hleft : (s.mem a).left = ptr l := by rw [hm]; rfl
    have har : (s.mem a).right = ptr (k'.fill (branch .left c₁ p xr u)) := by rw [hm, hptr]; rfl
    have hl0 : ptr l ≠ 0 := fun h => hl (hl₃.ptr_eq_zero.mp h)
    have hR0 : ptr (k'.fill (branch .left c₁ p xr u)) ≠ 0 := fun h => by
      have hpR : p ∈ (k'.fill (branch .left c₁ p xr u)).inorder :=
        Ctx.mem_fill.mpr (Or.inl (mem_branch.mpr (Or.inl rfl)))
      rw [hR₃.ptr_eq_zero.mp h] at hpR
      cases hpR
    have hne : x ≠ ptr (k'.fill (branch .left c₁ p xr u)) := fun e => hxR (e ▸ ptr_mem hR0)
    rw [setParentIf, if_neg hl0] at e₄
    rw [setParentIf, if_neg hR0] at e₅
    simp only [rbEraseTwo, hnext, ok_bind, load_eq nx, hcol, har, if_neg hne, hpar, hleft, hright,
      e₁, e₂, e₃, e₄, e₅]
  · rw [hroot₅, hroot₄]
    refine hka.congr fun b hb => f' b (fun h => ?_) fun h => ?_
    · exact hdis b (Or.inr (Or.inl h)) hb
    · exact hdis b (Or.inr (Or.inr h)) hb
  · rw [f' x hxl hxR, mx₃, hm, hptr]
  · exact hl₄.congr fun b hb => f₅ b (hlR b hb)
  · rw [f' a hal haR, ma₃]
  · intro b hb
    have hbT : b ∉ ((Ctx.under .left c₁ p u K).fill xr).inorder := by
      rw [← hK, Ctx.mem_fill, mem_branch] at hb
      rw [Ctx.mem_fill]
      tauto
    rw [← hK, Ctx.mem_fill, mem_branch, not_or, not_or, not_or] at hb
    obtain ⟨⟨hbx, -, hbr⟩, hbK⟩ := hb
    rw [hK, Ctx.mem_fill, mem_branch, not_or, not_or, not_or] at hbT
    rw [f' b hbT.1.2.1 hbT.1.2.2]
    exact f b hbx (fun e => hbK (e ▸ hpK)) hbr

/-! ### Erasure -/

/-- `rb_erase` of a node of a red-black tree: the tree is one again, the order of the other nodes is
    kept, and off the tree only the erased node counts as changed. -/
theorem rbErase_spec {c : Color} {a : ℕ} {l r : ColorTree ℕ}
    (hs : Repr m₀ s (k.fill (.node c l a r))) (hv : (k.fill (.node c l a r)).Valid) :
    ∃ s' T, rbErase s a = .ok s' ∧ Repr (Function.update m₀ a (s.mem a)) s' T ∧ T.Valid ∧
      T.inorder = k.pre ++ (l.inorder ++ r.inorder) ++ k.post := by
  obtain ⟨n, hk, hb, -⟩ := Ctx.valid_fill_iff.mp hv
  obtain ⟨ha, hm, hp⟩ := Repr.node (d := .left) hs
  have hpar : rbParent (s.mem a) = above k := by rw [hm]; exact rbParent_cell hp _
  have hleft : (s.mem a).left = ptr l := by rw [hm]; rfl
  have hright : (s.mem a).right = ptr r := by rw [hm]; rfl
  have hl : Repr m₀ s ((Ctx.under .left c a r k).fill l) := hs
  have hr : Repr m₀ s ((Ctx.under .right c a l k).fill r) := hs
  -- after the first half: `w` is linked in the place of `a`, and the shortage is at `t`
  have finish : ∀ {s₁ : RbState} {w t : ColorTree ℕ} {K : Ctx ℕ} {col : Color},
      (if (s.mem a).left ≠ 0 ∧ (s.mem a).right ≠ 0 then rbEraseTwo s a (s.mem a)
        else rbEraseOne s (s.mem a)) = .ok (s₁, above K, ptr t, ptr w, col) →
      Detached s s₁ k (.node c l a r) a w → K.fill t = k.fill w →
      w.inorder = l.inorder ++ r.inorder →
      ((col = .red ∧ (K.fill t).Valid) ∨
        (col = .black ∧ ∃ h, K.Balanced (h + 1) ∧ t.Balanced h)) →
      ∃ s' T, rbErase s a = .ok s' ∧ Repr (Function.update m₀ a (s.mem a)) s' T ∧ T.Valid ∧
        T.inorder = k.pre ++ (l.inorder ++ r.inorder) ++ k.post := by
    intro s₁ w t K col e₁ hdet hKt hw hcol
    obtain ⟨s₂, e₂, h₂⟩ := hdet.replace hs ha rfl hw
    rw [← hKt] at h₂
    obtain ⟨s₃, T, e₃, h₃, hT, hin⟩ := fix_spec h₂ hcol
    refine ⟨s₃, T, ?_, h₃, hT, ?_⟩
    · have hpar₁ : rbParent (s₁.mem a) = above k := by rw [hdet.old, hpar]
      simp only [rbErase, load_eq ha, ok_bind, e₁, hpar₁, e₂, e₃]
    · rw [hin, hKt, Ctx.inorder_fill, hw]
      simp
  by_cases hl0 : ptr l = 0
  · obtain rfl := hl.ptr_eq_zero.mp hl0
    obtain ⟨s₁, e₁, hdet⟩ := rbEraseOne_spec (d := .right) hs
    refine finish (K := k) (t := r) ?_ hdet rfl rfl (Ctx.balanced_unlink (d := .right) hk hb)
    rw [if_neg (by rw [hleft]; simp), e₁]
  · by_cases hr0 : ptr r = 0
    · obtain rfl := hr.ptr_eq_zero.mp hr0
      obtain ⟨s₁, e₁, hdet⟩ := rbEraseOne_spec (d := .left) hs
      refine finish (K := k) (t := l) ?_ hdet rfl (by simp)
        (Ctx.balanced_unlink (d := .left) hk hb)
      rw [if_neg (by rw [hright]; simp), e₁]
    · have htwo : (s.mem a).left ≠ 0 ∧ (s.mem a).right ≠ 0 := by
        rw [hleft, hright]; exact ⟨hl0, hr0⟩
      have hlnil : l ≠ nil := fun e => hl0 (by rw [e]; rfl)
      obtain ⟨k', cx, x, xr, rfl, hk'⟩ := Ctx.exists_along .left r fun e => hr0 (by rw [e]; rfl)
      -- the balance around the successor, with the successor in the place of `a`
      have hvx : ((k'.comp (.under .right c a l k)).fill (branch .left cx x nil xr)).Valid := by
        rw [Ctx.fill_comp]; exact hv
      obtain ⟨n, hkx, hbx, -⟩ := Ctx.valid_fill_iff.mp hvx
      have hcol := Ctx.balanced_unlink (d := .right) (Ctx.balanced_comp_under (b := x) hkx).1 hbx
      match k' with
      | .top =>
        obtain ⟨s₁, e₁, hdet⟩ := rbEraseTwo_near hlnil hs
        refine finish (K := .under .right c x l k) (t := xr) ?_ hdet rfl ?_ hcol
        · rw [if_pos htwo]; exact e₁
        · simp [branch]
      | .under e c₁ p u k' =>
        obtain ⟨rfl, hk'⟩ := hk'
        obtain ⟨s₁, e₁, hdet⟩ := rbEraseTwo_far hlnil hk' hs
        refine finish (K := .under .left c₁ p u (k'.comp (.under .right c x l k))) (t := xr) ?_ hdet
          ?_ ?_ hcol
        · rw [if_pos htwo]; exact e₁
        · rw [Ctx.fill_under, Ctx.fill_comp]; rfl
        · have hpre := Ctx.Along.pre_eq_nil (k := .under .left c₁ p u k') ⟨rfl, hk'⟩
          have hR := Ctx.inorder_fill (.under .left c₁ p u k') (branch .left cx x nil xr)
          have hR' := Ctx.inorder_fill (.under .left c₁ p u k') xr
          rw [hpre, List.nil_append] at hR hR'
          rw [hR, branch, inorder_node, ← Ctx.fill_under, hR']
          simp [branch]

end FilesKernel.RbTree
