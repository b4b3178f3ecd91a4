import FilesKernel.Balloc.Pool
import FilesKernel.Balloc.Joins

/-! The two searches of the allocator.

    Both go down from the root along a predicate that holds of an initial part of the nodes, so they
    end in the hole between that part and the rest. -/

namespace FilesKernel.Balloc
open CExec RbTree LinkedList RedBlack Spans

variable {c : Image} {s : BallocState} {L : List ℕ} {T : RangeTree → ColorTree ℕ} {t : RangeTree} {b : ℕ}

/-- The ranges of the nodes of a tree, in order. -/
def BallocState.ranges (s : BallocState) (T : ColorTree ℕ) : List (Span ℕ) := T.inorder.map s.range

/-- The free addresses of a state. -/
def freeSet (s : BallocState) (T : RangeTree → ColorTree ℕ) : Set ℕ := cover (s.ranges (T .freeRanges))

theorem plinkNode_spec {m₀ : Links} {rb : RbState} {k : Ctx ℕ} {u : ColorTree ℕ}
    (h : Repr m₀ rb (k.fill u)) : plinkNode rb (plinkOf k) = .ok (ptr u) := by
  cases k with
  | top => exact congrArg Except.ok h.root
  | under d c p v k =>
    rw [Ctx.fill_under] at h
    obtain ⟨hp, hm, -⟩ := h.node
    rw [plinkOf, plinkNode, load_eq hp, ok_bind, hm, child_cell]

/-- The first search: where a range that begins at `b` is linked. -/
theorem ballocPlace_spec (h : Holds c s L T) (hv : Valid (s.ranges (T t))) :
    ∃ k, loop (ballocPlaceBody s t b) maxSteps (0, .root) = .ok (above k, plinkOf k) ∧
      T t = k.fill .nil ∧ Ctx.Splits (fun a => (s.range a).begin < b) k := by
  have hmono : (T t).inorder.Pairwise fun x y => (s.range y).begin < b → (s.range x).begin < b := by
    refine List.Pairwise.of_map s.range ?_ hv.begins
    intro x y hxy hy
    exact lt_trans hxy hy
  have hr := h.trees t
  let I (n : ℕ) (r : ℕ × Plink) : Prop := ∃ k u, n = u.inorder.length ∧ T t = Ctx.fill k u ∧
    r = (above k, plinkOf k) ∧ Ctx.Splits (fun a => (s.range a).begin < b) k
  have hbody : ∀ n r, I n r →
      (∃ r', ballocPlaceBody s t b r = .ok (.inl r') ∧ ∃ n' < n, I n' r') ∨
        ∃ r', ballocPlaceBody s t b r = .ok (.inr r') ∧ ∃ k, r' = (above k, plinkOf k) ∧
          T t = Ctx.fill k .nil ∧ Ctx.Splits (fun a => (s.range a).begin < b) k := by
    rintro n r ⟨k, u, rfl, hT, rfl, hk⟩
    rw [hT] at hr hmono
    rw [ballocPlaceBody, plinkNode_spec hr, ok_bind]
    cases u with
    | nil => exact Or.inr ⟨_, if_pos rfl, k, rfl, hT, hk⟩
    | node col l a r =>
      left
      have ha : ptr (.node col l a r) = a := rfl
      have ha0 : a ≠ 0 := (hr.node (d := .left)).1.ne
      have hlen : (ColorTree.node col l a r).inorder.length =
          l.inorder.length + (r.inorder.length + 1) := by
        simp
      rw [ha, if_neg ha0]
      by_cases hlt : (s.range a).begin < b
      · refine ⟨_, if_pos hlt, r.inorder.length, by omega, .under .right col a l k, r, rfl, ?_, rfl,
          hk.right hmono hlt⟩
        exact hT
      · refine ⟨_, if_neg hlt, l.inorder.length, by omega, .under .left col a r k, l, rfl, ?_, rfl,
          hk.left hmono hlt⟩
        exact hT
  have hfuel : (T t).inorder.length < maxSteps := by
    have := hr.length_lt
    omega
  obtain ⟨r, e, k, rfl, hT, hk⟩ := loop_spec hbody hfuel ⟨.top, T t, rfl, rfl, rfl, .top _⟩
  exact ⟨k, e, hT, hk⟩

/-- The second search: the first range that ends behind `b`. -/
theorem ballocFirst_spec (h : Holds c s L T) (hv : Valid (s.ranges (T t))) :
    ∃ X Y, ballocFirst s t b = .ok (Y.headD 0) ∧ (T t).inorder = X ++ Y ∧
      (∀ a ∈ X, (s.range a).stop ≤ b) ∧ ∀ a ∈ Y, b < (s.range a).stop := by
  have hmono : (T t).inorder.Pairwise fun x y => (s.range y).stop ≤ b → (s.range x).stop ≤ b := by
    refine List.Pairwise.of_map s.range ?_ hv.stops
    intro x y hxy hy
    exact hxy.le.trans hy
  have hr := h.trees t
  let I (n : ℕ) (r : ℕ × ℕ) : Prop := ∃ k u, n = u.inorder.length ∧ T t = Ctx.fill k u ∧
    r = (ptr u, k.post.headD 0) ∧ Ctx.Splits (fun a => (s.range a).stop ≤ b) k
  have hbody : ∀ n r, I n r →
      (∃ r', ballocFirstBody s t b r = .ok (.inl r') ∧ ∃ n' < n, I n' r') ∨
        ∃ p, ballocFirstBody s t b r = .ok (.inr p) ∧ ∃ k, p = k.post.headD 0 ∧
          T t = Ctx.fill k .nil ∧ Ctx.Splits (fun a => (s.range a).stop ≤ b) k := by
    rintro n r ⟨k, u, rfl, hT, rfl, hk⟩
    rw [hT] at hr hmono
    rw [ballocFirstBody]
    cases u with
    | nil => exact Or.inr ⟨_, if_pos rfl, k, rfl, hT, hk⟩
    | node col l a r =>
      left
      have ha : ptr (.node col l a r) = a := rfl
      obtain ⟨hn, hm, -⟩ := hr.node (d := .left)
      have hlen : (ColorTree.node col l a r).inorder.length =
          l.inorder.length + (r.inorder.length + 1) := by
        simp
      rw [ha, if_neg hn.ne, load_eq hn, ok_bind, hm]
      by_cases hgt : (s.range a).stop > b
      · refine ⟨_, if_pos hgt, l.inorder.length, by omega, .under .left col a r k, l, rfl, ?_, rfl,
          hk.left hmono (not_le.mpr hgt)⟩
        exact hT
      · refine ⟨_, if_neg hgt, r.inorder.length, by omega, .under .right col a l k, r, rfl, ?_, rfl,
          hk.right hmono (not_lt.mp hgt)⟩
        exact hT
  have hfuel : (T t).inorder.length < maxSteps := by
    have := hr.length_lt
    omega
  have hstart : I (T t).inorder.length (s.root t, 0) :=
    ⟨.top, T t, rfl, rfl, by rw [← hr.root]; rfl, .top _⟩
  obtain ⟨p, e, k, rfl, hT, hk⟩ := loop_spec hbody hfuel hstart
  refine ⟨k.pre, k.post, e, ?_, hk.pre, fun a ha => not_le.mp (hk.post a ha)⟩
  rw [hT, Ctx.inorder_fill]
  rfl

end FilesKernel.Balloc
