import FilesKernel.Balloc.Model
import FilesKernel.LinkedList.Rings
import FilesKernel.RbTree.Order

/-! The pool and the two trees.

    Every node is on the free list, in one of the trees, or in the hands of the running function.
    `Holds c s L T` says that the pool is `L` and the trees are `T`; a node in hand is `Loose`. -/

namespace FilesKernel.Balloc
open CExec RbTree LinkedList RedBlack

variable {c : Image} {s : BallocState} {L : List ℕ} {T : RangeTree → ColorTree ℕ} {t : RangeTree}
  {A B : List ℕ} {a : ℕ}

structure Holds (c : Image) (s : BallocState) (L : List ℕ) (T : RangeTree → ColorTree ℕ) : Prop where
  pool : OnRing s.heads c.ballocFreeList L
  trees : ∀ t, Repr (s.tree t).mem (s.tree t) (T t)
  valid : ∀ t, (T t).Valid
  nodes : ∀ a ∈ L, IsNode a
  apart : ∀ t, ∀ a ∈ (T t).inorder, a ∉ c.ballocFreeList :: L
  disjoint : ∀ t t', t' ≠ t → ∀ a ∈ (T t).inorder, a ∉ (T t').inorder

/-- A node that is neither in the pool nor in a tree. -/
structure Loose (c : Image) (L : List ℕ) (T : RangeTree → ColorTree ℕ) (a : ℕ) : Prop where
  node : IsNode a
  pool : a ∉ c.ballocFreeList :: L
  trees : ∀ t, a ∉ (T t).inorder

/-! ### Access -/

section
variable (s : BallocState) (rb : RbState) (m : Heads ℕ) (a : ℕ) (r : Spans.Span ℕ) (t : RangeTree)

@[simp] theorem mem_tree : (s.tree t).mem = s.links := rfl
@[simp] theorem root_tree : (s.tree t).root = s.root t := rfl
@[simp] theorem heads_setHeads : (s.setHeads m).heads = m := rfl
@[simp] theorem root_setHeads : (s.setHeads m).root t = s.root t := by cases t <;> rfl
@[simp] theorem range_setHeads : (s.setHeads m).range = s.range := rfl
@[simp] theorem range_setTree : (s.setTree rb t).range = s.range := by cases t <;> rfl
@[simp] theorem links_setTree : (s.setTree rb t).links = rb.mem := by cases t <;> rfl
@[simp] theorem root_setTree : (s.setTree rb t).root t = rb.root := by cases t <;> rfl
@[simp] theorem links_setRange : (s.setRange a r).links = s.links := rfl
@[simp] theorem root_setRange : (s.setRange a r).root t = s.root t := by cases t <;> rfl
@[simp] theorem range_setRange : (s.setRange a r).range = Function.update s.range a r := rfl

theorem root_setTree_of_ne {t t' : RangeTree} (h : t' ≠ t) :
    (s.setTree rb t).root t' = s.root t' := by
  cases t <;> cases t' <;> first | rfl | exact absurd rfl h

theorem links_setHeads {m : Heads ℕ} {a : ℕ} (h : m a = s.heads a) :
    (s.setHeads m).links a = s.links a := by
  simp only [BallocState.setHeads, h, BallocState.heads]

end

theorem Loose.ne (h : Loose c L T a) : a ≠ 0 := h.node.ne

theorem Holds.setRange (h : Holds c s L T) (a : ℕ) (r : Spans.Span ℕ) :
    Holds c (s.setRange a r) L T :=
  ⟨h.pool, fun t => (h.trees t).congr (root_setRange s a r t) fun _ _ => rfl, h.valid, h.nodes,
    h.apart, h.disjoint⟩

/-- A tree operation that keeps to nodes of its own tree and to loose ones. -/
theorem Holds.setTree {rb : RbState} {T' : ColorTree ℕ} (h : Holds c s L T)
    (hrb : Repr (s.tree t).mem rb T') (hv : T'.Valid) (hpool : ∀ a ∈ T'.inorder, a ∉ c.ballocFreeList :: L)
    (hdis : ∀ t', t' ≠ t → ∀ a ∈ T'.inorder, a ∉ (T t').inorder) :
    Holds c (s.setTree rb t) L (Function.update T t T') := by
  have hlinks : ∀ b, b ∉ T'.inorder → (s.setTree rb t).links b = s.links b := fun b hb => by
    rw [links_setTree, hrb.rest b hb, mem_tree]
  refine ⟨?_, fun t' => ?_, fun t' => ?_, h.nodes, fun t' => ?_, fun t₁ t₂ hne => ?_⟩
  · refine h.pool.congr fun b hb => ?_
    rw [BallocState.heads, hlinks b fun hb' => hpool b hb' hb, BallocState.heads]
  · rcases eq_or_ne t' t with rfl | hne
    · rw [Function.update_self]
      have hroot : ((s.setTree rb t').tree t').root = rb.root := root_setTree s rb t'
      exact hrb.refl.congr hroot fun b _ => by rw [BallocState.tree, links_setTree]
    · rw [Function.update_of_ne hne]
      refine (h.trees t').congr (root_setTree_of_ne s rb hne) fun b hb => hlinks b fun hb' => ?_
      exact hdis t' hne b hb' hb
  · rcases eq_or_ne t' t with rfl | hne
    · rwa [Function.update_self]
    · rw [Function.update_of_ne hne]; exact h.valid t'
  · rcases eq_or_ne t' t with rfl | hne
    · rwa [Function.update_self]
    · rw [Function.update_of_ne hne]; exact h.apart t'
  · intro b hb hb'
    rcases eq_or_ne t₁ t with rfl | h₁
    · rw [Function.update_self] at hb
      rw [Function.update_of_ne hne] at hb'
      exact hdis t₂ hne b hb hb'
    · rw [Function.update_of_ne h₁] at hb
      rcases eq_or_ne t₂ t with rfl | h₂
      · rw [Function.update_self] at hb'
        exact hdis t₁ h₁ b hb' hb
      · rw [Function.update_of_ne h₂] at hb'
        exact h.disjoint t₁ t₂ hne b hb hb'

/-- A list operation that keeps to the pool and to loose nodes. -/
theorem Holds.setHeads {m : Heads ℕ} {L' : List ℕ} (h : Holds c s L T)
    (hm : OnRing m c.ballocFreeList L') (hrest : ∀ t, ∀ b ∈ (T t).inorder, m b = s.heads b)
    (hnodes : ∀ a ∈ L', IsNode a) (hapart : ∀ t, ∀ a ∈ (T t).inorder, a ∉ c.ballocFreeList :: L') :
    Holds c (s.setHeads m) L' T := by
  refine ⟨hm, fun t => ?_, h.valid, hnodes, hapart, h.disjoint⟩
  exact (h.trees t).congr (root_setHeads s m t) fun b hb => links_setHeads s (hrest t b hb)

/-! ### Operations -/

/-- The stop of a function that needs a node and finds none. -/
def noNode : Stop :=
  .bug "list_empty(&balloc_free_list) && \"Please, increase BALLOC_MAX_RANGES constant\""

theorem ballocAllocNode_nil (h : Holds c s [] T) : ballocAllocNode c s = .error noNode := by
  simp only [ballocAllocNode, listEmpty_spec h.pool, ok_bind]
  rw [bugOn_true (by simp), error_bind]
  rfl

theorem ballocAllocNode_cons {nd : ℕ} (h : Holds c s (nd :: L) T) : ∃ s',
    ballocAllocNode c s = .ok (s', nd) ∧ Holds c s' L T ∧ Loose c L T nd ∧
      s'.range = s.range ∧ ∀ t, s'.root t = s.root t := by
  have hhead : c.ballocFreeList ≠ 0 := h.pool.nonnull _ List.mem_cons_self
  obtain ⟨m, e, hm, f⟩ := listDel_spec (A := []) h.pool
  have hfirst : (s.heads c.ballocFreeList).next = nd := h.pool.ring.next_head
  have hnd : (c.ballocFreeList :: nd :: L).Nodup := h.pool.ring.nodup
  have hloose : Loose c L T nd := by
    refine ⟨h.nodes nd List.mem_cons_self, ?_, fun t hb => h.apart t nd hb (by simp)⟩
    rw [List.nodup_cons, List.nodup_cons, List.mem_cons, not_or] at hnd
    rw [List.mem_cons, not_or]
    exact ⟨fun e => hnd.1.1 e.symm, hnd.2.1⟩
  refine ⟨s.setHeads m, ?_, h.setHeads hm ?_ ?_ ?_, hloose, rfl, root_setHeads s m⟩
  · simp only [ballocAllocNode, listEmpty_spec h.pool, ok_bind]
    rw [bugOn_false (by simp), ok_bind, load_eq hhead, ok_bind, hfirst, e, ok_bind]
  · intro t b hb
    exact f b (h.apart t b hb)
  · intro b hb
    exact h.nodes b (List.mem_cons_of_mem nd hb)
  · intro t b hb hb'
    refine h.apart t b hb ?_
    rcases List.mem_cons.mp hb' with rfl | hb'
    · exact List.mem_cons_self
    · simp [hb']

theorem ballocFreeNode_spec (h : Holds c s L T) (ha : Loose c L T a) : ∃ s',
    ballocFreeNode c s a = .ok s' ∧ Holds c s' (a :: L) T ∧ s'.range = s.range ∧
      ∀ t, s'.root t = s.root t := by
  obtain ⟨m, e, hm, f⟩ := listAdd_spec h.pool ha.pool ha.ne
  refine ⟨s.setHeads m, ?_, h.setHeads hm ?_ ?_ ?_, rfl, root_setHeads s m⟩
  · rw [ballocFreeNode, e, ok_bind]
  · intro t b hb
    exact f b (h.apart t b hb) fun e => ha.trees t (e ▸ hb)
  · intro b hb
    rcases List.mem_cons.mp hb with rfl | hb
    · exact ha.node
    · exact h.nodes b hb
  · intro t b hb hb'
    have hba : b ≠ a := fun e => ha.trees t (e ▸ hb)
    refine h.apart t b hb ?_
    simp only [List.mem_cons] at hb' ⊢
    tauto

theorem eraseNode_spec (h : Holds c s L T) (hT : (T t).inorder = A ++ a :: B) : ∃ s' T',
    eraseNode s t a = .ok s' ∧ Holds c s' L (Function.update T t T') ∧
      Loose c L (Function.update T t T') a ∧ T'.inorder = A ++ B ∧ s'.range = s.range := by
  obtain ⟨rb, T', e, h', hv, hin⟩ := rbErase_at (h.trees t) (h.valid t) hT
  have hsub : ∀ b ∈ T'.inorder, b ∈ (T t).inorder := fun b hb => by
    rw [hin, List.mem_append] at hb
    rw [hT, List.mem_append, List.mem_cons]
    tauto
  have hamem : a ∈ (T t).inorder := by rw [hT]; simp
  have ha : a ∉ T'.inorder := by
    have hn := (h.trees t).nodup
    rw [hT, List.nodup_middle, List.nodup_cons] at hn
    rw [hin]; exact hn.1
  refine ⟨s.setTree rb t, T', ?_, h.setTree h' hv (fun b hb => h.apart t b (hsub b hb))
    fun t' hne b hb => h.disjoint t t' hne b (hsub b hb), ?_, hin, range_setTree s rb t⟩
  · rw [eraseNode, e, ok_bind]
  · refine ⟨(h.trees t).isNode a hamem, h.apart t a hamem, fun t' => ?_⟩
    rcases eq_or_ne t' t with rfl | hne
    · rwa [Function.update_self]
    · rw [Function.update_of_ne hne]
      exact h.disjoint t t' hne a hamem

theorem insertNode_spec {k : Ctx ℕ} (h : Holds c s L T) (hT : T t = k.fill .nil)
    (ha : Loose c L T a) : ∃ s' T', insertNode s t a (above k) (plinkOf k) = .ok s' ∧
      Holds c s' L (Function.update T t T') ∧ T'.inorder = k.pre ++ a :: k.post ∧
      s'.range = s.range := by
  have hr := h.trees t
  have hv := h.valid t
  have hfresh := ha.trees t
  rw [hT] at hr hv hfresh
  obtain ⟨rb, rb', T', e, e', h', hv', hin⟩ := rbLinkInsert_spec hr hv ha.node hfresh
  have hcases : ∀ b ∈ T'.inorder, b = a ∨ b ∈ (T t).inorder := fun b hb => by
    rw [hin, List.mem_append, List.mem_cons] at hb
    rw [hT, Ctx.inorder_fill, List.mem_append, List.mem_append]
    tauto
  refine ⟨s.setTree rb' t, T', ?_, h.setTree h' hv' (fun b hb => ?_) fun t' hne b hb => ?_, hin,
    range_setTree s rb' t⟩
  · rw [insertNode, e, ok_bind, e', ok_bind]
  · rcases hcases b hb with rfl | hb
    · exact ha.pool
    · exact h.apart t b hb
  · rcases hcases b hb with rfl | hb
    · exact ha.trees t'
    · exact h.disjoint t t' hne b hb

end FilesKernel.Balloc
