import FilesKernel.Balloc.Search

/-! Adding a range.

    The new node is linked in between the nodes `A` that begin before it and the nodes `B` that do
    not; then it may take in the last of `A` and the first of `B`, whose nodes go back to the pool.
    What results is the list of ranges that `joined` computes. -/

namespace FilesKernel.Balloc
open CExec RbTree LinkedList RedBlack Spans

variable {c : Image} {s : BallocState} {L : List ℕ} {T : RangeTree → ColorTree ℕ} {t : RangeTree}
  {A B : List ℕ} {nd : ℕ} {b e : ℕ}

/-- Erasing a node of the tree and giving it back. -/
theorem release_spec {a : ℕ} (h : Holds c s L T) (hT : (T t).inorder = A ++ a :: B) : ∃ s₁ s' T',
    eraseNode s t a = .ok s₁ ∧ ballocFreeNode c s₁ a = .ok s' ∧
      Holds c s' (a :: L) (Function.update T t T') ∧ T'.inorder = A ++ B ∧ s'.range = s.range := by
  obtain ⟨s₁, T', e₁, h₁, hloose, hin, hr₁⟩ := eraseNode_spec h hT
  obtain ⟨s₂, e₂, h₂, hr₂, -⟩ := ballocFreeNode_spec h₁ hloose
  exact ⟨s₁, s₂, T', e₁, e₂, h₂, hin, hr₂.trans hr₁⟩

/-- The order of a tree has no node twice. -/
theorem Holds.not_mem_sides (h : Holds c s L T) (hT : (T t).inorder = A ++ nd :: B) :
    nd ∉ A ∧ nd ∉ B := by
  have hn := (h.trees t).nodup
  rw [hT, List.nodup_middle, List.nodup_cons, List.mem_append, not_or] at hn
  exact hn.1

theorem ballocJoinPrev_spec (h : Holds c s L T) (hT : (T t).inorder = A ++ nd :: B) :
    ∃ s' T' P, ballocJoinPrev c s t nd = .ok s' ∧ Holds c s' (P ++ L) (Function.update T t T') ∧
      T'.inorder = (joinPrev s.range A (s.range nd)).1 ++ nd :: B ∧
      A = (joinPrev s.range A (s.range nd)).1 ++ P ∧
      s'.range = Function.update s.range nd (joinPrev s.range A (s.range nd)).2 := by
  have hprev : rbPrev (s.tree t) nd = .ok (A.getLastD 0) := rbPrev_at (h.trees t) hT
  have hkeep : ballocJoinPrev c s t nd = .ok s → joinPrev s.range A (s.range nd) = (A, s.range nd) →
      ∃ s' T' P, ballocJoinPrev c s t nd = .ok s' ∧
        Holds c s' (P ++ L) (Function.update T t T') ∧
        T'.inorder = (joinPrev s.range A (s.range nd)).1 ++ nd :: B ∧
        A = (joinPrev s.range A (s.range nd)).1 ++ P ∧
        s'.range = Function.update s.range nd (joinPrev s.range A (s.range nd)).2 := by
    intro hok hj
    refine ⟨s, T t, [], hok, ?_, ?_, ?_, ?_⟩
    · rwa [Function.update_eq_self, List.nil_append]
    · rw [hj, hT]
    · rw [hj, List.append_nil]
    · rw [hj, Function.update_eq_self]
  rcases List.eq_nil_or_concat A with rfl | ⟨A, p, rfl⟩
  · refine hkeep ?_ rfl
    rw [ballocJoinPrev, hprev, ok_bind]
    exact if_neg fun hp => hp.1 rfl
  · rw [List.concat_eq_append] at hT hprev hkeep ⊢
    rw [List.getLastD_concat] at hprev
    have hp0 : p ≠ 0 := ((h.trees t).isNode p (by rw [hT]; simp)).ne
    have hpn : p ≠ nd := fun e => (h.not_mem_sides hT).1 (by simp [e])
    rw [joinPrev_concat] at hkeep ⊢
    by_cases hreach : (s.range nd).begin ≤ (s.range p).stop
    · -- the predecessor is taken in
      have hrange : ∀ s' : BallocState, s' = s.setRange nd ⟨(s.range p).begin,
          max (s.range p).stop (s.range nd).stop⟩ →
          ballocJoinPrev c s t nd = (do
            let s ← eraseNode s' t p
            ballocFreeNode c s p) := by
        rintro s' rfl
        rw [ballocJoinPrev, hprev, ok_bind, if_pos ⟨hp0, hreach⟩]
        simp only [range_setRange, Function.update_of_ne hpn, Function.update_self]
        by_cases hlonger : (s.range p).stop > (s.range nd).stop
        · rw [if_pos hlonger, max_eq_left hlonger.le]
          simp only [BallocState.setRange, Function.update_idem]
        · rw [if_neg hlonger, max_eq_right (not_lt.mp hlonger)]
      have h₁ := h.setRange nd ⟨(s.range p).begin, max (s.range p).stop (s.range nd).stop⟩
      have hT' : (T t).inorder = A ++ p :: (nd :: B) := by rw [hT]; simp
      obtain ⟨s₁, s', T', e₁, e₂, h', hin, hr⟩ := release_spec h₁ hT'
      rw [if_pos hreach]
      refine ⟨s', T', [p], ?_, h', hin, rfl, hr⟩
      rw [hrange _ rfl, e₁, ok_bind, e₂]
    · rw [if_neg hreach] at hkeep ⊢
      refine hkeep ?_ rfl
      rw [ballocJoinPrev, hprev, ok_bind]
      exact if_neg fun hp => hreach hp.2

theorem ballocJoinNext_spec (h : Holds c s L T) (hT : (T t).inorder = A ++ nd :: B) :
    ∃ s' T' N, ballocJoinNext c s t nd = .ok s' ∧ Holds c s' (N ++ L) (Function.update T t T') ∧
      T'.inorder = A ++ nd :: (joinNext s.range (s.range nd) B).2 ∧
      B = N ++ (joinNext s.range (s.range nd) B).2 ∧
      s'.range = Function.update s.range nd (joinNext s.range (s.range nd) B).1 := by
  have hnext : rbNext (s.tree t) nd = .ok (B.headD 0) := rbNext_at (h.trees t) hT
  have hkeep : ballocJoinNext c s t nd = .ok s → joinNext s.range (s.range nd) B = (s.range nd, B) →
      ∃ s' T' N, ballocJoinNext c s t nd = .ok s' ∧
        Holds c s' (N ++ L) (Function.update T t T') ∧
        T'.inorder = A ++ nd :: (joinNext s.range (s.range nd) B).2 ∧
        B = N ++ (joinNext s.range (s.range nd) B).2 ∧
        s'.range = Function.update s.range nd (joinNext s.range (s.range nd) B).1 := by
    intro hok hj
    refine ⟨s, T t, [], hok, ?_, ?_, ?_, ?_⟩
    · rwa [Function.update_eq_self, List.nil_append]
    · rw [hj, hT]
    · rw [hj, List.nil_append]
    · rw [hj, Function.update_eq_self]
  cases B with
  | nil =>
    refine hkeep ?_ rfl
    rw [ballocJoinNext, hnext, ok_bind]
    exact if_neg fun hn => hn.1 rfl
  | cons n B =>
    have hn0 : n ≠ 0 := ((h.trees t).isNode n (by rw [hT]; simp)).ne
    rw [List.headD_cons] at hnext
    rw [joinNext] at hkeep ⊢
    by_cases hreach : (s.range n).begin ≤ (s.range nd).stop
    · -- the successor is taken in, and its end with it
      have h₁ := h.setRange nd ⟨(s.range nd).begin, (s.range n).stop⟩
      have hT' : (T t).inorder = (A ++ [nd]) ++ n :: B := by rw [hT]; simp
      obtain ⟨s₁, s', T', e₁, e₂, h', hin, hr⟩ := release_spec h₁ hT'
      rw [if_pos hreach]
      refine ⟨s', T', [n], ?_, h', ?_, rfl, hr⟩
      · rw [ballocJoinNext, hnext, ok_bind, if_pos ⟨hn0, hreach⟩]
        simp only [e₁, ok_bind, e₂]
      · rw [hin]; simp
    · rw [if_neg hreach] at hkeep ⊢
      refine hkeep ?_ rfl
      rw [ballocJoinNext, hnext, ok_bind]
      exact if_neg fun hn => hreach hn.2

/-- Without a free node nothing can be added. -/
theorem ballocAddRange_nil (h : Holds c s [] T) (hv : Valid (s.ranges (T t))) :
    ballocAddRange c s t b e = .error noNode := by
  obtain ⟨k, hplace, -, -⟩ := ballocPlace_spec (b := b) h hv
  simp only [ballocAddRange, hplace, ok_bind, ballocAllocNode_nil h, error_bind]

/-- `__balloc_add_range`, node by node: the pool loses `nd` and gains what has been taken in. -/
theorem ballocAddRange_nodes (h : Holds c s (nd :: L) T) (hv : Valid (s.ranges (T t)))
    (hT : (T t).inorder = A ++ B) (hA : ∀ a ∈ A, (s.range a).begin < b)
    (hB : ∀ a ∈ B, b ≤ (s.range a).begin) : ∃ s' T' P N, ballocAddRange c s t b e = .ok s' ∧
      Holds c s' (N ++ (P ++ L)) (Function.update T t T') ∧
      T'.inorder = (joinPrev s.range A ⟨b, e⟩).1 ++
        nd :: (joinNext s.range (joinPrev s.range A ⟨b, e⟩).2 B).2 ∧
      A = (joinPrev s.range A ⟨b, e⟩).1 ++ P ∧
      B = N ++ (joinNext s.range (joinPrev s.range A ⟨b, e⟩).2 B).2 ∧
      s'.range = Function.update s.range nd
        (joinNext s.range (joinPrev s.range A ⟨b, e⟩).2 B).1 := by
  obtain ⟨k, hplace, hk, hsplit⟩ := ballocPlace_spec (b := b) h hv
  obtain ⟨s₁, e₁, h₁, hloose, hr₁, -⟩ := ballocAllocNode_cons h
  obtain ⟨s₃, T₁, e₃, h₃, hin₁, hr₃⟩ := insertNode_spec (h₁.setRange nd ⟨b, e⟩) hk hloose
  -- the two ways to cut the order at `b` agree
  have hcut : k.pre = A ∧ k.post = B := by
    have hin : k.pre ++ k.post = A ++ B := by
      rw [← hT, hk, Ctx.inorder_fill]
      rfl
    rcases List.append_eq_append_iff.mp hin with ⟨M, rfl, hM⟩ | ⟨M, hM, rfl⟩
    · cases M with
      | nil => exact ⟨by simp, by simpa using hM⟩
      | cons m M => exact absurd (hA m (by simp)) (hsplit.post m (by rw [hM]; simp))
    · cases M with
      | nil => exact ⟨by simpa using hM, by simp⟩
      | cons m M => exact absurd (hsplit.pre m (by rw [hM]; simp)) (not_lt.mpr (hB m (by simp)))
  rw [hcut.1, hcut.2] at hin₁
  have hnd : nd ∉ (T t).inorder := hloose.trees t
  rw [hT, List.mem_append, not_or] at hnd
  have hrange₃ : s₃.range = Function.update s.range nd ⟨b, e⟩ := by
    rw [hr₃, range_setRange, hr₁]
  have hin₃ : (Function.update T t T₁ t).inorder = A ++ nd :: B := by rw [Function.update_self, hin₁]
  obtain ⟨s₄, T₂, P, e₄, h₄, hin₂, hAP, hr₄⟩ := ballocJoinPrev_spec h₃ hin₃
  rw [Function.update_idem] at h₄
  have hin₄ : (Function.update T t T₂ t).inorder =
      (joinPrev s₃.range A (s₃.range nd)).1 ++ nd :: B := by rw [Function.update_self, hin₂]
  obtain ⟨s₅, T₃, N, e₅, h₅, hin₅, hBN, hr₅⟩ := ballocJoinNext_spec h₄ hin₄
  rw [Function.update_idem] at h₅
  -- the range function agrees with the old one on the old nodes
  have hnew : s₃.range nd = ⟨b, e⟩ := by rw [hrange₃, Function.update_self]
  have hold₃ : ∀ a, a ≠ nd → s₃.range a = s.range a := fun a ha => by
    rw [hrange₃, Function.update_of_ne ha]
  have hold₄ : ∀ a, a ≠ nd → s₄.range a = s.range a := fun a ha => by
    rw [hr₄, Function.update_of_ne ha, hold₃ a ha]
  have hprevEq : joinPrev s₃.range A (s₃.range nd) = joinPrev s.range A ⟨b, e⟩ := by
    rw [hnew]
    exact joinPrev_congr fun a ha => hold₃ a fun e => hnd.1 (e ▸ ha)
  have hnextEq : joinNext s₄.range (s₄.range nd) B =
      joinNext s.range (joinPrev s.range A ⟨b, e⟩).2 B := by
    have hnew₄ : s₄.range nd = (joinPrev s.range A ⟨b, e⟩).2 := by
      rw [hr₄, Function.update_self, hprevEq]
    rw [hnew₄]
    exact joinNext_congr fun a ha => hold₄ a fun e => hnd.2 (e ▸ ha)
  rw [hprevEq] at hAP hin₅
  rw [hnextEq] at hin₅ hBN hr₅
  refine ⟨s₅, T₃, P, N, ?_, h₅, hin₅, hAP, hBN, ?_⟩
  · simp only [ballocAddRange, hplace, ok_bind, e₁, e₃, e₄, e₅]
  · rw [hr₅, hr₄, hrange₃, Function.update_idem, Function.update_idem]

/-- What any addition leaves alone: the other tree, the ranges of all nodes but one free one, and
    the nodes in hand. -/
structure AddFrame (c : Image) (s s' : BallocState) (L L' : List ℕ) (T : RangeTree → ColorTree ℕ)
    (t : RangeTree) (T' : ColorTree ℕ) : Prop where
  range : ∀ a, a ∉ L → s'.range a = s.range a
  loose : ∀ a, Loose c L T a → Loose c L' (Function.update T t T') a

theorem addFrame_of_nodes {s' : BallocState} {P N A' B' : List ℕ} {T' : ColorTree ℕ} {r : Span ℕ}
    (hT : (T t).inorder = A ++ B) (hin : T'.inorder = A' ++ nd :: B') (hA : A = A' ++ P)
    (hB : B = N ++ B') (hr : s'.range = Function.update s.range nd r) :
    AddFrame c s s' (nd :: L) (N ++ (P ++ L)) T t T' := by
  refine ⟨fun a ha => ?_, fun a ha => ⟨ha.node, fun hp => ?_, fun t' => ?_⟩⟩
  · have hne : a ≠ nd := fun e => ha (e ▸ List.mem_cons_self)
    rw [hr, Function.update_of_ne hne]
  · have ht := ha.trees t
    have hpool := ha.pool
    rw [hT, hA, hB] at ht
    simp only [List.mem_cons, List.mem_append] at hp ht hpool
    tauto
  · rcases eq_or_ne t' t with rfl | hne
    · have ht := ha.trees t'
      have hpool := ha.pool
      rw [hT, hA, hB] at ht
      rw [Function.update_self, hin]
      simp only [List.mem_cons, List.mem_append] at ht hpool ⊢
      tauto
    · rw [Function.update_of_ne hne]
      exact ha.trees t'

/-- The ranges of the new tree. -/
theorem ranges_of_nodes {s' : BallocState} {T' : ColorTree ℕ} {A' B' : List ℕ} {r : Span ℕ}
    (hin : T'.inorder = A' ++ nd :: B') (hr : s'.range = Function.update s.range nd r)
    (hA : nd ∉ A') (hB : nd ∉ B') :
    s'.ranges T' = A'.map s.range ++ r :: B'.map s.range := by
  have hmap : ∀ l : List ℕ, nd ∉ l → l.map s'.range = l.map s.range := fun l hl =>
    List.map_congr_left fun a ha => by
      have hne : a ≠ nd := fun e => hl (e ▸ ha)
      rw [hr, Function.update_of_ne hne]
  rw [BallocState.ranges, hin, List.map_append, List.map_cons, hmap A' hA, hmap B' hB, hr,
    Function.update_self]

/-- `__balloc_add_range` as an operation on the list of ranges. -/
theorem ballocAddRange_spec (h : Holds c s (nd :: L) T) (hv : Valid (s.ranges (T t)))
    (hT : (T t).inorder = A ++ B) (hA : ∀ a ∈ A, (s.range a).begin < b)
    (hB : ∀ a ∈ B, b ≤ (s.range a).begin) : ∃ s' L' T', ballocAddRange c s t b e = .ok s' ∧
      Holds c s' L' (Function.update T t T') ∧ s'.ranges T' = joined s.range A B ⟨b, e⟩ ∧
      AddFrame c s s' (nd :: L) L' T t T' := by
  obtain ⟨s', T', P, N, e', h', hin, hAP, hBN, hr⟩ := ballocAddRange_nodes (e := e) h hv hT hA hB
  have hnd : nd ∉ A ∧ nd ∉ B := by
    rw [← not_or, ← List.mem_append, ← hT]
    exact fun hmem => h.apart t nd hmem (by simp)
  refine ⟨s', _, T', e', h', ranges_of_nodes hin hr (fun hm => hnd.1 ?_) (fun hm => hnd.2 ?_),
    addFrame_of_nodes hT hin hAP hBN hr⟩
  · rw [hAP]; exact List.mem_append_left P hm
  · rw [hBN]; exact List.mem_append_right N hm

/-- A valid tree can be cut at any address. -/
theorem exists_cut (hv : Valid (s.ranges (T t))) (b : ℕ) : ∃ A B, (T t).inorder = A ++ B ∧
    (∀ a ∈ A, (s.range a).begin < b) ∧ ∀ a ∈ B, b ≤ (s.range a).begin := by
  have hb : (T t).inorder.Pairwise fun x y => (s.range x).begin < (s.range y).begin :=
    List.Pairwise.of_map s.range (fun _ _ hxy => hxy) hv.begins
  generalize (T t).inorder = l at hb
  induction l with
  | nil => exact ⟨[], [], rfl, by simp, by simp⟩
  | cons x l ih =>
    rw [List.pairwise_cons] at hb
    by_cases hx : (s.range x).begin < b
    · obtain ⟨A, B, rfl, hA, hB⟩ := ih hb.2
      refine ⟨x :: A, B, rfl, fun a ha => ?_, hB⟩
      rcases List.mem_cons.mp ha with rfl | ha
      · exact hx
      · exact hA a ha
    · refine ⟨[], x :: l, rfl, by simp, fun a ha => ?_⟩
      rcases List.mem_cons.mp ha with rfl | ha
      · exact not_lt.mp hx
      · exact (not_lt.mp hx).trans (hb.1 a ha).le

end FilesKernel.Balloc
