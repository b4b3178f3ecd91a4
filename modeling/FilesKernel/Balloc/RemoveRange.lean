import FilesKernel.Balloc.Union

/-! Removing a range is set difference.

    The loop keeps the nodes cut in two: `X` is done, `Y` ends behind `from` and is still to be
    looked at. A round takes the first node of `Y` out and puts what is left of its range on both
    sides behind `X`. -/

namespace FilesKernel.Balloc
open CExec RbTree LinkedList RedBlack Spans

variable {c : Image} {s s' : BallocState} {L : List ℕ} {T : RangeTree → ColorTree ℕ} {t : RangeTree}
  {X Y : List ℕ} {b e : ℕ}

theorem ballocAddRange_ne_nil (h : Holds c s L T) (hv : Valid (s.ranges (T t)))
    (hok : ballocAddRange c s t b e = .ok s') : ∃ nd L', L = nd :: L' := by
  cases L with
  | nil =>
    rw [ballocAddRange_nil h hv] at hok
    cases hok
  | cons nd L => exact ⟨nd, L, rfl⟩

/-- An addition is stopped when the pool is empty, and returns otherwise. -/
theorem ballocAddRange_returns (h : Holds c s L T) (hv : Valid (s.ranges (T t))) :
    (L = [] ∧ ballocAddRange c s t b e = .error noNode) ∨
      ∃ s', ballocAddRange c s t b e = .ok s' := by
  cases L with
  | nil => exact Or.inl ⟨rfl, ballocAddRange_nil h hv⟩
  | cons nd L =>
    obtain ⟨A, B, hT, hA, hB⟩ := exists_cut hv b
    obtain ⟨s', L', T', e', -⟩ := ballocAddRange_spec (e := e) h hv hT hA hB
    exact Or.inr ⟨s', e'⟩

/-- Adding a range in the gap between `X` and `Y`, out of reach of `Y`. -/
theorem ballocAddRange_gap (h : Holds c s L T) (hv : Valid (s.ranges (T t)))
    (hT : (T t).inorder = X ++ Y) (hX : ∀ a ∈ X, (s.range a).begin < b)
    (hY : ∀ a ∈ Y, e < (s.range a).begin) (hbe : b ≤ e)
    (hok : ballocAddRange c s t b e = .ok s') : ∃ L' T' X', Holds c s' L' (Function.update T t T') ∧
      Valid (s'.ranges T') ∧ T'.inorder = X' ++ Y ∧ (∀ a ∈ X', (s'.range a).begin ≤ b) ∧
      cover (X'.map s'.range) = cover (X.map s.range) ∪ Set.Ico b e ∧
      (∀ M, e ≤ M → Below M (s.ranges (T t)) → Below M (s'.ranges T')) ∧
      L.length ≤ L'.length + 1 ∧ AddFrame c s s' L L' T t T' := by
  obtain ⟨nd, L, rfl⟩ := ballocAddRange_ne_nil h hv hok
  have hYb : ∀ a ∈ Y, b ≤ (s.range a).begin := fun a ha => hbe.trans (hY a ha).le
  obtain ⟨s₁, T', P, N, e₁, h', hin, hXP, hYN, hr⟩ := ballocAddRange_nodes (e := e) h hv hT hX hYb
  obtain rfl : s₁ = s' := Except.ok.inj (e₁.symm.trans hok)
  have hV : Valid ((X ++ Y).map s.range) := by rwa [← hT]
  have hV' := hV
  rw [List.map_append] at hV'
  obtain ⟨hVX, -, hXY⟩ := valid_append.mp hV'
  obtain ⟨hp, hcover, hbegin, -, hlast⟩ := joinPrev_spec (r := ⟨b, e⟩) hVX hX hbe
  -- the successor stays out of reach
  have hgap : ∀ a ∈ Y, (joinPrev s.range X ⟨b, e⟩).2.stop < (s.range a).begin := by
    intro a ha
    rcases hlast with hs | ⟨x, hx, hs⟩
    · rw [hs]; exact hY a ha
    · rw [hs]
      exact hXY _ (List.mem_map_of_mem hx) _ (List.mem_map_of_mem ha)
  have hnd : nd ∉ X ∧ nd ∉ Y := by
    rw [← not_or, ← List.mem_append, ← hT]
    exact fun hmem => h.apart t nd hmem (by simp)
  have hndX : nd ∉ (joinPrev s.range X ⟨b, e⟩).1 := fun hm => hnd.1 (by
    rw [hXP]; exact List.mem_append_left P hm)
  have hf := addFrame_of_nodes hT hin hXP hYN hr (c := c) (s := s) (L := L)
  have hv' := (joined_spec (r := ⟨b, e⟩) hV hbe hX hYb).1
  rw [joined] at hv'
  rw [joinNext_of_gap hgap] at hin hr hv'
  have hran := ranges_of_nodes hin hr hndX hnd.2
  have hold : ∀ a ∈ (joinPrev s.range X ⟨b, e⟩).1, s₁.range a = s.range a := fun a ha => by
    have hne : a ≠ nd := fun e => hndX (e ▸ ha)
    rw [hr, Function.update_of_ne hne]
  refine ⟨_, T', (joinPrev s.range X ⟨b, e⟩).1 ++ [nd], h', ?_, ?_, fun a ha => ?_, ?_,
    fun M he hM => ?_, by simp; omega, hf⟩
  · rw [hran]; exact hv'
  · rw [hin]; simp
  · rcases List.mem_append.mp ha with ha | ha
    · have hX' : a ∈ X := by rw [hXP]; exact List.mem_append_left P ha
      rw [hold a ha]
      exact (hX a hX').le
    · rw [List.mem_singleton.mp ha, hr, Function.update_self]
      exact hbegin
  · have hnew : s₁.range nd = (joinPrev s.range X ⟨b, e⟩).2 := by rw [hr, Function.update_self]
    rw [List.map_append, List.map_congr_left hold, List.map_singleton, hnew, hcover]
    rfl
  · rw [BallocState.ranges, hT, List.map_append, below_append] at hM
    rw [hran, below_append, below_cons]
    refine ⟨fun r hr => hM.1 r ?_, ?_, hM.2⟩
    · rw [hXP, List.map_append]
      exact List.mem_append_left _ hr
    · rcases hlast with hs | ⟨x, hx, hs⟩
      · rw [hs]; exact he
      · rw [hs]; exact hM.1 _ (List.mem_map_of_mem hx)

/-- Putting a part of a range back in, unless it is empty: `X` grows by that part. -/
theorem putBack_spec {p q : ℕ} (h : Holds c s L T) (hv : Valid (s.ranges (T t)))
    (hT : (T t).inorder = X ++ Y) (hX : ∀ a ∈ X, (s.range a).begin < p)
    (hY : ∀ a ∈ Y, q < (s.range a).begin)
    (hok : (if p < q then ballocAddRange c s t p q else .ok s) = .ok s') :
    ∃ L' T' X', Holds c s' L' (Function.update T t T') ∧ Valid (s'.ranges T') ∧
      T'.inorder = X' ++ Y ∧ (∀ a ∈ X', (s'.range a).begin ≤ p) ∧
      cover (X'.map s'.range) = cover (X.map s.range) ∪ Set.Ico p q ∧
      (∀ M, q ≤ M → Below M (s.ranges (T t)) → Below M (s'.ranges T')) ∧
      L.length ≤ L'.length + (if p < q then 1 else 0) ∧ AddFrame c s s' L L' T t T' := by
  by_cases hpq : p < q
  · rw [if_pos hpq] at hok ⊢
    exact ballocAddRange_gap h hv hT hX hY hpq.le hok
  · rw [if_neg hpq] at hok ⊢
    obtain rfl : s = s' := Except.ok.inj hok
    refine ⟨L, T t, X, ?_, hv, hT, fun a ha => (hX a ha).le, ?_, fun _ _ hM => hM, le_rfl,
      fun a _ => rfl, ?_⟩
    · rwa [Function.update_eq_self]
    · rw [Set.Ico_eq_empty hpq, Set.union_empty]
    · rw [Function.update_eq_self]; exact fun a ha => ha

theorem putBack_returns {p q : ℕ} (h : Holds c s L T) (hv : Valid (s.ranges (T t))) :
    (L = [] ∧ p < q ∧ (if p < q then ballocAddRange c s t p q else .ok s) = .error noNode) ∨
      ∃ s', (if p < q then ballocAddRange c s t p q else .ok s) = .ok s' := by
  by_cases hpq : p < q
  · rw [if_pos hpq]
    rcases ballocAddRange_returns h hv with ⟨hL, e'⟩ | hok
    · exact Or.inl ⟨hL, hpq, e'⟩
    · exact Or.inr hok
  · rw [if_neg hpq]
    exact Or.inr ⟨s, rfl⟩

/-- How many parts of a range are left beside `[b, e)`. -/
def pieces (r : Span ℕ) (b e : ℕ) : ℕ := (if r.begin < b then 1 else 0) + if e < r.stop then 1 else 0

/-- What is left when `[b, e)` is cut out of the range of `p`, a node between `X` and `Y`. -/
structure Cut (c : Image) (s : BallocState) (L : List ℕ) (T : RangeTree → ColorTree ℕ)
    (t : RangeTree) (X Y : List ℕ) (p b e : ℕ) (s' : BallocState) (L' : List ℕ)
    (T' : ColorTree ℕ) (X' : List ℕ) : Prop where
  holds : Holds c s' L' (Function.update T t T')
  valid : Valid (s'.ranges T')
  order : T'.inorder = X' ++ Y
  covers : cover (X'.map s'.range) = cover (X.map s.range) ∪ Set.Ico (s.range p).begin b ∪
    Set.Ico e (s.range p).stop
  behind : ∀ a ∈ Y, s'.range a = s.range a
  others : ∀ t', t' ≠ t → ∀ a ∈ (T t').inorder, s'.range a = s.range a
  below : ∀ M, Below M (s.ranges (T t)) → Below M (s'.ranges T')
  pool : L.length + 1 ≤ L'.length + pieces (s.range p) b e

/-- Cutting `[b, e)` out of the range of a node: the parts on both sides go behind `X`, if the pool has
    nodes for them. -/
theorem cutNode_returns {p : ℕ} (h : Holds c s L T) (hv : Valid (s.ranges (T t)))
    (hT : (T t).inorder = X ++ p :: Y) (hb : b ≤ (s.range p).stop) (he : (s.range p).begin < e) :
    (cutNode c s t p b e = .error noNode ∧ L.length < pieces (s.range p) b e) ∨
    ∃ s' L' T' X', cutNode c s t p b e = .ok s' ∧
      Cut c s L T t X Y p b e s' L' T' X' := by
  obtain ⟨s₁, T₁, e₁, h₁, hl₁, hin₁, hr₁⟩ := eraseNode_spec h hT
  rw [cutNode, e₁, ok_bind]
  -- where the neighbours lie
  have hV : Valid (X.map s.range ++ s.range p :: Y.map s.range) := by
    rwa [BallocState.ranges, hT, List.map_append, List.map_cons] at hv
  obtain ⟨hVX, hVp, hXp⟩ := valid_append.mp hV
  obtain ⟨hple, hVY, hpY⟩ := valid_cons.mp hVp
  have hXbegin : ∀ a ∈ X, (s.range a).begin < (s.range p).begin := fun a ha =>
    (hVX.le _ (List.mem_map_of_mem ha)).trans_lt (hXp _ (List.mem_map_of_mem ha) _ (by simp))
  have hYbegin : ∀ a ∈ Y, (s.range p).stop < (s.range a).begin := fun a ha =>
    hpY _ (List.mem_map_of_mem ha)
  have hsub : (s₁.ranges T₁).Sublist (s.ranges (T t)) := by
    rw [BallocState.ranges, BallocState.ranges, hin₁, hT, hr₁, List.map_append, List.map_append]
    exact List.Sublist.append_left (List.sublist_cons_self _ _) _
  have hv₁ : Valid (s₁.ranges (Function.update T t T₁ t)) := by
    rw [Function.update_self]
    exact hv.sublist hsub
  have hT₁ : (Function.update T t T₁ t).inorder = X ++ Y := by rw [Function.update_self, hin₁]
  have hM₁ : ∀ M, Below M (s.ranges (T t)) → Below M (s₁.ranges T₁) ∧ (s.range p).stop ≤ M :=
    fun M hM => ⟨fun r hr => hM r (hsub.subset hr), hM _ (by
      rw [BallocState.ranges, hT]
      exact List.mem_map_of_mem (by simp))⟩
  -- the part in front
  rcases putBack_returns (p := (s₁.range p).begin) (q := b) h₁ hv₁ with ⟨hL, hlt, e₂⟩ | ⟨s₂, e₂⟩
  · refine Or.inl ⟨by rw [e₂, error_bind], ?_⟩
    rw [hL, pieces, ← hr₁, if_pos hlt, List.length_nil]
    exact Nat.add_pos_left Nat.one_pos _
  rw [e₂, ok_bind]
  rw [← hr₁] at hXbegin hYbegin hb he hM₁
  obtain ⟨L₂, T₂, X₂, h₂, hv₂, hin₂, hX₂, hc₂, hM₂, hl₂', hf₂⟩ := putBack_spec h₁ hv₁ hT₁ hXbegin
    (fun a ha => hb.trans_lt (hYbegin a ha)) e₂
  rw [Function.update_idem] at h₂
  rw [Function.update_self] at hM₂
  have hl₂ := hf₂.loose p hl₁
  rw [Function.update_idem] at hl₂
  have hp₂ : s₂.range p = s₁.range p := hf₂.range p fun hL => hl₁.pool (List.mem_cons_of_mem _ hL)
  have hY₂ : ∀ a ∈ Y, s₂.range a = s₁.range a := fun a ha => hf₂.range a fun hL =>
    h.apart t a (by rw [hT]; simp [ha]) (List.mem_cons_of_mem _ hL)
  -- the part behind
  have hT₂ : (Function.update T t T₂ t).inorder = X₂ ++ Y := by rw [Function.update_self, hin₂]
  have hv₂' : Valid (s₂.ranges (Function.update T t T₂ t)) := by rwa [Function.update_self]
  rcases putBack_returns (p := e) (q := (s₂.range p).stop) h₂ hv₂' with ⟨hL, hlt, e₃⟩ | ⟨s₃, e₃⟩
  · refine Or.inl ⟨by rw [e₃, error_bind], ?_⟩
    rw [hp₂, hr₁] at hlt
    rw [hL, List.length_nil, hr₁] at hl₂'
    rw [pieces, if_pos hlt]
    omega
  rw [e₃, ok_bind]
  obtain ⟨L₃, T₃, X₃, h₃, hv₃, hin₃, -, hc₃, hM₃, hl₃', hf₃⟩ := putBack_spec h₂ hv₂' hT₂
    (fun a ha => (hX₂ a ha).trans_lt he) (fun a ha => by rw [hp₂, hY₂ a ha]; exact hYbegin a ha) e₃
  rw [Function.update_idem] at h₃
  rw [Function.update_self] at hM₃
  have hl₃ := hf₃.loose p hl₂
  rw [Function.update_idem] at hl₃
  -- the node goes back to the pool
  obtain ⟨s₄, e₄, h₄, hr₄, -⟩ := ballocFreeNode_spec h₃ hl₃
  refine Or.inr ⟨s₄, p :: L₃, T₃, X₃, e₄, h₄, ?_, hin₃, ?_, fun a ha => ?_, fun t' hne a ha => ?_,
    fun M hM => ?_, ?_⟩
  · rw [BallocState.ranges, hr₄]; exact hv₃
  · rw [hr₄, hc₃, hc₂, hp₂, hr₁]
  · have ha₂ : a ∉ L₂ := fun hL =>
      h₂.apart t a (by rw [hT₂]; simp [ha]) (List.mem_cons_of_mem _ hL)
    rw [hr₄, hf₃.range a ha₂, hY₂ a ha, hr₁]
  · have ha₁ : a ∉ L := fun hL => h.apart t' a ha (List.mem_cons_of_mem _ hL)
    have ha₂ : a ∉ L₂ := fun hL => by
      refine h₂.apart t' a ?_ (List.mem_cons_of_mem _ hL)
      rwa [Function.update_of_ne hne]
    rw [hr₄, hf₃.range a ha₂, hf₂.range a ha₁, hr₁]
  · obtain ⟨hM', hp⟩ := hM₁ M hM
    rw [BallocState.ranges, hr₄]
    exact hM₃ M (hp₂ ▸ hp) (hM₂ M (hb.trans hp) hM')
  · rw [hr₁] at hl₂'
    rw [hp₂, hr₁] at hl₃'
    rw [List.length_cons, pieces]
    omega

/-- What is left of a range that reaches into the removed one. -/
theorem set_diff_Ico {r : Span ℕ} (hb : b < r.stop) (he : r.begin < e) :
    r.set \ Set.Ico b e = Set.Ico r.begin b ∪ Set.Ico e r.stop := by
  ext x
  simp only [Span.set, Set.mem_sdiff, Set.mem_Ico, Set.mem_union]
  omega

/-- What the loop keeps: the ranges of `X` and what will be left of those of `Y` make up what will
    be left of all. -/
structure Removing (c : Image) (s₀ : BallocState) (T₀ : RangeTree → ColorTree ℕ) (t : RangeTree)
    (b e : ℕ) (s : BallocState) (L : List ℕ) (T : ColorTree ℕ) (X Y : List ℕ) : Prop where
  holds : Holds c s L (Function.update T₀ t T)
  valid : Valid (s.ranges T)
  order : T.inorder = X ++ Y
  behind : ∀ a ∈ Y, b < (s.range a).stop
  covers : cover (X.map s.range) ∪ (cover (Y.map s.range) \ Set.Ico b e) =
    cover (s₀.ranges (T₀ t)) \ Set.Ico b e
  others : ∀ t', t' ≠ t → ∀ a ∈ (T₀ t').inorder, s.range a = s₀.range a

variable {s₀ : BallocState} {T₀ : RangeTree → ColorTree ℕ}

/-- One round of the loop. -/
theorem Removing.next {p : ℕ} {T T' : ColorTree ℕ} {L' X' : List ℕ}
    (hI : Removing c s₀ T₀ t b e s L T X (p :: Y)) (hp : (s.range p).begin < e)
    (hcut : Cut c s L (Function.update T₀ t T) t X Y p b e s' L' T' X') :
    Removing c s₀ T₀ t b e s' L' T' X' Y ∧ ∀ M, Below M (s.ranges T) → Below M (s'.ranges T') := by
  have hbp := hI.behind p List.mem_cons_self
  obtain ⟨h', hv', hin', hc', hY', ho', hM', -⟩ := hcut
  rw [Function.update_idem] at h'
  rw [Function.update_self] at hM'
  refine ⟨⟨h', hv', hin', fun a ha => ?_, ?_, fun t' hne a ha => ?_⟩, hM'⟩
  · rw [hY' a ha]; exact hI.behind a (List.mem_cons_of_mem p ha)
  · rw [hc', List.map_congr_left hY', ← hI.covers, List.map_cons, cover_cons, Set.union_sdiff_distrib,
      set_diff_Ico hbp hp]
    simp only [Set.union_assoc]
  · rw [ho' t' hne a (by rwa [Function.update_of_ne hne]), hI.others t' hne a ha]

/-- At the end nothing of `Y` lies in the removed range. -/
theorem Removing.done {T : ColorTree ℕ} (hI : Removing c s₀ T₀ t b e s L T X Y)
    (hY : ∀ a ∈ Y.head?, e ≤ (s.range a).begin) :
    cover (s.ranges T) = cover (s₀.ranges (T₀ t)) \ Set.Ico b e := by
  rw [← hI.covers, BallocState.ranges, hI.order, List.map_append, cover_append]
  congr 1
  refine (sdiff_eq_left.mpr (Set.disjoint_left.mpr fun x hx hx' => ?_)).symm
  obtain ⟨r, hr, hxr⟩ := hx
  obtain ⟨a, ha, rfl⟩ := List.mem_map.mp hr
  have hv := hI.valid
  rw [BallocState.ranges, hI.order, List.map_append] at hv
  have hvY := (valid_append.mp hv).2.1
  have hea : e ≤ (s.range a).begin := by
    cases Y with
    | nil => cases ha
    | cons y Y =>
      rcases List.mem_cons.mp ha with rfl | ha
      · exact hY a rfl
      · have hya := (valid_cons.mp hvY).2.2 _ (List.mem_map_of_mem ha)
        exact (hY y rfl).trans (((valid_cons.mp hvY).1.trans_lt hya).le)
  exact absurd hx'.2 (not_lt.mpr (hea.trans hxr.1))

/-- The loop comes to its end, unless a range has more parts than there are nodes for them. -/
theorem ballocRemoveLoop_returns : ∀ {fuel : ℕ} {s : BallocState} {L X Y : List ℕ} {T : ColorTree ℕ},
    Removing c s₀ T₀ t b e s L T X Y → Y.length < fuel →
    (loop (ballocRemoveBody c t b e) fuel (s, Y.headD 0) = .error noNode ∧
      ∃ a ∈ Y, (s.range a).begin < e ∧ L.length < pieces (s.range a) b e) ∨
    ∃ s' L' T' X' Y', loop (ballocRemoveBody c t b e) fuel (s, Y.headD 0) = .ok s' ∧
      Removing c s₀ T₀ t b e s' L' T' X' Y' ∧ (∀ a ∈ Y'.head?, e ≤ (s'.range a).begin) ∧
      ∀ M, Below M (s.ranges T) → Below M (s'.ranges T')
  | 0, _, _, _, _, _, _, hfuel => absurd hfuel (Nat.not_lt_zero _)
  | fuel + 1, s, L, X, [], T, hI, _ => by
      right
      refine ⟨s, L, T, X, [], ?_, hI, fun a ha => (nomatch ha), fun _ => id⟩
      rw [loop, List.headD_nil, ballocRemoveBody, if_neg fun hc => hc.1 rfl, ok_bind]
  | fuel + 1, s, L, X, p :: Y, T, hI, hfuel => by
      have hT : (Function.update T₀ t T t).inorder = X ++ p :: Y := by
        rw [Function.update_self, hI.order]
      have hv : Valid (s.ranges (Function.update T₀ t T t)) := by
        rw [Function.update_self]
        exact hI.valid
      have hp0 : p ≠ 0 := ((hI.holds.trees t).isNode p (by rw [hT]; simp)).ne
      rw [loop, List.headD_cons, ballocRemoveBody]
      by_cases hp : (s.range p).begin < e
      · rw [if_pos ⟨hp0, hp⟩, rbNext_at (hI.holds.trees t) hT, ok_bind]
        rcases cutNode_returns hI.holds hv hT (hI.behind p List.mem_cons_self).le hp with
          ⟨e', hL⟩ | ⟨s₁, L₁, T₁, X₁, e', hcut⟩
        · exact Or.inl ⟨by rw [e']; rfl, p, List.mem_cons_self, hp, hL⟩
        simp only [e', ok_bind]
        obtain ⟨hI₁, hM₁⟩ := hI.next hp hcut
        rcases ballocRemoveLoop_returns hI₁ (Nat.lt_of_succ_lt_succ hfuel) with
          ⟨e'', a, ha, hae, hL⟩ | ⟨s', L', T', X', Y', e'', hI', hend, hM'⟩
        · refine Or.inl ⟨e'', a, List.mem_cons_of_mem p ha, ?_⟩
          rw [hcut.behind a ha] at hae hL
          refine ⟨hae, Nat.lt_of_le_of_lt ?_ hL⟩
          -- the range of `p` ends before the one of `a` begins, so it has no part behind `e`
          have hpa : (s.range p).stop < (s.range a).begin := by
            have hvV := hI.valid
            rw [BallocState.ranges, hI.order, List.map_append, List.map_cons] at hvV
            exact (valid_cons.mp (valid_append.mp hvV).2.1).2.2 _ (List.mem_map_of_mem ha)
          have hpool := hcut.pool
          rw [pieces, if_neg (show ¬ e < (s.range p).stop by omega)] at hpool
          split_ifs at hpool <;> omega
        · exact Or.inr ⟨s', L', T', X', Y', e'', hI', hend, fun M hM => hM' M (hM₁ M hM)⟩
      · rw [if_neg fun hc => hp hc.2]
        refine Or.inr ⟨s, L, T, X, p :: Y, rfl, hI, fun a ha => ?_, fun _ => id⟩
        obtain rfl : p = a := Option.some.inj ha
        exact not_lt.mp hp

/-- What a removal leaves behind. -/
structure Removed (c : Image) (s : BallocState) (T : RangeTree → ColorTree ℕ) (t : RangeTree)
    (b e : ℕ) (s' : BallocState) (L' : List ℕ) (T' : ColorTree ℕ) : Prop where
  holds : Holds c s' L' (Function.update T t T')
  valid : Valid (s'.ranges T')
  covers : cover (s'.ranges T') = cover (s.ranges (T t)) \ Set.Ico b e
  others : ∀ t', t' ≠ t → ∀ a ∈ (T t').inorder, s'.range a = s.range a
  below : ∀ M, Below M (s.ranges (T t)) → Below M (s'.ranges T')

/-- `__balloc_remove_range` is stopped only when a range has more parts than there are nodes. -/
theorem ballocRemoveRange_returns (h : Holds c s L T) (hv : Valid (s.ranges (T t))) :
    (ballocRemoveRange c s t b e = .error noNode ∧
      ∃ r ∈ s.ranges (T t), b < r.stop ∧ r.begin < e ∧ L.length < pieces r b e) ∨
    ∃ s' L' T', ballocRemoveRange c s t b e = .ok s' ∧ Removed c s T t b e s' L' T' := by
  obtain ⟨X, Y, hfirst, hT, hX, hY⟩ := ballocFirst_spec (b := b) h hv
  rw [ballocRemoveRange, hfirst, ok_bind]
  have hstart : Removing c s T t b e s L (T t) X Y := by
    refine ⟨by rwa [Function.update_eq_self], hv, hT, hY, ?_, fun _ _ _ _ => rfl⟩
    rw [BallocState.ranges, hT, List.map_append, cover_append, Set.union_sdiff_distrib]
    congr 1
    refine (sdiff_eq_left.mpr (Set.disjoint_left.mpr fun x hx hx' => ?_)).symm
    obtain ⟨r, hr, hxr⟩ := hx
    obtain ⟨a, ha, rfl⟩ := List.mem_map.mp hr
    exact absurd (hxr.2.trans_le (hX a ha)) (not_lt.mpr hx'.1)
  have hfuel : Y.length < maxSteps := by
    have hlen := (h.trees t).length_lt
    rw [hT, List.length_append] at hlen
    omega
  rcases ballocRemoveLoop_returns hstart hfuel with
    ⟨e', a, ha, hae, hL⟩ | ⟨s', L', T', X', Y', e', hI, hend, hM⟩
  · refine Or.inl ⟨e', s.range a, ?_, hY a ha, hae, hL⟩
    rw [BallocState.ranges, hT]
    exact List.mem_map_of_mem (List.mem_append_right X ha)
  · exact Or.inr ⟨s', L', T', e', hI.holds, hI.valid, hI.done hend, hI.others, hM⟩

/-- `__balloc_remove_range`: where it returns, the tree denotes the set difference. -/
theorem ballocRemoveRange_spec (h : Holds c s L T) (hv : Valid (s.ranges (T t)))
    (hok : ballocRemoveRange c s t b e = .ok s') :
    ∃ L' T', Removed c s T t b e s' L' T' := by
  rcases ballocRemoveRange_returns (b := b) (e := e) h hv with ⟨e', -⟩ | ⟨s₁, L', T', e', hrem⟩
  · rw [e'] at hok
    cases hok
  · obtain rfl := Except.ok.inj (e'.symm.trans hok)
    exact ⟨L', T', hrem⟩

/-- With a free node for every part that is left of a range, a removal returns, and the tree then
    denotes the set difference. -/
theorem ballocRemoveRange_difference (h : Holds c s L T) (hv : Valid (s.ranges (T t)))
    (hpool : ∀ r ∈ s.ranges (T t), b < r.stop → r.begin < e → pieces r b e ≤ L.length) :
    ∃ s' L' T', ballocRemoveRange c s t b e = .ok s' ∧ Removed c s T t b e s' L' T' := by
  rcases ballocRemoveRange_returns (b := b) (e := e) h hv with ⟨-, r, hr, hb, he, hL⟩ | hok
  · exact absurd (hpool r hr hb he) (Nat.not_le_of_lt hL)
  · exact hok

theorem end_removed : ∃ s' L' T', ballocRemoveRange smallImage smallState .freeRanges 15 30 = .ok s' ∧
    Removed smallImage smallState smallTrees .freeRanges 15 30 s' L' T' := by
  refine ballocRemoveRange_difference small_holds small_valid fun r hr _ _ => ?_
  obtain rfl : r = ⟨10, 20⟩ := List.mem_singleton.mp hr
  decide

end FilesKernel.Balloc
