import FilesKernel.Balloc.AddRange

/-! When adding a range is set union.

    The end of the successor that is taken in replaces the end of the new range, so the addition is
    lossless exactly when no old range begins in the new one and ends before it. -/

namespace FilesKernel.Balloc
open CExec RbTree LinkedList RedBlack Spans

variable {c : Image} {s : BallocState} {L : List ℕ} {T : RangeTree → ColorTree ℕ} {t : RangeTree}
  {b e : ℕ}

theorem Holds.unique {L' : List ℕ} {T' : RangeTree → ColorTree ℕ} (h : Holds c s L T)
    (h' : Holds c s L' T') : T = T' :=
  funext fun t => (h.trees t).unique (h'.trees t)

/-- The call returns with a valid tree that denotes the union, and the other tree is as it was. -/
def AddsUnion (c : Image) (s : BallocState) (T : RangeTree → ColorTree ℕ) (t : RangeTree) (b e : ℕ) :
    Prop :=
  ∃ s' L' T', ballocAddRange c s t b e = .ok s' ∧ Holds c s' L' T' ∧ Valid (s'.ranges (T' t)) ∧
    cover (s'.ranges (T' t)) = cover (s.ranges (T t)) ∪ Set.Ico b e ∧
    ∀ t', t' ≠ t → s'.ranges (T' t') = s.ranges (T t')

/-- Nodes of the other tree keep their ranges. -/
theorem AddFrame.ranges {s' : BallocState} {L' : List ℕ} {T' : ColorTree ℕ} {t' : RangeTree}
    (hf : AddFrame c s s' L L' T t T') (h : Holds c s L T) :
    s'.ranges (T t') = s.ranges (T t') :=
  List.map_congr_left fun a ha => hf.range a fun hL => h.apart t' a ha (List.mem_cons_of_mem _ hL)

/-- An addition on a valid tree with a free node in the pool, as a set. -/
theorem ballocAddRange_cover {nd : ℕ} (h : Holds c s (nd :: L) T) (hv : Valid (s.ranges (T t)))
    (hbe : b ≤ e) : ∃ s' L' T', ballocAddRange c s t b e = .ok s' ∧
      Holds c s' L' (Function.update T t T') ∧ Valid (s'.ranges T') ∧
      cover (s'.ranges T') ⊆ cover (s.ranges (T t)) ∪ Set.Ico b e ∧
      (cover (s'.ranges T') = cover (s.ranges (T t)) ∪ Set.Ico b e ↔
        Unswallowed s.range (T t).inorder ⟨b, e⟩) ∧ AddFrame c s s' (nd :: L) L' T t T' := by
  obtain ⟨A, B, hT, hA, hB⟩ := exists_cut hv b
  obtain ⟨s', L', T', e', h', hj, hf⟩ := ballocAddRange_spec (e := e) h hv hT hA hB
  have hV : Valid ((A ++ B).map s.range) := by rwa [← hT]
  obtain ⟨hv', hsub, heq⟩ := joined_spec (r := ⟨b, e⟩) hV hbe hA hB
  rw [← hj, ← hT] at heq
  rw [← hj, ← hT] at hsub
  rw [← hj] at hv'
  exact ⟨s', L', T', e', h', hv', hsub, heq, hf⟩

theorem addsUnion_iff_of_node {nd : ℕ} (h : Holds c s (nd :: L) T) (hv : Valid (s.ranges (T t)))
    (hbe : b ≤ e) : AddsUnion c s T t b e ↔ Unswallowed s.range (T t).inorder ⟨b, e⟩ := by
  obtain ⟨s', L', T', e', h', hv', -, heq, hf⟩ := ballocAddRange_cover h hv hbe
  rw [← heq]
  constructor
  · rintro ⟨s₁, L₁, T₁, e₁, h₁, -, hc, -⟩
    obtain rfl : s' = s₁ := Except.ok.inj (e'.symm.trans e₁)
    obtain rfl := h'.unique h₁
    rwa [Function.update_self] at hc
  · intro hc
    refine ⟨s', L', _, e', h', ?_, ?_, fun t' hne => ?_⟩
    · rwa [Function.update_self]
    · rwa [Function.update_self]
    · rw [Function.update_of_ne hne]
      exact hf.ranges h

/-- `__balloc_add_range` is set union exactly when the pool has a node and no range is swallowed. -/
theorem ballocAddRange_union_iff (h : Holds c s L T) (hv : Valid (s.ranges (T t))) (hbe : b ≤ e) :
    AddsUnion c s T t b e ↔ L ≠ [] ∧
      ∀ a ∈ (T t).inorder, ¬ (b ≤ (s.range a).begin ∧ (s.range a).stop < e) := by
  cases L with
  | nil =>
    refine ⟨fun ⟨s', _, _, e', _⟩ => ?_, fun hne => absurd rfl hne.1⟩
    rw [ballocAddRange_nil h hv] at e'
    cases e'
  | cons nd L =>
    rw [addsUnion_iff_of_node h hv hbe]
    exact ⟨fun hu => ⟨by simp, hu⟩, fun hu => hu.2⟩

/-! ### A small memory -/

/-- Two nodes: `[10, 20)` is free, and the other node is in the pool. -/
def smallImage : Image where
  ballocNodes := 64
  ballocFreeList := 8
  textPhysBegin := 0
  bssPhysEnd := 0
  nodes_pos := by decide
  nodes_aligned := by decide
  nodes_end := by decide
  list_pos := by decide
  list_aligned := by decide
  list_end := by decide
  list_apart := by decide
  image_le := by decide

def smallState : BallocState where
  links a := if a = 8 then ⟨104, 104, 0⟩ else if a = 64 then ⟨0, 0, 1⟩ else ⟨8, 8, 0⟩
  range _ := ⟨10, 20⟩
  memoryMap := 0
  freeRanges := 64

def smallTrees : RangeTree → ColorTree ℕ
  | .memoryMap => .nil
  | .freeRanges => .node .black .nil 64 .nil

theorem small_holds : Holds smallImage smallState [104] smallTrees := by
  have hnode : ∀ a : ℕ, a = 64 ∨ a = 104 → IsNode a := by
    rintro a (rfl | rfl) <;> exact ⟨by decide, by decide, by decide⟩
  refine ⟨⟨⟨?_, by decide⟩, by decide⟩, fun t => ?_, fun t => ?_, ?_, fun t => ?_, fun t t' hne => ?_⟩
  · simp [LinkRing.Link, smallImage, smallState, BallocState.heads]
  · cases t with
    | memoryMap => exact ⟨rfl, trivial, by simp [smallTrees], fun _ _ => rfl⟩
    | freeRanges =>
      exact ⟨rfl, ⟨hnode 64 (Or.inl rfl), rfl, trivial, trivial⟩, by simp [smallTrees],
        fun _ _ => rfl⟩
  · cases t with
    | memoryMap => exact ⟨rfl, 0, rfl⟩
    | freeRanges => exact ⟨rfl, 1, 0, rfl, rfl, rfl⟩
  · intro a ha
    exact hnode a (Or.inr (List.mem_singleton.mp ha))
  · cases t <;> simp [smallTrees, smallImage]
  · cases t <;> cases t' <;> simp [smallTrees] at hne ⊢

theorem small_valid : Valid (smallState.ranges (smallTrees .freeRanges)) :=
  valid_cons.mpr ⟨by decide, valid_nil, by simp⟩

theorem beside_adds_union : Valid (smallState.ranges (smallTrees .freeRanges)) ∧
    AddsUnion smallImage smallState smallTrees .freeRanges 15 30 :=
  ⟨small_valid, (ballocAddRange_union_iff small_holds small_valid (by decide)).mpr
    ⟨by decide, by simp [smallTrees, smallState]⟩⟩

/-- Adding `[0, 100)` around `[10, 20)` keeps only a part of it. -/
theorem around_not_union : Holds smallImage smallState [104] smallTrees ∧
    Valid (smallState.ranges (smallTrees .freeRanges)) ∧
    ¬ AddsUnion smallImage smallState smallTrees .freeRanges 0 100 := by
  refine ⟨small_holds, small_valid, fun hu => ?_⟩
  have h := (addsUnion_iff_of_node small_holds small_valid (by decide)).mp hu
  exact h 64 (by simp [smallTrees]) ⟨by decide, by decide⟩

end FilesKernel.Balloc
