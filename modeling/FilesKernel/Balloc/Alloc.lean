import FilesKernel.Balloc.RemoveRange
import Mathlib.Order.Bounds.Defs

/-! Allocation takes a piece out of a free range.

    The first range that the piece fits into is cut in two around it. Where no address wraps around,
    this is the first place for the piece, and the allocator ends in one of three ways: it has no
    node left, no range is large enough, or the piece is no longer free. -/

namespace FilesKernel.Balloc
open CExec CWord RbTree LinkedList RedBlack Spans

variable {c : Image} {s s' : BallocState} {L : List ℕ} {T : RangeTree → ColorTree ℕ}
  {size align b e addr k : ℕ}

/-! ### Alignment -/

/-- Clearing the last `k` bits of a word. -/
theorem and_not_mask {x : ℕ} (hk : k ≤ 64) (hx : x < 2 ^ 64) :
    x &&& (2 ^ 64 - 1 - (2 ^ k - 1)) = x / 2 ^ k * 2 ^ k := by
  have hshift : 2 ^ 64 - 1 - (2 ^ k - 1) = (2 ^ (64 - k) - 1) * 2 ^ k := by
    rw [Nat.sub_mul, ← Nat.pow_add, Nat.sub_add_cancel hk, Nat.one_mul]
    have := Nat.two_pow_pos k
    omega
  apply Nat.eq_of_testBit_eq
  intro j
  rw [hshift, Nat.testBit_and, Nat.testBit_mul_two_pow, Nat.testBit_mul_two_pow,
    Nat.testBit_two_pow_sub_one, Nat.testBit_div_two_pow]
  by_cases hj : k ≤ j
  · rw [Nat.sub_add_cancel hj]
    by_cases hj' : j < 64
    · simp [hj, show j - k < 64 - k by omega]
    · have hpow : x < 2 ^ j := hx.trans_le (Nat.pow_le_pow_right (by decide) (by omega))
      simp [Nat.testBit_lt_two_pow hpow]
  · simp [hj]

theorem ballocAlign_eq (hk : k < 64) (hb : b + (2 ^ k - 1) < 2 ^ 64) :
    ballocAlign (2 ^ k) b = (b + (2 ^ k - 1)) / 2 ^ k * 2 ^ k := by
  simp only [ballocAlign]
  rw [wsub_of_le (Nat.two_pow_pos k) (Nat.pow_lt_pow_right (by decide) hk), wrap_of_lt hb,
    and_not_mask hk.le hb]

theorem ballocAlign_le (hk : k < 64) (hb : b + (2 ^ k - 1) < 2 ^ 64) :
    ballocAlign (2 ^ k) b ≤ b + (2 ^ k - 1) := by
  rw [ballocAlign_eq hk hb]
  exact Nat.div_mul_le_self _ _

/-- Without a wrap around, the aligned address is the first multiple at or behind `b`. -/
theorem ballocAlign_isLeast (hk : k < 64) (hb : b + (2 ^ k - 1) < 2 ^ 64) :
    IsLeast {a | 2 ^ k ∣ a ∧ b ≤ a} (ballocAlign (2 ^ k) b) := by
  have hpos := Nat.two_pow_pos k
  have hdiv := Nat.div_add_mod (b + (2 ^ k - 1)) (2 ^ k)
  have hmod := Nat.mod_lt (b + (2 ^ k - 1)) hpos
  rw [Nat.mul_comm] at hdiv
  rw [ballocAlign_eq hk hb]
  refine ⟨⟨Nat.dvd_mul_left _ _, by omega⟩, fun a ⟨⟨i, hi⟩, hba⟩ => ?_⟩
  -- a smaller multiple would be smaller by `2 ^ k`
  rw [hi, Nat.mul_comm (2 ^ k)]
  refine Nat.mul_le_mul_right _ (Nat.le_of_lt_succ (Nat.div_lt_of_lt_mul ?_))
  rw [Nat.mul_succ, ← hi]
  omega

/-! ### The search -/

/-- `[a, a + size)` is a piece of `F` in the window `[b, e)`, at a multiple of `align`. -/
structure Fits (F : Set ℕ) (size align b e a : ℕ) : Prop where
  aligned : align ∣ a
  le : b ≤ a
  stop : a + size ≤ e
  free : Set.Ico a (a + size) ⊆ F

/-- At the ranges that the search comes to, no sum wraps around. -/
def NoWrap (R : List (Span ℕ)) (size align b e : ℕ) : Prop :=
  ∀ r ∈ R, b < r.stop → r.begin < e → (∀ a, Fits (cover R) size align b e a → r.begin ≤ a) →
    max r.begin b + (align - 1) < 2 ^ 64 ∧ ballocAlign align (max r.begin b) + size < 2 ^ 64

/-- The piece `[addr, addr + size)` of a free range is taken. -/
structure Allocated (c : Image) (s : BallocState) (T : RangeTree → ColorTree ℕ) (size : ℕ)
    (s' : BallocState) (addr : ℕ) (L' : List ℕ) (T' : ColorTree ℕ) : Prop where
  holds : Holds c s' L' (Function.update T .freeRanges T')
  valid : Valid (s'.ranges T')
  inside : ∃ r ∈ s.ranges (T .freeRanges), r.begin ≤ addr ∧ addr + size ≤ r.stop
  covers : cover (s'.ranges T') = cover (s.ranges (T .freeRanges)) \ Set.Ico addr (addr + size)
  others : ∀ t, t ≠ .freeRanges → ∀ a ∈ (T t).inorder, s'.range a = s.range a
  below : ∀ M, Below M (s.ranges (T .freeRanges)) → Below M (s'.ranges T')

/-- A piece inside one range of a valid list, cut out of the list. -/
theorem cover_cut {A B : List (Span ℕ)} {r : Span ℕ} {b e : ℕ} (hv : Valid (A ++ r :: B))
    (hb : r.begin ≤ b) (hbe : b ≤ e) (he : e ≤ r.stop) :
    cover A ∪ Set.Ico r.begin b ∪ Set.Ico e r.stop ∪ cover B =
      cover (A ++ r :: B) \ Set.Ico b e := by
  obtain ⟨hvA, hvr, hAr⟩ := valid_append.mp hv
  obtain ⟨-, hvB, hrB⟩ := valid_cons.mp hvr
  ext x
  simp only [cover_append, cover_cons, Set.mem_union, Set.mem_sdiff, Set.mem_Ico, mem_set]
  have hA : x ∈ cover A → x < r.begin := fun ⟨a, ha, hx⟩ =>
    hx.2.trans (hAr a ha r List.mem_cons_self)
  have hB : x ∈ cover B → r.stop < x := fun ⟨a, ha, hx⟩ => (hrB a ha).trans_le hx.1
  constructor
  · rintro (((hx | hx) | hx) | hx)
    · have := hA hx
      exact ⟨Or.inl hx, by omega⟩
    · exact ⟨Or.inr (Or.inl (by omega)), by omega⟩
    · exact ⟨Or.inr (Or.inl (by omega)), by omega⟩
    · have := hB hx
      exact ⟨Or.inr (Or.inr hx), by omega⟩
  · rintro ⟨hx | hx | hx, hout⟩
    · exact Or.inl (Or.inl (Or.inl hx))
    · rcases Nat.lt_or_ge x b with hxb | hxb
      · exact Or.inl (Or.inl (Or.inr (by omega)))
      · exact Or.inl (Or.inr (by omega))
    · exact Or.inr hx

/-- The search goes on from the nodes `Y`, and the ranges of `X` had no place for the piece. -/
theorem ballocAllocLoop_returns (h : Holds c s L T) (hv : Valid (s.ranges (T .freeRanges)))
    (hk : k < 64) (hsize : 0 < size) (hwrap : NoWrap (s.ranges (T .freeRanges)) size (2 ^ k) b e) :
    ∀ {fuel : ℕ} {X Y : List ℕ}, (T .freeRanges).inorder = X ++ Y → Y.length < fuel →
    (∀ x ∈ X, ∀ a, Fits (freeSet s T) size (2 ^ k) b e a → (s.range x).begin ≤ a →
      (s.range x).stop < a + size) → (∀ y ∈ Y, b < (s.range y).stop) →
    (loop (ballocAllocBody c s size (2 ^ k) b e) fuel (Y.headD 0) = .error noNode ∧ L.length < 2) ∨
    (loop (ballocAllocBody c s size (2 ^ k) b e) fuel (Y.headD 0) = .ok (s, e) ∧
      ∀ a, ¬ Fits (freeSet s T) size (2 ^ k) b e a) ∨
    ∃ s' addr L' T', loop (ballocAllocBody c s size (2 ^ k) b e) fuel (Y.headD 0) = .ok (s', addr) ∧
      IsLeast {a | Fits (freeSet s T) size (2 ^ k) b e a} addr ∧ Allocated c s T size s' addr L' T'
  | 0, _, Y, _, hfuel, _, _ => absurd hfuel (Nat.not_lt_zero _)
  | fuel + 1, X, Y, hT, hfuel, hX, hY => by
      have hV : Valid (X.map s.range ++ Y.map s.range) := by
        rw [← List.map_append, ← hT]
        exact hv
      -- a place for the piece is in a range that is still to come
      have hplace : ∀ a, Fits (freeSet s T) size (2 ^ k) b e a → ∃ y ∈ Y, (s.range y).begin ≤ a ∧
          a + size ≤ (s.range y).stop := fun a ha => by
        obtain ⟨r, hr, hra, har⟩ := hv.within_one (Nat.lt_add_of_pos_right hsize) ha.free
        obtain ⟨y, hy, rfl⟩ := List.mem_map.mp hr
        rw [hT, List.mem_append] at hy
        rcases hy with hy | hy
        · exact absurd har (Nat.not_le_of_lt (hX y hy a ha hra))
        · exact ⟨y, hy, hra, har⟩
      rw [loop]
      cases Y with
      | nil =>
        right; left
        rw [List.headD_nil, ballocAllocBody, if_neg fun hc => hc.1 rfl, ok_bind]
        exact ⟨rfl, fun a ha => by
          obtain ⟨y, hy, -⟩ := hplace a ha
          cases hy⟩
      | cons p Y =>
        have hp : s.range p ∈ s.ranges (T .freeRanges) := by
          rw [BallocState.ranges, hT]
          exact List.mem_map_of_mem (by simp)
        have hp0 : p ≠ 0 := ((h.trees .freeRanges).isNode p (by rw [hT]; simp)).ne
        have hbp := hY p List.mem_cons_self
        obtain ⟨hpp, -, hpY⟩ := valid_cons.mp (valid_append.mp hV).2.1
        -- a place in a later range is behind this one
        have hlater : ∀ y ∈ Y, (s.range p).stop < (s.range y).begin := fun y hy =>
          hpY _ (List.mem_map_of_mem hy)
        have hfirst : ∀ a, Fits (freeSet s T) size (2 ^ k) b e a → (s.range p).begin ≤ a :=
          fun a ha => by
            obtain ⟨y, hy, hya, -⟩ := hplace a ha
            rcases List.mem_cons.mp hy with rfl | hy
            · exact hya
            · have := hlater y hy
              omega
        rw [List.headD_cons, ballocAllocBody]
        by_cases hend : (s.range p).begin < e
        · obtain ⟨hw, hw'⟩ := hwrap _ hp hbp hend hfirst
          have hfrom : (if (s.range p).begin > b then (s.range p).begin else b) =
              max (s.range p).begin b := by
            split_ifs <;> omega
          have hto : (if (s.range p).stop < e then (s.range p).stop else e) =
              min (s.range p).stop e := by
            split_ifs <;> omega
          obtain ⟨⟨hdvd, hge⟩, hleast⟩ := ballocAlign_isLeast hk hw
          rw [if_pos ⟨hp0, hend⟩]
          simp only [hfrom, hto]
          generalize ballocAlign (2 ^ k) (max (s.range p).begin b) = addr at hw' hdvd hge hleast
          rw [wrap_of_lt hw']
          by_cases hfit : addr + size ≤ min (s.range p).stop e
          · rw [if_pos hfit]
            have hin : addr + size ≤ (s.range p).stop := by omega
            rcases cutNode_returns h hv hT (b := addr) (e := addr + size) (by omega) (by omega) with
              ⟨e', hL⟩ | ⟨s', L', T', X', e', hcut⟩
            · refine Or.inl ⟨by rw [e']; rfl, Nat.lt_of_lt_of_le hL ?_⟩
              rw [pieces]
              split_ifs <;> omega
            refine Or.inr (Or.inr ⟨s', addr, L', T', by rw [e']; rfl,
              ⟨⟨hdvd, by omega, by omega, fun x hx => ⟨_, hp, ?_⟩⟩, fun a ha => ?_⟩, hcut.holds,
              hcut.valid, ⟨_, hp, by omega, hin⟩, ?_, hcut.others, hcut.below⟩)
            · rw [mem_set]
              rw [Set.mem_Ico] at hx
              omega
            · exact hleast ⟨ha.aligned, max_le (hfirst a ha) ha.le⟩
            · rw [BallocState.ranges, hcut.order, List.map_append, cover_append, hcut.covers,
                List.map_congr_left hcut.behind, BallocState.ranges, hT, List.map_append,
                List.map_cons]
              exact cover_cut hV (by omega) (Nat.le_add_right _ _) hin
          · rw [if_neg hfit, rbNext_at (h.trees .freeRanges) hT]
            simp only [ok_bind]
            refine ballocAllocLoop_returns h hv hk hsize hwrap (X := X ++ [p]) (by rw [hT]; simp)
              (Nat.lt_of_succ_lt_succ hfuel) (fun x hx a ha hxa => ?_)
              fun y hy => hY y (List.mem_cons_of_mem p hy)
            rcases List.mem_append.mp hx with hx | hx
            · exact hX x hx a ha hxa
            · rw [List.mem_singleton.mp hx] at hxa ⊢
              have haddr := hleast ⟨ha.aligned, max_le hxa ha.le⟩
              have hstop := ha.stop
              omega
        · rw [if_neg fun hc => hend hc.2, ok_bind]
          refine Or.inr (Or.inl ⟨rfl, fun a ha => ?_⟩)
          have hpa := hfirst a ha
          have hstop := ha.stop
          omega

theorem ballocAllocAligned_returns (h : Holds c s L T) (hv : Valid (s.ranges (T .freeRanges)))
    (hk : k < 64) (hsize : 0 < size) (hwrap : NoWrap (s.ranges (T .freeRanges)) size (2 ^ k) b e) :
    (ballocAllocAligned c s size (2 ^ k) b e = .error noNode ∧ L.length < 2) ∨
    (ballocAllocAligned c s size (2 ^ k) b e = .ok (s, e) ∧
      ∀ a, ¬ Fits (freeSet s T) size (2 ^ k) b e a) ∨
    ∃ s' addr L' T', ballocAllocAligned c s size (2 ^ k) b e = .ok (s', addr) ∧
      IsLeast {a | Fits (freeSet s T) size (2 ^ k) b e a} addr ∧ Allocated c s T size s' addr L' T' := by
  obtain ⟨X, Y, hfirst, hT, hX, hY⟩ := ballocFirst_spec (b := b) h hv
  have hfuel : Y.length < maxSteps := by
    have hlen := (h.trees .freeRanges).length_lt
    rw [hT, List.length_append] at hlen
    omega
  rw [ballocAllocAligned, hfirst, ok_bind]
  refine ballocAllocLoop_returns h hv hk hsize hwrap hT hfuel (fun x hx a ha hxa => ?_) hY
  have hxb := hX x hx
  have hba := ha.le
  omega

/-- `__balloc_alloc` is first fit: with two free nodes it takes the first place for the piece, and
    where there is none it changes nothing. -/
theorem ballocAllocAligned_firstFit (h : Holds c s L T) (hv : Valid (s.ranges (T .freeRanges)))
    (hL : 2 ≤ L.length) (hk : k < 64) (hsize : 0 < size)
    (hwrap : NoWrap (s.ranges (T .freeRanges)) size (2 ^ k) b e) :
    (∃ s' addr L' T', ballocAllocAligned c s size (2 ^ k) b e = .ok (s', addr) ∧
      IsLeast {a | Fits (freeSet s T) size (2 ^ k) b e a} addr ∧ Allocated c s T size s' addr L' T') ∨
    ((∀ a, ¬ Fits (freeSet s T) size (2 ^ k) b e a) ∧
      ballocAllocAligned c s size (2 ^ k) b e = .ok (s, e)) := by
  rcases ballocAllocAligned_returns h hv hk hsize hwrap with ⟨-, hlt⟩ | ⟨e', hnone⟩ | hsome
  · exact absurd hL (Nat.not_le_of_lt hlt)
  · exact Or.inr ⟨hnone, e'⟩
  · exact Or.inl hsome

/-- `smallState` with a second node in the pool. -/
def roomyState : BallocState where
  links a := if a = 8 then ⟨104, 144, 0⟩ else if a = 64 then ⟨0, 0, 1⟩ else
    if a = 104 then ⟨144, 8, 0⟩ else ⟨8, 104, 0⟩
  range _ := ⟨10, 20⟩
  memoryMap := 0
  freeRanges := 64

theorem roomy_holds : Holds smallImage roomyState [104, 144] smallTrees := by
  have hnode : ∀ a : ℕ, a = 64 ∨ a = 104 ∨ a = 144 → IsNode a := by
    rintro a (rfl | rfl | rfl) <;> exact ⟨by decide, by decide, by decide⟩
  refine ⟨⟨⟨?_, by decide⟩, by decide⟩, fun t => ?_, small_holds.valid, ?_, fun t => ?_,
    small_holds.disjoint⟩
  · simp [LinkRing.Link, smallImage, roomyState, BallocState.heads]
  · cases t with
    | memoryMap => exact ⟨rfl, trivial, by simp [smallTrees], fun _ _ => rfl⟩
    | freeRanges =>
      exact ⟨rfl, ⟨hnode 64 (Or.inl rfl), rfl, trivial, trivial⟩, by simp [smallTrees],
        fun _ _ => rfl⟩
  · intro a ha
    exact hnode a (Or.inr (by simpa using ha))
  · cases t <;> simp [smallTrees, smallImage]

/-- A place for four bytes at a multiple of four. -/
theorem roomy_firstFit : (∃ s' addr L' T', ballocAllocAligned smallImage roomyState 4 (2 ^ 2) 0 100 =
      .ok (s', addr) ∧ IsLeast {a | Fits (freeSet roomyState smallTrees) 4 (2 ^ 2) 0 100 a} addr ∧
      Allocated smallImage roomyState smallTrees 4 s' addr L' T') ∨
    ((∀ a, ¬ Fits (freeSet roomyState smallTrees) 4 (2 ^ 2) 0 100 a) ∧
      ballocAllocAligned smallImage roomyState 4 (2 ^ 2) 0 100 = .ok (roomyState, 100)) := by
  have hv : Valid (roomyState.ranges (smallTrees .freeRanges)) :=
    valid_cons.mpr ⟨by decide, valid_nil, by simp⟩
  refine ballocAllocAligned_firstFit roomy_holds hv (by decide) (by decide) (by decide) ?_
  intro r hr _ _ _
  obtain rfl : r = ⟨10, 20⟩ := List.mem_singleton.mp hr
  decide +kernel

/-- `balloc_alloc` of a large piece from anywhere. -/
theorem ballocAlloc_returns (h : Holds c s L T) (hv : Valid (s.ranges (T .freeRanges)))
    (hM : Below (2 ^ 63) (s.ranges (T .freeRanges))) (hsize : 32 < size) (hsize' : size ≤ 2 ^ 62) :
    ballocAlloc c s size 0 (2 ^ 64 - 1) = .error noNode ∨
    ballocAlloc c s size 0 (2 ^ 64 - 1) = .ok (s, 2 ^ 64 - 1) ∨
    ∃ s' addr L' T', ballocAlloc c s size 0 (2 ^ 64 - 1) = .ok (s', addr) ∧
      Allocated c s T size s' addr L' T' := by
  have halloc : ballocAlloc c s size 0 (2 ^ 64 - 1) =
      ballocAllocAligned c s size (2 ^ 6) 0 (2 ^ 64 - 1) := by
    simp only [ballocAlloc]
    rw [if_neg (by omega), if_neg (by omega), if_neg (by omega), show 64 = 2 ^ 6 from rfl]
  have hwrap : NoWrap (s.ranges (T .freeRanges)) size (2 ^ 6) 0 (2 ^ 64 - 1) := by
    intro r hr _ _ _
    have hle := hv.le r hr
    have hstop := hM r hr
    have hb : max r.begin 0 + (2 ^ 6 - 1) < 2 ^ 64 := by omega
    have haddr := ballocAlign_le (k := 6) (by decide) hb
    exact ⟨hb, by omega⟩
  rw [halloc]
  rcases ballocAllocAligned_returns h hv (by decide) (by omega) hwrap with ⟨e', -⟩ | ⟨e', -⟩ |
    ⟨s', addr, L', T', e', -, hall⟩
  · exact Or.inl e'
  · exact Or.inr (Or.inl e')
  · exact Or.inr (Or.inr ⟨s', addr, L', T', e', hall⟩)

end FilesKernel.Balloc
