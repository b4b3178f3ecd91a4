import FilesKernel.Balloc.Bootstrap
import FilesKernel.Balloc.Tracked
import FilesKernel.Lib.Bits

/-! The nodes are conserved.

    Between two calls each node of `balloc_nodes` is in the pool or in one of the trees. A call may hold
    on to a node that it has taken out of a tree, and to the one behind it: neither goes back to the pool
    before it is read for the last time. -/

namespace FilesKernel.Balloc
open CExec CWord CBits RbTree LinkedList RedBlack Spans

variable {c : Image} {s s' : BallocState} {L : List ℕ} {T : RangeTree → ColorTree ℕ} {t : RangeTree}
  {X Y : List ℕ} {b e p q : ℕ} {x : Tracked} {g : ℕ → ℕ}

/-! ### Cutting -/

/-- What is in the pool and in the tree is seen in the state. -/
theorem Holds.same {L₁ L₂ : List ℕ} {T₁ T₂ : ColorTree ℕ} (h₁ : Holds c s L₁ (Function.update T t T₁))
    (h₂ : Holds c s L₂ (Function.update T t T₂)) : L₁ = L₂ ∧ T₁ = T₂ := by
  have hT := congrFun (h₁.unique h₂) t
  rw [Function.update_self, Function.update_self] at hT
  exact ⟨h₁.pool.ring.unique h₂.pool.ring, hT⟩

/-- A part of a range is put back between the nodes `X` and `Y`, unless it is empty. -/
theorem putBack_lockstep (h : Holds c s L T) (hv : Valid (s.ranges (T t)))
    (hT : (T t).inorder = X ++ Y) (hX : ∀ a ∈ X, (s.range a).begin < p)
    (hY : ∀ a ∈ Y, q < (s.range a).begin) :
    Lockstep noNode (fun x' s' => x'.state = s' ∧ ∃ L' T' X', Moved c L T t g x' L' T' ∧
        Valid (s'.ranges T') ∧ T'.inorder = X' ++ Y ∧
        (∀ M, p ≤ M → (p < q → p < M) → ∀ a ∈ X', (s'.range a).begin < M) ∧
        AddFrame c s s' L L' T t T')
      (if p < q then Tracked.addRange c ⟨s, g⟩ t p q else .ok ⟨s, g⟩)
      (if p < q then ballocAddRange c s t p q else .ok s) := by
  by_cases hpq : p < q
  · rw [if_pos hpq, if_pos hpq]
    rcases addRange_lockstep (g := g) (b := p) (e := q) h hv with hstop | ⟨x', _, e₁, e₂, rfl, L', T', hm⟩
    · exact Or.inl hstop
    · obtain ⟨L₂, T₂, X', h₂, hv₂, hin₂, hbegin, -, -, -, hf⟩ := ballocAddRange_gap h hv hT hX hY hpq.le e₂
      obtain ⟨rfl, rfl⟩ := h₂.same hm.holds
      exact Or.inr ⟨x', _, e₁, e₂, rfl, _, _, X', hm, hv₂, hin₂,
        fun M _ hM a ha => (hbegin a ha).trans_lt (hM hpq), hf⟩
  · rw [if_neg hpq, if_neg hpq]
    refine .ok ⟨rfl, L, T t, X, h.moved, hv, hT, fun M hM _ a ha => (hX a ha).trans_le hM,
      fun a _ => rfl, fun a ha => ?_⟩
    rwa [Function.update_eq_self]

/-- A node of the tree has been cut, and the nodes `Y` behind it are as they were. -/
structure Recut (c : Image) (s : BallocState) (L : List ℕ) (T : RangeTree → ColorTree ℕ)
    (t : RangeTree) (Y : List ℕ) (g : ℕ → ℕ) (x : Tracked) (L' : List ℕ) (T' : ColorTree ℕ)
    (X' : List ℕ) : Prop where
  holds : Holds c x.state L' (Function.update T t T')
  nodes : (L' ++ T'.inorder).Perm (L ++ (T t).inorder)
  valid : Valid (x.state.ranges T')
  order : T'.inorder = X' ++ Y
  behind : ∀ a ∈ Y, x.state.range a = s.range a
  given : ∀ a ∈ Y, x.given a = g a
  others : ∀ t', t' ≠ t → ∀ a ∈ (T t').inorder, x.state.range a = s.range a

/-- Cutting `[b, e)` out of the range of a node reads neither this node nor another one after it has
    been given back. -/
theorem cutNode_lockstep (h : Holds c s L T) (hv : Valid (s.ranges (T t)))
    (hT : (T t).inorder = X ++ p :: Y) (hb : b ≤ (s.range p).stop) (he : (s.range p).begin ≤ e)
    (hbe : (s.range p).begin < b → (s.range p).begin < e) :
    Lockstep noNode (fun x' s' => x'.state = s' ∧ ∃ L' T' X', Recut c s L T t Y g x' L' T' X')
      (Tracked.cutNode c ⟨s, g⟩ t ⟨p, g p⟩ b e) (cutNode c s t p b e) := by
  obtain ⟨s₁, T₁, e₁, h₁, hl₁, hin₁, hr₁⟩ := eraseNode_spec h hT
  rw [Tracked.cutNode, cutNode, e₁, ok_bind, ok_bind]
  -- where the neighbours lie
  have hV : Valid (X.map s.range ++ s.range p :: Y.map s.range) := by
    rwa [BallocState.ranges, hT, List.map_append, List.map_cons] at hv
  obtain ⟨hVX, hVp, hXp⟩ := valid_append.mp hV
  obtain ⟨-, -, hpY⟩ := valid_cons.mp hVp
  have hX : ∀ a ∈ X, (s₁.range a).begin < (s₁.range p).begin := fun a ha => by
    rw [hr₁]
    exact (hVX.le _ (List.mem_map_of_mem ha)).trans_lt (hXp _ (List.mem_map_of_mem ha) _ (by simp))
  have hY : ∀ a ∈ Y, (s₁.range p).stop < (s₁.range a).begin := fun a ha => by
    rw [hr₁]
    exact hpY _ (List.mem_map_of_mem ha)
  rw [← hr₁] at hb he hbe
  have hsub : (s₁.ranges T₁).Sublist (s.ranges (T t)) := by
    rw [BallocState.ranges, BallocState.ranges, hin₁, hT, hr₁, List.map_append, List.map_append]
    exact List.Sublist.append_left (List.sublist_cons_self _ _) _
  have hv₁ : Valid (s₁.ranges (Function.update T t T₁ t)) := by
    rw [Function.update_self]
    exact hv.sublist hsub
  have hT₁ : (Function.update T t T₁ t).inorder = X ++ Y := by rw [Function.update_self, hin₁]
  have hread₁ : Tracked.read ⟨s₁, g⟩ ⟨p, g p⟩ = .ok (s₁.range p) := if_pos rfl
  -- the part in front
  dsimp only
  rw [hread₁, ok_bind]
  refine (putBack_lockstep (g := g) h₁ hv₁ hT₁ hX fun a ha => hb.trans_lt (hY a ha)).bind ?_
  rintro ⟨s₂, g₂⟩ _ ⟨rfl, L₂, T₂, X₂, hm₂, hv₂, hin₂, hX₂, hf₂⟩
  have h₂ := hm₂.holds
  have hl₂ := hf₂.loose p hl₁
  have hnodes₂ := hm₂.nodes
  rw [Function.update_idem] at h₂ hl₂
  rw [Function.update_self] at hnodes₂
  have hp₂ : s₂.range p = s₁.range p := hf₂.range p fun hL => hl₁.pool (List.mem_cons_of_mem _ hL)
  have hg₂ : g₂ p = g p := hm₂.given p fun hL => hl₂.pool (List.mem_cons_of_mem _ hL)
  have hmem₁ : ∀ a ∈ Y, a ∉ L := fun a ha hL =>
    h.apart t a (by rw [hT]; simp [ha]) (List.mem_cons_of_mem _ hL)
  have hY₂ : ∀ a ∈ Y, s₂.range a = s₁.range a := fun a ha => hf₂.range a (hmem₁ a ha)
  have hT₂ : (Function.update T t T₂ t).inorder = X₂ ++ Y := by rw [Function.update_self, hin₂]
  have hread₂ : Tracked.read ⟨s₂, g₂⟩ ⟨p, g p⟩ = .ok (s₂.range p) := if_pos hg₂
  -- the part behind
  dsimp only
  rw [hread₂, ok_bind]
  refine (putBack_lockstep (p := e) (q := (s₂.range p).stop) (g := g₂) h₂
    (by rwa [Function.update_self]) hT₂ (hX₂ e he hbe)
    fun a ha => by rw [hp₂, hY₂ a ha]; exact hY a ha).bind ?_
  rintro ⟨s₃, g₃⟩ _ ⟨rfl, L₃, T₃, X₃, hm₃, hv₃, hin₃, -, hf₃⟩
  have h₃ := hm₃.holds
  have hl₃ := hf₃.loose p hl₂
  have hnodes₃ := hm₃.nodes
  rw [Function.update_idem] at h₃ hl₃
  rw [Function.update_self] at hnodes₃
  have hmem₂ : ∀ a ∈ Y, a ∉ L₂ := fun a ha hL =>
    h₂.apart t a (by rw [hT₂]; simp [ha]) (List.mem_cons_of_mem _ hL)
  -- the node goes back to the pool
  refine (freeNode_lockstep h₃ hl₃ (g p)).mono ?_
  rintro x' s' ⟨rfl, h₄, hr₄, hg₄⟩
  refine ⟨rfl, p :: L₃, T₃, X₃, h₄, ?_, ?_, hin₃, fun a ha => ?_, fun a ha => ?_,
    fun t' hne a ha => ?_⟩
  · have hpart : (p :: (L ++ T₁.inorder)).Perm (L ++ (T t).inorder) := by
      rw [hin₁, hT, ← List.append_assoc, ← List.append_assoc]
      exact List.perm_middle.symm
    exact ((hnodes₃.trans hnodes₂).cons p).trans hpart
  · rw [BallocState.ranges, hr₄]
    exact hv₃
  · rw [hr₄, hf₃.range a (hmem₂ a ha), hY₂ a ha, hr₁]
  · have hap : a ≠ p := fun e => (h.not_mem_sides hT).2 (e ▸ ha)
    have hg₃ : g₃ a = g₂ a := hm₃.given_of_mem (by rw [hin₃]; simp [ha])
    have hg₂ : g₂ a = g a := hm₂.given_of_mem (by rw [hin₂]; simp [ha])
    rw [hg₄, Function.update_of_ne hap, hg₃, hg₂]
  · have ha₁ : a ∉ L := fun hL => h.apart t' a ha (List.mem_cons_of_mem _ hL)
    have ha₂ : a ∉ L₂ := fun hL => by
      refine h₂.apart t' a ?_ (List.mem_cons_of_mem _ hL)
      rwa [Function.update_of_ne hne]
    rw [hr₄, hf₃.range a ha₂, hf₂.range a ha₁, hr₁]

/-! ### Calls -/

/-- A call has put the nodes of the pool and of one tree in a new order, and left the other tree. -/
structure Settled (c : Image) (s : BallocState) (L : List ℕ) (T : RangeTree → ColorTree ℕ)
    (t : RangeTree) (s' : BallocState) (L' : List ℕ) (T' : ColorTree ℕ) : Prop where
  holds : Holds c s' L' (Function.update T t T')
  nodes : (L' ++ T'.inorder).Perm (L ++ (T t).inorder)
  valid : Valid (s'.ranges T')
  others : ∀ t', t' ≠ t → ∀ a ∈ (T t').inorder, s'.range a = s.range a

theorem Holds.settled (h : Holds c s L T) (hv : Valid (s.ranges (T t))) :
    Settled c s L T t s L (T t) := by
  refine ⟨?_, List.Perm.refl _, hv, fun _ _ _ _ => rfl⟩
  rwa [Function.update_eq_self]

/-- A node is cut later in the call. -/
theorem Settled.recut {L₁ L₂ X₂ : List ℕ} {T₁ T₂ : ColorTree ℕ} (h : Settled c s L T t s' L₁ T₁)
    (hcut : Recut c s' L₁ (Function.update T t T₁) t Y g x L₂ T₂ X₂) :
    Settled c s L T t x.state L₂ T₂ := by
  have hholds := hcut.holds
  have hnodes := hcut.nodes
  rw [Function.update_idem] at hholds
  rw [Function.update_self] at hnodes
  refine ⟨hholds, hnodes.trans h.nodes, hcut.valid, fun t' hne a ha => ?_⟩
  rw [hcut.others t' hne a (by rwa [Function.update_of_ne hne]), h.others t' hne a ha]

theorem addRange_settled (h : Holds c s L T) (hv : Valid (s.ranges (T t))) (hbe : b ≤ e) :
    Lockstep noNode (fun x' s' => x'.state = s' ∧ ∃ L' T', Settled c s L T t s' L' T')
      (Tracked.addRange c ⟨s, g⟩ t b e) (ballocAddRange c s t b e) := by
  rcases addRange_lockstep (g := g) (b := b) (e := e) h hv with hstop | ⟨x', _, e₁, e₂, rfl, L', T', hm⟩
  · exact Or.inl hstop
  · obtain ⟨nd, L, rfl⟩ := ballocAddRange_ne_nil h hv e₂
    obtain ⟨s₂, L₂, T₂, e₃, h₂, hv₂, -, -, hf⟩ := ballocAddRange_cover h hv hbe
    obtain rfl := Except.ok.inj (e₂.symm.trans e₃)
    obtain ⟨rfl, rfl⟩ := h₂.same hm.holds
    refine Or.inr ⟨x', _, e₁, e₂, rfl, _, _, h₂, hm.nodes, hv₂, fun t' _ a ha => hf.range a ?_⟩
    exact fun hL => h.apart t' a ha (List.mem_cons_of_mem _ hL)

/-- `__balloc_remove_range` reads no node that has been given back. -/
theorem removeRange_settled (h : Holds c s L T) (hv : Valid (s.ranges (T t))) :
    Lockstep noNode (fun x' s' => x'.state = s' ∧ ∃ L' T', Settled c s L T t s' L' T')
      (Tracked.removeRange c ⟨s, g⟩ t b e) (ballocRemoveRange c s t b e) := by
  obtain ⟨X, Y, hfirst, hT, -, hY⟩ := ballocFirst_spec (b := b) h hv
  rw [Tracked.removeRange, ballocRemoveRange, hfirst, ok_bind, ok_bind]
  let I (n : ℕ) (r : Tracked × Ref) (q : BallocState × ℕ) : Prop := r.1.state = q.1 ∧ r.2.node = q.2 ∧
    ∃ L' T' X Y, Settled c s L T t q.1 L' T' ∧ T'.inorder = X ++ Y ∧ q.2 = Y.headD 0 ∧ Y.length = n ∧
      (∀ a ∈ Y, b < (q.1.range a).stop) ∧
      (q.2 ≠ 0 → r.1.given q.2 = r.2.given)
  have hbody : ∀ n r q, I n r q → Lockstep noNode (Round I (fun x' s' => x'.state = s' ∧
      ∃ L' T', Settled c s L T t s' L' T') n) (Tracked.removeBody c t b e r)
      (ballocRemoveBody c t b e q) := by
    rintro n ⟨⟨s₁, g₁⟩, ⟨ptr, k⟩⟩ ⟨_, _⟩ ⟨rfl, rfl, L₁, T₁, X, Y, hs, hin, hptr, rfl, hstop, hg⟩
    dsimp only at hs hptr hstop hg
    rw [Tracked.removeBody, ballocRemoveBody]
    cases Y with
    | nil =>
      have hnull : ¬ ptr ≠ 0 := not_not.mpr hptr
      dsimp only
      rw [if_neg hnull, if_neg fun hc => hnull hc.1]
      exact .ok ⟨rfl, L₁, T₁, hs⟩
    | cons p Y =>
      obtain rfl : ptr = p := hptr
      have hT₁ : (Function.update T t T₁ t).inorder = X ++ ptr :: Y := by rw [Function.update_self, hin]
      have hv₁ : Valid (s₁.ranges (Function.update T t T₁ t)) := by
        rw [Function.update_self]
        exact hs.valid
      have hp0 : ptr ≠ 0 := ((hs.holds.trees t).isNode ptr (by rw [hT₁]; simp)).ne
      obtain rfl := hg hp0
      have hread : Tracked.read ⟨s₁, g₁⟩ ⟨ptr, g₁ ptr⟩ = .ok (s₁.range ptr) := if_pos rfl
      have hnext : rbNext (s₁.tree t) ptr = .ok (Y.headD 0) := rbNext_at (hs.holds.trees t) hT₁
      dsimp only
      rw [if_pos hp0, hread, ok_bind]
      by_cases hend : (s₁.range ptr).begin < e
      · rw [if_pos hend, if_pos ⟨hp0, hend⟩, hnext, ok_bind, ok_bind]
        refine (cutNode_lockstep hs.holds hv₁ hT₁ (hstop ptr List.mem_cons_self).le hend.le
          fun _ => hend).bind ?_
        rintro x₂ _ ⟨rfl, L₂, T₂, X₂, hcut⟩
        refine .ok ⟨Y.length, Nat.lt_succ_self _, rfl, rfl, L₂, T₂, X₂, Y, hs.recut hcut, hcut.order, rfl,
          rfl, fun a ha => ?_, fun h0 => ?_⟩
        · rw [hcut.behind a ha]
          exact hstop a (List.mem_cons_of_mem _ ha)
        · cases Y with
          | nil => exact absurd rfl h0
          | cons y Y => exact hcut.given y List.mem_cons_self
      · rw [if_neg hend, if_neg fun hc => hend hc.2]
        exact .ok ⟨rfl, L₁, T₁, hs⟩
  have hfuel : Y.length < maxSteps := by
    have hlen := (h.trees t).length_lt
    rw [hT, List.length_append] at hlen
    omega
  exact Lockstep.loop hbody hfuel ⟨rfl, rfl, L, T t, X, Y, h.settled hv, hT, rfl, rfl, hY,
    fun _ => rfl⟩

/-! ### Allocation -/

theorem le_ballocAlign {align y : ℕ} (h : y + wsub align 1 < 2 ^ 64) : y ≤ ballocAlign align y := by
  have hmask : wsub align 1 < 2 ^ 64 := Nat.lt_of_le_of_lt (Nat.le_add_left _ _) h
  have hle := sub_le_and_not h hmask
  simp only [ballocAlign]
  rw [wrap_of_lt h]
  omega

/-- Where `__balloc_alloc` would take its piece out of the range `r`. -/
def pieceAt (align b : ℕ) (r : Span ℕ) : ℕ := ballocAlign align (max r.begin b)

/-- The piece fits into the range and the window. -/
def Takes (size align b e : ℕ) (r : Span ℕ) : Prop :=
  wrap (pieceAt align b r + size) ≤ min r.stop e

/-- At the ranges that the search comes to, no sum wraps around. -/
def Unwrapped (R : List (Span ℕ)) (size align b e : ℕ) : Prop :=
  ∀ A r B, R = A ++ r :: B → b < r.stop → r.begin < e →
    (∀ r' ∈ A, b < r'.stop → ¬ Takes size align b e r') →
    max r.begin b + wsub align 1 < 2 ^ 64 ∧ pieceAt align b r + size < 2 ^ 64

/-- `__balloc_alloc` reads no node that has been given back. -/
theorem allocAligned_settled {size align : ℕ} (h : Holds c s L T)
    (hv : Valid (s.ranges (T .freeRanges)))
    (hwrap : Unwrapped (s.ranges (T .freeRanges)) size align b e) :
    Lockstep noNode (fun r r' => r.1.state = r'.1 ∧ r.2 = r'.2 ∧
        ∃ L' T', Settled c s L T .freeRanges r'.1 L' T')
      (Tracked.allocAligned c ⟨s, g⟩ size align b e) (ballocAllocAligned c s size align b e) := by
  obtain ⟨X, Y, hfirst, hT, hX, hY⟩ := ballocFirst_spec (b := b) h hv
  rw [Tracked.allocAligned, ballocAllocAligned, hfirst, ok_bind, ok_bind]
  let I (n : ℕ) (r : Ref) (p : ℕ) : Prop := r = ⟨p, g p⟩ ∧ ∃ X Y, (T .freeRanges).inorder = X ++ Y ∧
    p = Y.headD 0 ∧ Y.length = n ∧ (∀ a ∈ Y, b < (s.range a).stop) ∧
    ∀ a ∈ X, b < (s.range a).stop → ¬ Takes size align b e (s.range a)
  have hbody : ∀ n r p, I n r p → Lockstep noNode (Round I (fun r r' => r.1.state = r'.1 ∧ r.2 = r'.2 ∧
      ∃ L' T', Settled c s L T .freeRanges r'.1 L' T') n)
      (Tracked.allocBody c ⟨s, g⟩ size align b e r) (ballocAllocBody c s size align b e p) := by
    rintro n _ p ⟨rfl, X, Y, hin, hp, rfl, hstop, hskip⟩
    rw [Tracked.allocBody, ballocAllocBody]
    cases Y with
    | nil =>
      obtain rfl : p = 0 := hp
      exact .ok ⟨rfl, rfl, L, T .freeRanges, h.settled hv⟩
    | cons q Y =>
      obtain rfl : p = q := hp
      have hp0 : p ≠ 0 := ((h.trees .freeRanges).isNode p (by rw [hin]; simp)).ne
      have hread : Tracked.read ⟨s, g⟩ ⟨p, g p⟩ = .ok (s.range p) := if_pos rfl
      have hnext : rbNext (s.tree .freeRanges) p = .ok (Y.headD 0) := rbNext_at (h.trees .freeRanges) hin
      have hmax : (if (s.range p).begin > b then (s.range p).begin else b) = max (s.range p).begin b := by
        split_ifs <;> omega
      have hmin : (if (s.range p).stop < e then (s.range p).stop else e) = min (s.range p).stop e := by
        split_ifs <;> omega
      dsimp only
      rw [if_pos hp0, hread, ok_bind]
      by_cases hend : (s.range p).begin < e
      · have hsplit : s.ranges (T .freeRanges) = X.map s.range ++ s.range p :: Y.map s.range := by
          rw [BallocState.ranges, hin, List.map_append, List.map_cons]
        obtain ⟨hw, hw'⟩ := hwrap _ _ _ hsplit (hstop p List.mem_cons_self) hend fun r hr => by
          obtain ⟨a, ha, rfl⟩ := List.mem_map.mp hr
          exact hskip a ha
        have hle : max (s.range p).begin b ≤ pieceAt align b (s.range p) := le_ballocAlign hw
        have hgo : p ≠ 0 ∧ (s.range p).begin < e := ⟨hp0, hend⟩
        rw [if_pos hend, if_pos hgo]
        simp only [hmax, hmin]
        rw [← pieceAt, wrap_of_lt hw']
        by_cases hfit : pieceAt align b (s.range p) + size ≤ min (s.range p).stop e
        · rw [if_pos hfit, if_pos hfit]
          refine (cutNode_lockstep h hv hin (by omega) (by omega) (by omega)).bind ?_
          rintro x₂ _ ⟨rfl, L₂, T₂, X₂, hcut⟩
          refine .ok ⟨rfl, rfl, L₂, T₂, hcut.holds, hcut.nodes, hcut.valid, hcut.others⟩
        · rw [if_neg hfit, if_neg hfit, hnext]
          refine .ok ⟨Y.length, Nat.lt_succ_self _, rfl, X ++ [p], Y, by rw [hin]; simp, rfl, rfl,
            fun a ha => hstop a (List.mem_cons_of_mem _ ha), fun a ha hba => ?_⟩
          rcases List.mem_append.mp ha with ha | ha
          · exact hskip a ha hba
          · rw [List.mem_singleton.mp ha, Takes, wrap_of_lt hw']
            exact hfit
      · rw [if_neg hend, if_neg fun hc => hend hc.2]
        exact .ok ⟨rfl, rfl, L, T .freeRanges, h.settled hv⟩
  have hfuel : Y.length < maxSteps := by
    have hlen := (h.trees .freeRanges).length_lt
    rw [hT, List.length_append] at hlen
    omega
  exact Lockstep.loop hbody hfuel ⟨rfl, X, Y, hT, rfl, rfl, hY,
    fun a ha hba => absurd (hX a ha) (Nat.not_le_of_lt hba)⟩

/-! ### Runs -/

inductive RangeOp where
  | add (t : RangeTree) (b e : ℕ)
  | remove (t : RangeTree) (b e : ℕ)
  | alloc (size align b e : ℕ)

def RangeOp.step (c : Image) (s : BallocState) : RangeOp → Exec BallocState
  | .add t b e => ballocAddRange c s t b e
  | .remove t b e => ballocRemoveRange c s t b e
  | .alloc size align b e => do
    let (s, _) ← ballocAllocAligned c s size align b e
    .ok s

def RangeOp.track (c : Image) (x : Tracked) : RangeOp → Exec Tracked
  | .add t b e => x.addRange c t b e
  | .remove t b e => x.removeRange c t b e
  | .alloc size align b e => do
    let (x, _) ← x.allocAligned c size align b e
    .ok x

/-- A range is not turned round, and no sum of an allocation from the ranges `R` wraps around. -/
def RangeOp.Legal (R : List (Span ℕ)) : RangeOp → Prop
  | .add _ b e => b ≤ e
  | .remove _ b e => b ≤ e
  | .alloc size align b e => Unwrapped R size align b e

/-- Each node is once in the pool or in one of the trees. -/
structure Shared (c : Image) (s : BallocState) (L : List ℕ) (T : RangeTree → ColorTree ℕ) : Prop where
  pool : OnRing s.heads c.ballocFreeList L
  trees : ∀ t, Repr (s.tree t).mem (s.tree t) (T t)
  nodes : (L ++ ((T .memoryMap).inorder ++ (T .freeRanges).inorder)).Perm c.nodes

/-- As long as the calls are legal, the nodes are shared before and behind each of them, and no call
    reads a node that it has given back: with the count beside it, it does the same. A call may stop
    because the pool is empty. -/
def Conserved (c : Image) : Tracked → List RangeOp → Prop
  | x, [] => ∃ L T, Shared c x.state L T
  | x, op :: ops => ∃ L T, Shared c x.state L T ∧ (op.Legal (x.state.ranges (T .freeRanges)) →
      (op.step c x.state = .error noNode ∧ op.track c x = .error noNode) ∨
      ∃ x', op.step c x.state = .ok x'.state ∧ op.track c x = .ok x' ∧ Conserved c x' ops)

/-- What holds between two calls. -/
structure Stocked (c : Image) (s : BallocState) (L : List ℕ) (T : RangeTree → ColorTree ℕ) : Prop where
  holds : Holds c s L T
  valid : ∀ t, Valid (s.ranges (T t))
  nodes : (L ++ ((T .memoryMap).inorder ++ (T .freeRanges).inorder)).Perm c.nodes

theorem Stocked.shared (h : Stocked c s L T) : Shared c s L T := ⟨h.holds.pool, h.holds.trees, h.nodes⟩

theorem Stocked.settled {L' : List ℕ} {T' : ColorTree ℕ} (h : Stocked c s L T)
    (hs : Settled c s L T t s' L' T') : Stocked c s' L' (Function.update T t T') := by
  refine ⟨hs.holds, fun t' => ?_, List.Perm.trans ?_ h.nodes⟩
  · rcases eq_or_ne t' t with rfl | hne
    · rw [Function.update_self]
      exact hs.valid
    · have hran : s'.ranges (T t') = s.ranges (T t') := List.map_congr_left (hs.others t' hne)
      rw [Function.update_of_ne hne, hran]
      exact h.valid t'
  · cases t with
    | memoryMap =>
      rw [Function.update_self, update_memoryMap, ← List.append_assoc, ← List.append_assoc]
      exact hs.nodes.append_right _
    | freeRanges =>
      rw [Function.update_self, update_freeRanges]
      have hcomm : ∀ l : List ℕ, ∀ u : ColorTree ℕ, (l ++ ((T .memoryMap).inorder ++ u.inorder)).Perm
          (l ++ u.inorder ++ (T .memoryMap).inorder) := fun l u => by
        rw [List.append_assoc]
        exact List.perm_append_comm.append_left l
      exact (hcomm L' T').trans ((hs.nodes.append_right _).trans (hcomm L (T .freeRanges)).symm)

/-- One legal call. -/
theorem RangeOp.step_lockstep {op : RangeOp} (h : Stocked c s L T)
    (hop : op.Legal (s.ranges (T .freeRanges))) :
    Lockstep noNode (fun x' s' => x'.state = s' ∧ ∃ L' T', Stocked c s' L' T')
      (op.track c ⟨s, g⟩) (op.step c s) := by
  cases op with
  | add t b e =>
    refine (addRange_settled h.holds (h.valid t) hop).mono ?_
    rintro x' s' ⟨rfl, L', T', hs⟩
    exact ⟨rfl, L', _, h.settled hs⟩
  | remove t b e =>
    refine (removeRange_settled h.holds (h.valid t)).mono ?_
    rintro x' s' ⟨rfl, L', T', hs⟩
    exact ⟨rfl, L', _, h.settled hs⟩
  | alloc size align b e =>
    refine (allocAligned_settled h.holds (h.valid .freeRanges) hop).bind ?_
    rintro ⟨x', _⟩ ⟨_, _⟩ ⟨rfl, rfl, L', T', hs⟩
    exact .ok ⟨rfl, L', _, h.settled hs⟩

theorem conserved_of_stocked : ∀ (ops : List RangeOp) {x : Tracked} {L : List ℕ}
    {T : RangeTree → ColorTree ℕ}, Stocked c x.state L T → Conserved c x ops
  | [], _, L, T, h => ⟨L, T, h.shared⟩
  | op :: ops, x, L, T, h => by
      refine ⟨L, T, h.shared, fun hop => ?_⟩
      rcases RangeOp.step_lockstep (g := x.given) h hop with ⟨e₁, e₂⟩ | ⟨x', _, e₁, e₂, rfl, L', T', h'⟩
      · exact Or.inl ⟨e₂, e₁⟩
      · exact Or.inr ⟨x', e₂, e₁, conserved_of_stocked ops h'⟩

/-- From `balloc_setup_nodes` on, the nodes are conserved. -/
theorem conserved_of_setup (c : Image) (hroot : ∀ t, s.root t = 0) (g : ℕ → ℕ) : ∃ s',
    ballocSetupNodes c s = .ok s' ∧ ∀ ops, Conserved c ⟨s', g⟩ ops := by
  obtain ⟨s', L, e', h', hnodes⟩ := ballocSetupNodes_spec c hroot
  refine ⟨s', e', fun ops => conserved_of_stocked ops ⟨h', fun t => valid_nil, ?_⟩⟩
  rwa [ColorTree.inorder_nil, List.append_nil, List.append_nil]

/-- The same in memory full of zeros. -/
theorem conserved_of_zeros : ∃ s', ballocSetupNodes bootImage ⟨fun _ => ⟨0, 0, 0⟩, fun _ => ⟨0, 0⟩, 0, 0⟩ =
      .ok s' ∧ ∀ ops, Conserved bootImage ⟨s', fun _ => 0⟩ ops :=
  conserved_of_setup bootImage (fun t => by cases t <;> rfl) fun _ => 0

end FilesKernel.Balloc
