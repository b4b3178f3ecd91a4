import FilesKernel.Balloc.Alloc
import FilesKernel.Lib.Lockstep

/-! The same code with a count beside it.

    A node goes back to the pool and out again while an operation still points to it. Here the state
    also counts how often each node has been given back, and a pointer remembers the count at which it
    was obtained: reading the range of a node that has been given back since is a fault. The two
    searches from the root read each node right where they find its link, and change nothing. -/

namespace FilesKernel.Balloc
open CExec CWord RbTree LinkedList RedBlack Spans

/-- A state, and how often each node has been given back. -/
structure Tracked where
  state : BallocState
  given : ℕ → ℕ

/-- A pointer to a node, and how often the node had been given back when it was obtained. -/
structure Ref where
  node : ℕ
  given : ℕ

namespace Tracked
variable (c : Image) (x : Tracked)

def ref (a : ℕ) : Ref := ⟨a, x.given a⟩

/-- `begin` and `end` of a node -/
def read (r : Ref) : Exec (Span ℕ) :=
  if x.given r.node = r.given then .ok (x.state.range r.node) else .error .fault

/-- `balloc_free_node` -/
def freeNode (r : Ref) : Exec Tracked := do
  let s ← ballocFreeNode c x.state r.node
  .ok ⟨s, Function.update x.given r.node (x.given r.node + 1)⟩

/-- The part of `__balloc_add_range` that takes the predecessor `prev` into `new`. -/
def joinPrev (t : RangeTree) (new : Ref) : Exec Tracked := do
  let p ← rbPrev (x.state.tree t) new.node
  let prev := x.ref p
  if prev.node ≠ 0 then do
    let rp ← x.read prev
    let rn ← x.read new
    if rp.stop ≥ rn.begin then do
      let s := x.state.setRange new.node { rn with begin := rp.begin }
      let s := if rp.stop > rn.stop then s.setRange new.node ⟨rp.begin, rp.stop⟩ else s
      let s ← eraseNode s t prev.node
      freeNode c ⟨s, x.given⟩ prev
    else .ok x
  else .ok x

/-- The part of `__balloc_add_range` that takes the successor `next` into `new`. -/
def joinNext (t : RangeTree) (new : Ref) : Exec Tracked := do
  let n ← rbNext (x.state.tree t) new.node
  let next := x.ref n
  if next.node ≠ 0 then do
    let rx ← x.read next
    let rn ← x.read new
    if rx.begin ≤ rn.stop then do
      let s := x.state.setRange new.node { rn with stop := rx.stop }
      let s ← eraseNode s t next.node
      freeNode c ⟨s, x.given⟩ next
    else .ok x
  else .ok x

/-- `__balloc_add_range` -/
def addRange (t : RangeTree) (b e : ℕ) : Exec Tracked := do
  let (parent, plink) ← loop (ballocPlaceBody x.state t b) maxSteps (0, .root)
  let (s, n) ← ballocAllocNode c x.state
  let new := x.ref n
  let s ← insertNode (s.setRange new.node ⟨b, e⟩) t new.node parent plink
  let x ← joinPrev c ⟨s, x.given⟩ t new
  joinNext c x t new

/-- What removal and allocation do with a node `ptr`. -/
def cutNode (t : RangeTree) (ptr : Ref) (b e : ℕ) : Exec Tracked := do
  let s ← eraseNode x.state t ptr.node
  let x : Tracked := ⟨s, x.given⟩
  let r ← x.read ptr
  let x ← (if r.begin < b then x.addRange c t r.begin b else .ok x : Exec Tracked)
  let r ← x.read ptr
  let x ← (if r.stop > e then x.addRange c t e r.stop else .ok x : Exec Tracked)
  x.freeNode c ptr

/-- One round of the second loop of `__balloc_remove_range`. -/
def removeBody (t : RangeTree) (b e : ℕ) : Tracked × Ref → Exec ((Tracked × Ref) ⊕ Tracked)
  | (x, ptr) =>
    if ptr.node ≠ 0 then do
      let r ← x.read ptr
      if r.begin < e then do
        let n ← rbNext (x.state.tree t) ptr.node
        let next := x.ref n
        let x ← x.cutNode c t ptr b e
        .ok (.inl (x, next))
      else .ok (.inr x)
    else .ok (.inr x)

/-- `__balloc_remove_range` -/
def removeRange (t : RangeTree) (b e : ℕ) : Exec Tracked := do
  let p ← ballocFirst x.state t b
  loop (removeBody c t b e) maxSteps (x, x.ref p)

/-- One round of the second loop of `__balloc_alloc`. -/
def allocBody (size align b e : ℕ) (ptr : Ref) : Exec (Ref ⊕ (Tracked × ℕ)) :=
  if ptr.node ≠ 0 then do
    let r ← x.read ptr
    if r.begin < e then do
      let addr := ballocAlign align (if r.begin > b then r.begin else b)
      if wrap (addr + size) ≤ (if r.stop < e then r.stop else e) then do
        let x ← x.cutNode c .freeRanges ptr addr (wrap (addr + size))
        .ok (.inr (x, addr))
      else do
        let n ← rbNext (x.state.tree .freeRanges) ptr.node
        .ok (.inl (x.ref n))
    else .ok (.inr (x, e))
  else .ok (.inr (x, e))

/-- `__balloc_alloc` -/
def allocAligned (size align b e : ℕ) : Exec (Tracked × ℕ) := do
  let p ← ballocFirst x.state .freeRanges b
  loop (allocBody c x size align b e) maxSteps (x.ref p)

end Tracked

variable {c : Image} {s s' : BallocState} {L : List ℕ} {T : RangeTree → ColorTree ℕ} {t : RangeTree}
  {A B X Y : List ℕ} {a nd b e p q : ℕ} {x : Tracked} {g : ℕ → ℕ}

/-! ### Adding a range -/

theorem read_ref (x : Tracked) (a : ℕ) : x.read (x.ref a) = .ok (x.state.range a) := if_pos rfl

/-- The pool and the tree share their nodes in a new way, and only nodes that are in the pool now have
    been given back. -/
structure Moved (c : Image) (L : List ℕ) (T : RangeTree → ColorTree ℕ) (t : RangeTree) (g : ℕ → ℕ)
    (x : Tracked) (L' : List ℕ) (T' : ColorTree ℕ) : Prop where
  holds : Holds c x.state L' (Function.update T t T')
  nodes : (L' ++ T'.inorder).Perm (L ++ (T t).inorder)
  given : ∀ a ∉ L', x.given a = g a

/-- Nothing has moved. -/
theorem Holds.moved (h : Holds c s L T) : Moved c L T t g ⟨s, g⟩ L (T t) := by
  refine ⟨?_, List.Perm.refl _, fun _ _ => rfl⟩
  rwa [Function.update_eq_self]

/-- A node in a tree has not been given back. -/
theorem Moved.given_of_mem {L' : List ℕ} {T' : ColorTree ℕ} (h : Moved c L T t g x L' T')
    (ha : a ∈ T'.inorder) : x.given a = g a := by
  refine h.given a fun hL => h.holds.apart t a ?_ (List.mem_cons_of_mem _ hL)
  rwa [Function.update_self]

/-- A node in hand is given back, in both runs. -/
theorem freeNode_lockstep (h : Holds c s L T) (ha : Loose c L T a) (n : ℕ) :
    Lockstep noNode (fun x' s' => x'.state = s' ∧ Holds c s' (a :: L) T ∧ s'.range = s.range ∧
        x'.given = Function.update g a (g a + 1))
      (Tracked.freeNode c ⟨s, g⟩ ⟨a, n⟩) (ballocFreeNode c s a) := by
  obtain ⟨s', e', h', hr, -⟩ := ballocFreeNode_spec h ha
  refine Or.inr ⟨⟨s', Function.update g a (g a + 1)⟩, s', ?_, e', rfl, h', hr, rfl⟩
  rw [Tracked.freeNode, e', ok_bind]

/-- A node leaves the tree and is given back, in both runs. -/
theorem release_lockstep (h : Holds c s L T) (hT : (T t).inorder = A ++ a :: B) (n : ℕ) :
    Lockstep noNode (fun x' s' => x'.state = s' ∧ ∃ T', Moved c L T t g x' (a :: L) T' ∧
        T'.inorder = A ++ B)
      (do
        let s ← eraseNode s t a
        Tracked.freeNode c ⟨s, g⟩ ⟨a, n⟩)
      (do
        let s ← eraseNode s t a
        ballocFreeNode c s a) := by
  obtain ⟨s₁, T', e₁, h₁, hloose, hin, -⟩ := eraseNode_spec h hT
  rw [e₁, ok_bind, ok_bind]
  refine (freeNode_lockstep h₁ hloose n).mono ?_
  rintro x' s' ⟨rfl, h₂, -, hg⟩
  refine ⟨rfl, T', ⟨h₂, ?_, fun b hb => ?_⟩, hin⟩
  · rw [hin, hT, ← List.append_assoc, ← List.append_assoc]
    exact List.perm_middle.symm
  · have hne : b ≠ a := fun e => hb (by rw [e]; exact List.mem_cons_self)
    rw [hg, Function.update_of_ne hne]

theorem joinPrev_lockstep (h : Holds c s L T) (hT : (T t).inorder = A ++ nd :: B) :
    Lockstep noNode (fun x' s' => x'.state = s' ∧ ∃ L' T' A', Moved c L T t g x' L' T' ∧ L ⊆ L' ∧
        T'.inorder = A' ++ nd :: B)
      (Tracked.joinPrev c ⟨s, g⟩ t ⟨nd, g nd⟩) (ballocJoinPrev c s t nd) := by
  have hprev : rbPrev (s.tree t) nd = .ok (A.getLastD 0) := rbPrev_at (h.trees t) hT
  have hkeep : Lockstep noNode (fun (x' : Tracked) s' => x'.state = s' ∧ ∃ L' T' A',
      Moved c L T t g x' L' T' ∧ L ⊆ L' ∧ T'.inorder = A' ++ nd :: B) (.ok ⟨s, g⟩) (.ok s) :=
    .ok ⟨rfl, L, T t, A, h.moved, List.Subset.refl L, hT⟩
  rw [Tracked.joinPrev, ballocJoinPrev]
  rcases List.eq_nil_or_concat A with rfl | ⟨A, p, rfl⟩
  · rw [hprev, ok_bind, ok_bind]
    exact hkeep
  · rw [List.concat_eq_append] at hT hprev
    rw [List.getLastD_concat] at hprev
    have hp0 : p ≠ 0 := ((h.trees t).isNode p (by rw [hT]; simp)).ne
    have hpn : p ≠ nd := fun e => (h.not_mem_sides hT).1 (by simp [e])
    have hnew : Tracked.read ⟨s, g⟩ ⟨nd, g nd⟩ = .ok (s.range nd) := if_pos rfl
    rw [hprev, ok_bind, ok_bind, if_pos (show (Tracked.ref ⟨s, g⟩ p).node ≠ 0 from hp0), read_ref, ok_bind,
      hnew, ok_bind]
    by_cases hreach : (s.range p).stop ≥ (s.range nd).begin
    · rw [if_pos hreach, if_pos ⟨hp0, hreach⟩]
      simp only [range_setRange, Function.update_of_ne hpn, Function.update_self]
      have hT' : (T t).inorder = A ++ p :: (nd :: B) := by rw [hT]; simp
      have h₁ : Holds c (if (s.range p).stop > (s.range nd).stop then
          (s.setRange nd ⟨(s.range p).begin, (s.range nd).stop⟩).setRange nd
            ⟨(s.range p).begin, (s.range p).stop⟩
          else s.setRange nd ⟨(s.range p).begin, (s.range nd).stop⟩) L T := by
        split_ifs
        · exact (h.setRange _ _).setRange _ _
        · exact h.setRange _ _
      refine (release_lockstep h₁ hT' (g p)).mono ?_
      rintro x' s' ⟨rfl, T', hm, hin⟩
      exact ⟨rfl, p :: L, T', A, hm, List.subset_cons_self p L, hin⟩
    · rw [if_neg hreach, if_neg fun hc => hreach hc.2]
      exact hkeep

theorem joinNext_lockstep (h : Holds c s L T) (hT : (T t).inorder = A ++ nd :: B) :
    Lockstep noNode (fun x' s' => x'.state = s' ∧ ∃ L' T', Moved c L T t g x' L' T' ∧ L ⊆ L')
      (Tracked.joinNext c ⟨s, g⟩ t ⟨nd, g nd⟩) (ballocJoinNext c s t nd) := by
  have hnext : rbNext (s.tree t) nd = .ok (B.headD 0) := rbNext_at (h.trees t) hT
  have hkeep : Lockstep noNode (fun (x' : Tracked) s' => x'.state = s' ∧ ∃ L' T',
      Moved c L T t g x' L' T' ∧ L ⊆ L') (.ok ⟨s, g⟩) (.ok s) :=
    .ok ⟨rfl, L, T t, h.moved, List.Subset.refl L⟩
  rw [Tracked.joinNext, ballocJoinNext, hnext, ok_bind, ok_bind]
  cases B with
  | nil => exact hkeep
  | cons n B =>
    have hn0 : n ≠ 0 := ((h.trees t).isNode n (by rw [hT]; simp)).ne
    have hnew : Tracked.read ⟨s, g⟩ ⟨nd, g nd⟩ = .ok (s.range nd) := if_pos rfl
    rw [List.headD_cons, if_pos (show (Tracked.ref ⟨s, g⟩ n).node ≠ 0 from hn0), read_ref, ok_bind, hnew,
      ok_bind]
    by_cases hreach : (s.range n).begin ≤ (s.range nd).stop
    · rw [if_pos hreach, if_pos ⟨hn0, hreach⟩]
      have hT' : (T t).inorder = (A ++ [nd]) ++ n :: B := by rw [hT]; simp
      refine (release_lockstep (h.setRange nd ⟨(s.range nd).begin, (s.range n).stop⟩) hT' (g n)).mono ?_
      rintro x' s' ⟨rfl, T', hm, -⟩
      exact ⟨rfl, n :: L, T', hm, List.subset_cons_self n L⟩
    · rw [if_neg hreach, if_neg fun hc => hreach hc.2]
      exact hkeep

/-- `__balloc_add_range` reads no node that has been given back. -/
theorem addRange_lockstep (h : Holds c s L T) (hv : Valid (s.ranges (T t))) :
    Lockstep noNode (fun x' s' => x'.state = s' ∧ ∃ L' T', Moved c L T t g x' L' T')
      (Tracked.addRange c ⟨s, g⟩ t b e) (ballocAddRange c s t b e) := by
  obtain ⟨k, hplace, hk, -⟩ := ballocPlace_spec (b := b) h hv
  rw [Tracked.addRange, ballocAddRange, hplace, ok_bind, ok_bind]
  cases L with
  | nil =>
    rw [ballocAllocNode_nil h]
    exact Or.inl ⟨rfl, rfl⟩
  | cons nd L =>
    obtain ⟨s₁, e₁, h₁, hloose, hr₁, -⟩ := ballocAllocNode_cons h
    obtain ⟨s₂, T₂, e₂, h₂, hin₂, -⟩ := insertNode_spec (h₁.setRange nd ⟨b, e⟩) hk hloose
    dsimp only
    rw [e₁, ok_bind, ok_bind]
    dsimp only [Tracked.ref]
    rw [e₂, ok_bind, ok_bind]
    have hT₂ : (Function.update T t T₂ t).inorder = k.pre ++ nd :: k.post := by
      rw [Function.update_self, hin₂]
    refine (joinPrev_lockstep h₂ hT₂).bind ?_
    rintro ⟨s₃, g₃⟩ _ ⟨rfl, L₃, T₃, A', hm₃, hsub₃, hin₃⟩
    have h₃ := hm₃.holds
    rw [Function.update_idem] at h₃
    have hT₃ : (Function.update T t T₃ t).inorder = A' ++ nd :: k.post := by
      rw [Function.update_self, hin₃]
    have hnd : g₃ nd = g nd := hm₃.given_of_mem (by rw [hin₃]; simp)
    rw [← hnd]
    refine (joinNext_lockstep h₃ hT₃).mono ?_
    rintro x' _ ⟨rfl, L₄, T₄, hm₄, hsub₄⟩
    have h₄ := hm₄.holds
    have hnodes₃ := hm₃.nodes
    have hnodes₄ := hm₄.nodes
    rw [Function.update_idem] at h₄
    rw [Function.update_self] at hnodes₃ hnodes₄
    refine ⟨rfl, L₄, T₄, h₄, hnodes₄.trans (hnodes₃.trans ?_), fun a ha => ?_⟩
    · rw [hin₂, hk, Ctx.inorder_fill, ← List.append_assoc]
      exact List.perm_middle.trans (by simp)
    · exact (hm₄.given a ha).trans (hm₃.given a fun hmem => ha (hsub₄ hmem))

end FilesKernel.Balloc
