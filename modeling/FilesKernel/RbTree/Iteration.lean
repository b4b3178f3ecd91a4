import FilesKernel.RbTree.Walk
import FilesKernel.RbTree.Runs

/-! Loops over a tree.

    `for (node = rb_leftmost(tree); node; node = rb_next(node))` and its mirror image are one loop that
    goes towards a side. On a tree in memory, whatever its shape and its colours, it sees each node
    once, in the order towards that side, and a step back undoes a step forth. -/

namespace FilesKernel.RbTree
open CExec RedBlack
open RedBlack.ColorTree hiding node

/-- One round of a loop over the tree: the nodes seen so far, and the node at hand. -/
def rbVisitBody (step : ℕ → Exec ℕ) : List ℕ × ℕ → Exec ((List ℕ × ℕ) ⊕ List ℕ)
  | (seen, nd) =>
    if nd = 0 then .ok (.inr seen)
    else do
      let next ← step nd
      .ok (.inl (seen ++ [nd], next))

/-- The nodes that a loop sees from its first node on, before it comes to null. -/
def rbVisit (first : Exec ℕ) (step : ℕ → Exec ℕ) : Exec (List ℕ) := do
  let nd ← first
  loop (rbVisitBody step) maxSteps ([], nd)

/-- `rb_leftmost`, and `rb_next` until it returns null -/
def rbForward (s : RbState) : Exec (List ℕ) := rbVisit (rbLeftmost s s.root) (rbNext s)

/-- `rb_rightmost`, and `rb_prev` until it returns null -/
def rbBackward (s : RbState) : Exec (List ℕ) := rbVisit (rbRightmost s s.root) (rbPrev s)

/-- Loops over the tree see the nodes `L` in this order and in the reverse of it. -/
structure Iterates (s : RbState) (L : List ℕ) : Prop where
  once : L.Nodup
  forward : rbForward s = .ok L
  backward : rbBackward s = .ok L.reverse
  prev_next : ∀ n ∈ L, ∃ n', rbNext s n = .ok n' ∧ (n' ≠ 0 → rbPrev s n' = .ok n)

variable {m₀ : Links} {s : RbState} {T : ColorTree ℕ}

/-! ### One step -/

theorem order_nodup (d : Side) (hs : Repr m₀ s T) : (Ctx.order d T).Nodup := by
  cases d with
  | left => exact List.nodup_reverse.mpr hs.nodup
  | right => exact hs.nodup

theorem mem_order (d : Side) {a : ℕ} : a ∈ Ctx.order d T ↔ a ∈ T.inorder := by
  cases d with
  | left => exact List.mem_reverse
  | right => exact Iff.rfl

/-- A step from a node leads to the one behind it in the order towards side `d`. -/
theorem rbAdjacent_of_order (d : Side) (hs : Repr m₀ s T) {l₁ l₂ : List ℕ} {a : ℕ}
    (h : Ctx.order d T = l₁ ++ a :: l₂) : rbAdjacent s d a = .ok (l₂.head?.getD 0) := by
  have hnd := order_nodup d hs
  rw [h, List.nodup_middle, List.nodup_cons, List.mem_append, not_or] at hnd
  have ha : a ∈ T.inorder := (mem_order d).mp (by rw [h]; simp)
  obtain ⟨k, c, t, u, rfl⟩ := Ctx.exists_focus d ha
  have hfill := Ctx.order_fill d.other k (branch d c a t u)
  rw [Side.other_other, Ctx.order_branch, h, List.append_assoc, ← List.append_assoc,
    List.cons_append] at hfill
  obtain ⟨-, -, rfl⟩ := (List.append_cons_inj_of_notMem hnd.1.1 hnd.1.2).mp hfill
  exact rbAdjacent_spec d hs

/-- The first node of the order towards side `d` is at the end of the other side. -/
theorem rbMost_of_order (d : Side) (hs : Repr m₀ s T) :
    rbMost s d.other s.root = .ok ((Ctx.order d T).head?.getD 0) := by
  rw [hs.root]
  by_cases hT : T = nil
  · subst hT
    rw [Ctx.order_nil, ptr_nil, rbMost, if_pos rfl]
    rfl
  · obtain ⟨k, c, a, u, rfl, hk, hmost⟩ := rbMost_spec (k := .top) d.other hs hT
    have hhead := hk.head c a u
    rw [Side.other_other] at hhead
    rw [hmost, hhead]
    rfl

/-! ### The whole loop -/

/-- The loop towards side `d` sees the nodes in the order towards that side. -/
theorem rbVisit_spec (d : Side) (hs : Repr m₀ s T) :
    rbVisit (rbMost s d.other s.root) (rbAdjacent s d) = .ok (Ctx.order d T) := by
  have hbody : ∀ n (x : List ℕ × ℕ), (∃ rest, Ctx.order d T = x.1 ++ rest ∧
      x.2 = rest.head?.getD 0 ∧ rest.length = n) →
      (∃ x', rbVisitBody (rbAdjacent s d) x = .ok (.inl x') ∧ ∃ n' < n, ∃ rest,
        Ctx.order d T = x'.1 ++ rest ∧ x'.2 = rest.head?.getD 0 ∧ rest.length = n') ∨
      ∃ L, rbVisitBody (rbAdjacent s d) x = .ok (.inr L) ∧ L = Ctx.order d T := by
    rintro n ⟨seen, nd⟩ ⟨rest, hrest, rfl, rfl⟩
    cases rest with
    | nil =>
      rw [List.append_nil] at hrest
      exact Or.inr ⟨seen, rfl, hrest.symm⟩
    | cons a rest =>
      have ha : a ≠ 0 := (hs.isNode a ((mem_order d).mp (by rw [hrest]; simp))).ne
      have hstep := rbAdjacent_of_order d hs hrest
      refine Or.inl ⟨(seen ++ [a], rest.head?.getD 0), ?_, rest.length, Nat.lt_succ_self _, rest,
        ?_, rfl, rfl⟩
      · rw [List.head?_cons, Option.getD_some, rbVisitBody, if_neg ha, hstep, ok_bind]
      · rw [hrest, List.append_assoc, List.singleton_append]
  have hfuel : (Ctx.order d T).length < maxSteps := by
    have h := hs.length_lt
    have hlen : (Ctx.order d T).length = T.inorder.length := by
      cases d with
      | left => exact List.length_reverse
      | right => rfl
    omega
  obtain ⟨L, hL, rfl⟩ := loop_spec (s := ([], (Ctx.order d T).head?.getD 0)) hbody hfuel
    ⟨Ctx.order d T, rfl, rfl, rfl⟩
  rw [rbVisit, rbMost_of_order d hs, ok_bind, hL]

/-- A step back undoes a step forth. -/
theorem rbPrev_rbNext (hs : Repr m₀ s T) {n : ℕ} (hn : n ∈ T.inorder) :
    ∃ n', rbNext s n = .ok n' ∧ (n' ≠ 0 → rbPrev s n' = .ok n) := by
  obtain ⟨l₁, l₂, hL⟩ := List.append_of_mem hn
  refine ⟨l₂.head?.getD 0, rbAdjacent_of_order .right hs hL, fun h0 => ?_⟩
  cases l₂ with
  | nil => exact absurd rfl h0
  | cons n' l₂ =>
    have hback : Ctx.order .left T = l₂.reverse ++ n' :: (n :: l₁.reverse) := by
      show T.inorder.reverse = _
      rw [hL]
      simp
    exact rbAdjacent_of_order .left hs hback

/-- Loops go over any tree in memory. -/
theorem Repr.iterates (hs : Repr m₀ s T) : Iterates s T.inorder :=
  ⟨hs.nodup, rbVisit_spec .right hs, rbVisit_spec .left hs, fun _ => rbPrev_rbNext hs⟩

/-! ### Trees that callers build -/

/-- As long as the calls are legal, each returns and has its effect on the order, and loops go over
    the tree before the calls and behind each of them. -/
def RunsIterate : RbState → ColorTree ℕ → List RbOp → Prop
  | s, T, [] => Iterates s T.inorder
  | s, T, op :: ops => Iterates s T.inorder ∧ (op.Legal s T → ∃ s' T', op.step s = .ok s' ∧
      Repr s'.mem s' T' ∧ op.Effect T.inorder T'.inorder ∧ RunsIterate s' T' ops)

theorem runsIterate_of_valid : ∀ (ops : List RbOp) {s : RbState} {T : ColorTree ℕ},
    Repr s.mem s T → T.Valid → RunsIterate s T ops
  | [], _, _, hs, _ => hs.iterates
  | op :: ops, s, T, hs, hv => by
      refine ⟨hs.iterates, fun h => ?_⟩
      obtain ⟨s', T', e, hs', hv', he⟩ := RbOp.step_spec hs hv h
      exact ⟨s', T', e, hs', he, runsIterate_of_valid ops hs' hv'⟩

/-- Loops go over every tree that is built from an empty one. -/
theorem runsIterate_of_empty (mem : Links) (ops : List RbOp) : RunsIterate ⟨mem, 0⟩ nil ops :=
  runsIterate_of_valid ops ⟨rfl, trivial, List.nodup_nil, fun _ _ => rfl⟩ ⟨rfl, 0, rfl⟩

end FilesKernel.RbTree
