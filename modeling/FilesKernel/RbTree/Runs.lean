import FilesKernel.RbTree.Insert
import FilesKernel.RbTree.Erase

/-! Runs of insertions and erasures.

    Starting from an empty tree, callers link a fresh node where a child link is null and insert it,
    or erase a node of the tree. Every call returns, so no null pointer is followed, and leaves a
    red-black tree in memory whose order has changed by that one node. -/

namespace FilesKernel.RbTree
open CExec RedBlack
open RedBlack.ColorTree hiding node

inductive RbOp where
  | insert (node parent : ℕ) (plink : Plink)
  | erase (node : ℕ)

def RbOp.step (s : RbState) : RbOp → Exec RbState
  | .insert nd parent plink => do
    let s ← rbLink s nd parent plink
    rbInsert s nd
  | .erase nd => rbErase s nd

/-- The link that `plink` names is null, and `parent` is the node it belongs to. -/
def Vacant (s : RbState) (T : ColorTree ℕ) (parent : ℕ) : Plink → Prop
  | .root => s.root = 0 ∧ parent = 0
  | .child d p => parent = p ∧ p ∈ T.inorder ∧ (s.mem p).child d = 0

/-- The calls that callers make on the tree `T`. -/
def RbOp.Legal (s : RbState) (T : ColorTree ℕ) : RbOp → Prop
  | .insert nd parent plink => IsNode nd ∧ nd ∉ T.inorder ∧ Vacant s T parent plink
  | .erase nd => nd ∈ T.inorder

/-- The node appears right before or behind the node it is linked to, or disappears. -/
def RbOp.Effect : RbOp → List ℕ → List ℕ → Prop
  | .insert nd _ .root, L, L' => L = [] ∧ L' = [nd]
  | .insert nd _ (.child .left p), L, L' =>
      ∃ l₁ l₂, L = l₁ ++ p :: l₂ ∧ L' = l₁ ++ nd :: p :: l₂
  | .insert nd _ (.child .right p), L, L' =>
      ∃ l₁ l₂, L = l₁ ++ p :: l₂ ∧ L' = l₁ ++ p :: nd :: l₂
  | .erase nd, L, L' => ∃ l₁ l₂, L = l₁ ++ nd :: l₂ ∧ L' = l₁ ++ l₂

/-- As long as the calls are legal, each returns, and leaves in memory a red-black tree whose order
    is the old one with the call's effect. -/
def RunsRight : RbState → ColorTree ℕ → List RbOp → Prop
  | _, _, [] => True
  | s, T, op :: ops => op.Legal s T → ∃ s' T', op.step s = .ok s' ∧ Repr s'.mem s' T' ∧ T'.Valid ∧
      op.Effect T.inorder T'.inorder ∧ RunsRight s' T' ops

/-- A null link is a hole of the tree. -/
theorem Vacant.hole {s : RbState} {T : ColorTree ℕ} {parent : ℕ} {plink : Plink}
    (hs : Repr s.mem s T) (h : Vacant s T parent plink) :
    ∃ k, T = Ctx.fill k nil ∧ parent = above k ∧ plink = plinkOf k := by
  cases plink with
  | root =>
    obtain ⟨hroot, rfl⟩ := h
    rw [hs.root] at hroot
    exact ⟨.top, Repr.ptr_eq_zero (k := .top) hs |>.mp hroot, rfl, rfl⟩
  | child d p =>
    obtain ⟨rfl, hp, hchild⟩ := h
    obtain ⟨k, c, t, u, rfl⟩ := Ctx.exists_focus d hp
    rw [hs.node.2.1, child_cell] at hchild
    have ht : Repr s.mem s ((Ctx.under d c parent u k).fill t) := hs
    obtain rfl := ht.ptr_eq_zero.mp hchild
    exact ⟨.under d c parent u k, rfl, rfl, rfl⟩

/-- What putting a node into a hole does to the order. -/
theorem effect_insert (k : Ctx ℕ) (nd : ℕ) :
    (RbOp.insert nd (above k) (plinkOf k)).Effect (k.fill nil).inorder (k.pre ++ nd :: k.post) := by
  rw [Ctx.inorder_fill, inorder_nil, List.nil_append]
  match k with
  | .top => exact ⟨rfl, rfl⟩
  | .under .left c p u k => exact ⟨k.pre, u.inorder ++ k.post, rfl, rfl⟩
  | .under .right c p u k =>
    refine ⟨k.pre ++ u.inorder, k.post, ?_, ?_⟩ <;> simp [Ctx.pre, Ctx.post]

/-- One legal call on a red-black tree. -/
theorem RbOp.step_spec {s : RbState} {T : ColorTree ℕ} (hs : Repr s.mem s T) (hv : T.Valid) {op : RbOp}
    (h : op.Legal s T) : ∃ s' T', op.step s = .ok s' ∧ Repr s'.mem s' T' ∧ T'.Valid ∧
      op.Effect T.inorder T'.inorder := by
  cases op with
  | insert nd parent plink =>
    obtain ⟨hn, hnew, hvac⟩ := h
    obtain ⟨k, rfl, rfl, rfl⟩ := hvac.hole hs
    obtain ⟨s₁, s', T', e₁, e, h', hv', hin⟩ := rbLinkInsert_spec hs hv hn hnew
    refine ⟨s', T', ?_, h'.refl, hv', ?_⟩
    · rw [RbOp.step, e₁, ok_bind, e]
    · rw [hin]; exact effect_insert k nd
  | erase nd =>
    obtain ⟨k, c, l, r, rfl⟩ := Ctx.exists_focus .left h
    obtain ⟨s', T', e, h', hv', hin⟩ := rbErase_spec hs hv
    refine ⟨s', T', e, h'.refl, hv', k.pre ++ l.inorder, r.inorder ++ k.post, ?_, ?_⟩
    · rw [Ctx.inorder_fill]; simp [branch]
    · rw [hin]; simp

/-- Runs from any red-black tree in memory. -/
theorem runsRight_of_valid : ∀ (ops : List RbOp) {s : RbState} {T : ColorTree ℕ}, Repr s.mem s T →
    T.Valid → RunsRight s T ops
  | [], _, _, _, _ => trivial
  | op :: ops, s, T, hs, hv => fun h => by
      obtain ⟨s', T', e, hs', hv', he⟩ := RbOp.step_spec hs hv h
      exact ⟨s', T', e, hs', hv', he, runsRight_of_valid ops hs' hv'⟩

/-- Every run from an empty tree keeps a red-black tree in memory. -/
theorem runsRight_of_empty (mem : Links) (ops : List RbOp) : RunsRight ⟨mem, 0⟩ nil ops :=
  runsRight_of_valid ops ⟨rfl, trivial, List.nodup_nil, fun _ _ => rfl⟩ ⟨rfl, 0, rfl⟩

/-- Three ascending keys: the second one ends up at the root, which is black. -/
example : (do
      let s ← RbOp.step ⟨fun _ => ⟨0, 0, 0⟩, 0⟩ (.insert 8 0 .root)
      let s ← RbOp.step s (.insert 16 8 (.child .right 8))
      RbOp.step s (.insert 24 16 (.child .right 16)) : Exec RbState).toOption.map
    (fun s => (s.root, s.mem 16)) = some (16, ⟨8, 24, 1⟩) := by decide +kernel

end FilesKernel.RbTree
