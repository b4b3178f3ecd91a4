import FilesKernel.Lib.Exec
import FilesKernel.Lib.RedBlack

/-! The red-black tree (`rbtree.c`).

    Nodes are embedded in the caller's objects and named by their addresses; `0` is the null pointer,
    and any access through it is a fault. The colour of a node is the low bit of its `parent` word.
    The mirrored branches of the source are one definition with a side: `d` is the side written out
    first in the source, `d.other` the opposite one. -/

namespace FilesKernel.RbTree
open CExec RedBlack

/-- `struct rb_node` -/
structure RbNode where
  left : ℕ
  right : ℕ
  parent : ℕ
  deriving DecidableEq, Repr

/-- The nodes in memory, and one tree's `root`. -/
structure RbState where
  mem : ℕ → RbNode
  root : ℕ

def RbNode.child (d : Side) (n : RbNode) : ℕ := d.pick n.left n.right

/-- `RED`, `BLACK` -/
def bit : Color → ℕ
  | .red => 0
  | .black => 1

section
variable (s : RbState)

def RbState.load (a : ℕ) : Exec RbNode := if a = 0 then .error .fault else .ok (s.mem a)

def RbState.store (a : ℕ) (n : RbNode) : Exec RbState :=
  if a = 0 then .error .fault else .ok { s with mem := Function.update s.mem a n }

/-- `a->left = v` or `a->right = v` -/
def RbState.setChild (d : Side) (a v : ℕ) : Exec RbState := do
  let n ← s.load a
  match d with
  | .left => s.store a { n with left := v }
  | .right => s.store a { n with right := v }

def rbColor (n : RbNode) : Color := if n.parent % 2 = 0 then .red else .black

def rbParent (n : RbNode) : ℕ := n.parent - n.parent % 2

def rbSetColor (a : ℕ) (c : Color) : Exec RbState := do
  let n ← s.load a
  s.store a { n with parent := n.parent - n.parent % 2 + bit c }

def rbSetRed (a : ℕ) : Exec RbState := rbSetColor s a .red

def rbSetBlack (a : ℕ) : Exec RbState := rbSetColor s a .black

def rbSetParent (child parent : ℕ) : Exec RbState := do
  let n ← s.load child
  s.store child { n with parent := n.parent % 2 ||| parent }

/-- `if (c) rb_set_parent(c, parent)` -/
def setParentIf (c parent : ℕ) : Exec RbState :=
  if c = 0 then .ok s else rbSetParent s c parent

/-- `if (c) rb_set_black(c)` -/
def setBlackIf (c : ℕ) : Exec RbState := if c = 0 then .ok s else rbSetBlack s c

def rbRed (a : ℕ) : Bool := decide (a ≠ 0 ∧ rbColor (s.mem a) = .red)

def rbBlack (a : ℕ) : Bool := !rbRed s a

/-- The link to `old` in its parent `p`, or the root, becomes `new`. -/
def replaceChild (p old new : ℕ) : Exec RbState :=
  if p = 0 then .ok { s with root := new }
  else do
    let np ← s.load p
    if np.left = old then s.setChild .left p new else s.setChild .right p new

/-- The rotation that takes `x` down to side `d`. -/
def rbRotate (d : Side) (x : ℕ) : Exec RbState := do
  let nx ← s.load x
  let p := rbParent nx
  let r := nx.child d.other
  let nr ← s.load r
  let s ← s.setChild d.other x (nr.child d)
  let s ← setParentIf s (nr.child d) x
  let s ← s.setChild d r x
  let s ← rbSetParent s r p
  let s ← replaceChild s p x r
  rbSetParent s x r

def rbRotateLeft (x : ℕ) : Exec RbState := rbRotate s .left x

def rbRotateRight (x : ℕ) : Exec RbState := rbRotate s .right x

/-! ### Neighbours -/

/-- One step down along side `d`, while there is a node. -/
def rbDownBody (d : Side) (node : ℕ) : Exec (ℕ ⊕ ℕ) := do
  let n ← s.load node
  if n.child d ≠ 0 then .ok (.inl (n.child d)) else .ok (.inr node)

/-- The last node on the way down from `node` along side `d`. -/
def rbMost (d : Side) (node : ℕ) : Exec ℕ :=
  if node = 0 then .ok 0 else loop (rbDownBody s d) maxSteps node

/-- `__rb_rightmost` -/
def rbRightmost (node : ℕ) : Exec ℕ := rbMost s .right node

/-- `__rb_leftmost` -/
def rbLeftmost (node : ℕ) : Exec ℕ := rbMost s .left node

/-- One step up, while `node` is the child on side `d` of its parent `p`. -/
def rbUpBody (d : Side) : ℕ × ℕ → Exec ((ℕ × ℕ) ⊕ ℕ)
  | (node, p) =>
    if p = 0 then .ok (.inr p)
    else do
      let np ← s.load p
      if np.child d = node then .ok (.inl (p, rbParent np)) else .ok (.inr p)

/-- The neighbour of `node` on side `d`. -/
def rbAdjacent (d : Side) (node : ℕ) : Exec ℕ :=
  if node = 0 then .ok 0
  else do
    let n ← s.load node
    if n.child d ≠ 0 then rbMost s d.other (n.child d)
    else loop (rbUpBody s d) maxSteps (node, rbParent n)

def rbNext (node : ℕ) : Exec ℕ := rbAdjacent s .right node

def rbPrev (node : ℕ) : Exec ℕ := rbAdjacent s .left node

/-! ### Insertion -/

/-- Where the new node is linked: `&tree->root`, `&parent->left` or `&parent->right`. -/
inductive Plink where
  | root
  | child (d : Side) (p : ℕ)

/-- `rb_link` -/
def rbLink (node parent : ℕ) (plink : Plink) : Exec RbState := do
  let s ← s.store node ⟨0, 0, parent⟩
  match plink with
  | .root => .ok { s with root := node }
  | .child d p => s.setChild d p node

/-- The body of the loop of `rb_insert` for `p == g->left` (`d` left) or else (`d` right): either
    the loop goes on from the grandparent, or two rotations end it. -/
def rbInsertSide (d : Side) (node p g : ℕ) : Exec ((RbState × ℕ × ℕ) ⊕ RbState) := do
  let ng ← s.load g
  let r := ng.child d.other
  if rbRed s r then
    let s ← rbSetRed s g
    let s ← rbSetBlack s p
    let s ← rbSetBlack s r
    let ng ← s.load g
    .ok (.inl (s, g, rbParent ng))
  else
    let np ← s.load p
    let (s, p) ← (if node = np.child d.other then do
        let s ← rbRotate s d p
        .ok (s, node)
      else .ok (s, p) : Exec (RbState × ℕ))
    let s ← rbRotate s d.other g
    let s ← rbSetBlack s p
    let s ← rbSetRed s g
    .ok (.inr s)

def rbInsertBody : RbState × ℕ × ℕ → Exec ((RbState × ℕ × ℕ) ⊕ RbState)
  | (s, node, p) =>
    if rbRed s p then do
      let np ← s.load p
      let g := rbParent np
      let ng ← s.load g
      if p = ng.left then rbInsertSide s .left node p g else rbInsertSide s .right node p g
    else .ok (.inr s)

def rbInsert (node : ℕ) : Exec RbState := do
  let n ← s.load node
  let s ← loop rbInsertBody maxSteps (s, node, rbParent n)
  rbSetBlack s s.root

/-! ### Erasure -/

/-- The body of the loop of `rb_erase_fix` for `child == parent->left` (`d` left) or else (`d`
    right), after the red sibling has been dealt with: `b` is the black sibling. -/
def rbEraseBlack (d : Side) (parent b : ℕ) : Exec ((RbState × ℕ × ℕ) ⊕ (RbState × ℕ)) := do
  let nb ← s.load b
  if rbBlack s (nb.child d) && rbBlack s (nb.child d.other) then
    let s ← rbSetRed s b
    let np ← s.load parent
    .ok (.inl (s, parent, rbParent np))
  else
    let (s, b) ← (if rbBlack s (nb.child d.other) then do
        let s ← rbSetBlack s (nb.child d)
        let s ← rbSetRed s b
        let s ← rbRotate s d.other b
        let np ← s.load parent
        .ok (s, np.child d.other)
      else .ok (s, b) : Exec (RbState × ℕ))
    let np ← s.load parent
    let s ← rbSetColor s b (rbColor np)
    let s ← rbSetBlack s parent
    let nb ← s.load b
    let s ← setBlackIf s (nb.child d.other)
    let s ← rbRotate s d parent
    .ok (.inr (s, s.root))

def rbEraseSide (d : Side) (parent : ℕ) : Exec ((RbState × ℕ × ℕ) ⊕ (RbState × ℕ)) := do
  let np ← s.load parent
  let b := np.child d.other
  let (s, b) ← (if rbRed s b then do
      let s ← rbSetBlack s b
      let s ← rbSetRed s parent
      let s ← rbRotate s d parent
      let np ← s.load parent
      .ok (s, np.child d.other)
    else .ok (s, b) : Exec (RbState × ℕ))
  rbEraseBlack s d parent b

def rbEraseBody : RbState × ℕ × ℕ → Exec ((RbState × ℕ × ℕ) ⊕ (RbState × ℕ))
  | (s, child, parent) =>
    if rbBlack s child ∧ child ≠ s.root then do
      let np ← s.load parent
      if child = np.left then rbEraseSide s .left parent else rbEraseSide s .right parent
    else .ok (.inr (s, child))

def rbEraseFix (child parent : ℕ) : Exec RbState := do
  let (s, child) ← loop rbEraseBody maxSteps (s, child, parent)
  setBlackIf s child

/-- `rb_erase` for a node with two children, up to the link in its parent: its successor `x` takes
    its place. The state, `p`, `c`, `x` and `color`. -/
def rbEraseTwo (node : ℕ) (n : RbNode) : Exec (RbState × ℕ × ℕ × ℕ × Color) := do
  let x ← rbNext s node
  let nx ← s.load x
  let c := nx.right
  let color := rbColor nx
  if x = n.right then
    let s ← s.store x { nx with left := n.left, parent := n.parent }
    let s ← rbSetParent s n.left x
    .ok (s, x, c, x, color)
  else
    let p := rbParent nx
    let s ← s.store x n
    let s ← s.setChild .left p c
    let s ← setParentIf s c p
    let s ← rbSetParent s n.left x
    let s ← rbSetParent s n.right x
    .ok (s, p, c, x, color)

/-- The same for a node with at most one child, which takes its place. -/
def rbEraseOne (n : RbNode) : Exec (RbState × ℕ × ℕ × ℕ × Color) := do
  let p := rbParent n
  let c := if n.left ≠ 0 then n.left else n.right
  let s ← setParentIf s c p
  .ok (s, p, c, c, rbColor n)

def rbErase (node : ℕ) : Exec RbState := do
  let n ← s.load node
  let (s, p, c, x, color) ←
    (if n.left ≠ 0 ∧ n.right ≠ 0 then rbEraseTwo s node n else rbEraseOne s n)
  let n ← s.load node
  let s ← replaceChild s (rbParent n) node x
  if color = .black then rbEraseFix s c p else .ok s

end

end FilesKernel.RbTree
