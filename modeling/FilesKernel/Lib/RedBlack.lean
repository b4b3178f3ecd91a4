import Mathlib.Data.List.Nodup

/-! Red-black trees with a hole.

    A tree is seen at a focus: a subtree in the hole of a context, which is the path from the hole up
    to the root. `branch` builds a node from the subtree on a given side and the other one, so that
    one statement covers a shape and its mirror image. Rotations and recolourings only replace the
    focus, so each is judged by two facts: the colours and black height that the focus shows to its
    context, and the order of its elements. -/

namespace RedBlack

inductive Color where | red | black
  deriving DecidableEq, Repr

inductive Side where | left | right
  deriving DecidableEq, Repr

def Side.other : Side → Side
  | .left => .right
  | .right => .left

@[simp] theorem Side.other_left : Side.left.other = .right := rfl
@[simp] theorem Side.other_right : Side.right.other = .left := rfl
@[simp] theorem Side.other_other (d : Side) : d.other.other = d := by cases d <;> rfl

/-- Of two things, one for each side, the one for the side. -/
def Side.pick {β : Type} (d : Side) (l r : β) : β :=
  match d with
  | .left => l
  | .right => r

theorem Side.eq_or_other (d e : Side) : e = d ∨ e = d.other := by
  cases d <;> cases e <;> simp [Side.other]

inductive ColorTree (α : Type) where
  | nil
  | node (c : Color) (l : ColorTree α) (a : α) (r : ColorTree α)

variable {α : Type}

namespace ColorTree

/-- The colour of the root; an empty tree counts as black. -/
def color : ColorTree α → Color
  | nil => .black
  | node c .. => c

def inorder : ColorTree α → List α
  | nil => []
  | node _ l a r => l.inorder ++ a :: r.inorder

/-- The tree with its root recoloured. -/
def paint (c : Color) : ColorTree α → ColorTree α
  | nil => nil
  | node _ l a r => node c l a r

@[simp] theorem color_nil : (nil : ColorTree α).color = .black := rfl
@[simp] theorem color_node (c : Color) (l : ColorTree α) (a : α) (r : ColorTree α) :
    (node c l a r).color = c := rfl
@[simp] theorem inorder_nil : (nil : ColorTree α).inorder = [] := rfl
@[simp] theorem inorder_node (c : Color) (l : ColorTree α) (a : α) (r : ColorTree α) :
    (node c l a r).inorder = l.inorder ++ a :: r.inorder := rfl

@[simp] theorem inorder_paint (c : Color) (t : ColorTree α) : (t.paint c).inorder = t.inorder := by
  cases t <;> rfl

/-- No red node has a red child, and every path down has `n` black nodes. -/
def Balanced : ColorTree α → ℕ → Prop
  | nil, n => n = 0
  | node .red l _ r, n => l.Balanced n ∧ r.Balanced n ∧ l.color = .black ∧ r.color = .black
  | node .black l _ r, n => ∃ m, n = m + 1 ∧ l.Balanced m ∧ r.Balanced m

/-- A red-black tree: balanced with a black root. -/
def Valid (t : ColorTree α) : Prop := t.color = .black ∧ ∃ n, t.Balanced n

/-- The node with `t` on side `d` and `s` on the other. -/
def branch (d : Side) (c : Color) (a : α) (t s : ColorTree α) : ColorTree α :=
  match d with
  | .left => node c t a s
  | .right => node c s a t

theorem branch_other (d : Side) (c : Color) (a : α) (t s : ColorTree α) :
    branch d.other c a t s = branch d c a s t := by
  cases d <;> rfl

/-- Any node is a branch, seen from either side. -/
theorem node_eq_branch (d : Side) (c : Color) (l : ColorTree α) (a : α) (r : ColorTree α) :
    node c l a r = branch d c a (d.pick l r) (d.pick r l) := by
  cases d <;> rfl

@[simp] theorem color_branch (d : Side) (c : Color) (a : α) (t s : ColorTree α) :
    (branch d c a t s).color = c := by
  cases d <;> rfl

@[simp] theorem paint_branch (d : Side) (c c' : Color) (a : α) (t s : ColorTree α) :
    (branch d c a t s).paint c' = branch d c' a t s := by
  cases d <;> rfl

/-- The order of a node depends on its subtrees only through their order. -/
theorem inorder_branch_congr {d : Side} {c c' : Color} {a : α} {t t' s : ColorTree α}
    (h : t'.inorder = t.inorder) : (branch d c' a t' s).inorder = (branch d c a t s).inorder := by
  cases d <;> simp [branch, h]

theorem mem_branch {d : Side} {c : Color} {a b : α} {t s : ColorTree α} :
    b ∈ (branch d c a t s).inorder ↔ b = a ∨ b ∈ t.inorder ∨ b ∈ s.inorder := by
  cases d
  · simp only [branch, inorder_node, List.mem_append, List.mem_cons]; tauto
  · simp only [branch, inorder_node, List.mem_append, List.mem_cons]; tauto

theorem nodup_branch {d : Side} {c : Color} {a : α} {t s : ColorTree α} :
    (branch d c a t s).inorder.Nodup ↔ a ∉ t.inorder ∧ a ∉ s.inorder ∧ t.inorder.Nodup ∧
      s.inorder.Nodup ∧ ∀ b ∈ t.inorder, b ∉ s.inorder := by
  have hnode : ∀ l r : ColorTree α, (node c l a r).inorder.Nodup ↔ a ∉ l.inorder ∧ a ∉ r.inorder ∧
      l.inorder.Nodup ∧ r.inorder.Nodup ∧ ∀ b ∈ l.inorder, b ∉ r.inorder := by
    intro l r
    rw [inorder_node, List.nodup_middle, List.nodup_cons, List.mem_append, not_or,
      List.nodup_append', List.disjoint_left, and_assoc]
  cases d with
  | left => exact hnode t s
  | right =>
    rw [branch, hnode]
    constructor
    · rintro ⟨h₁, h₂, h₃, h₄, h₅⟩; exact ⟨h₂, h₁, h₄, h₃, fun b hb hb' => h₅ b hb' hb⟩
    · rintro ⟨h₁, h₂, h₃, h₄, h₅⟩; exact ⟨h₂, h₁, h₄, h₃, fun b hb hb' => h₅ b hb' hb⟩

theorem balanced_branch_red {d : Side} {a : α} {t s : ColorTree α} {n : ℕ} :
    (branch d .red a t s).Balanced n ↔
      t.Balanced n ∧ s.Balanced n ∧ t.color = .black ∧ s.color = .black := by
  cases d with
  | left => exact Iff.rfl
  | right =>
    simp only [branch, Balanced]
    tauto

theorem balanced_branch_black {d : Side} {a : α} {t s : ColorTree α} {n : ℕ} :
    (branch d .black a t s).Balanced (n + 1) ↔ t.Balanced n ∧ s.Balanced n := by
  cases d with
  | left => simp [branch, Balanced]
  | right =>
    simp only [branch, Balanced, Nat.add_right_cancel_iff]
    constructor
    · rintro ⟨m, rfl, hs, ht⟩; exact ⟨ht, hs⟩
    · rintro ⟨ht, hs⟩; exact ⟨n, rfl, hs, ht⟩

/-- A red tree is a branch over two black ones. -/
theorem Balanced.red_cases (d : Side) {t : ColorTree α} {n : ℕ} (h : t.Balanced n)
    (hc : t.color = .red) : ∃ a t₁ t₂, t = branch d .red a t₁ t₂ ∧ t₁.Balanced n ∧
      t₂.Balanced n ∧ t₁.color = .black ∧ t₂.color = .black := by
  cases t with
  | nil => cases hc
  | node c l a r =>
    obtain rfl : c = .red := hc
    rw [node_eq_branch d] at h ⊢
    exact ⟨a, _, _, rfl, balanced_branch_red.mp h⟩

/-- A black tree with a black height to spend is a branch. -/
theorem Balanced.black_cases (d : Side) {t : ColorTree α} {n : ℕ} (h : t.Balanced (n + 1))
    (hc : t.color = .black) : ∃ a t₁ t₂, t = branch d .black a t₁ t₂ ∧ t₁.Balanced n ∧
      t₂.Balanced n := by
  cases t with
  | nil => cases h
  | node c l a r =>
    obtain rfl : c = .black := hc
    rw [node_eq_branch d] at h ⊢
    exact ⟨a, _, _, rfl, balanced_branch_black.mp h⟩

/-- Painting a red root black adds one to the black height. -/
theorem Balanced.paint_black {t : ColorTree α} {n : ℕ} (h : t.Balanced n) (hc : t.color = .red) :
    (t.paint .black).Balanced (n + 1) := by
  obtain ⟨a, t₁, t₂, rfl, h₁, h₂, -, -⟩ := h.red_cases .left hc
  rw [paint_branch]
  exact balanced_branch_black.mpr ⟨h₁, h₂⟩

theorem paint_self {t : ColorTree α} {c : Color} (hc : t.color = c) : t.paint c = t := by
  cases t with
  | nil => rfl
  | node c' l a r => subst hc; rfl

/-- A balanced tree becomes a red-black tree when its root is painted black. -/
theorem Balanced.valid_paint {t : ColorTree α} {n : ℕ} (h : t.Balanced n) : (t.paint .black).Valid := by
  cases hc : t.color with
  | red =>
    refine ⟨?_, n + 1, h.paint_black hc⟩
    cases t <;> rfl
  | black => rw [paint_self hc]; exact ⟨hc, n, h⟩

end ColorTree

open ColorTree

/-! ### Contexts -/

/-- The path from a hole to the root: at each step the side of the node that the hole is on, the
    node, and its other subtree. -/
inductive Ctx (α : Type) where
  | top
  | under (d : Side) (c : Color) (a : α) (s : ColorTree α) (k : Ctx α)

namespace Ctx

/-- The colour above the hole. The position of the root takes no red node either. -/
def color : Ctx α → Color
  | top => .red
  | under _ c .. => c

def depth : Ctx α → ℕ
  | top => 0
  | under _ _ _ _ k => k.depth + 1

/-- The tree with `t` in the hole. -/
def fill : Ctx α → ColorTree α → ColorTree α
  | top, t => t
  | under d c a s k, t => k.fill (branch d c a t s)

/-- The elements before the hole. -/
def pre : Ctx α → List α
  | top => []
  | under .left _ _ _ k => k.pre
  | under .right _ a s k => k.pre ++ (s.inorder ++ [a])

/-- The elements behind the hole. -/
def post : Ctx α → List α
  | top => []
  | under .left _ a s k => a :: (s.inorder ++ k.post)
  | under .right _ _ _ k => k.post

/-- The context balances a tree of black height `n`, black if the colour above it is red. -/
def Balanced : Ctx α → ℕ → Prop
  | top, _ => True
  | under _ .red _ s k, n => s.Balanced n ∧ s.color = .black ∧ k.color = .black ∧ k.Balanced n
  | under _ .black _ s k, n => s.Balanced n ∧ k.Balanced (n + 1)

@[simp] theorem fill_top (t : ColorTree α) : (top : Ctx α).fill t = t := rfl
@[simp] theorem fill_under (d : Side) (c : Color) (a : α) (s : ColorTree α) (k : Ctx α) (t : ColorTree α) :
    (under d c a s k).fill t = k.fill (branch d c a t s) := rfl

theorem inorder_fill : ∀ (k : Ctx α) (t : ColorTree α),
    (k.fill t).inorder = k.pre ++ (t.inorder ++ k.post)
  | top, t => by simp [pre, post]
  | under .left c a s k, t => by simp [inorder_fill k, branch, pre, post]
  | under .right c a s k, t => by simp [inorder_fill k, branch, pre, post]

/-- The order of the whole tree depends on the focus only through its own order. -/
theorem inorder_fill_congr {k : Ctx α} {t t' : ColorTree α} (h : t'.inorder = t.inorder) :
    (k.fill t').inorder = (k.fill t).inorder := by
  rw [inorder_fill, inorder_fill, h]

/-- A tree in the hole of a balanced context makes a red-black tree. -/
theorem Balanced.valid_fill : ∀ {k : Ctx α} {n : ℕ} {t : ColorTree α}, k.Balanced n → t.Balanced n →
    (t.color = .red → k.color = .black) → (k.fill t).Valid
  | top, n, t, _, ht, hc => by
      refine ⟨?_, n, ht⟩
      cases h : t.color with
      | black => exact h
      | red => cases hc h
  | under d .red a s k, n, t, ⟨hs, hsc, hkc, hk⟩, ht, hc => by
      have htc : t.color = .black := by
        cases h : t.color with
        | black => rfl
        | red => cases hc h
      exact hk.valid_fill (balanced_branch_red.mpr ⟨ht, hs, htc, hsc⟩) fun _ => hkc
  | under d .black a s k, n, t, ⟨hs, hk⟩, ht, _ => by
      refine hk.valid_fill (balanced_branch_black.mpr ⟨ht, hs⟩) fun h => ?_
      rw [color_branch] at h; cases h

/-- In a red-black tree every focus is balanced in a balanced context. -/
theorem valid_fill_iff : ∀ {k : Ctx α} {t : ColorTree α}, (k.fill t).Valid ↔
    ∃ n, k.Balanced n ∧ t.Balanced n ∧ (t.color = .red → k.color = .black)
  | k, t => by
      constructor
      · intro h
        induction k generalizing t with
        | top =>
          obtain ⟨hc, n, hn⟩ := h
          refine ⟨n, trivial, hn, fun hr => ?_⟩
          rw [fill_top] at hc
          rw [hc] at hr; cases hr
        | under d c a s k ih =>
          obtain ⟨n, hk, hb, hc⟩ := ih (branch d c a t s) h
          cases c with
          | red =>
            obtain ⟨ht, hs, htc, hsc⟩ := balanced_branch_red.mp hb
            refine ⟨n, ⟨hs, hsc, hc (color_branch ..), hk⟩, ht, fun hr => ?_⟩
            rw [htc] at hr; cases hr
          | black =>
            obtain ⟨m, rfl⟩ : ∃ m, n = m + 1 := by
              cases d
              · obtain ⟨m, hm, -⟩ := hb; exact ⟨m, hm⟩
              · obtain ⟨m, hm, -⟩ := hb; exact ⟨m, hm⟩
            obtain ⟨ht, hs⟩ := balanced_branch_black.mp hb
            exact ⟨m, ⟨hs, hk⟩, ht, fun _ => rfl⟩
      · rintro ⟨n, hk, ht, hc⟩
        exact hk.valid_fill ht hc

theorem depth_le : ∀ k : Ctx α, k.depth ≤ k.pre.length + k.post.length
  | top => Nat.zero_le _
  | under .left _ a s k => by
      have h := depth_le k
      simp only [depth, pre, post, List.length_cons, List.length_append]; omega
  | under .right _ a s k => by
      have h := depth_le k
      simp only [depth, pre, post, List.length_cons, List.length_append, List.length_nil]; omega

/-- The focus is no deeper than the tree has elements. -/
theorem depth_le_length (k : Ctx α) (t : ColorTree α) : k.depth ≤ (k.fill t).inorder.length := by
  have h := depth_le k
  rw [inorder_fill, List.length_append, List.length_append]; omega

/-- The context reached by going on from the hole of `k` into that of `k'`. -/
def comp : Ctx α → Ctx α → Ctx α
  | top, k => k
  | under d c a s k', k => under d c a s (k'.comp k)

theorem fill_comp : ∀ (k' k : Ctx α) (t : ColorTree α), (k'.comp k).fill t = k.fill (k'.fill t)
  | top, _, _ => rfl
  | under _ _ _ _ k', k, t => by rw [comp, fill_under, fill_comp k', fill_under]

/-- Every element of a tree is at the root of some focus. -/
theorem exists_focus (d : Side) {a : α} : ∀ {t : ColorTree α}, a ∈ t.inorder →
    ∃ k c u v, t = fill k (branch d c a u v)
  | nil, h => by cases h
  | node c l b r, h => by
      rw [inorder_node, List.mem_append, List.mem_cons] at h
      rcases h with h | rfl | h
      · obtain ⟨k, c', u, v, rfl⟩ := exists_focus d h
        exact ⟨k.comp (under .left c b r top), c', u, v, by rw [fill_comp]; rfl⟩
      · exact ⟨top, c, _, _, node_eq_branch d c l a r⟩
      · obtain ⟨k, c', u, v, rfl⟩ := exists_focus d h
        exact ⟨k.comp (under .right c b l top), c', u, v, by rw [fill_comp]; rfl⟩

/-! ### Distinct elements -/

/-- The elements outside the hole. -/
def elems (k : Ctx α) : List α := k.pre ++ k.post

theorem mem_elems_under {d : Side} {c : Color} {a b : α} {s : ColorTree α} {k : Ctx α} :
    b ∈ (under d c a s k).elems ↔ b = a ∨ b ∈ s.inorder ∨ b ∈ k.elems := by
  cases d
  · simp only [elems, pre, post, List.mem_append, List.mem_cons]; tauto
  · simp only [elems, pre, post, List.mem_append, List.mem_cons, List.not_mem_nil, or_false]; tauto

theorem mem_fill {k : Ctx α} {t : ColorTree α} {b : α} :
    b ∈ (k.fill t).inorder ↔ b ∈ t.inorder ∨ b ∈ k.elems := by
  rw [inorder_fill, elems]
  simp only [List.mem_append]; tauto

theorem nodup_fill {k : Ctx α} {t : ColorTree α} : (k.fill t).inorder.Nodup ↔
    t.inorder.Nodup ∧ k.elems.Nodup ∧ ∀ b ∈ t.inorder, b ∉ k.elems := by
  have hperm : (k.pre ++ (t.inorder ++ k.post)).Perm (t.inorder ++ (k.pre ++ k.post)) := by
    rw [← List.append_assoc, ← List.append_assoc]
    exact List.Perm.append_right _ List.perm_append_comm
  rw [inorder_fill, hperm.nodup_iff, List.nodup_append', elems, List.disjoint_left]

theorem nodup_under {d : Side} {c : Color} {a : α} {s : ColorTree α} {k : Ctx α} :
    (under d c a s k).elems.Nodup ↔ a ∉ s.inorder ∧ a ∉ k.elems ∧ k.elems.Nodup ∧
      s.inorder.Nodup ∧ ∀ b ∈ s.inorder, b ∉ k.elems := by
  have h : (under d c a s k).elems = (k.fill (branch d c a nil s)).inorder := by
    rw [← fill_under, inorder_fill, elems, inorder_nil, List.nil_append]
  rw [h, nodup_fill, nodup_branch]
  simp only [mem_branch, inorder_nil, List.not_mem_nil, false_or, List.nodup_nil, true_and,
    not_false_eq_true, forall_eq_or_imp, IsEmpty.forall_iff, implies_true, and_true]
  tauto

/-- Exchanging the node at the outer end of a path for another of the same colour keeps the balance
    of the path. -/
theorem balanced_comp_under {d : Side} {c : Color} {a b : α} {s : ColorTree α} {k : Ctx α} :
    ∀ {k' : Ctx α} {n : ℕ}, (k'.comp (under d c a s k)).Balanced n →
      (k'.comp (under d c b s k)).Balanced n ∧
        (k'.comp (under d c b s k)).color = (k'.comp (under d c a s k)).color
  | top, n, h => by cases c <;> exact ⟨h, rfl⟩
  | under e .red x t k', n, ⟨ht, htc, hkc, hk⟩ => by
      obtain ⟨hk', hc⟩ := balanced_comp_under hk
      exact ⟨⟨ht, htc, hc.trans hkc, hk'⟩, rfl⟩
  | under e .black x t k', n, ⟨ht, hk⟩ => ⟨⟨ht, (balanced_comp_under hk).1⟩, rfl⟩

/-- Taking a node with at most one child out of a balanced tree: a red one leaves a red-black tree,
    a black one leaves its child one short. -/
theorem balanced_unlink {d : Side} {c : Color} {a : α} {t : ColorTree α} {k : Ctx α} {n : ℕ}
    (hk : k.Balanced n) (hb : (branch d c a t nil).Balanced n) :
    (c = .red ∧ (k.fill t).Valid) ∨ (c = .black ∧ ∃ h, k.Balanced (h + 1) ∧ t.Balanced h) := by
  cases c with
  | red =>
    obtain ⟨ht, -, htc, -⟩ := balanced_branch_red.mp hb
    exact Or.inl ⟨rfl, hk.valid_fill ht fun h => by rw [htc] at h; cases h⟩
  | black =>
    obtain ⟨m, rfl⟩ : ∃ m, n = m + 1 := by
      cases d
      · obtain ⟨m, hm, -⟩ := hb; exact ⟨m, hm⟩
      · obtain ⟨m, hm, -⟩ := hb; exact ⟨m, hm⟩
    exact Or.inr ⟨rfl, m, hk, (balanced_branch_black.mp hb).1⟩

/-! ### Search paths -/

/-- The hole lies behind the elements with `P` and before the others. -/
structure Splits (P : α → Prop) (k : Ctx α) : Prop where
  pre : ∀ a ∈ k.pre, P a
  post : ∀ a ∈ k.post, ¬ P a

theorem Splits.top (P : α → Prop) : Splits P (top : Ctx α) :=
  ⟨fun _ h => absurd h List.not_mem_nil, fun _ h => absurd h List.not_mem_nil⟩

/-- A search step to the right of an element with `P`, when `P` holds of an initial part. -/
theorem Splits.right {P : α → Prop} {c : Color} {a : α} {l r : ColorTree α} {k : Ctx α}
    (hk : Splits P k) (hT : (k.fill (branch .right c a r l)).inorder.Pairwise fun x y => P y → P x)
    (ha : P a) : Splits P (under .right c a l k) := by
  refine ⟨fun b hb => ?_, hk.post⟩
  have hl : ((l.inorder ++ a :: r.inorder)).Pairwise fun x y => P y → P x :=
    hT.sublist (by rw [inorder_fill]; simp [branch])
  simp only [Ctx.pre, List.mem_append, List.mem_singleton] at hb
  rcases hb with hb | hb | rfl
  · exact hk.pre b hb
  · exact (List.pairwise_append.mp hl).2.2 b hb a List.mem_cons_self ha
  · exact ha

/-- A search step to the left of an element without `P`. -/
theorem Splits.left {P : α → Prop} {c : Color} {a : α} {l r : ColorTree α} {k : Ctx α}
    (hk : Splits P k) (hT : (k.fill (branch .left c a l r)).inorder.Pairwise fun x y => P y → P x)
    (ha : ¬ P a) : Splits P (under .left c a r k) := by
  refine ⟨hk.pre, fun b hb => ?_⟩
  have hr : (a :: r.inorder).Pairwise fun x y => P y → P x := by
    have hcut : (k.fill (branch .left c a l r)).inorder =
        (k.pre ++ l.inorder) ++ ((a :: r.inorder) ++ k.post) := by
      rw [inorder_fill]; simp [branch]
    rw [hcut, List.pairwise_append] at hT
    exact (List.pairwise_append.mp hT.2.1).1
  simp only [Ctx.post, List.mem_append, List.mem_cons] at hb
  rcases hb with rfl | hb | hb
  · exact ha
  · exact fun h => ha ((List.pairwise_cons.mp hr).1 b hb h)
  · exact hk.post b hb

/-! ### The order read in either direction -/

/-- The elements of a tree on the way towards side `d`. -/
def order (d : Side) (t : ColorTree α) : List α := d.pick t.inorder.reverse t.inorder

/-- The elements that follow the hole on the way towards side `d`. -/
def beyond (d : Side) (k : Ctx α) : List α := d.pick k.pre.reverse k.post

theorem order_branch (d : Side) (c : Color) (a : α) (t s : ColorTree α) :
    order d (branch d c a t s) = order d s ++ a :: order d t := by
  cases d <;> simp [order, branch, Side.pick]

theorem order_branch_other (d : Side) (c : Color) (a : α) (t s : ColorTree α) :
    order d.other (branch d c a t s) = order d.other t ++ a :: order d.other s := by
  cases d <;> simp [order, branch, Side.pick]

@[simp] theorem order_nil (d : Side) : order d (nil : ColorTree α) = [] := by cases d <;> rfl

@[simp] theorem beyond_top (d : Side) : beyond d (top : Ctx α) = [] := by cases d <;> rfl

theorem beyond_under (d : Side) (c : Color) (a : α) (s : ColorTree α) (k : Ctx α) :
    beyond d (under d c a s k) = beyond d k := by
  cases d <;> rfl

theorem beyond_under_other (d : Side) (c : Color) (a : α) (s : ColorTree α) (k : Ctx α) :
    beyond d.other (under d c a s k) = a :: (order d.other s ++ beyond d.other k) := by
  cases d <;> simp [beyond, pre, post, order, Side.pick]

/-- The hole is reached from the root along side `d` only. -/
def Along (d : Side) : Ctx α → Prop
  | top => True
  | under e _ _ _ k => e = d ∧ Along d k

theorem Along.comp {d : Side} : ∀ {k' k : Ctx α}, Along d k' → Along d k → Along d (k'.comp k)
  | top, _, _, hk => hk
  | under _ _ _ _ _, _, ⟨he, hk'⟩, hk => ⟨he, hk'.comp hk⟩

/-- A hole along side `d` has nothing further on that side. -/
theorem Along.beyond {d : Side} : ∀ {k : Ctx α}, Along d k → beyond d k = []
  | top, _ => beyond_top d
  | under e c a s k, ⟨he, hk⟩ => by
      subst he
      rw [beyond_under, hk.beyond]

theorem Along.pre_eq_nil {k : Ctx α} (h : Along .left k) : k.pre = [] :=
  List.reverse_eq_nil_iff.mp h.beyond

theorem order_fill (d : Side) (k : Ctx α) (t : ColorTree α) :
    order d.other (k.fill t) = (beyond d k).reverse ++ (order d.other t ++ beyond d.other k) := by
  cases d <;> simp [order, Ctx.beyond, inorder_fill, Side.pick]

/-- A tree that is not empty ends along side `d` in a node without a child there. -/
theorem exists_along (d : Side) : ∀ (t : ColorTree α), t ≠ nil →
    ∃ k c a s, t = fill k (branch d c a nil s) ∧ Along d k
  | nil, h => absurd rfl h
  | node c l a r, _ => by
      cases d with
      | left =>
        cases l with
        | nil => exact ⟨top, c, a, r, rfl, trivial⟩
        | node c' l' a' r' =>
          obtain ⟨k, c₁, x, s, h, hk⟩ := exists_along .left (node c' l' a' r') (by simp)
          refine ⟨k.comp (under .left c a r top), c₁, x, s, ?_, ?_⟩
          · rw [fill_comp, ← h]; rfl
          · exact Along.comp hk ⟨rfl, trivial⟩
      | right =>
        cases r with
        | nil => exact ⟨top, c, a, l, rfl, trivial⟩
        | node c' l' a' r' =>
          obtain ⟨k, c₁, x, s, h, hk⟩ := exists_along .right (node c' l' a' r') (by simp)
          refine ⟨k.comp (under .right c a l top), c₁, x, s, ?_, ?_⟩
          · rw [fill_comp, ← h]; rfl
          · exact Along.comp hk ⟨rfl, trivial⟩

/-- The end of the way along side `d` is the first element in the other direction. -/
theorem Along.head {d : Side} {k : Ctx α} (h : Along d k) (c : Color) (a : α) (s : ColorTree α) :
    (order d.other (k.fill (branch d c a nil s))).head? = some a := by
  rw [order_fill, h.beyond, order_branch_other]
  simp

end Ctx

end RedBlack
