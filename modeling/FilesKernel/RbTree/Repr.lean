import FilesKernel.RbTree.Model

/-! How a tree of nodes lies in memory.

    `Repr m₀ s T` says that the links from `s.root` on are the tree `T` over node addresses, with
    every colour and every parent pointer, and that memory off the tree is as in `m₀`. A focus of `T`
    is laid out as its context and its subtree, so a write is judged at the focus it belongs to. -/

namespace FilesKernel.RbTree
open CExec RedBlack RedBlack.ColorTree

abbrev Links := ℕ → RbNode

/-- An address that a node can have: not null, and aligned, so that the low bit is free. -/
structure IsNode (a : ℕ) : Prop where
  ne : a ≠ 0
  even : a % 2 = 0
  lt : a < 2 ^ 64

/-- The address of the root of a tree. -/
def ptr : ColorTree ℕ → ℕ
  | nil => 0
  | node _ _ a _ => a

/-- The address of the node above a hole. -/
def above : Ctx ℕ → ℕ
  | .top => 0
  | .under _ _ a _ _ => a

/-- A node with `t` on side `d` and `u` on the other. -/
def cell (d : Side) (t u parent : ℕ) : RbNode := ⟨d.pick t u, d.pick u t, parent⟩

/-- The nodes of the tree are in memory, below `parent`. -/
def Rep (m : Links) : ℕ → ColorTree ℕ → Prop
  | _, nil => True
  | parent, node c l a r => IsNode a ∧ m a = ⟨ptr l, ptr r, parent + bit c⟩ ∧ Rep m a l ∧ Rep m a r

/-- The nodes of the context are in memory, with `q` linked in the hole. -/
def RepCtx (m : Links) (root : ℕ) : Ctx ℕ → ℕ → Prop
  | .top, q => root = q
  | .under d c a u k, q => IsNode a ∧ m a = cell d q (ptr u) (above k + bit c) ∧ Rep m a u ∧
      RepCtx m root k a

structure Repr (m₀ : Links) (s : RbState) (T : ColorTree ℕ) : Prop where
  root : s.root = ptr T
  nodes : Rep s.mem 0 T
  nodup : T.inorder.Nodup
  rest : ∀ a, a ∉ T.inorder → s.mem a = m₀ a

@[simp] theorem ptr_nil : ptr nil = 0 := rfl
@[simp] theorem ptr_branch (d : Side) (c : Color) (a : ℕ) (t u : ColorTree ℕ) :
    ptr (branch d c a t u) = a := by
  cases d <;> rfl

@[simp] theorem child_cell (d : Side) (t u parent : ℕ) : (cell d t u parent).child d = t := by
  cases d <;> rfl

@[simp] theorem child_other_cell (d : Side) (t u parent : ℕ) :
    (cell d t u parent).child d.other = u := by
  cases d <;> rfl

@[simp] theorem cell_parent (d : Side) (t u parent : ℕ) : (cell d t u parent).parent = parent := rfl

theorem cell_other (d : Side) (t u parent : ℕ) : cell d.other t u parent = cell d u t parent := by
  cases d <;> rfl

theorem rep_branch {m : Links} {d : Side} {parent : ℕ} {c : Color} {a : ℕ} {t u : ColorTree ℕ} :
    Rep m parent (branch d c a t u) ↔
      IsNode a ∧ m a = cell d (ptr t) (ptr u) (parent + bit c) ∧ Rep m a t ∧ Rep m a u := by
  cases d with
  | left => exact Iff.rfl
  | right =>
    simp only [branch, Rep, cell, Side.pick]
    tauto

/-- A tree in memory is a context in memory and its focus in memory. -/
theorem rep_fill {m : Links} {root : ℕ} : ∀ {k : Ctx ℕ} {t : ColorTree ℕ},
    (root = ptr (k.fill t) ∧ Rep m 0 (k.fill t)) ↔ RepCtx m root k (ptr t) ∧ Rep m (above k) t
  | .top, t => Iff.rfl
  | .under d c a u k, t => by
      rw [Ctx.fill_under, rep_fill, rep_branch, ptr_branch, RepCtx, above]
      tauto

/-! ### Frames -/

theorem Rep.congr {m m' : Links} : ∀ {t : ColorTree ℕ} {parent : ℕ},
    (∀ a ∈ t.inorder, m' a = m a) → Rep m parent t → Rep m' parent t
  | nil, _, _, _ => trivial
  | node c l a r, parent, hm, ⟨ha, hc, hl, hr⟩ => by
      simp only [inorder_node, List.mem_append, List.mem_cons] at hm
      exact ⟨ha, (hm a (by simp)).trans hc, hl.congr fun b hb => hm b (by simp [hb]),
        hr.congr fun b hb => hm b (by simp [hb])⟩

theorem RepCtx.congr {m m' : Links} {root : ℕ} : ∀ {k : Ctx ℕ} {q : ℕ},
    (∀ a ∈ k.elems, m' a = m a) → RepCtx m root k q → RepCtx m' root k q
  | .top, _, _, h => h
  | .under d c a u k, q, hm, ⟨ha, hc, hu, hk⟩ => by
      simp only [Ctx.mem_elems_under] at hm
      exact ⟨ha, (hm a (by simp)).trans hc, hu.congr fun b hb => hm b (by simp [hb]),
        hk.congr fun b hb => hm b (by simp [hb])⟩

theorem Rep.isNode {m : Links} : ∀ {t : ColorTree ℕ} {parent : ℕ}, Rep m parent t →
    ∀ a ∈ t.inorder, IsNode a
  | nil, _, _, a, ha => by cases ha
  | node c l b r, parent, ⟨hb, _, hl, hr⟩, a, ha => by
      simp only [inorder_node, List.mem_append, List.mem_cons] at ha
      rcases ha with ha | rfl | ha
      · exact hl.isNode a ha
      · exact hb
      · exact hr.isNode a ha

theorem Repr.isNode {m₀ : Links} {s : RbState} {T : ColorTree ℕ} (h : Repr m₀ s T) :
    ∀ a ∈ T.inorder, IsNode a :=
  h.nodes.isNode

theorem Repr.refl {m₀ : Links} {s : RbState} {T : ColorTree ℕ} (h : Repr m₀ s T) : Repr s.mem s T :=
  ⟨h.root, h.nodes, h.nodup, fun _ _ => rfl⟩

/-- A tree survives any change of memory off its nodes. -/
theorem Repr.congr {s s' : RbState} {T : ColorTree ℕ} (h : Repr s.mem s T) (hroot : s'.root = s.root)
    (hm : ∀ a ∈ T.inorder, s'.mem a = s.mem a) : Repr s'.mem s' T :=
  ⟨hroot.trans h.root, h.nodes.congr hm, h.nodup, fun _ _ => rfl⟩

/-- Memory holds at most one tree below a pointer. -/
theorem Rep.unique {m : Links} : ∀ {t t' : ColorTree ℕ} {parent : ℕ}, Rep m parent t → Rep m parent t' →
    ptr t = ptr t' → t = t'
  | nil, nil, _, _, _, _ => rfl
  | nil, node c' l' a' r', _, _, h', e => absurd e.symm h'.1.ne
  | node c l a r, nil, _, h, _, e => absurd e h.1.ne
  | node c l a r, node c' l' a' r', parent, ⟨_, hc, hl, hr⟩, ⟨_, hc', hl', hr'⟩, e => by
      obtain rfl : a = a' := e
      rw [hc] at hc'
      obtain ⟨el, er, ec⟩ := RbNode.mk.inj hc'
      have hcol : c = c' := by
        cases c <;> cases c' <;> simp only [bit] at ec <;> first | rfl | omega
      rw [hl.unique hl' el, hr.unique hr' er, hcol]

theorem Repr.unique {m₀ m₁ : Links} {s : RbState} {T T' : ColorTree ℕ} (h : Repr m₀ s T)
    (h' : Repr m₁ s T') : T = T' :=
  h.nodes.unique h'.nodes (h.root.symm.trans h'.root)

/-- Loops along the tree take fewer than `maxSteps` rounds. -/
theorem Repr.length_lt {m₀ : Links} {s : RbState} {T : ColorTree ℕ} (h : Repr m₀ s T) :
    T.inorder.length + 1 < maxSteps :=
  length_lt_maxSteps h.nodup fun a ha => by
    obtain ⟨hne, heven, hlt⟩ := h.isNode a ha
    exact ⟨by omega, hlt⟩

theorem ptr_mem {t : ColorTree ℕ} (h : ptr t ≠ 0) : ptr t ∈ t.inorder := by
  cases t with
  | nil => exact absurd rfl h
  | node c l a r => simp [ptr]

theorem Rep.ptr_eq_zero {m : Links} {p : ℕ} {t : ColorTree ℕ} (h : Rep m p t) :
    ptr t = 0 ↔ t = nil := by
  cases t with
  | nil => simp
  | node c l a r => simpa [ptr] using h.1.ne

theorem above_even {m : Links} {root q : ℕ} {k : Ctx ℕ} (h : RepCtx m root k q) :
    above k % 2 = 0 := by
  cases k with
  | top => rfl
  | under d c a u k => exact h.1.even

/-- The parent word of a node. -/
theorem bit_spec {p : ℕ} (hp : p % 2 = 0) (c : Color) :
    (p + bit c) % 2 = bit c ∧ p + bit c - (p + bit c) % 2 = p ∧
      (if (p + bit c) % 2 = 0 then Color.red else .black) = c := by
  cases c
  · simp [bit, hp]
  · refine ⟨by simp only [bit]; omega, by simp only [bit]; omega, ?_⟩
    rw [if_neg (by simp only [bit]; omega)]

theorem rbParent_cell {d : Side} {t u p : ℕ} (hp : p % 2 = 0) (c : Color) :
    rbParent (cell d t u (p + bit c)) = p := (bit_spec hp c).2.1

theorem rbColor_cell {d : Side} {t u p : ℕ} (hp : p % 2 = 0) (c : Color) :
    rbColor (cell d t u (p + bit c)) = c := (bit_spec hp c).2.2

/-- Joining an even pointer with a colour bit. -/
theorem bit_or {p q : ℕ} (hp : p % 2 = 0) (hq : q % 2 = 0) (c : Color) :
    (p + bit c) % 2 ||| q = q + bit c := by
  rw [(bit_spec hp c).1]
  obtain ⟨r, rfl⟩ : ∃ r, q = 2 * r := ⟨q / 2, by omega⟩
  have h : 2 ^ 1 * r + bit c = 2 ^ 1 * r ||| bit c :=
    Nat.two_pow_add_eq_or_of_lt (by cases c <;> simp [bit]) r
  rw [Nat.pow_one] at h
  rw [h, Nat.or_comm]

end FilesKernel.RbTree
