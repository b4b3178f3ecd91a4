import FilesKernel.Lib.Height
import FilesKernel.RbTree.Runs

/-! Searches are short.

    All that callers do on the way to a node or to a null link is to follow child links from the root.
    In every tree that `rb_insert` and `rb_erase` leave, there are few of them. -/

namespace FilesKernel.RbTree
open CExec RedBlack
open RedBlack.ColorTree hiding node

/-- Where the child links lead from `a` on; the null pointer is the end. -/
def descend (m : Links) : ℕ → List Side → ℕ
  | a, [] => a
  | a, d :: π => if a = 0 then 0 else descend m ((m a).child d) π

theorem descend_null (m : Links) : ∀ π : List Side, descend m 0 π = 0
  | [] => rfl
  | _ :: _ => if_pos rfl

/-- Every way down ends within the height of the tree. -/
theorem Rep.descend_eq {m : Links} : ∀ {t : ColorTree ℕ} {parent : ℕ} (π : List Side),
    Rep m parent t → t.height ≤ π.length → descend m (ptr t) π = 0
  | nil, _, π, _, _ => descend_null m π
  | .node c l a r, _, [], _, hle => by
      rw [height, List.length_nil] at hle
      omega
  | .node c l a r, _, d :: π, h, hle => by
      obtain ⟨ha, hc, hl, hr⟩ := h
      rw [height, List.length_cons] at hle
      rw [ptr, descend, if_neg ha.ne, hc]
      cases d with
      | left => exact hl.descend_eq π (by omega)
      | right => exact hr.descend_eq π (by omega)

/-- The tree `T` is in memory, and every way down from the root ends after `2 log₂ (n + 1)` links, for
    the `n` nodes of the tree. -/
structure Shallow (s : RbState) (T : ColorTree ℕ) : Prop where
  tree : Repr s.mem s T
  ends : ∀ π : List Side, 2 * Nat.log 2 (T.inorder.length + 1) ≤ π.length → descend s.mem s.root π = 0

theorem Repr.shallow {s : RbState} {T : ColorTree ℕ} (hs : Repr s.mem s T) (hv : T.Valid) :
    Shallow s T := by
  refine ⟨hs, fun π hπ => ?_⟩
  rw [hs.root]
  exact hs.nodes.descend_eq π (hv.height_le.trans hπ)

/-- In every state that legal calls lead to from an empty tree, searches are short. -/
theorem shallow_of_run {mem : Links} {s : RbState}
    (hr : Reaches RbOp.step (fun s op => ∃ T, Repr s.mem s T ∧ op.Legal s T) ⟨mem, 0⟩ s) :
    ∃ T, Shallow s T := by
  have hinv : ∃ T, Repr s.mem s T ∧ T.Valid := by
    refine hr.invariant (P := fun s => ∃ T, Repr s.mem s T ∧ T.Valid)
      ⟨nil, ⟨rfl, trivial, List.nodup_nil, fun _ _ => rfl⟩, rfl, 0, rfl⟩ ?_
    rintro s op s' ⟨T, hs, hv⟩ ⟨T', hs', hop⟩ e
    obtain rfl := hs.unique hs'
    obtain ⟨s'', T'', e', hs'', hv'', -⟩ := RbOp.step_spec hs hv hop
    obtain rfl := Except.ok.inj (e'.symm.trans e)
    exact ⟨T'', hs'', hv''⟩
  obtain ⟨T, hs, hv⟩ := hinv
  exact ⟨T, hs.shallow hv⟩

/-! ### A run -/

/-- The tree that the links from `a` on show, down to `n` levels. -/
def treeAt (m : Links) : ℕ → ℕ → ColorTree ℕ
  | 0, _ => nil
  | n + 1, a =>
    if a = 0 then nil
    else .node (rbColor (m a)) (treeAt m n (m a).left) a (treeAt m n (m a).right)

instance (a : ℕ) : Decidable (IsNode a) :=
  decidable_of_iff (a ≠ 0 ∧ a % 2 = 0 ∧ a < 2 ^ 64)
    ⟨fun h => ⟨h.1, h.2.1, h.2.2⟩, fun h => ⟨h.ne, h.even, h.lt⟩⟩

instance decidableRep (m : Links) : ∀ (t : ColorTree ℕ) (parent : ℕ), Decidable (Rep m parent t)
  | nil, _ => inferInstanceAs (Decidable True)
  | .node c l a r, parent =>
    have := decidableRep m l a
    have := decidableRep m r a
    inferInstanceAs (Decidable (IsNode a ∧ m a = ⟨ptr l, ptr r, parent + bit c⟩ ∧ Rep m a l ∧ Rep m a r))

instance (s : RbState) (T : ColorTree ℕ) (op : RbOp) : Decidable (op.Legal s T) :=
  match op with
  | .insert _ _ .root => inferInstanceAs (Decidable (_ ∧ _ ∧ _ ∧ _))
  | .insert _ _ (.child _ _) => inferInstanceAs (Decidable (_ ∧ _ ∧ _ ∧ _ ∧ _))
  | .erase _ => inferInstanceAs (Decidable (_ ∈ _))

/-- The links show a tree, and the call is legal on it. -/
abbrev LegalNow (s : RbState) (op : RbOp) : Prop :=
  let T := treeAt s.mem 8 s.root
  (s.root = ptr T ∧ Rep s.mem 0 T ∧ T.inorder.Nodup) ∧ op.Legal s T

/-- Five ascending keys, and the third one erased: the third insertion rotates, the fourth recolours,
    the fifth rotates below the root. -/
def ascending : List RbOp :=
  [.insert 8 0 .root, .insert 16 8 (.child .right 8), .insert 24 16 (.child .right 16),
    .insert 32 24 (.child .right 24), .insert 40 32 (.child .right 32), .erase 24]

theorem ascending_shallow : ∃ s, checkedRun RbOp.step LegalNow ⟨fun _ => ⟨0, 0, 0⟩, 0⟩ ascending =
    some s ∧ (treeAt s.mem 8 s.root).inorder = [8, 16, 32, 40] ∧ ∃ T, Shallow s T := by
  obtain ⟨s, hs, hin⟩ : ∃ s, checkedRun RbOp.step LegalNow ⟨fun _ => ⟨0, 0, 0⟩, 0⟩ ascending = some s ∧
      (treeAt s.mem 8 s.root).inorder = [8, 16, 32, 40] := by
    have hval : ((checkedRun RbOp.step LegalNow ⟨fun _ => ⟨0, 0, 0⟩, 0⟩ ascending).map fun s =>
        (treeAt s.mem 8 s.root).inorder) = some [8, 16, 32, 40] := by decide +kernel
    exact Option.map_eq_some_iff.mp hval
  have hlegal : ∀ t op, LegalNow t op → ∃ T, Repr t.mem t T ∧ op.Legal t T := fun t op h =>
    ⟨treeAt t.mem 8 t.root, ⟨h.1.1, h.1.2.1, h.1.2.2, fun _ _ => rfl⟩, h.2⟩
  exact ⟨s, hs, hin, shallow_of_run ((Reaches.start.of_checkedRun hs).mono hlegal)⟩

end FilesKernel.RbTree
