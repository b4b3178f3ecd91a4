import FilesKernel.Balloc.Nodes
import FilesKernel.Lib.Height
import FilesKernel.RbTree.Shallow

/-! The searches of the bootstrap allocator end within 15 rounds.

    There are 128 nodes, so a tree of ranges has a height of at most 14, and each round of a search goes
    down one link. -/

namespace FilesKernel.Balloc
open CExec CWord RbTree RedBlack Spans

/-! ### Rounds -/

/-- A loop that ends does not need more rounds. -/
theorem loop_mono {σ α : Type} {body : σ → Exec (σ ⊕ α)} {a : α} : ∀ {fuel fuel' : ℕ} {s : σ},
    loop body fuel s = .ok a → fuel ≤ fuel' → loop body fuel' s = .ok a
  | 0, _, _, h, _ => by cases h
  | fuel + 1, 0, _, _, hle => absurd hle (Nat.not_succ_le_zero fuel)
  | fuel + 1, fuel' + 1, s, h, hle => by
      rw [loop] at h ⊢
      obtain ⟨r, e, h⟩ := bind_eq_ok.mp h
      rw [e, ok_bind]
      cases r with
      | inl s' => exact loop_mono h (Nat.le_of_succ_le_succ hle)
      | inr a' => exact h

variable {c : Image} {s s₀ : BallocState} {L L' : List ℕ} {T T' : RangeTree → ColorTree ℕ}
  {t : RangeTree} {b n : ℕ}

/-- The search for the first range that ends behind `b` -/
theorem first_rounds : ∀ {u : ColorTree ℕ} {parent fuel p : ℕ}, Rep (s.tree t).mem parent u →
    u.height < fuel → ∃ q, loop (ballocFirstBody s t b) fuel (ptr u, p) = .ok q
  | _, _, 0, _, _, hlt => absurd hlt (Nat.not_lt_zero _)
  | .nil, _, fuel + 1, p, _, _ => ⟨p, by rw [loop, ballocFirstBody, ptr_nil, if_pos rfl, ok_bind]⟩
  | .node col l a r, _, fuel + 1, p, h, hlt => by
      obtain ⟨ha, hm, hl, hr⟩ := h
      rw [ColorTree.height] at hlt
      rw [loop, ptr, ballocFirstBody, if_neg ha.ne, load_eq ha, ok_bind, hm]
      by_cases hgt : (s.range a).stop > b
      · rw [if_pos hgt, ok_bind]
        exact first_rounds hl (by omega)
      · rw [if_neg hgt, ok_bind]
        exact first_rounds hr (by omega)

/-- The search for the place of a range that begins at `b` -/
theorem place_rounds : ∀ {u : ColorTree ℕ} {parent fuel q : ℕ} {plink : Plink},
    Rep (s.tree t).mem parent u → plinkNode (s.tree t) plink = .ok (ptr u) → u.height < fuel →
    ∃ r, loop (ballocPlaceBody s t b) fuel (q, plink) = .ok r
  | _, _, 0, _, _, _, _, hlt => absurd hlt (Nat.not_lt_zero _)
  | .nil, _, fuel + 1, q, plink, _, hp, _ =>
      ⟨(q, plink), by rw [loop, ballocPlaceBody, hp, ok_bind, ptr_nil, if_pos rfl, ok_bind]⟩
  | .node col l a r, _, fuel + 1, q, plink, h, hp, hlt => by
      obtain ⟨ha, hm, hl, hr⟩ := h
      have hchild : ∀ d, plinkNode (s.tree t) (.child d a) = .ok (d.pick (ptr l) (ptr r)) := fun d => by
        rw [plinkNode, load_eq ha, ok_bind, hm, RbNode.child]
      rw [ColorTree.height] at hlt
      rw [loop, ballocPlaceBody, hp, ok_bind, ptr, if_neg ha.ne]
      by_cases hbegin : (s.range a).begin < b
      · rw [if_pos hbegin, ok_bind]
        exact place_rounds hr (hchild .right) (by omega)
      · rw [if_neg hbegin, ok_bind]
        exact place_rounds hl (hchild .left) (by omega)

/-! ### Runs -/

/-- The searches of `__balloc_remove_range` and `__balloc_alloc`, and those of `__balloc_add_range`, end
    within `rounds` rounds. -/
structure SearchesEnd (s : BallocState) (t : RangeTree) (rounds : ℕ) : Prop where
  first : ∀ b, ∃ p, loop (ballocFirstBody s t b) rounds (s.root t, 0) = .ok p ∧
    ballocFirst s t b = .ok p
  place : ∀ b, ∃ r, loop (ballocPlaceBody s t b) rounds (0, .root) = .ok r ∧
    loop (ballocPlaceBody s t b) maxSteps (0, .root) = .ok r

theorem Holds.searchesEnd (h : Holds c s L T) (hn : (T t).inorder.length ≤ n) (hmax : n ≤ 2 ^ 16) :
    SearchesEnd s t (2 * Nat.log 2 (n + 1) + 1) := by
  have hr := h.trees t
  have hheight := (h.valid t).height_le
  have hlog : Nat.log 2 ((T t).inorder.length + 1) ≤ Nat.log 2 (n + 1) :=
    Nat.log_mono_right (Nat.succ_le_succ hn)
  have hlt : (T t).height < 2 * Nat.log 2 (n + 1) + 1 := by omega
  have hsteps : 2 * Nat.log 2 (n + 1) + 1 ≤ maxSteps := by
    have hlt' : Nat.log 2 (n + 1) < n + 1 := Nat.log_lt_self 2 (Nat.succ_ne_zero n)
    unfold maxSteps
    omega
  have hroot : s.root t = ptr (T t) := hr.root
  refine ⟨fun b => ?_, fun b => ?_⟩
  · obtain ⟨p, e⟩ := first_rounds (p := 0) (b := b) hr.nodes hlt
    rw [← hroot] at e
    exact ⟨p, e, loop_mono e hsteps⟩
  · have hplink : plinkNode (s.tree t) .root = .ok (ptr (T t)) := by rw [plinkNode, ← hr.root]
    obtain ⟨r, e⟩ := place_rounds (q := 0) (b := b) hr.nodes hplink hlt
    exact ⟨r, e, loop_mono e hsteps⟩

/-- No tree has more nodes than there are. -/
theorem Stocked.length_le (h : Stocked c s L T) : (T t).inorder.length ≤ ballocMaxRanges := by
  have hlen := h.nodes.length_eq
  rw [List.length_append, List.length_append, Image.nodes, List.length_map, List.length_range] at hlen
  cases t <;> omega

/-- The states that legal calls lead to behind `balloc_setup_nodes`. -/
def RangeReach (c : Image) (s₀ s : BallocState) : Prop :=
  ∃ s₁, ballocSetupNodes c s₀ = .ok s₁ ∧ Reaches (RangeOp.step c)
    (fun s op => ∃ L T, Shared c s L T ∧ op.Legal (s.ranges (T .freeRanges))) s₁ s

theorem RangeReach.stocked (hroot : ∀ t, s₀.root t = 0) (hr : RangeReach c s₀ s) :
    ∃ L T, Stocked c s L T := by
  obtain ⟨s₁, e₁, hrun⟩ := hr
  obtain ⟨s₂, L, e₂, h, hnodes⟩ := ballocSetupNodes_spec c hroot
  obtain rfl := Except.ok.inj (e₁.symm.trans e₂)
  refine hrun.invariant (P := fun s => ∃ L T, Stocked c s L T)
    ⟨L, fun _ => .nil, h, fun t => valid_nil, ?_⟩ ?_
  · rwa [ColorTree.inorder_nil, List.append_nil, List.append_nil]
  · rintro s op s' ⟨L, T, hs⟩ ⟨L', T', hs', hop⟩ e
    have hT : T = T' := funext fun t => (hs.holds.trees t).unique (hs'.trees t)
    rw [← hT] at hop
    rcases RangeOp.step_lockstep (g := fun _ => 0) hs hop with ⟨-, e'⟩ | ⟨x', s'', -, e', -, h'⟩
    · rw [e] at e'
      cases e'
    · obtain rfl := Except.ok.inj (e'.symm.trans e)
      exact h'

/-- In every state of a run, every search ends within 15 rounds. -/
theorem searches_of_run (hroot : ∀ t, s₀.root t = 0) (hr : RangeReach c s₀ s) (t : RangeTree) :
    SearchesEnd s t 15 := by
  obtain ⟨L, T, hs⟩ := hr.stocked hroot
  have hrounds : 2 * Nat.log 2 (ballocMaxRanges + 1) + 1 = 15 := by
    have hlog : Nat.log 2 (ballocMaxRanges + 1) = 7 := by
      rw [Nat.log_eq_iff (Or.inl (by decide))]
      decide
    rw [hlog]
  exact hrounds ▸ hs.holds.searchesEnd hs.length_le (by decide)

/-! ### A run -/

/-- All links and ranges are zero. -/
def zeros : BallocState := ⟨fun _ => ⟨0, 0, 0⟩, fun _ => ⟨0, 0⟩, 0, 0⟩

/-- The tree that the links of a state show, down to 8 levels. -/
def BallocState.shown (s : BallocState) (t : RangeTree) : ColorTree ℕ := treeAt s.links 8 (s.root t)

/-- The links show a tree of free ranges, the call is legal on it, and none of its sums wraps around
    at any of the ranges. -/
def LegalNow (s : BallocState) (op : RangeOp) : Prop :=
  (s.freeRanges = ptr (s.shown .freeRanges) ∧ Rep s.links 0 (s.shown .freeRanges) ∧
    (s.shown .freeRanges).inorder.Nodup) ∧
  match op with
  | .add _ b e => b ≤ e
  | .remove _ b e => b ≤ e
  | .alloc size align b _ => ∀ r ∈ s.ranges (s.shown .freeRanges),
      max r.begin b + wsub align 1 < 2 ^ 64 ∧ pieceAt align b r + size < 2 ^ 64

instance (s : BallocState) (op : RangeOp) : Decidable (LegalNow s op) := by
  unfold LegalNow
  cases op <;> infer_instance

theorem LegalNow.legal {op : RangeOp} (h : LegalNow s op) (hs : Stocked c s L T) :
    op.Legal (s.ranges (T .freeRanges)) := by
  obtain ⟨⟨hroot, hrep, hnd⟩, hop⟩ := h
  have hshown : Repr (s.tree .freeRanges).mem (s.tree .freeRanges) (s.shown .freeRanges) :=
    ⟨hroot, hrep, hnd, fun _ _ => rfl⟩
  have hT : T .freeRanges = s.shown .freeRanges := (hs.holds.trees .freeRanges).unique hshown
  cases op with
  | add t b e => exact hop
  | remove t b e => exact hop
  | alloc size align b e =>
    rw [hT]
    intro A r B hR _ _ _
    exact hop r (by rw [hR]; simp)

theorem RangeReach.of_checkedRun {s₁ : BallocState} {ops : List RangeOp} (hroot : ∀ t, s₀.root t = 0)
    (e : ballocSetupNodes c s₀ = .ok s₁) (h : checkedRun (RangeOp.step c) LegalNow s₁ ops = some s) :
    RangeReach c s₀ s := by
  refine (Reaches.start.of_checkedRun h).invariant (P := RangeReach c s₀) ⟨s₁, e, .start⟩ ?_
  intro t op u hr hop hstep
  obtain ⟨L, T, ht⟩ := hr.stocked hroot
  obtain ⟨t₁, e₁, hrun⟩ := hr
  exact ⟨t₁, e₁, hrun.next ⟨L, T, ht.shared, hop.legal ht⟩ hstep⟩

/-- Three free ranges, the middle one cut in two, and 4096 bytes taken from what is left of the first. -/
def threeRanges : List RangeOp :=
  [.add .freeRanges 4096 65536, .add .freeRanges 131072 262144, .add .freeRanges 524288 1048576,
    .remove .freeRanges 4096 16384, .remove .freeRanges 147456 163840, .alloc 4096 4096 0 1048576]

theorem threeRanges_searches : ∃ s₁ s, ballocSetupNodes bootImage zeros = .ok s₁ ∧
    checkedRun (RangeOp.step bootImage) LegalNow s₁ threeRanges = some s ∧
    s.ranges (s.shown .freeRanges) =
      [⟨20480, 65536⟩, ⟨131072, 147456⟩, ⟨163840, 262144⟩, ⟨524288, 1048576⟩] ∧
    SearchesEnd s .freeRanges 15 := by
  have hroot : ∀ t, zeros.root t = 0 := fun t => by cases t <;> rfl
  have hval : ((ballocSetupNodes bootImage zeros).toOption.bind fun s₁ =>
      (checkedRun (RangeOp.step bootImage) LegalNow s₁ threeRanges).map fun s =>
        s.ranges (s.shown .freeRanges)) =
      some [⟨20480, 65536⟩, ⟨131072, 147456⟩, ⟨163840, 262144⟩, ⟨524288, 1048576⟩] := by
    decide +kernel
  obtain ⟨s₁, -, e, -⟩ := ballocSetupNodes_spec bootImage hroot
  rw [e] at hval
  obtain ⟨s, hs, hran⟩ := Option.map_eq_some_iff.mp hval
  exact ⟨s₁, s, e, hs, hran, searches_of_run hroot (.of_checkedRun hroot e hs) .freeRanges⟩

end FilesKernel.Balloc
