import FilesKernel.Kmap.Model
import FilesKernel.Lib.Tiling
import FilesKernel.LinkedList.Rings
import Mathlib.Data.Nat.Log

/-! How the ranges lie in the window.

    The window is tiled by ranges. A range that is neither live nor free is held by the running
    function: its tags and its list head mean nothing, so it can be cut and joined freely. The lists
    are read off the tiling: the list with index `o` has the free ranges of its sizes. -/

namespace FilesKernel.Kmap
open CExec LinkedList LinkRing Tiling

inductive RangeKind where | live | free | held
  deriving DecidableEq

abbrev Range := Tile RangeKind

/-- The index of the list for free ranges of `n` pages. -/
def bucket (n : ℕ) : ℕ := min 15 (Nat.log 2 n)

theorem bucket_lt (n : ℕ) : bucket n < kmapOrders :=
  Nat.lt_of_le_of_lt (Nat.min_le_left _ _) (by decide)

/-- The list heads are where the tiling `l` says, with `R o` on the list with index `o`. -/
structure Layout (s : KmapState) (l : List Range) (R : ℕ → List Ref) : Prop where
  tiles : Tiles 0 l kmapPages
  tags : ∀ x ∈ l, x.kind ≠ .held → s.pages x.start = x.len ∧ s.pages (x.stop - 1) = x.len
  rings : ∀ o < kmapOrders, OnRing s.lists (.head o) (R o)
  free : ∀ o < kmapOrders, ∀ a, a ∈ R o ↔
    ∃ x ∈ l, x.kind = .free ∧ bucket x.len = o ∧ a = .range x.start
  live : ∀ x ∈ l, x.kind = .live → (s.lists (.range x.start)).next = .range x.start

variable {s : KmapState} {l A B : List Range} {R : ℕ → List Ref} {x y : Range} {o n : ℕ}

/-! ### Sizes -/

theorem kmapOrderFrom_spec : ∀ {n o : ℕ} (p : ℕ), o ≤ kmapOrderFrom p n o ∧
    kmapOrderFrom p n o ≤ o + n ∧ (p ≤ 2 ^ kmapOrderFrom p n o ∨ kmapOrderFrom p n o = o + n) ∧
    ∀ j, o ≤ j → j < kmapOrderFrom p n o → 2 ^ j < p
  | 0, o, p => ⟨Nat.le_refl o, Nat.le_refl o, Or.inr rfl, fun j h h' => absurd h' (Nat.not_lt.mpr h)⟩
  | n + 1, o, p => by
      rw [kmapOrderFrom]
      split
      · rename_i hlt
        obtain ⟨h₁, h₂, h₃, h₄⟩ := kmapOrderFrom_spec (n := n) (o := o + 1) p
        refine ⟨by omega, by omega, ?_, fun j hj hj' => ?_⟩
        · rcases h₃ with h₃ | h₃
          · exact Or.inl h₃
          · exact Or.inr (by omega)
        · rcases Nat.eq_or_lt_of_le hj with rfl | hj
          · exact hlt
          · exact h₄ j hj hj'
      · rename_i hge
        exact ⟨Nat.le_refl o, by omega, Or.inl (Nat.not_lt.mp hge),
          fun j h h' => absurd h' (Nat.not_lt.mpr h)⟩

/-- A range of `n` pages goes to the list `bucket n`. -/
theorem kmapHeadBelow_order (hn : 0 < n) :
    kmapHeadBelow (kmapOrder (n + 1)) = .ok (.head (bucket n)) := by
  obtain ⟨-, hle, hge, hlt⟩ := kmapOrderFrom_spec (n := kmapOrders) (o := 0) (n + 1)
  rw [← kmapOrder] at hle hge hlt
  generalize kmapOrder (n + 1) = r at hle hge hlt
  rw [Nat.zero_add] at hle hge
  cases r with
  | zero =>
    rcases hge with hge | hge
    · rw [Nat.pow_zero] at hge; omega
    · cases hge
  | succ r =>
    have hlow : 2 ^ r ≤ n := Nat.lt_succ_iff.mp (hlt r (Nat.zero_le r) (Nat.lt_succ_self r))
    have hlog : r ≤ Nat.log 2 n := Nat.le_log_of_pow_le (by decide) hlow
    have hbucket : bucket n = r := by
      rw [bucket]
      rcases hge with hge | hge
      · have hup := Nat.log_lt_of_lt_pow (Nat.ne_of_gt hn) (Nat.lt_of_succ_le hge)
        rw [kmapOrders] at hle
        omega
      · rw [kmapOrders] at hge
        omega
    rw [kmapHeadBelow, hbucket, if_pos (by omega)]

/-- The search for `n` pages leaves out no list with a range that is long enough: such a range is on
    a list from `kmap_order` on, or on the list before, which is tried when the order is not exact. -/
theorem bucket_searched {p : ℕ} (hp : 0 < p) (hlt : p < 2 ^ 16) (hn : p ≤ n) :
    kmapOrder p ≤ bucket n ∨ bucket n + 1 = kmapOrder p ∧ p < 2 ^ kmapOrder p := by
  obtain ⟨-, hle, hge, hlow⟩ := kmapOrderFrom_spec (n := kmapOrders) (o := 0) p
  rw [← kmapOrder] at hle hge hlow
  generalize kmapOrder p = k at hle hge hlow
  rw [Nat.zero_add] at hle hge
  have hn0 : n ≠ 0 := by omega
  cases k with
  | zero => exact Or.inl (Nat.zero_le _)
  | succ k =>
    have hlog : k ≤ Nat.log 2 n :=
      Nat.le_log_of_pow_le (by decide) (Nat.le_trans (hlow k (Nat.zero_le k) k.lt_succ_self).le hn)
    rw [kmapOrders] at hle hge
    by_cases hb : k + 1 ≤ bucket n
    · exact Or.inl hb
    · have hbucket : bucket n = k := by rw [bucket] at hb ⊢; omega
      refine Or.inr ⟨by omega, ?_⟩
      rcases hge with hge | hge
      · refine Nat.lt_of_le_of_ne hge fun heq => hb ?_
        have hlog' : k + 1 ≤ Nat.log 2 n := Nat.le_log_of_pow_le (by decide) (heq ▸ hn)
        have hk : k ≠ 15 := by rintro rfl; omega
        rw [bucket]
        omega
      · rw [hge]; exact hlt

/-- From `2 ^ 16` pages on there is no list to start from. -/
theorem kmapOrder_large {p : ℕ} (hp : 2 ^ 16 ≤ p) : kmapOrder p = kmapOrders := by
  obtain ⟨-, hle, hge, -⟩ := kmapOrderFrom_spec (n := kmapOrders) (o := 0) p
  rw [← kmapOrder] at hle hge
  rw [Nat.zero_add] at hle hge
  rcases hge with hge | hge
  · by_contra hne
    have hpow : 2 ^ kmapOrder p ≤ 2 ^ 15 :=
      Nat.pow_le_pow_right (by decide) (by rw [kmapOrders] at hle hne; omega)
    omega
  · exact hge

/-! ### Reading the layout -/

theorem Layout.mem (h : Layout s l R) (hx : x ∈ l) : 0 < x.len ∧ x.stop ≤ kmapPages :=
  ⟨(h.tiles.mem x hx).2.2, (h.tiles.mem x hx).2.1⟩

theorem Layout.start_lt (h : Layout s l R) (hx : x ∈ l) : x.start < kmapPages := by
  obtain ⟨h₁, h₂⟩ := h.mem hx
  rw [Tile.stop] at h₂
  omega

theorem Layout.getPages (h : Layout s l R) (hx : x ∈ l) (hk : x.kind ≠ .held) :
    s.getPages x.start = .ok x.len := by
  rw [KmapState.getPages, if_pos (h.start_lt hx), (h.tags x hx hk).1]

/-- A live range is told from a free one by its list head. -/
theorem Layout.listEmpty (h : Layout s l R) (hx : x ∈ l) (hk : x.kind ≠ .held) :
    listEmpty s.lists (.range x.start) = .ok (decide (x.kind = .live)) := by
  have h0 : (Ref.range x.start) ≠ 0 := by intro e; cases e
  rw [LinkedList.listEmpty, load_eq h0, ok_bind]
  cases hkind : x.kind with
  | live => rw [h.live x hx hkind]; simp
  | free =>
    have hmem := (h.free _ (bucket_lt x.len) _).mpr ⟨x, hx, hkind, rfl, rfl⟩
    have hne := (h.rings _ (bucket_lt x.len)).ring.next_ne_self hmem
    simp [hne]
  | held => exact absurd hkind hk

/-- The lists have no range in common. -/
theorem Layout.rings_apart (h : Layout s l R) {o o' : ℕ} (ho : o < kmapOrders) (ho' : o' < kmapOrders)
    (hne : o' ≠ o) {a : Ref} (ha : a ∈ .head o' :: R o') : a ∉ .head o :: R o := by
  intro hmem
  rcases List.mem_cons.mp ha with rfl | ha
  · rcases List.mem_cons.mp hmem with e | hmem
    · exact hne (Ref.head.inj e)
    · obtain ⟨x, -, -, -, e⟩ := (h.free o ho _).mp hmem
      cases e
  · obtain ⟨x, hx, -, hb, rfl⟩ := (h.free o' ho' _).mp ha
    rcases List.mem_cons.mp hmem with e | hmem
    · cases e
    · obtain ⟨y, hy, -, hb', e⟩ := (h.free o ho _).mp hmem
      obtain rfl := h.tiles.eq_of_start hx hy (Ref.range.inj e)
      exact hne (hb.symm.trans hb')

/-- A list entry that is not a free range is on no list. -/
theorem Layout.not_on_ring (h : Layout s l R) (hx : x ∈ l) (hk : x.kind ≠ .free)
    (ho : o < kmapOrders) : Ref.range x.start ∉ .head o :: R o := by
  intro hmem
  rcases List.mem_cons.mp hmem with e | hmem
  · cases e
  · obtain ⟨y, hy, hfree, -, e⟩ := (h.free o ho _).mp hmem
    obtain rfl := h.tiles.eq_of_start hx hy (Ref.range.inj e)
    exact hk hfree

/-! ### Changing the layout -/

/-- The window is laid out as `l`. -/
def Laid (s : KmapState) (l : List Range) : Prop := ∃ R, Layout s l R

/-- `x` with another kind. -/
def as (k : RangeKind) (x : Range) : Range := { x with kind := k }

@[simp] theorem as_start (k : RangeKind) (x : Range) : (as k x).start = x.start := rfl
@[simp] theorem as_len (k : RangeKind) (x : Range) : (as k x).len = x.len := rfl
@[simp] theorem as_stop (k : RangeKind) (x : Range) : (as k x).stop = x.stop := rfl
@[simp] theorem as_kind (k : RangeKind) (x : Range) : (as k x).kind = k := rfl

theorem tiles_as {a b : ℕ} (k : RangeKind) :
    Tiles a (A ++ as k x :: B) b ↔ Tiles a (A ++ x :: B) b := by
  rw [tiles_middle, tiles_middle]; rfl

/-- Members of a list in the middle of which a range stands. -/
theorem mem_middle {k : RangeKind} {z : Range} :
    z ∈ A ++ as k x :: B ↔ z = as k x ∨ z ∈ A ++ B := by
  simp only [List.mem_append, List.mem_cons]; tauto

theorem mem_around {z : Range} (hz : z ∈ A ++ B) : z ∈ A ++ x :: B := by
  simp only [List.mem_append, List.mem_cons] at hz ⊢; tauto

/-- A live range may be taken into hand. -/
theorem Laid.hold (h : Laid s (A ++ x :: B)) (hk : x.kind ≠ .free) :
    Laid s (A ++ as .held x :: B) := by
  obtain ⟨R, h⟩ := h
  refine ⟨R, (tiles_as _).mpr h.tiles, fun z hz hzk => ?_, h.rings, fun o ho a => ?_,
    fun z hz hzk => ?_⟩
  · rcases mem_middle.mp hz with rfl | hz
    · exact absurd rfl hzk
    · exact h.tags z (mem_around hz) hzk
  · rw [h.free o ho a]
    constructor
    · rintro ⟨z, hz, hfree, hz'⟩
      have hne : z ≠ x := fun e => hk (e ▸ hfree)
      refine ⟨z, mem_middle.mpr (Or.inr ?_), hfree, hz'⟩
      simp only [List.mem_append, List.mem_cons] at hz ⊢; tauto
    · rintro ⟨z, hz, hfree, hz'⟩
      rcases mem_middle.mp hz with rfl | hz
      · cases hfree
      · exact ⟨z, mem_around hz, hfree, hz'⟩
  · rcases mem_middle.mp hz with rfl | hz
    · cases hzk
    · exact h.live z (mem_around hz) hzk

/-- Held ranges next to each other are one held range. -/
theorem Laid.regroup {X Y : List Range} (h : Laid s (A ++ (X ++ B)))
    (hXY : ∀ p q, Tiles p X q → Tiles p Y q) (hX : ∀ z ∈ X, z.kind = .held)
    (hY : ∀ z ∈ Y, z.kind = .held) : Laid s (A ++ (Y ++ B)) := by
  obtain ⟨R, h⟩ := h
  have hsub : ∀ z ∈ A ++ (Y ++ B), z.kind ≠ .held → z ∈ A ++ (X ++ B) := fun z hz hk => by
    have := fun hzY => hk (hY z hzY)
    simp only [List.mem_append] at hz ⊢; tauto
  have hsub' : ∀ z ∈ A ++ (X ++ B), z.kind ≠ .held → z ∈ A ++ (Y ++ B) := fun z hz hk => by
    have := fun hzX => hk (hX z hzX)
    simp only [List.mem_append] at hz ⊢; tauto
  have hfree : ∀ z : Range, z.kind = .free → z.kind ≠ .held := fun z e => by rw [e]; decide
  have hlive : ∀ z : Range, z.kind = .live → z.kind ≠ .held := fun z e => by rw [e]; decide
  refine ⟨R, h.tiles.replace hXY, fun z hz hk => h.tags z (hsub z hz hk) hk, h.rings,
    fun o ho a => ?_, fun z hz hk => h.live z (hsub z hz (hlive z hk)) hk⟩
  rw [h.free o ho a]
  constructor
  · rintro ⟨z, hz, hk, hz'⟩
    exact ⟨z, hsub' z hz (hfree z hk), hk, hz'⟩
  · rintro ⟨z, hz, hk, hz'⟩
    exact ⟨z, hsub z hz (hfree z hk), hk, hz'⟩

end FilesKernel.Kmap
