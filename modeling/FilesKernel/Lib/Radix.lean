import Mathlib.Data.Set.BooleanAlgebra
import Mathlib.Data.Set.Disjoint
import Mathlib.Data.Set.Insert
import Mathlib.Logic.Function.Basic
import Mathlib.Order.CompletePartialOrder

/-! Radix trees of tables in memory.

    A table has `width` entries, and an entry of a table of level `n` may point to a table of the
    level below. A key is looked up by one index for each level. The tables make up a tree when no
    table is reached on two ways; then a change under one entry leaves the other entries alone. -/

namespace Radix

structure Shape (κ ε : Type) where
  width : ℕ
  /-- the table that an entry of a table of this level points to -/
  child : ℕ → ε → Option κ

section
variable {κ ε : Type} (S : Shape κ ε) (m : κ → ℕ → ε)

/-- The tables that are reached from `p`. -/
def tables : ℕ → κ → Set κ
  | 0, _ => ∅
  | n + 1, p => insert p
      {r | ∃ i < S.width, ∃ c, S.child (n + 1) (m p i) = some c ∧ r ∈ tables n c}

/-- No table is reached on two ways. -/
def IsTree : ℕ → κ → Prop
  | 0, _ => True
  | n + 1, p =>
    (∀ i < S.width, ∀ c, S.child (n + 1) (m p i) = some c → IsTree n c ∧ p ∉ tables S m n c) ∧
    ∀ i < S.width, ∀ j < S.width, ∀ c d, i ≠ j → S.child (n + 1) (m p i) = some c →
      S.child (n + 1) (m p j) = some d → Disjoint (tables S m n c) (tables S m n d)

/-- The entry where the way through the tables ends, and the level of its table. -/
def lookup (idx : ℕ → ℕ) : ℕ → κ → Option (ℕ × ε)
  | 0, _ => none
  | n + 1, p =>
    match S.child (n + 1) (m p (idx (n + 1))) with
    | some c => lookup idx n c
    | none => some (n + 1, m p (idx (n + 1)))

/-- All entries that point to tables satisfy `P`. -/
def Every (P : ε → Prop) : ℕ → κ → Prop
  | 0, _ => True
  | n + 1, p => ∀ i < S.width, ∀ c, S.child (n + 1) (m p i) = some c → P (m p i) ∧ Every P n c

/-- The way through the tables leads to the table `t` of the last level. -/
def Path (idx : ℕ → ℕ) : ℕ → κ → κ → Prop
  | 0, _, _ => False
  | 1, p, t => p = t
  | n + 2, p, t => ∃ c, S.child (n + 2) (m p (idx (n + 2))) = some c ∧ Path idx (n + 1) c t

end

variable {κ ε : Type} {S : Shape κ ε} {m m' m'' : κ → ℕ → ε} {n i : ℕ} {p q c t : κ} {e : ε}
  {F F' : Set κ} {idx : ℕ → ℕ} {P : ε → Prop}

theorem mem_tables (n : ℕ) (p : κ) : p ∈ tables S m (n + 1) p := Set.mem_insert p _

theorem tables_child (hi : i < S.width) (hc : S.child (n + 1) (m p i) = some c) :
    tables S m n c ⊆ tables S m (n + 1) p := fun _ hr => Or.inr ⟨i, hi, c, hc, hr⟩

theorem tables_empty (h : ∀ i, S.child (n + 1) (m p i) = none) : tables S m (n + 1) p = {p} := by
  ext r
  refine ⟨fun hr => ?_, fun hr => ?_⟩
  · rcases hr with rfl | ⟨j, _, c, hc, _⟩
    · rfl
    · rw [h j] at hc
      cases hc
  · rw [Set.mem_singleton_iff.mp hr]
    exact mem_tables n p

theorem IsTree.empty (h : ∀ i < S.width, S.child (n + 1) (m p i) = none) :
    IsTree S m (n + 1) p := by
  refine ⟨fun i hi c hc => ?_, fun i hi j _ c d _ hc _ => ?_⟩ <;>
  · rw [h i hi] at hc
    cases hc

/-- The tables depend on the memory of the tables only. -/
theorem tables_congr : ∀ {n : ℕ} {p : κ}, (∀ r ∈ tables S m n p, m' r = m r) →
    tables S m' n p = tables S m n p
  | 0, _, _ => rfl
  | n + 1, p, h => by
      have hp := h p (mem_tables n p)
      rw [tables, tables, hp]
      congr 1
      ext r
      refine exists_congr fun i => and_congr_right fun hi => exists_congr fun c =>
        and_congr_right fun hc => ?_
      rw [tables_congr fun r hr => h r (tables_child hi hc hr)]

theorem IsTree.congr : ∀ {n : ℕ} {p : κ}, IsTree S m n p → (∀ r ∈ tables S m n p, m' r = m r) →
    IsTree S m' n p
  | 0, _, _, _ => trivial
  | n + 1, p, ⟨hsub, hapart⟩, h => by
      have hp := h p (mem_tables n p)
      have hsame : ∀ i < S.width, ∀ c, S.child (n + 1) (m p i) = some c →
          ∀ r ∈ tables S m n c, m' r = m r := fun i hi c hc r hr => h r (tables_child hi hc hr)
      refine ⟨fun i hi c hc => ?_, fun i hi j hj c d hij hc hd => ?_⟩
      · rw [hp] at hc
        rw [tables_congr (hsame i hi c hc)]
        exact ⟨(hsub i hi c hc).1.congr (hsame i hi c hc), (hsub i hi c hc).2⟩
      · rw [hp] at hc hd
        rw [tables_congr (hsame i hi c hc), tables_congr (hsame j hj d hd)]
        exact hapart i hi j hj c d hij hc hd

theorem Every.empty (h : ∀ i, S.child (n + 1) (m p i) = none) : Every S m P (n + 1) p :=
  fun i _ c hc => by
    rw [h i] at hc
    cases hc

theorem Every.congr : ∀ {n : ℕ} {p : κ}, Every S m P n p → (∀ r ∈ tables S m n p, m' r = m r) →
    Every S m' P n p
  | 0, _, _, _ => trivial
  | n + 1, p, hall, h => fun i hi c hc => by
      rw [h p (mem_tables n p)] at hc ⊢
      exact ⟨(hall i hi c hc).1, (hall i hi c hc).2.congr fun r hr => h r (tables_child hi hc hr)⟩

theorem lookup_congr (hidx : ∀ k, idx k < S.width) : ∀ {n : ℕ} {p : κ},
    (∀ r ∈ tables S m n p, m' r = m r) → lookup S m' idx n p = lookup S m idx n p
  | 0, _, _ => rfl
  | n + 1, p, h => by
      rw [lookup, lookup, h p (mem_tables n p)]
      split
      · rename_i c hc
        exact lookup_congr hidx fun r hr => h r (tables_child (hidx _) hc hr)
      · rfl

theorem Path.congr (hidx : ∀ k, idx k < S.width) : ∀ {n : ℕ} {p : κ}, Path S m idx n p t →
    (∀ r ∈ tables S m n p, m' r = m r) → Path S m' idx n p t
  | 1, _, hp, _ => hp
  | n + 2, p, ⟨c, hc, hp⟩, h => by
      refine ⟨c, ?_, hp.congr hidx fun r hr => h r (tables_child (hidx _) hc hr)⟩
      rw [h p (mem_tables _ p), hc]

theorem lookup_child (hc : S.child (n + 1) (m p (idx (n + 1))) = some c) :
    lookup S m idx (n + 1) p = lookup S m idx n c := by rw [lookup, hc]

/-- The way through the tables ends where the path says. -/
theorem Path.lookup : ∀ {n : ℕ} {p : κ}, Path S m idx n p t → S.child 1 (m t (idx 1)) = none →
    lookup S m idx n p = some (1, m t (idx 1))
  | 1, _, rfl, h => by rw [Radix.lookup, h]
  | n + 2, p, ⟨c, hc, hp⟩, h => by
      rw [Radix.lookup, hc]
      exact hp.lookup h

theorem Path.mem (hidx : ∀ k, idx k < S.width) : ∀ {n : ℕ} {p : κ}, Path S m idx n p t →
    t ∈ tables S m n p
  | 1, _, rfl => mem_tables 0 _
  | _ + 2, _, ⟨_, hc, hp⟩ => tables_child (hidx _) hc (hp.mem hidx)

/-! ### Growing -/

/-- The tree at `p` has got tables out of `F`, and other memory is as before. -/
structure Extends (S : Shape κ ε) (m m' : κ → ℕ → ε) (n : ℕ) (p : κ) (F : Set κ) : Prop where
  tree : IsTree S m' n p
  frame : ∀ r, r ∉ tables S m n p → r ∉ F → m' r = m r
  tables : tables S m' n p ⊆ tables S m n p ∪ F
  paths : ∀ idx, (∀ k, idx k < S.width) → ∀ t, Path S m idx n p t → Path S m' idx n p t

theorem Extends.refl (h : IsTree S m n p) : Extends S m m n p F :=
  ⟨h, fun _ _ _ => rfl, Set.subset_union_left, fun _ _ _ hp => hp⟩

theorem Extends.mono (h : Extends S m m' n p F) (hF : F ⊆ F') : Extends S m m' n p F' :=
  ⟨h.tree, fun r hr hr' => h.frame r hr fun hm => hr' (hF hm),
    h.tables.trans (Set.union_subset_union_right _ hF), h.paths⟩

theorem Extends.trans (h : Extends S m m' n p F) (h' : Extends S m' m'' n p F) :
    Extends S m m'' n p F where
  tree := h'.tree
  frame r hr hF := by
    have hr' : r ∉ Radix.tables S m' n p := fun hm => (h.tables hm).elim hr hF
    rw [h'.frame r hr' hF, h.frame r hr hF]
  tables := h'.tables.trans (Set.union_subset h.tables Set.subset_union_right)
  paths idx hidx t hp := h'.paths idx hidx t (h.paths idx hidx t hp)

/-- The tables below the other entries are elsewhere. -/
theorem IsTree.others (h : IsTree S m (n + 1) p) {j : ℕ} {d : κ} (hi : i < S.width)
    (hj : j < S.width) (hij : j ≠ i) (hc : S.child (n + 1) (m p i) = some c)
    (hd : S.child (n + 1) (m p j) = some d) : ∀ r ∈ tables S m n d, r ∉ tables S m n c :=
  fun _ hr hr' => Set.disjoint_left.mp (h.2 i hi j hj c d (Ne.symm hij) hc hd) hr' hr

variable [DecidableEq κ]

/-- The entry `i` of the table `p` becomes `e`. -/
def store (m : κ → ℕ → ε) (p : κ) (i : ℕ) (e : ε) : κ → ℕ → ε :=
  Function.update m p (Function.update (m p) i e)

theorem store_self : store m p i e p i = e := by simp [store]

theorem store_entry {j : ℕ} (h : j ≠ i) : store m p i e p j = m p j := by simp [store, h]

theorem store_table {r : κ} (h : r ≠ p) : store m p i e r = m r := Function.update_of_ne h _ _

/-- An entry that points to no table is replaced by another such one. -/
theorem Extends.store (h : IsTree S m (n + 1) p) (hold : S.child (n + 1) (m p i) = none)
    (hnew : S.child (n + 1) e = none) : Extends S m (store m p i e) (n + 1) p F := by
  have hchild : ∀ j c, S.child (n + 1) (Radix.store m p i e p j) = some c →
      S.child (n + 1) (m p j) = some c := fun j c hc => by
    by_cases hj : j = i
    · rw [hj, store_self, hnew] at hc
      cases hc
    · rwa [store_entry hj] at hc
  have hsame : ∀ j < S.width, ∀ c, S.child (n + 1) (m p j) = some c →
      ∀ r ∈ Radix.tables S m n c, Radix.store m p i e r = m r := fun j hj c hc r hr =>
    store_table fun e' => (h.1 j hj c hc).2 (e' ▸ hr)
  refine ⟨⟨fun j hj c hc => ?_, fun j hj k hk c d hjk hc hd => ?_⟩, fun r hr _ => ?_, fun r hr => ?_,
    fun idx hidx t hp => ?_⟩
  · have hc' := hchild j c hc
    rw [tables_congr (hsame j hj c hc')]
    exact ⟨(h.1 j hj c hc').1.congr (hsame j hj c hc'), (h.1 j hj c hc').2⟩
  · have hc' := hchild j c hc
    have hd' := hchild k d hd
    rw [tables_congr (hsame j hj c hc'), tables_congr (hsame k hk d hd')]
    exact h.2 j hj k hk c d hjk hc' hd'
  · exact store_table fun e' => hr (Or.inl e')
  · rcases hr with rfl | ⟨j, hj, c, hc, hr⟩
    · exact Or.inl (mem_tables n r)
    · have hc' := hchild j c hc
      rw [tables_congr (hsame j hj c hc')] at hr
      exact Or.inl (tables_child hj hc' hr)
  · cases n with
    | zero => exact hp
    | succ n =>
      obtain ⟨c, hc, hp⟩ := hp
      refine ⟨c, ?_, hp.congr hidx (hsame _ (hidx _) c hc)⟩
      rw [store_entry, hc]
      intro hj
      rw [hj, hold] at hc
      cases hc

theorem Every.store (hall : Every S m P (n + 1) p) (h : IsTree S m (n + 1) p)
    (hnew : S.child (n + 1) e = none) : Every S (Radix.store m p i e) P (n + 1) p := by
  intro j hj c hc
  by_cases hji : j = i
  · rw [hji, store_self, hnew] at hc
    cases hc
  · rw [store_entry hji] at hc ⊢
    refine ⟨(hall j hj c hc).1, (hall j hj c hc).2.congr fun r hr => store_table fun e' => ?_⟩
    exact (h.1 j hj c hc).2 (e' ▸ hr)

theorem lookup_store (h : IsTree S m (n + 1) p) (hnew : S.child (n + 1) e = none)
    (hidx : ∀ k, idx k < S.width) : lookup S (store m p i e) idx (n + 1) p =
      if idx (n + 1) = i then some (n + 1, e) else lookup S m idx (n + 1) p := by
  split
  · rename_i hi
    rw [lookup, hi, store_self, hnew]
  · rename_i hi
    rw [lookup, lookup, store_entry hi]
    split
    · rename_i c hc
      exact lookup_congr hidx fun r hr => store_table fun e' => (h.1 _ (hidx _) c hc).2 (e' ▸ hr)
    · rfl

/-- A new, empty table `q` is attached to an entry that points to no table. -/
theorem Extends.attach {empty : ℕ → ε} (h : IsTree S m (n + 2) p)
    (hold : S.child (n + 2) (m p i) = none) (hnew : S.child (n + 2) e = some q)
    (hempty : ∀ j, S.child (n + 1) (empty j) = none) (hq : q ∉ Radix.tables S m (n + 2) p)
    (hqF : q ∈ F) :
    Extends S m (Radix.store (Function.update m q empty) p i e) (n + 2) p F := by
  have hqp : q ≠ p := fun e' => hq (Or.inl e')
  have hatq : Radix.store (Function.update m q empty) p i e q = empty := by
    rw [store_table hqp, Function.update_self]
  have hatq' : ∀ j, S.child (n + 1) (Radix.store (Function.update m q empty) p i e q j) = none :=
    fun j => by rw [hatq, hempty j]
  have htables := tables_empty hatq'
  have hatp : ∀ j, j ≠ i → Radix.store (Function.update m q empty) p i e p j = m p j :=
    fun j hj => by rw [store_entry hj, Function.update_of_ne hqp.symm]
  have hsame : ∀ j < S.width, ∀ c, S.child (n + 2) (m p j) = some c →
      ∀ r ∈ Radix.tables S m (n + 1) c, Radix.store (Function.update m q empty) p i e r = m r :=
    fun j hj c hc r hr => by
      have hrp : r ≠ p := fun e' => (h.1 j hj c hc).2 (e' ▸ hr)
      have hrq : r ≠ q := fun e' => hq (e' ▸ tables_child hj hc hr)
      rw [store_table hrp, Function.update_of_ne hrq]
  have hchild : ∀ j c, S.child (n + 2) (Radix.store (Function.update m q empty) p i e p j) = some c →
      j = i ∧ c = q ∨ j ≠ i ∧ S.child (n + 2) (m p j) = some c := fun j c hc => by
    by_cases hj : j = i
    · rw [hj, store_self, hnew] at hc
      exact Or.inl ⟨hj, (Option.some.inj hc).symm⟩
    · rw [hatp j hj] at hc
      exact Or.inr ⟨hj, hc⟩
  have hqout : ∀ j < S.width, ∀ c, S.child (n + 2) (m p j) = some c →
      q ∉ Radix.tables S m (n + 1) c := fun j hj c hc hm => hq (tables_child hj hc hm)
  refine ⟨⟨fun j hj c hc => ?_, fun j hj k hk c d hjk hc hd => ?_⟩, fun r hr hF => ?_, fun r hr => ?_,
    fun idx hidx t hp => ?_⟩
  · rcases hchild j c hc with ⟨-, rfl⟩ | ⟨-, hc⟩
    · rw [htables]
      exact ⟨IsTree.empty fun i _ => hatq' i, hqp.symm⟩
    · rw [tables_congr (hsame j hj c hc)]
      exact ⟨(h.1 j hj c hc).1.congr (hsame j hj c hc), (h.1 j hj c hc).2⟩
  · rcases hchild j c hc with ⟨hji, hcq⟩ | ⟨hji, hc'⟩
    · rcases hchild k d hd with ⟨hki, -⟩ | ⟨hki, hd'⟩
      · exact absurd (hji.trans hki.symm) hjk
      · rw [hcq, htables, tables_congr (hsame k hk d hd')]
        exact Set.disjoint_singleton_left.mpr (hqout k hk d hd')
    · rcases hchild k d hd with ⟨hki, hdq⟩ | ⟨hki, hd'⟩
      · rw [hdq, htables, tables_congr (hsame j hj c hc')]
        exact Set.disjoint_singleton_right.mpr (hqout j hj c hc')
      · rw [tables_congr (hsame j hj c hc'), tables_congr (hsame k hk d hd')]
        exact h.2 j hj k hk c d hjk hc' hd'
  · have hrq : r ≠ q := fun e' => hF (e' ▸ hqF)
    rw [store_table fun e' => hr (Or.inl e'), Function.update_of_ne hrq]
  · rcases hr with rfl | ⟨j, hj, c, hc, hr⟩
    · exact Or.inl (mem_tables _ r)
    · rcases hchild j c hc with ⟨-, rfl⟩ | ⟨-, hc⟩
      · rw [htables] at hr
        exact Or.inr (Set.mem_singleton_iff.mp hr ▸ hqF)
      · rw [tables_congr (hsame j hj c hc)] at hr
        exact Or.inl (tables_child hj hc hr)
  · obtain ⟨c, hc, hp⟩ := hp
    refine ⟨c, ?_, hp.congr hidx (hsame _ (hidx _) c hc)⟩
    rw [hatp, hc]
    intro hj
    rw [hj, hold] at hc
    cases hc

theorem Every.attach {empty : ℕ → ε} (hall : Every S m P (n + 2) p) (h : IsTree S m (n + 2) p)
    (hnew : S.child (n + 2) e = some q) (hP : P e)
    (hempty : ∀ j, S.child (n + 1) (empty j) = none) (hq : q ∉ Radix.tables S m (n + 2) p) :
    Every S (Radix.store (Function.update m q empty) p i e) P (n + 2) p := by
  have hqp : q ≠ p := fun e' => hq (Or.inl e')
  intro j hj c hc
  by_cases hji : j = i
  · rw [hji, store_self, hnew] at hc
    obtain rfl := Option.some.inj hc
    rw [hji, store_self]
    refine ⟨hP, Every.empty fun k => ?_⟩
    rw [store_table hqp, Function.update_self, hempty]
  · rw [store_entry hji, Function.update_of_ne hqp.symm] at hc ⊢
    refine ⟨(hall j hj c hc).1, (hall j hj c hc).2.congr fun r hr => ?_⟩
    have hrp : r ≠ p := fun e' => (h.1 j hj c hc).2 (e' ▸ hr)
    have hrq : r ≠ q := fun e' => hq (e' ▸ tables_child hj hc hr)
    rw [store_table hrp, Function.update_of_ne hrq]

theorem lookup_attach {empty : ℕ → ε} (h : IsTree S m (n + 2) p)
    (hnew : S.child (n + 2) e = some q) (hempty : ∀ j, S.child (n + 1) (empty j) = none)
    (hq : q ∉ tables S m (n + 2) p) (hidx : ∀ k, idx k < S.width) :
    lookup S (store (Function.update m q empty) p i e) idx (n + 2) p =
      if idx (n + 2) = i then some (n + 1, empty (idx (n + 1))) else lookup S m idx (n + 2) p := by
  have hqp : q ≠ p := fun e' => hq (Or.inl e')
  split
  · rename_i hi
    rw [lookup, hi, store_self, hnew]
    simp only
    rw [lookup, store_table hqp, Function.update_self, hempty]
  · rename_i hi
    rw [lookup, lookup, store_entry hi, Function.update_of_ne hqp.symm]
    cases hc : S.child (n + 2) (m p (idx (n + 2))) with
    | none => rfl
    | some c =>
      refine lookup_congr hidx fun r hr => ?_
      have hrp : r ≠ p := fun e' => (h.1 _ (hidx _) c hc).2 (e' ▸ hr)
      have hrq : r ≠ q := fun e' => hq (e' ▸ tables_child (hidx _) hc hr)
      rw [store_table hrp, Function.update_of_ne hrq]

omit [DecidableEq κ] in
/-- The tree below the entry `i` grows. -/
theorem Extends.lift (h : IsTree S m (n + 1) p) (hi : i < S.width)
    (hc : S.child (n + 1) (m p i) = some c) (hx : Extends S m m' n c F)
    (hF : ∀ r ∈ F, r ∉ Radix.tables S m (n + 1) p) :
    Extends S m m' (n + 1) p F ∧ ∀ idx, (∀ k, idx k < S.width) → lookup S m' idx (n + 1) p =
      if idx (n + 1) = i then lookup S m' idx n c else lookup S m idx (n + 1) p := by
  have hp : m' p = m p := hx.frame p (h.1 i hi c hc).2 fun hm => hF p hm (mem_tables n p)
  have hsame : ∀ j < S.width, j ≠ i → ∀ d, S.child (n + 1) (m p j) = some d →
      ∀ r ∈ Radix.tables S m n d, m' r = m r := fun j hj hij d hd r hr =>
    hx.frame r (h.others hi hj hij hc hd r hr) fun hm => hF r hm (tables_child hj hd hr)
  have hpF : p ∉ F := fun hm => hF p hm (mem_tables n p)
  have hgrown : ∀ j < S.width, j ≠ i → ∀ d, S.child (n + 1) (m p j) = some d →
      Disjoint (Radix.tables S m' n c) (Radix.tables S m n d) := fun j hj hij d hd => by
    rw [Set.disjoint_left]
    intro r hr hr'
    rcases hx.tables hr with hr | hr
    · exact h.others hi hj hij hc hd r hr' hr
    · exact hF r hr (tables_child hj hd hr')
  refine ⟨⟨⟨fun j hj d hd => ?_, fun j hj k hk d d' hjk hd hd' => ?_⟩, fun r hr hF' => ?_,
    fun r hr => ?_, fun idx hidx t ht => ?_⟩, fun idx hidx => ?_⟩
  · rw [hp] at hd
    by_cases hji : j = i
    · rw [hji, hc] at hd
      obtain rfl := Option.some.inj hd
      exact ⟨hx.tree, fun hm => (hx.tables hm).elim (h.1 i hi c hc).2 hpF⟩
    · rw [tables_congr (hsame j hj hji d hd)]
      exact ⟨(h.1 j hj d hd).1.congr (hsame j hj hji d hd), (h.1 j hj d hd).2⟩
  · rw [hp] at hd hd'
    by_cases hji : j = i
    · have hki : k ≠ i := fun e => hjk (hji.trans e.symm)
      rw [hji, hc] at hd
      obtain rfl := Option.some.inj hd
      rw [tables_congr (hsame k hk hki d' hd')]
      exact hgrown k hk hki d' hd'
    · by_cases hki : k = i
      · rw [hki, hc] at hd'
        obtain rfl := Option.some.inj hd'
        rw [tables_congr (hsame j hj hji d hd)]
        exact (hgrown j hj hji d hd).symm
      · rw [tables_congr (hsame j hj hji d hd), tables_congr (hsame k hk hki d' hd')]
        exact h.2 j hj k hk d d' hjk hd hd'
  · exact hx.frame r (fun hm => hr (tables_child hi hc hm)) hF'
  · rcases hr with rfl | ⟨j, hj, d, hd, hr⟩
    · exact Or.inl (mem_tables n r)
    · rw [hp] at hd
      by_cases hji : j = i
      · rw [hji, hc] at hd
        obtain rfl := Option.some.inj hd
        exact (hx.tables hr).imp_left fun hm => tables_child hi hc hm
      · rw [tables_congr (hsame j hj hji d hd)] at hr
        exact Or.inl (tables_child hj hd hr)
  · cases n with
    | zero => exact ht
    | succ n =>
      obtain ⟨d, hd, ht⟩ := ht
      refine ⟨d, by rw [hp]; exact hd, ?_⟩
      by_cases hji : idx (n + 2) = i
      · rw [hji, hc] at hd
        obtain rfl := Option.some.inj hd
        exact hx.paths idx hidx t ht
      · exact ht.congr hidx (hsame _ (hidx _) hji d hd)
  · split
    · rename_i hji
      rw [lookup, hp, hji, hc]
    · rename_i hji
      rw [lookup, lookup, hp]
      split
      · rename_i d hd
        exact lookup_congr hidx (hsame _ (hidx _) hji d hd)
      · rfl

omit [DecidableEq κ] in
theorem Every.lift (hall : Every S m P (n + 1) p) (h : IsTree S m (n + 1) p) (hi : i < S.width)
    (hc : S.child (n + 1) (m p i) = some c) (hx : Extends S m m' n c F)
    (hF : ∀ r ∈ F, r ∉ Radix.tables S m (n + 1) p) (hbelow : Every S m' P n c) :
    Every S m' P (n + 1) p := by
  have hp : m' p = m p := hx.frame p (h.1 i hi c hc).2 fun hm => hF p hm (mem_tables n p)
  intro j hj d hd
  rw [hp] at hd ⊢
  refine ⟨(hall j hj d hd).1, ?_⟩
  by_cases hji : j = i
  · rw [hji, hc] at hd
    obtain rfl := Option.some.inj hd
    exact hbelow
  · exact (hall j hj d hd).2.congr fun r hr =>
      hx.frame r (h.others hi hj hji hc hd r hr) fun hm => hF r hm (tables_child hj hd hr)

/-! ### An entry of the last level -/

omit [DecidableEq κ] in
theorem Path.idx_congr {idx' : ℕ → ℕ} : ∀ {n : ℕ} {p : κ}, Path S m idx n p t →
    (∀ k, 1 ≤ k → k ≤ n → idx' k = idx k) → Path S m idx' n p t
  | 1, _, hp, _ => hp
  | n + 2, p, ⟨c, hc, hp⟩, h =>
      ⟨c, by rw [h (n + 2) (by omega) (Nat.le_refl _)]; exact hc,
        hp.idx_congr fun k hk hk' => h k hk (Nat.le_succ_of_le hk')⟩

/-- An entry at the end of a path is replaced, and the ways to other entries stay. -/
theorem Extends.storeLast (hone : ∀ e, S.child 1 e = none) (hidx : ∀ k, idx k < S.width) :
    ∀ {n : ℕ} {p : κ}, IsTree S m n p → Path S m idx n p t →
    Extends S m (Radix.store m t (idx 1) e) n p ∅ ∧
      ∀ idx', (∀ k, idx' k < S.width) → (∃ k, 1 ≤ k ∧ k ≤ n ∧ idx' k ≠ idx k) →
        lookup S (Radix.store m t (idx 1) e) idx' n p = lookup S m idx' n p
  | 1, _, htree, rfl => by
      refine ⟨Extends.store htree (hone _) (hone e), fun idx' hidx' ⟨k, hk, hk', hne⟩ => ?_⟩
      obtain rfl : k = 1 := Nat.le_antisymm hk' hk
      rw [lookup_store htree (hone e) hidx', if_neg hne]
  | n + 2, p, htree, ⟨c, hc, hp⟩ => by
      obtain ⟨hgrows, hsame⟩ :=
        Extends.storeLast hone hidx (htree.1 _ (hidx _) c hc).1 hp
      obtain ⟨hgrows', hlookup⟩ := hgrows.lift htree (hidx _) hc fun r hr => absurd hr (by simp)
      refine ⟨hgrows', fun idx' hidx' ⟨k, hk, hk', hne⟩ => ?_⟩
      rw [hlookup idx' hidx']
      split
      · rename_i htop
        have hbelow : k ≤ n + 1 := by
          rcases Nat.lt_or_eq_of_le hk' with hlt | rfl
          · exact Nat.lt_succ_iff.mp hlt
          · exact absurd htop hne
        have hc' : S.child (n + 2) (m p (idx' (n + 2))) = some c := by
          rw [show idx' (n + 2) = idx (n + 2) from htop, hc]
        rw [hsame idx' hidx' ⟨k, hk, hbelow, hne⟩, lookup_child hc']
      · rfl

end Radix
