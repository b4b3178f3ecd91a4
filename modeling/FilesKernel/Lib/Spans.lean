import Mathlib.Order.Interval.Set.LinearOrder
import Mathlib.Data.List.Pairwise
import Mathlib.Tactic.Common

/-! Half-open ranges over a linear order, and lists of ranges as sets.

    A valid list is sorted, and its ranges neither overlap nor touch; a range may be empty. -/

namespace Spans

structure Span (α : Type) where
  begin : α
  stop : α
  deriving DecidableEq, Repr

variable {α : Type} [LinearOrder α]

/-- The elements of a range. -/
def Span.set (r : Span α) : Set α := Set.Ico r.begin r.stop

structure Valid (L : List (Span α)) : Prop where
  le : ∀ r ∈ L, r.begin ≤ r.stop
  apart : L.Pairwise fun r s => r.stop < s.begin

/-- The elements of the ranges of a list. -/
def cover (L : List (Span α)) : Set α := {x | ∃ r ∈ L, x ∈ r.set}

/-- The ranges end at `M` at the latest. -/
def Below (M : α) (L : List (Span α)) : Prop := ∀ r ∈ L, r.stop ≤ M

variable {A B L : List (Span α)} {r n p : Span α} {x M : α}

theorem mem_set : x ∈ r.set ↔ r.begin ≤ x ∧ x < r.stop := Iff.rfl

@[simp] theorem cover_nil : cover ([] : List (Span α)) = ∅ := by
  ext x; simp [cover]

@[simp] theorem cover_cons : cover (r :: L) = r.set ∪ cover L := by
  ext x; simp [cover]

@[simp] theorem cover_append : cover (A ++ B) = cover A ∪ cover B := by
  ext x
  simp only [cover, List.mem_append, Set.mem_ofPred_eq, Set.mem_union]
  constructor
  · rintro ⟨r, hr | hr, hx⟩
    · exact Or.inl ⟨r, hr, hx⟩
    · exact Or.inr ⟨r, hr, hx⟩
  · rintro (⟨r, hr, hx⟩ | ⟨r, hr, hx⟩)
    · exact ⟨r, Or.inl hr, hx⟩
    · exact ⟨r, Or.inr hr, hx⟩

theorem valid_nil : Valid ([] : List (Span α)) := ⟨fun _ h => absurd h List.not_mem_nil, .nil⟩

theorem valid_append : Valid (A ++ B) ↔
    Valid A ∧ Valid B ∧ ∀ a ∈ A, ∀ b ∈ B, a.stop < b.begin := by
  constructor
  · rintro ⟨hle, hap⟩
    rw [List.pairwise_append] at hap
    exact ⟨⟨fun r hr => hle r (List.mem_append_left B hr), hap.1⟩,
      ⟨fun r hr => hle r (List.mem_append_right A hr), hap.2.1⟩, hap.2.2⟩
  · rintro ⟨hA, hB, hAB⟩
    refine ⟨fun r hr => ?_, List.pairwise_append.mpr ⟨hA.apart, hB.apart, hAB⟩⟩
    rcases List.mem_append.mp hr with hr | hr
    · exact hA.le r hr
    · exact hB.le r hr

theorem valid_cons : Valid (r :: L) ↔ r.begin ≤ r.stop ∧ Valid L ∧ ∀ b ∈ L, r.stop < b.begin := by
  constructor
  · rintro ⟨hle, hap⟩
    rw [List.pairwise_cons] at hap
    exact ⟨hle r List.mem_cons_self, ⟨fun s hs => hle s (List.mem_cons_of_mem r hs), hap.2⟩, hap.1⟩
  · rintro ⟨hr, hL, hrL⟩
    refine ⟨fun s hs => ?_, List.pairwise_cons.mpr ⟨hrL, hL.apart⟩⟩
    rcases List.mem_cons.mp hs with rfl | hs
    · exact hr
    · exact hL.le s hs

theorem Valid.sublist (h : Valid L) (hs : A.Sublist L) : Valid A :=
  ⟨fun r hr => h.le r (hs.subset hr), h.apart.sublist hs⟩

/-- One of two different ranges lies behind the other. -/
theorem Valid.eq_or_before (h : Valid L) (hr : r ∈ L) (hp : p ∈ L) :
    r = p ∨ r.stop < p.begin ∨ p.stop < r.begin := by
  obtain ⟨A, B, rfl⟩ := List.append_of_mem hr
  obtain ⟨-, hB, hA⟩ := valid_append.mp h
  rcases List.mem_append.mp hp with hp | hp
  · exact Or.inr (Or.inr (hA p hp r List.mem_cons_self))
  · rcases List.mem_cons.mp hp with rfl | hp
    · exact Or.inl rfl
    · exact Or.inr (Or.inl ((valid_cons.mp hB).2.2 p hp))

theorem below_append : Below M (A ++ B) ↔ Below M A ∧ Below M B := List.forall_mem_append

theorem below_cons : Below M (r :: L) ↔ r.stop ≤ M ∧ Below M L := List.forall_mem_cons

/-- The ends of a valid list are sorted, too. -/
theorem Valid.stops (h : Valid L) : L.Pairwise fun r s => r.stop < s.stop :=
  h.apart.imp_of_mem fun _ hs hrs => lt_of_lt_of_le hrs (h.le _ hs)

theorem Valid.begins (h : Valid L) : L.Pairwise fun r s => r.begin < s.begin :=
  h.apart.imp_of_mem fun hr _ hrs => lt_of_le_of_lt (h.le _ hr) hrs

theorem not_mem_cover : x ∉ cover L ↔ ∀ r ∈ L, ¬ (r.begin ≤ x ∧ x < r.stop) := by
  simp [cover, mem_set]

/-- As the ranges do not touch, an interval of their elements lies in one of them. -/
theorem Valid.within_one {b e : α} (h : Valid L) (hbe : b < e) (hsub : Set.Ico b e ⊆ cover L) :
    ∃ r ∈ L, r.begin ≤ b ∧ e ≤ r.stop := by
  obtain ⟨r, hr, hbr⟩ := hsub (Set.left_mem_Ico.mpr hbe)
  refine ⟨r, hr, hbr.1, not_lt.mp fun hre => ?_⟩
  -- the end of the range would be in another one
  obtain ⟨p, hp, hpr⟩ := hsub ⟨hbr.2.le, hre⟩
  obtain ⟨A, B, rfl⟩ := List.append_of_mem hr
  obtain ⟨-, hB, hA⟩ := valid_append.mp h
  rcases List.mem_append.mp hp with hp | hp
  · exact absurd (hpr.2.trans (hA p hp r List.mem_cons_self)) (not_lt.mpr (hbr.1.trans hbr.2.le))
  · rcases List.mem_cons.mp hp with rfl | hp
    · exact absurd hpr.2 (lt_irrefl _)
    · exact absurd hpr.1 (not_le.mpr ((valid_cons.mp hB).2.2 p hp))

/-- Enlarging the last range by one that begins in it or right behind it. -/
theorem Valid.extend_last (h : Valid (A ++ [p])) (hp : p.begin ≤ r.begin) (hr : r.begin ≤ p.stop)
    (hle : r.begin ≤ r.stop) : Valid (A ++ [⟨p.begin, max p.stop r.stop⟩]) ∧
      cover (A ++ [⟨p.begin, max p.stop r.stop⟩]) = cover (A ++ [p]) ∪ r.set := by
  obtain ⟨hA, -, hAp⟩ := valid_append.mp h
  refine ⟨valid_append.mpr ⟨hA, valid_cons.mpr ⟨?_, valid_nil, by simp⟩, ?_⟩, ?_⟩
  · exact (hp.trans hle).trans (le_max_right _ _)
  · intro a ha b hb
    rw [List.mem_singleton.mp hb]
    exact hAp a ha p List.mem_cons_self
  · have hset : (⟨p.begin, max p.stop r.stop⟩ : Span α).set = p.set ∪ r.set := by
      have hpr : p.begin ≤ r.stop := hp.trans hle
      rw [Span.set, Span.set, Span.set, Set.Ico_union_Ico' hr hpr, min_eq_left hp]
    simp only [cover_append, cover_cons, cover_nil, Set.union_empty, hset, Set.union_assoc]

/-- A new last range, behind all others. -/
theorem Valid.concat (h : Valid A) (hle : r.begin ≤ r.stop) (hA : ∀ a ∈ A, a.stop < r.begin) :
    Valid (A ++ [r]) :=
  valid_append.mpr ⟨h, valid_cons.mpr ⟨hle, valid_nil, by simp⟩, by simpa using hA⟩

end Spans
