import FilesKernel.Lib.Spans

/-! What `__balloc_add_range` does to a sorted list of ranges.

    The new range `r` comes between the ranges `A` that begin before it and the ranges `B` that do
    not. It takes in the last of `A` if that reaches it, and then the first of `B` if it reaches
    that; in the second step the end of the other range replaces its own. `f` gives the range of a
    node. -/

namespace FilesKernel.Balloc
open Spans

variable {ι α : Type} [LinearOrder α] (f : ι → Span α) {A B : List ι} {r : Span α}

def joinPrev (A : List ι) (r : Span α) : List ι × Span α :=
  match A.getLast? with
  | some p =>
    if r.begin ≤ (f p).stop then (A.dropLast, ⟨(f p).begin, max (f p).stop r.stop⟩) else (A, r)
  | none => (A, r)

def joinNext (r : Span α) (B : List ι) : Span α × List ι :=
  match B with
  | n :: B' => if (f n).begin ≤ r.stop then (⟨r.begin, (f n).stop⟩, B') else (r, n :: B')
  | [] => (r, [])

/-- The ranges with the new one between them. -/
def joined (A B : List ι) (r : Span α) : List (Span α) :=
  (joinPrev f A r).1.map f ++
    (joinNext f (joinPrev f A r).2 B).1 :: (joinNext f (joinPrev f A r).2 B).2.map f

/-- No range lies within `r` and ends before it. -/
def Unswallowed (L : List ι) (r : Span α) : Prop :=
  ∀ a ∈ L, ¬ (r.begin ≤ (f a).begin ∧ (f a).stop < r.stop)

variable {f}

theorem joinPrev_concat {p : ι} : joinPrev f (A ++ [p]) r =
    if r.begin ≤ (f p).stop then (A, ⟨(f p).begin, max (f p).stop r.stop⟩) else (A ++ [p], r) := by
  simp [joinPrev]

theorem joinPrev_congr {g : ι → Span α} (h : ∀ a ∈ A, g a = f a) :
    joinPrev g A r = joinPrev f A r := by
  rcases List.eq_nil_or_concat A with rfl | ⟨A, p, rfl⟩
  · rfl
  · rw [List.concat_eq_append] at h ⊢
    rw [joinPrev_concat, joinPrev_concat, h p (by simp)]

theorem joinNext_congr {g : ι → Span α} (h : ∀ b ∈ B, g b = f b) :
    joinNext g r B = joinNext f r B := by
  cases B with
  | nil => rfl
  | cons n B => rw [joinNext, joinNext, h n List.mem_cons_self]

theorem joinNext_of_gap (h : ∀ b ∈ B, r.stop < (f b).begin) : joinNext f r B = (r, B) := by
  cases B with
  | nil => rfl
  | cons n B => exact if_neg (not_le.mpr (h n List.mem_cons_self))

/-- The predecessor can be taken in without loss. -/
theorem joinPrev_spec (hA : Valid (A.map f)) (hlt : ∀ a ∈ A, (f a).begin < r.begin)
    (hr : r.begin ≤ r.stop) : Valid ((joinPrev f A r).1.map f ++ [(joinPrev f A r).2]) ∧
      cover ((joinPrev f A r).1.map f ++ [(joinPrev f A r).2]) = cover (A.map f) ∪ r.set ∧
      (joinPrev f A r).2.begin ≤ r.begin ∧ r.stop ≤ (joinPrev f A r).2.stop ∧
      ((joinPrev f A r).2.stop = r.stop ∨ ∃ a ∈ A, (joinPrev f A r).2.stop = (f a).stop) := by
  rcases List.eq_nil_or_concat A with rfl | ⟨A, p, rfl⟩
  · refine ⟨valid_cons.mpr ⟨hr, valid_nil, by simp⟩, by simp [joinPrev], le_refl _, le_refl _,
      Or.inl rfl⟩
  · rw [List.concat_eq_append] at hA hlt ⊢
    rw [joinPrev_concat]
    have hp := hlt p (by simp)
    rw [List.map_append] at hA
    split
    · rename_i hreach
      obtain ⟨hv, hc⟩ := hA.extend_last hp.le hreach hr
      refine ⟨hv, ?_, hp.le, le_max_right _ _, ?_⟩
      · rw [hc, List.map_append]; rfl
      · rcases le_total r.stop (f p).stop with h | h
        · exact Or.inr ⟨p, by simp, max_eq_left h⟩
        · exact Or.inl (max_eq_right h)
    · rename_i hreach
      rw [List.map_append]
      refine ⟨hA.concat hr fun a ha => ?_, by simp [Set.union_assoc], le_refl _, le_refl _, Or.inl rfl⟩
      rcases List.mem_append.mp ha with ha | ha
      · have hap := (valid_append.mp hA).2.2 a ha (f p) (by simp)
        exact hap.trans hp
      · rw [List.mem_singleton.mp ha]
        exact not_le.mp hreach

/-- Taking in the successor keeps the list valid; nothing is gained, and what is lost lies behind
    the end of the successor. -/
theorem joinNext_spec {C : List (Span α)} (hC : Valid (C ++ [r])) (hB : Valid (B.map f))
    (hle : ∀ b ∈ B, r.begin ≤ (f b).begin) :
    Valid (C ++ (joinNext f r B).1 :: (joinNext f r B).2.map f) ∧
      cover (C ++ (joinNext f r B).1 :: (joinNext f r B).2.map f) ⊆
        cover (C ++ [r]) ∪ cover (B.map f) ∧
      (cover (C ++ (joinNext f r B).1 :: (joinNext f r B).2.map f) =
        cover (C ++ [r]) ∪ cover (B.map f) ↔ ∀ n ∈ B, ¬ (f n).stop < r.stop) := by
  obtain ⟨hC', hr, hCr⟩ := valid_append.mp hC
  have hr := (valid_cons.mp hr).1
  cases B with
  | nil =>
    simp only [joinNext, List.map_nil, cover_nil, Set.union_empty]
    exact ⟨hC, subset_rfl, by simp⟩
  | cons n B =>
    obtain ⟨hn, hB', hnB⟩ := valid_cons.mp hB
    have hrn := hle n List.mem_cons_self
    have hgt : ∀ b ∈ B, (f n).stop < (f b).stop := fun b hb =>
      lt_of_lt_of_le (hnB _ (List.mem_map_of_mem hb)) (hB'.le _ (List.mem_map_of_mem hb))
    have hhead : (∀ b ∈ n :: B, ¬ (f b).stop < r.stop) ↔ r.stop ≤ (f n).stop := by
      constructor
      · intro h
        exact not_lt.mp (h n List.mem_cons_self)
      · intro h b hb
        rcases List.mem_cons.mp hb with rfl | hb
        · exact not_lt.mpr h
        · exact not_lt.mpr (h.trans (hgt b hb).le)
    rw [hhead, joinNext]
    split
    · rename_i hreach
      have hvalid : Valid (C ++ ⟨r.begin, (f n).stop⟩ :: B.map f) := by
        refine valid_append.mpr ⟨hC', valid_cons.mpr ⟨hrn.trans hn, hB', hnB⟩, fun c hc b hb => ?_⟩
        have hcr : c.stop < r.begin := hCr c hc r List.mem_cons_self
        rcases List.mem_cons.mp hb with rfl | hb
        · exact hcr
        · exact (hcr.trans_le (hrn.trans hn)).trans (hnB b hb)
      obtain ⟨-, hext⟩ := hC.extend_last (r := f n) hrn hreach hn
      refine ⟨hvalid, ?_, fun heq => ?_, fun hstop => ?_⟩
      · have hsub : (⟨r.begin, (f n).stop⟩ : Span α).set ⊆
            (⟨r.begin, max r.stop (f n).stop⟩ : Span α).set :=
          Set.Ico_subset_Ico_right (le_max_right _ _)
        rw [List.map_cons, cover_cons, ← Set.union_assoc, ← hext]
        simp only [cover_append, cover_cons, cover_nil, Set.union_empty]
        intro x hx
        rcases hx with hx | hx | hx
        · exact Or.inl (Or.inl hx)
        · exact Or.inl (Or.inr (hsub hx))
        · exact Or.inr hx
      · -- otherwise the end of the successor would be lost
        by_contra hstop
        have hmem : (f n).stop ∈ cover (C ++ [r]) ∪ cover ((n :: B).map f) := by
          refine Or.inl ?_
          rw [cover_append, cover_cons]
          exact Or.inr (Or.inl (mem_set.mpr ⟨hrn.trans hn, not_le.mp hstop⟩))
        rw [← heq] at hmem
        refine not_mem_cover.mpr (fun c hc hx => ?_) hmem
        rcases List.mem_append.mp hc with hc | hc
        · have hcr : c.stop < r.begin := hCr c hc r List.mem_cons_self
          exact absurd (hx.2.trans hcr) (not_lt.mpr (hrn.trans hn))
        · rcases List.mem_cons.mp hc with rfl | hc
          · exact lt_irrefl _ hx.2
          · exact absurd (hnB c hc) (not_lt.mpr hx.1)
      · rw [max_eq_right hstop] at hext
        rw [List.map_cons, cover_cons, ← Set.union_assoc, ← hext]
        simp [Set.union_assoc]
    · rename_i hreach
      have hgap := not_le.mp hreach
      refine ⟨?_, ?_, fun _ => (hgap.trans_le hn).le, fun _ => ?_⟩
      · refine valid_append.mpr ⟨hC', valid_cons.mpr ⟨hr, hB, fun b hb => ?_⟩, fun c hc b hb => ?_⟩
        · rcases List.mem_cons.mp hb with rfl | hb
          · exact hgap
          · exact (hgap.trans_le hn).trans (hnB b hb)
        · have hcr : c.stop < r.begin := hCr c hc r List.mem_cons_self
          rcases List.mem_cons.mp hb with rfl | hb
          · exact hcr
          · obtain ⟨b', hb', rfl⟩ := List.mem_map.mp hb
            exact hcr.trans_le (hle b' hb')
      · simp [Set.union_assoc]
      · simp [Set.union_assoc]

/-- Adding a range keeps the list valid and adds nothing but the range. It adds all of it and keeps
    the rest exactly when no range is swallowed. -/
theorem joined_spec (hV : Valid ((A ++ B).map f)) (hr : r.begin ≤ r.stop)
    (hA : ∀ a ∈ A, (f a).begin < r.begin) (hB : ∀ b ∈ B, r.begin ≤ (f b).begin) :
    Valid (joined f A B r) ∧ cover (joined f A B r) ⊆ cover ((A ++ B).map f) ∪ r.set ∧
      (cover (joined f A B r) = cover ((A ++ B).map f) ∪ r.set ↔ Unswallowed f (A ++ B) r) := by
  rw [List.map_append] at hV ⊢
  obtain ⟨hVA, hVB, hAB⟩ := valid_append.mp hV
  obtain ⟨hp, hcover, hbegin, hstop, hlast⟩ := joinPrev_spec hVA hA hr
  obtain ⟨hv, hsub, heq⟩ := joinNext_spec hp hVB fun b hb => hbegin.trans (hB b hb)
  have hunion : cover (A.map f) ∪ r.set ∪ cover (B.map f) =
      cover (A.map f ++ B.map f) ∪ r.set := by
    rw [cover_append, Set.union_right_comm]
  rw [hcover, hunion] at hsub heq
  refine ⟨hv, hsub, heq.trans ⟨fun h a ha ⟨hra, har⟩ => ?_, fun h n hn hlt => ?_⟩⟩
  · rcases List.mem_append.mp ha with ha | ha
    · exact absurd hra (not_le.mpr (hA a ha))
    · exact h a ha (har.trans_le hstop)
  · rcases hlast with e | ⟨a, ha, e⟩
    · exact h n (List.mem_append_right A hn) ⟨hB n hn, e ▸ hlt⟩
    · have han : (f a).stop < (f n).begin :=
        hAB _ (List.mem_map_of_mem ha) _ (List.mem_map_of_mem hn)
      have hnn := hVB.le _ (List.mem_map_of_mem hn)
      rw [e] at hlt
      exact absurd (han.trans_le hnn) (not_lt.mpr hlt.le)

end FilesKernel.Balloc
