import FilesKernel.Balloc.Alloc
import FilesKernel.Balloc.ParseMmap

/-! The two trees after `balloc_setup`.

    Both trees get the same ranges in the same order, so up to the first removal they have the same
    ranges, whatever the additions lose. Removals only make `free_ranges` smaller: what is free lies in
    the ranges of `memory_map`. -/

namespace FilesKernel.Balloc
open CExec CWord RbTree LinkedList RedBlack Spans Boot

variable {c : Image} {s s' : BallocState} {L : List ℕ} {T : RangeTree → ColorTree ℕ} {t : RangeTree}
  {b e : ℕ} {mem : BootMem} {info : ℕ}

/-! ### Additions on lists of ranges -/

/-- `__balloc_add_range` on the ranges of a tree. -/
def addSpan (R : List (Span ℕ)) (r : Span ℕ) : List (Span ℕ) :=
  joined id (R.takeWhile fun x => decide (x.begin < r.begin))
    (R.dropWhile fun x => decide (x.begin < r.begin)) r

theorem joined_map (f : ℕ → Span ℕ) (A B : List ℕ) (r : Span ℕ) :
    joined f A B r = joined id (A.map f) (B.map f) r := by
  have hprev : joinPrev id (A.map f) r = ((joinPrev f A r).1.map f, (joinPrev f A r).2) := by
    rcases List.eq_nil_or_concat A with rfl | ⟨A, p, rfl⟩
    · rfl
    · rw [List.concat_eq_append, List.map_append, List.map_singleton, joinPrev_concat,
        joinPrev_concat]
      simp only [id_eq]
      split
      · rfl
      · rw [List.map_append, List.map_singleton]
  have hnext : ∀ r, joinNext id r (B.map f) = ((joinNext f r B).1, (joinNext f r B).2.map f) := by
    intro r
    cases B with
    | nil => rfl
    | cons n B =>
      rw [List.map_cons, joinNext, joinNext]
      simp only [id_eq]
      split <;> rfl
  simp only [joined, hprev, hnext, List.map_id]

theorem below_joined {f : ℕ → Span ℕ} {A B : List ℕ} {r : Span ℕ} {M : ℕ} (hA : Below M (A.map f))
    (hB : Below M (B.map f)) (hr : r.stop ≤ M) : Below M (joined f A B r) := by
  have hprev : Below M ((joinPrev f A r).1.map f) ∧ (joinPrev f A r).2.stop ≤ M := by
    rcases List.eq_nil_or_concat A with rfl | ⟨A, p, rfl⟩
    · exact ⟨hA, hr⟩
    · rw [List.concat_eq_append] at hA ⊢
      rw [joinPrev_concat]
      split
      · rw [List.map_append, below_append] at hA
        exact ⟨hA.1, max_le (hA.2 (f p) (by simp)) hr⟩
      · exact ⟨hA, hr⟩
  rw [joined]
  generalize joinPrev f A r = q at hprev ⊢
  have hnext : Below M ((joinNext f q.2 B).2.map f) ∧ (joinNext f q.2 B).1.stop ≤ M := by
    cases B with
    | nil => exact ⟨hB, hprev.2⟩
    | cons n B =>
      rw [joinNext]
      split
      · exact ⟨(below_cons.mp hB).2, (below_cons.mp hB).1⟩
      · exact ⟨hB, hprev.2⟩
  exact below_append.mpr ⟨hprev.1, below_cons.mpr ⟨hnext.2, hnext.1⟩⟩

/-- An addition that returns, on the ranges of both trees. -/
theorem ballocAddRange_ranges (h : Holds c s L T) (hv : Valid (s.ranges (T t)))
    (hok : ballocAddRange c s t b e = .ok s') : ∃ L' T', Holds c s' L' (Function.update T t T') ∧
      s'.ranges T' = addSpan (s.ranges (T t)) ⟨b, e⟩ ∧
      (∀ M, e ≤ M → Below M (s.ranges (T t)) → Below M (s'.ranges T')) ∧
      ∀ t', s'.ranges (T t') = s.ranges (T t') ∨ t' = t := by
  obtain ⟨nd, L, rfl⟩ := ballocAddRange_ne_nil h hv hok
  obtain ⟨A, B, hT, hA, hB⟩ := exists_cut hv b
  obtain ⟨s₁, L', T', e₁, h', hr, hf⟩ := ballocAddRange_spec (e := e) h hv hT hA hB
  obtain rfl := Except.ok.inj (e₁.symm.trans hok)
  have hran : s.ranges (T t) = A.map s.range ++ B.map s.range := by
    rw [BallocState.ranges, hT, List.map_append]
  have hcut : (s.ranges (T t)).takeWhile (fun x => decide (x.begin < b)) = A.map s.range ∧
      (s.ranges (T t)).dropWhile (fun x => decide (x.begin < b)) = B.map s.range := by
    have hAp : ∀ r ∈ A.map s.range, decide (r.begin < b) = true := fun r hr => by
      obtain ⟨a, ha, rfl⟩ := List.mem_map.mp hr
      exact decide_eq_true (hA a ha)
    rw [hran, List.takeWhile_append_of_pos hAp, List.dropWhile_append_of_pos hAp]
    cases B with
    | nil => simp
    | cons x B =>
      have hx := hB x List.mem_cons_self
      simp [hx]
  refine ⟨L', T', h', ?_, fun M he hM => ?_, fun t' => ?_⟩
  · rw [hr, addSpan, hcut.1, hcut.2, joined_map]
  · rw [hran, below_append] at hM
    rw [hr]
    exact below_joined hM.1 hM.2 he
  · rcases eq_or_ne t' t with rfl | hne
    · exact Or.inr rfl
    · exact Or.inl (hf.ranges h)

/-! ### The first pass -/

theorem update_memoryMap (T : RangeTree → ColorTree ℕ) (u : ColorTree ℕ) :
    Function.update T .memoryMap u .freeRanges = T .freeRanges := by
  rw [Function.update_of_ne (by decide)]

theorem update_freeRanges (T : RangeTree → ColorTree ℕ) (u : ColorTree ℕ) :
    Function.update T .freeRanges u .memoryMap = T .memoryMap := by
  rw [Function.update_of_ne (by decide)]

/-- The trees have the same ranges, up to `M`. -/
structure Alike (c : Image) (M : ℕ) (s : BallocState) (T : RangeTree → ColorTree ℕ) : Prop where
  trees : TreesValid c s T
  same : s.ranges (T .freeRanges) = s.ranges (T .memoryMap)
  below : Below M (s.ranges (T .memoryMap))

/-- A range is added to both trees. -/
theorem Alike.add {M : ℕ} {s₁ : BallocState} (h : Alike c M s T) (hbe : b ≤ e) (he : e ≤ M)
    (h₁ : ballocAddRange c s .memoryMap b e = .ok s₁)
    (h₂ : ballocAddRange c s₁ .freeRanges b e = .ok s') : ∃ T', Alike c M s' T' := by
  obtain ⟨⟨L, hs⟩, hv⟩ := h.trees
  obtain ⟨L₁, T₁, hs₁, hr₁, hM₁, hother₁⟩ := ballocAddRange_ranges hs (hv _) h₁
  obtain ⟨T₁', ⟨L₁', hs₁'⟩, hv₁⟩ := h.trees.add hbe h₁
  obtain rfl := hs₁.unique hs₁'
  obtain ⟨L₂, T₂, hs₂, hr₂, -, hother₂⟩ := ballocAddRange_ranges hs₁ (hv₁ _) h₂
  obtain ⟨T₂', ⟨L₂', hs₂'⟩, hv₂⟩ := TreesValid.add ⟨⟨L₁, hs₁⟩, hv₁⟩ hbe h₂
  obtain rfl := hs₂.unique hs₂'
  have hfree₁ : s₁.ranges (Function.update T .memoryMap T₁ .freeRanges) =
      s.ranges (T .memoryMap) := by
    rw [update_memoryMap, (hother₁ .freeRanges).resolve_right nofun, h.same]
  have hmap₂ : s'.ranges (Function.update T .memoryMap T₁ .memoryMap) = s₁.ranges T₁ := by
    rw [(hother₂ .memoryMap).resolve_right nofun, Function.update_self]
  refine ⟨_, ⟨⟨L₂, hs₂⟩, hv₂⟩, ?_, ?_⟩
  · rw [Function.update_self, hr₂, hfree₁, update_freeRanges, hmap₂, hr₁]
  · rw [update_freeRanges, hmap₂]
    exact hM₁ M he h.below

theorem Alike.pass {M stop start : ℕ} (h : Alike c M s T) (hM : M < 2 ^ 64)
    (hentry : ∀ p, EntryFrom mem stop start p →
      (mmapEntry mem p).addr + (mmapEntry mem p).length ≤ M)
    (hok : loop (mmapBody mem (mmapAdd c) stop) maxSteps (s, start) = .ok s') :
    ∃ T', Alike c M s' T' := by
  let I (s : BallocState) (p : ℕ) : Prop :=
    (∀ q, EntryFrom mem stop p q → EntryFrom mem stop start q) ∧ ∃ T, Alike c M s T
  have hstep : ∀ s s' p, p + mmapEntrySize ≤ stop → I s p → mmapAdd c s (mmapEntry mem p) = .ok s' →
      I s' (entryNext mem p) := by
    rintro s s' p hp ⟨hfrom, T, h⟩ hact
    have hle := hentry p (hfrom p (.here hp))
    rw [mmapAdd, wrap_of_lt (hle.trans_lt hM)] at hact
    obtain ⟨s₁, h₁, h₂⟩ := bind_eq_ok.mp hact
    exact ⟨fun q hq => hfrom q (.next hp hq), h.add (Nat.le_add_right _ _) hle h₁ h₂⟩
  obtain ⟨p, -, -, hv⟩ := mmapLoop_invariant (I := I) hstep ⟨fun _ h => h, T, h⟩ hok
  exact hv

/-! ### Removals -/

/-- What is free is in the memory map, and both end at `M` at the latest. -/
structure Booted (c : Image) (M : ℕ) (s : BallocState) (T : RangeTree → ColorTree ℕ) : Prop where
  trees : TreesValid c s T
  below : ∀ t, Below M (s.ranges (T t))
  sub : freeSet s T ⊆ cover (s.ranges (T .memoryMap))

theorem Alike.booted {M : ℕ} (h : Alike c M s T) : Booted c M s T := by
  refine ⟨h.trees, fun t => ?_, ?_⟩
  · cases t with
    | memoryMap => exact h.below
    | freeRanges => exact h.same ▸ h.below
  · rw [freeSet, h.same]

theorem Allocated.freeSet_eq {size addr : ℕ} {L' : List ℕ} {T' : ColorTree ℕ}
    (ha : Allocated c s T size s' addr L' T') :
    freeSet s' (Function.update T .freeRanges T') = freeSet s T \ Set.Ico addr (addr + size) := by
  rw [freeSet, Function.update_self, ha.covers, freeSet]

theorem Allocated.subset {size addr : ℕ} {L' : List ℕ} {T' : ColorTree ℕ}
    (ha : Allocated c s T size s' addr L' T') : Set.Ico addr (addr + size) ⊆ freeSet s T := by
  obtain ⟨r, hr, hbegin, hstop⟩ := ha.inside
  intro x hx
  rw [Set.mem_Ico] at hx
  exact ⟨r, hr, hbegin.trans hx.1, hx.2.trans_le hstop⟩

/-- Free memory gets less, and the memory map stays. -/
theorem Booted.shrink {M : ℕ} {L' : List ℕ} {T' : ColorTree ℕ} (h : Booted c M s T)
    (hs' : Holds c s' L' (Function.update T .freeRanges T')) (hv' : Valid (s'.ranges T'))
    (hM : Below M (s'.ranges T')) (hsub : cover (s'.ranges T') ⊆ freeSet s T)
    (ho : ∀ a ∈ (T .memoryMap).inorder, s'.range a = s.range a) :
    Booted c M s' (Function.update T .freeRanges T') := by
  obtain ⟨-, hv⟩ := h.trees
  have hmap : s'.ranges (T .memoryMap) = s.ranges (T .memoryMap) := List.map_congr_left ho
  refine ⟨⟨⟨L', hs'⟩, fun t => ?_⟩, fun t => ?_, ?_⟩
  · cases t with
    | memoryMap => rw [update_freeRanges, hmap]; exact hv _
    | freeRanges => rwa [Function.update_self]
  · cases t with
    | memoryMap => rw [update_freeRanges, hmap]; exact h.below _
    | freeRanges => rwa [Function.update_self]
  · rw [freeSet, Function.update_self, update_freeRanges, hmap]
    exact hsub.trans h.sub

theorem Booted.remove {M : ℕ} (h : Booted c M s T)
    (hok : ballocRemoveRange c s .freeRanges b e = .ok s') : ∃ T', Booted c M s' T' := by
  obtain ⟨⟨L, hs⟩, hv⟩ := h.trees
  obtain ⟨L', T', hs', hv', hc, ho, hM⟩ := ballocRemoveRange_spec hs (hv _) hok
  exact ⟨_, h.shrink hs' hv' (hM M (h.below _)) (hc ▸ Set.sdiff_subset) (ho .memoryMap nofun)⟩

theorem Booted.alloc {M size addr : ℕ} {L' : List ℕ} {T' : ColorTree ℕ} (h : Booted c M s T)
    (ha : Allocated c s T size s' addr L' T') : Booted c M s' (Function.update T .freeRanges T') :=
  h.shrink ha.holds ha.valid (ha.below M (h.below _)) (ha.covers ▸ Set.sdiff_subset)
    (ha.others .memoryMap nofun)

theorem Booted.pass {M stop start : ℕ} (h : Booted c M s T)
    (hok : loop (mmapBody mem (mmapReserve c) stop) maxSteps (s, start) = .ok s') :
    ∃ T', Booted c M s' T' := by
  have hstep : ∀ s s' p, p + mmapEntrySize ≤ stop → (∃ T, Booted c M s T) →
      mmapReserve c s (mmapEntry mem p) = .ok s' → ∃ T, Booted c M s' T := by
    rintro s s' p - ⟨T, h⟩ hact
    rw [mmapReserve] at hact
    split at hact
    · exact h.remove hact
    · obtain rfl := Except.ok.inj hact
      exact ⟨T, h⟩
  obtain ⟨p, -, hv⟩ := mmapLoop_invariant (I := fun s _ => ∃ T, Booted c M s T) hstep ⟨T, h⟩ hok
  exact hv

/-- After `balloc_setup`, free memory lies in the ranges of the memory map. -/
theorem ballocSetup_booted {M : ℕ} (hroot : ∀ t, s.root t = 0) (hM : M < 2 ^ 64)
    (hentry : ∀ p, IsEntry mem info p →
      (mmapEntry mem p).addr + (mmapEntry mem p).length ≤ M) (himage : c.bssPhysEnd ≤ M)
    (hok : ballocSetup c s mem info = .ok s') : ∃ T, Booted c M s' T := by
  obtain ⟨s₀, L, e₀, h₀, -⟩ := ballocSetupNodes_spec c hroot
  rw [ballocSetup, e₀, ok_bind, ballocParseMmap] at hok
  obtain ⟨_, -, hok⟩ := bind_eq_ok.mp hok
  obtain ⟨s₁, h₁, hok⟩ := bind_eq_ok.mp hok
  obtain ⟨s₂, h₂, hok⟩ := bind_eq_ok.mp hok
  obtain ⟨s₃, h₃, hok⟩ := bind_eq_ok.mp hok
  obtain ⟨s₄, h₄, hok⟩ := bind_eq_ok.mp hok
  obtain ⟨r, -, hok⟩ := bind_eq_ok.mp hok
  obtain ⟨s₅, h₅, h₆⟩ := bind_eq_ok.mp hok
  have hstart : Alike c M s₀ (fun _ => .nil) :=
    ⟨⟨⟨L, h₀⟩, fun t => valid_nil⟩, rfl, fun r hr => absurd hr List.not_mem_nil⟩
  obtain ⟨T₁, hT₁⟩ := hstart.pass hM hentry h₁
  obtain ⟨T₃, hT₃⟩ := hT₁.add c.image_le himage h₂ h₃
  obtain ⟨T₄, hT₄⟩ := hT₃.booted.pass h₄
  obtain ⟨T₅, hT₅⟩ := hT₄.remove h₅
  exact hT₅.remove h₆

end FilesKernel.Balloc
