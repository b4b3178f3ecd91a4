import FilesKernel.Kmap.Runs

/-! Whether `kmap_alloc_range` finds space.

    Free ranges are filed by the floor of the logarithm of their length, capped at the last list, and
    searched from the ceiling of the logarithm of the request, capped at `KMAP_ORDERS`. A request that
    reaches the second cap is not looked for at all, although the last list has room for it. -/

namespace FilesKernel.Kmap
open CExec LinkedList LinkRing Tiling

/-- The states after `kmap_setup` and legal calls, with the ranges that the callers hold. -/
inductive KmapReach : KmapState → Set (ℕ × ℕ) → Prop
  | setup (s s' : KmapState) : kmapSetupRanges s = .ok s' → KmapReach s' ∅
  | step (s s' : KmapState) (live : Set (ℕ × ℕ)) (op : KmapOp) (r : Option ℕ) : KmapReach s live →
      op.Legal live → op.step s = .ok (s', r) → KmapReach s' (op.after live r)

/-- The range at `i` is on some list of free ranges, and its descriptor records `n` pages. -/
def FreeRange (s : KmapState) (i n : ℕ) : Prop :=
  (∃ o < kmapOrders, ∃ L, OnRing s.lists (.head o) L ∧ .range i ∈ L) ∧ s.pages i = n

/-- `kmap_alloc_range` returns, with a range if and only if some free range is long enough, and
    changes nothing when it fails. -/
structure FindsSpace (s : KmapState) (pages : ℕ) : Prop where
  returns : ∃ s' r, kmapAllocRange s pages = .ok (s', r)
  found : (∃ s' i, kmapAllocRange s pages = .ok (s', some i)) ↔
    ∃ i n, FreeRange s i n ∧ pages ≤ n
  unchanged : ∀ s', kmapAllocRange s pages = .ok (s', none) → s' = s

variable {s : KmapState} {l : List Range} {live : Set (ℕ × ℕ)} {pages : ℕ}

/-- What is known of every state reached. -/
theorem KmapReach.laid (h : KmapReach s live) : ∃ l, Laid s l ∧ Settled l ∧ Callers live l := by
  induction h with
  | setup s s' hs =>
    obtain ⟨t, l, e, hl⟩ := kmapSetupRanges_spec s
    rw [hs] at e
    cases e
    exact ⟨l, hl⟩
  | step s s' live op r _ hop hs ih =>
    obtain ⟨l, h, hl, hc⟩ := ih
    obtain ⟨t, r', l', e, hl'⟩ := KmapOp.step_spec h hl hc hop
    rw [hs] at e
    cases e
    exact ⟨l', hl'⟩

/-- The free ranges are those of the tiling. -/
theorem Laid.freeRange_iff (h : Laid s l) {i n : ℕ} :
    FreeRange s i n ↔ (⟨i, n, .free⟩ : Range) ∈ l := by
  obtain ⟨R, hR⟩ := h
  constructor
  · rintro ⟨⟨o, ho, L, hL, hi⟩, rfl⟩
    obtain ⟨⟨start, len, kind⟩, hx, hk, -, he⟩ :=
      (hR.free o ho _).mp ((hR.rings o ho).ring.unique hL.ring ▸ hi)
    obtain rfl : i = start := Ref.range.inj he
    obtain rfl : kind = .free := hk
    rwa [(hR.tags _ hx (by intro e; cases e)).1]
  · intro hx
    refine ⟨⟨bucket n, bucket_lt n, R (bucket n), hR.rings _ (bucket_lt n), ?_⟩, ?_⟩
    · exact (hR.free _ (bucket_lt n) _).mpr ⟨_, hx, rfl, rfl, rfl⟩
    · exact (hR.tags _ hx (by intro e; cases e)).1

/-- In every state reached and for every request: space is found as it should be exactly for fewer
    than `2 ^ 16` pages, or when there is none. -/
theorem findsSpace_iff (h : KmapReach s live) (hp : 1 ≤ pages) :
    FindsSpace s pages ↔ pages < 2 ^ 16 ∨ ¬ ∃ i n, FreeRange s i n ∧ pages ≤ n := by
  obtain ⟨l, hlaid, hl, -⟩ := h.laid
  constructor
  · intro hf
    by_contra hno
    rw [not_or, not_not, Nat.not_lt] at hno
    obtain ⟨s', i, hs⟩ := hf.found.mpr hno.2
    rw [kmapAllocRange_none (kmapChoose_large s hno.1)] at hs
    cases hs
  · intro hcond
    rcases kmapAllocRange_spec hlaid hl hp with ⟨e, hnone⟩ | ⟨s', i, l', e, -, -, -, -, hfound⟩
    · refine ⟨⟨s, none, e⟩, iff_of_false ?_ ?_, fun s' hs => ?_⟩
      · rintro ⟨s', i, hs⟩
        rw [e] at hs
        cases hs
      · rcases hcond with hlt | hno
        · rintro ⟨i, n, hfree, hn⟩
          have := hnone hlt _ (hlaid.freeRange_iff.mp hfree) rfl
          exact absurd hn (Nat.not_le.mpr this)
        · exact hno
      · rw [e] at hs
        cases hs
        rfl
    · refine ⟨⟨s', some i, e⟩, iff_of_true ⟨s', i, e⟩ ?_, fun t hs => ?_⟩
      · obtain ⟨⟨start, len, kind⟩, hz, hk, -, hlen⟩ := hfound
        obtain rfl : kind = .free := hk
        exact ⟨start, len, hlaid.freeRange_iff.mpr hz, hlen⟩
      · rw [e] at hs
        cases hs

/-- The memory of a window that is not set up yet. -/
def blankRanges : KmapState := ⟨fun _ => ⟨.null, .null⟩, fun _ => 0⟩

/-- After `kmap_setup`, space for 1000 pages is found. -/
theorem blankRanges_findsSpace : ∃ s, kmapSetupRanges blankRanges = .ok s ∧ FindsSpace s 1000 := by
  obtain ⟨s, l, e, -⟩ := kmapSetupRanges_spec blankRanges
  exact ⟨s, e, (findsSpace_iff (.setup _ _ e) (by decide)).mpr (Or.inl (by decide))⟩

/-- After `kmap_setup`, with the whole window free, space for an eighth of it is not found. -/
theorem not_findsSpace_large : ∃ s, kmapSetupRanges blankRanges = .ok s ∧ KmapReach s ∅ ∧
    FreeRange s 0 kmapPages ∧ ¬ FindsSpace s (2 ^ 16) := by
  obtain ⟨s, l, e, hlaid, hl, hc⟩ := kmapSetupRanges_spec blankRanges
  obtain ⟨R, hR⟩ := id hlaid
  have hwhole := hl.whole hR.tiles fun z hz hk => by
    have hmem := (hc z.start z.len).mpr (by rw [← hk]; exact hz)
    exact hmem
  have hfree : FreeRange s 0 kmapPages := hlaid.freeRange_iff.mpr (by
    rw [hwhole]; exact List.mem_cons_self)
  refine ⟨s, e, .setup _ _ e, hfree, fun h => ?_⟩
  obtain ⟨s', i, hs⟩ := h.found.mpr ⟨0, kmapPages, hfree, by decide⟩
  rw [kmapAllocRange_none (kmapChoose_large s (Nat.le_refl _))] at hs
  cases hs

end FilesKernel.Kmap
