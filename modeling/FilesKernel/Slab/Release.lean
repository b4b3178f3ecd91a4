import FilesKernel.Slab.CacheRuns

/-! `mem_cache_release`.

    A cache goes away with all its pools, unless one of its objects is in use: then its pool is on one of
    the lists that have to be empty. The heads of the lists are left as they are. -/

namespace FilesKernel.Slab
open CExec CWord LinkedList Buddy

/-! ### The code -/

/-- One round of the loop of `mem_cache_release`. -/
def releaseBody (cache : ℕ) : SlabState × Node → Exec ((SlabState × Node) ⊕ SlabState)
  | (s, ptr) =>
    if ptr = .freePools cache then .ok (.inr s)
    else do
      let pool ← poolEntry ptr
      let n ← load s.links ptr
      let s ← memPoolDestroy s cache pool
      .ok (.inl (s, n.next))

def memCacheRelease (s : SlabState) (cache : ℕ) : Exec SlabState := do
  let noBusy ← listEmpty s.links (.busyPools cache)
  bugOn (noBusy = false) "!list_empty(&cache->busy_pools)"
  let noPartial ← listEmpty s.links (.partialPools cache)
  bugOn (noPartial = false) "!list_empty(&cache->partial_pools)"
  let n ← load s.links (.freePools cache)
  loop (releaseBody cache) maxSteps (s, n.next)

variable {pages : Set ℕ} {s : SlabState} {v : View} {c : CacheClient} {k p : ℕ} {L : List ℕ}

/-! ### Objects in use -/

/-- A pool that is not full of free objects has one in use. -/
theorem exists_object (hm : Mem pages s v) (hp : p ∈ v.pools k)
    (hne : (s.poolOf k p).free ≠ (s.caches k).objCount) : ∃ o ∈ objects s v, o.cache = k := by
  by_contra hno
  refine hne ?_
  have hall : freeSlots (s.caches k) (s.poolOf k p) = Finset.range (s.caches k).objCount := by
    refine Finset.Subset.antisymm (Finset.filter_subset _ _) fun i hi => ?_
    by_contra hbusy
    exact hno ⟨⟨k, p, i⟩, ⟨hp, Finset.mem_range.mp hi, hbusy⟩, rfl⟩
  rw [(hm.pools k p hp).counts.free, hall, Finset.card_range]

/-- With all pools on the list of the free ones, no object of the cache is in use. -/
theorem unused_of_home (hm : Mem pages s v) (hfree : ∀ p ∈ v.pools k, home s k p = .freePools k) :
    ∀ o ∈ objects s v, o.cache ≠ k := by
  rintro o ho rfl
  exact not_objects_of_free hm ho (hfree _ ho.1)

/-- No pool belongs on an empty list. -/
theorem Members.home_ne {h : Node} (hL : Members s v k h []) (hp : p ∈ v.pools k) : home s k p ≠ h :=
  fun he => List.not_mem_nil ((hL _).mpr ⟨p, hp, rfl, he⟩)

/-! ### The call -/

/-- The caches without the pools of `k` -/
def View.release (v : View) (k : ℕ) : View := { v with pools := Function.update v.pools k ∅ }

theorem drop_eq_release {l : CacheLayout} (hL : ∀ p ∈ v.pools k, poolAt l p ∈ L) :
    v.drop l k L = v.release k :=
  View.ext_pools rfl rfl fun k' p => by
    rw [mem_drop, View.release]
    dsimp only
    by_cases hk : k' = k
    · subst hk
      rw [Function.update_self]
      exact iff_of_false (fun h => h.2 ⟨rfl, hL p h.1⟩) (Set.notMem_empty p)
    · rw [Function.update_of_ne hk]
      exact and_iff_left fun h => hk h.1

/-- With an object in use the call stops in an assertion; else all pools of the cache go back. -/
theorem memCacheRelease_spec (h : Inv pages s v) (hk : k ∈ v.ready) :
    ((∃ o ∈ objects s v, o.cache = k) ∧ ∃ text, memCacheRelease s k = .error (.bug text)) ∨
    (∀ o ∈ objects s v, o.cache ≠ k) ∧ ∃ s', memCacheRelease s k = .ok s' ∧
      Destroyed pages s (v.release k) s' := by
  have hm := h.mem
  obtain ⟨Lb, hrb, hLb⟩ := listed_iff.mp (h.lists k hk (.busyPools k) (Or.inr (Or.inr rfl)))
  obtain ⟨Lp, hrp, hLp⟩ := listed_iff.mp (h.lists k hk (.partialPools k) (Or.inr (Or.inl rfl)))
  obtain ⟨L, hr, hL⟩ := listed_iff.mp (h.lists k hk (.freePools k) (Or.inl rfl))
  -- a pool on one of the other lists has an object in use
  have hused : ∀ {g : Node} {M : List ℕ}, Members s v k g M → g ≠ .freePools k → M ≠ [] →
      ∃ o ∈ objects s v, o.cache = k := by
    intro g M hM hg hne
    obtain ⟨a, ha⟩ := List.exists_mem_of_ne_nil M hne
    obtain ⟨p, hp, -, he⟩ := (hM a).mp ha
    exact exists_object hm hp fun hfree => hg (he.symm.trans (home_free_iff.mpr hfree))
  rw [memCacheRelease, listEmpty_spec hrb, ok_bind, listEmpty_spec hrp]
  by_cases hb : Lb = []
  · rw [bugOn_false (by simp [hb]), ok_bind, ok_bind]
    by_cases hp : Lp = []
    · rw [bugOn_false (by simp [hp]), ok_bind]
      have hhome : ∀ p ∈ v.pools k, home s k p = .freePools k := fun p hmem => by
        rcases (isHead_homeOf k (s.caches k) (s.poolOf k p).free) with he | he | he
        · exact he
        · subst hp
          exact absurd he (hLp.home_ne hmem)
        · subst hb
          exact absurd he (hLb.home_ne hmem)
      have hnd : L.Nodup := List.Nodup.of_map _ (List.nodup_cons.mp hr.ring.nodup).2
      obtain ⟨s', e, hdes⟩ := destroyLoop_spec (X := []) (l := s.caches k) (releaseBody k)
        (.freePools k) (fun _ _ => rfl) (fun _ => by rintro ⟨⟩) hr (hL.length_lt hm hnd) hm rfl rfl hnd fun a ha => by
          obtain ⟨p, hp, he, hfree⟩ := (hL a).mp ha
          exact ⟨p, hp, he, home_free_iff.mp hfree⟩
      refine Or.inr ⟨unused_of_home hm hhome, s', ?_, ?_⟩
      · have hnext : (s.links (.freePools k)).next = (L.map .pool).headD (.freePools k) :=
          hr.ring.next_head
        rw [load_eq (hr.nonnull _ List.mem_cons_self), ok_bind, hnext, e]
      · rw [← drop_eq_release fun p hp => (hL _).mpr ⟨p, hp, rfl, hhome p hp⟩]
        exact hdes
    · rw [bugOn_true (by simp [hp]), error_bind]
      exact Or.inl ⟨hused hLp (by rintro ⟨⟩) hp, _, rfl⟩
  · rw [bugOn_true (by simp [hb]), error_bind]
    exact Or.inl ⟨hused hLb (by rintro ⟨⟩) hb, _, rfl⟩

/-! ### Runs -/

/-- Releasing `cache` in a state with the pools `pools`: it is refused exactly when one of its objects is
    live, and leaves the page allocator with the blocks of all its pools. -/
structure ReleaseLaw (pages : Set ℕ) (pools : ℕ → Set ℕ) (c : CacheClient) (cache : ℕ) : Prop where
  refused : (∃ text, memCacheRelease c.state cache = .error (.bug text)) ↔ ∃ x ∈ c.live, x.1 = cache
  returns : (∃ s, memCacheRelease c.state cache = .ok s) ↔ ∀ x ∈ c.live, x.1 ≠ cache
  back : ∀ s, memCacheRelease c.state cache = .ok s → BuddyLaw pages ⟨s.pages,
    {x | ∃ k ≠ cache, x.1 ∈ pools k ∧ x.2 = (c.state.caches k).poolOrder}⟩
  heads : ∀ s, memCacheRelease c.state cache = .ok s → s.links = c.state.links

theorem Caching.exists_live (h : Caching pages c v) :
    (∃ o ∈ objects c.state v, o.cache = k) ↔ ∃ x ∈ c.live, x.1 = k := by
  constructor
  · rintro ⟨o, ho, rfl⟩
    exact ⟨(o.cache, o.addr c.state.caches), (h.live _).mpr (Or.inl ⟨o, ho, rfl⟩), rfl⟩
  · rintro ⟨x, hx, rfl⟩
    obtain ⟨o, ho, hk, -⟩ := h.object hx
    exact ⟨o, ho, hk⟩

theorem held_release (h : Caching pages c v) : (v.release k).held c.state.caches =
    {x | ∃ k' ≠ k, x.1 ∈ v.pools k' ∧ x.2 = (c.state.caches k').poolOrder} := by
  ext x
  have hlarge : x ∉ (v.release k).large := by
    have he : (v.release k).large = ∅ := h.large
    rw [he]
    exact Set.notMem_empty x
  refine (or_iff_left hlarge).trans (exists_congr fun k' => ?_)
  by_cases hk : k' = k
  · subst hk
    have hno : x.1 ∉ (v.release k').pools k' := by
      rw [View.release]
      dsimp only
      rw [Function.update_self]
      exact Set.notMem_empty _
    exact iff_of_false (fun hx => hno hx.1) fun hx => hx.1 rfl
  · have hsame : (v.release k).pools k' = v.pools k' := Function.update_of_ne hk _ _
    rw [hsame]
    exact (and_iff_right hk).symm

theorem Caching.releaseLaw (h : Caching pages c v) (hk : c.specs k ≠ none) :
    ReleaseLaw pages v.pools c k := by
  rcases memCacheRelease_spec h.inv ((h.ready k).mpr hk) with ⟨hused, text, e⟩ | ⟨hno, s', e, hdes⟩
  · have hlive := h.exists_live.mp hused
    have hnot : ∀ s, memCacheRelease c.state k ≠ .ok s := fun s e' => by
      rw [e] at e'
      cases e'
    refine ⟨iff_of_true ⟨text, e⟩ hlive, iff_of_false ?_ ?_, fun s e' => absurd e' (hnot s),
      fun s e' => absurd e' (hnot s)⟩
    · rintro ⟨s, e'⟩
      exact hnot s e'
    · intro hall
      obtain ⟨x, hx, hxk⟩ := hlive
      exact hall x hx hxk
  · have hnone : ¬ ∃ x ∈ c.live, x.1 = k := fun hx => by
      obtain ⟨o, ho, hok⟩ := h.exists_live.mpr hx
      exact hno o ho hok
    have hsame : ∀ s, memCacheRelease c.state k = .ok s → s = s' := fun s e' =>
      Except.ok.inj (e'.symm.trans e)
    refine ⟨iff_of_false ?_ hnone, iff_of_true ⟨s', e⟩ fun x hx hxk => hnone ⟨x, hx, hxk⟩,
      fun s e' => ?_, fun s e' => ?_⟩
    · rintro ⟨text, e'⟩
      rw [e] at e'
      cases e'
    · obtain rfl := hsame s e'
      have hlaw := hdes.mem.holds.law
      rwa [hdes.caches, held_release h] at hlaw
    · obtain rfl := hsame s e'
      exact hdes.links

/-- In every state of a run, releasing a cache is refused exactly while one of its objects is live. -/
theorem release_of_run (hs : Ready s.pages) (h0 : ∀ x ∈ allFree s.pages, x.1 ≠ 0) (hmap : Mapped s.pages)
    (hr : CacheReach s c) {cache : ℕ} (hcache : c.specs cache ≠ none) :
    ∃ pools, CacheLaw (pagesOf (allFree s.pages)) pools c ∧
      ReleaseLaw (pagesOf (allFree s.pages)) pools c cache := by
  obtain ⟨v, hc⟩ := (Caching.start hs h0 hmap).reach hr
  exact ⟨v.pools, hc.law, hc.releaseLaw hcache⟩

/-! ### Two runs -/

instance (align : ℕ) : Decidable (AlignOk align) :=
  decidable_of_iff (align = 2 ^ Nat.log 2 align ∧ align ≤ pageSize)
    ⟨fun h => ⟨⟨_, h.1⟩, h.2⟩, fun h => ⟨by
      obtain ⟨k, rfl⟩ := h.pow
      rw [Nat.log_pow (by decide)], h.le⟩⟩

instance (size align : ℕ) : Decidable (NoOverflow size align) :=
  decidable_of_iff (size + align ≤ 2 ^ 64 ∧ minSizeOf size align < 2 ^ 64 ∧
      minSizeOf size align / 2 ^ pageShift ≤ 2 ^ 51)
    ⟨fun h => ⟨h.1, h.2.1, h.2.2⟩, fun h => ⟨h.sum, h.min, h.pool⟩⟩

instance (c : CacheClient) (op : CacheOp) : Decidable (op.Legal c) :=
  match op with
  | .setup _ _ _ => inferInstanceAs (Decidable (_ ∧ _ ∧ _ ∧ _))
  | .alloc _ => inferInstanceAs (Decidable (_ ≠ _))
  | .free _ _ => inferInstanceAs (Decidable (_ ∈ _))
  | .shrink _ => inferInstanceAs (Decidable (_ ≠ _))

/-- One object of 64 bytes is taken; and the same object given back. -/
def oneTaken : List CacheOp := [.setup 0 64 64, .alloc 0]

def oneGivenBack : List CacheOp := oneTaken ++ [.free 0 (higherBase + pageSize)]

/-- With the object in use the release is refused. Without, the only page, which the page allocator could
    not hand out before, is free again. -/
theorem onePage_release :
    (∃ c, checkedRun CacheOp.step (fun c op => op.Legal c) ⟨onePage, fun _ => none, []⟩ oneTaken = some c ∧
      c.live = [(0, higherBase + pageSize)] ∧ (∃ text, memCacheRelease c.state 0 = .error (.bug text)) ∧
      ∃ pools, CacheLaw (pagesOf (allFree onePage.pages)) pools c ∧
        ReleaseLaw (pagesOf (allFree onePage.pages)) pools c 0) ∧
    ∃ c, checkedRun CacheOp.step (fun c op => op.Legal c) ⟨onePage, fun _ => none, []⟩ oneGivenBack =
        some c ∧
      (∃ t s u, pageAllocPage c.state.pages 0 = .ok (t, 0) ∧ memCacheRelease c.state 0 = .ok s ∧
        pageAllocPage s.pages 0 = .ok (u, 4440)) ∧
      ∃ pools, CacheLaw (pagesOf (allFree onePage.pages)) pools c ∧
        ReleaseLaw (pagesOf (allFree onePage.pages)) pools c 0 := by
  obtain ⟨hs, h0, hmap⟩ : Ready onePage.pages ∧ (∀ x ∈ allFree onePage.pages, x.1 ≠ 0) ∧
    Mapped onePage.pages := blankSlabs_start (by decide) (by decide) (by decide) (by decide)
  refine ⟨?_, ?_⟩
  · obtain ⟨c, hc, hval⟩ : ∃ c, checkedRun CacheOp.step (fun c op => op.Legal c)
        ⟨onePage, fun _ => none, []⟩ oneTaken = some c ∧
        (c.live, c.specs 0) = ([(0, higherBase + pageSize)], some (64, 64)) :=
      Option.map_eq_some_iff.mp (by decide +kernel)
    obtain ⟨hlive, hspec⟩ := Prod.mk.inj hval
    have hset : c.specs 0 ≠ none := by rw [hspec]; exact Option.some_ne_none _
    obtain ⟨pools, hlaw, hrel⟩ := release_of_run hs h0 hmap (Reaches.start.of_checkedRun hc) hset
    exact ⟨c, hc, hlive, hrel.refused.mpr ⟨_, by rw [hlive]; exact List.mem_cons_self, rfl⟩, pools, hlaw,
      hrel⟩
  · obtain ⟨c, hc, hval⟩ : ∃ c, checkedRun CacheOp.step (fun c op => op.Legal c)
        ⟨onePage, fun _ => none, []⟩ oneGivenBack = some c ∧
        (c.specs 0, (do
          let r ← pageAllocPage c.state.pages 0
          let s ← memCacheRelease c.state 0
          let q ← pageAllocPage s.pages 0
          .ok (r.2, q.2) : Exec (ℕ × ℕ))) = (some (64, 64), .ok (0, 4440)) :=
      Option.map_eq_some_iff.mp (by decide +kernel)
    obtain ⟨hspec, hpages⟩ := Prod.mk.inj hval
    have hset : c.specs 0 ≠ none := by rw [hspec]; exact Option.some_ne_none _
    obtain ⟨⟨t, page⟩, ht, hpages⟩ := bind_eq_ok.mp hpages
    obtain ⟨s, he, hpages⟩ := bind_eq_ok.mp hpages
    obtain ⟨⟨u, page'⟩, hu, hval⟩ := bind_eq_ok.mp hpages
    obtain ⟨rfl, rfl⟩ := Prod.mk.inj (Except.ok.inj hval)
    exact ⟨c, hc, ⟨t, s, u, ht, he, hu⟩,
      release_of_run hs h0 hmap (Reaches.start.of_checkedRun hc) hset⟩

end FilesKernel.Slab
