import FilesKernel.Slab.CacheSetup

/-! Runs of the slab caches.

    Callers set up caches, take objects from them, give back live ones and shrink caches, in any order.
    After every run the pools are all that the page allocator has handed out; each is on the one list
    that its counter says, and the live objects lie apart, with their alignment, in front of the
    metadata of their pool. -/

namespace FilesKernel.Slab
open CExec CWord LinkedList Buddy

/-! ### Callers -/

/-- The caches that are set up with their sizes and alignments, and the objects in use by cache and
    address. -/
structure CacheClient where
  state : SlabState
  specs : ℕ → Option (ℕ × ℕ)
  live : List (ℕ × ℕ)

inductive CacheOp where
  | setup (cache size align : ℕ)
  | alloc (cache : ℕ)
  | free (cache ptr : ℕ)
  | shrink (cache : ℕ)

def CacheOp.step (c : CacheClient) : CacheOp → Exec CacheClient
  | .setup cache size align => do
    let s ← memCacheSetup c.state cache size align
    .ok { c with state := s, specs := Function.update c.specs cache (some (size, align)) }
  | .alloc cache => do
    let (s, ptr) ← memCacheAlloc c.state cache
    if ptr = 0 then .ok { c with state := s }
    else .ok { c with state := s, live := (cache, ptr) :: c.live }
  | .free cache ptr => do
    let s ← memCacheFree c.state cache ptr
    .ok { c with state := s, live := c.live.erase (cache, ptr) }
  | .shrink cache => do
    let s ← memCacheShrink c.state cache
    .ok { c with state := s }

/-- A power of two, not above `PAGE_SIZE` -/
structure AlignOk (align : ℕ) : Prop where
  pow : ∃ k, align = 2 ^ k
  le : align ≤ pageSize

def CacheOp.Legal (c : CacheClient) : CacheOp → Prop
  | .setup cache size align =>
    c.specs cache = none ∧ 1 ≤ size ∧ AlignOk align ∧ NoOverflow size align
  | .alloc cache => c.specs cache ≠ none
  | .free cache ptr => (cache, ptr) ∈ c.live
  | .shrink cache => c.specs cache ≠ none

/-- The states that runs of legal calls lead to, from no cache being set up. -/
def CacheReach (s : SlabState) : CacheClient → Prop :=
  Reaches CacheOp.step (fun c op => op.Legal c) ⟨s, fun _ => none, []⟩

/-! ### The law -/

/-- A list of a cache that is set up -/
def CacheClient.IsList (c : CacheClient) (h : Node) : Prop :=
  ∃ cache, c.specs cache ≠ none ∧ IsHead cache h

/-- The place of a pool among the lists, and what its counter says of it. -/
structure PoolLaw (c : CacheClient) (cache pool : ℕ) : Prop where
  one : ∃! h, c.IsList h ∧ OnList c.state h pool
  free : OnList c.state (.freePools cache) pool ↔
    (c.state.pools pool).free = (c.state.caches cache).objCount
  busy : OnList c.state (.busyPools cache) pool ↔ (c.state.pools pool).free = 0
  rest : OnList c.state (.partialPools cache) pool ↔
    (c.state.pools pool).free ≠ (c.state.caches cache).objCount ∧ (c.state.pools pool).free ≠ 0

/-- The bytes of an object -/
def CacheClient.range (c : CacheClient) (x : ℕ × ℕ) : Set ℕ :=
  Set.Ico x.2 (x.2 + (c.state.caches x.1).objSize)

/-- The caches in a state: `pools` are their pools by first page, and `pages` the pages that the page
    allocator has. -/
structure CacheLaw (pages : Set ℕ) (pools : ℕ → Set ℕ) (c : CacheClient) : Prop where
  held : BuddyLaw pages ⟨c.state.pages,
    {x | ∃ cache, x.1 ∈ pools cache ∧ x.2 = (c.state.caches cache).poolOrder}⟩
  ready : ∀ cache, ∀ p ∈ pools cache, c.specs cache ≠ none
  lists : ∀ cache, ∀ p ∈ pools cache, PoolLaw c cache (poolAt (c.state.caches cache) p)
  only : ∀ cache pool, (c.specs cache ≠ none ∧ ∃ h, IsHead cache h ∧ OnList c.state h pool) →
    ∃ p ∈ pools cache, pool = poolAt (c.state.caches cache) p
  apart : c.live.Pairwise fun x y => Disjoint (c.range x) (c.range y)
  object : ∀ x ∈ c.live, ∃ size align, c.specs x.1 = some (size, align) ∧
    size ≤ (c.state.caches x.1).objSize ∧ align ∣ x.2
  inside : ∀ x ∈ c.live, ∃ p ∈ pools x.1, (c.state.poolOf x.1 p).data ≤ x.2 ∧
    x.2 + (c.state.caches x.1).objSize ≤ poolAt (c.state.caches x.1) p
  metadata : ∀ x ∈ c.live, ∀ cache, ∀ p ∈ pools cache,
    Disjoint (c.range x) (metaRange (c.state.caches cache) p)
  returns : ∀ op : CacheOp, op.Legal c → ∃ c', op.step c = .ok c'
  null : ∀ cache, c.specs cache ≠ none → ∀ s, memCacheAlloc c.state cache = .ok (s, 0) →
    pageAllocPage c.state.pages (c.state.caches cache).poolOrder = .ok (s.pages, 0)

variable {pages : Set ℕ} {s : SlabState} {v : View} {c c' : CacheClient} {k p : ℕ} {g : Node}

/-! ### The invariant -/

def liveKey (x : ℕ × ℕ) : ℕ × Origin := (x.2, .cache x.1)

theorem liveKey_inj {x y : ℕ × ℕ} (h : liveKey x = liveKey y) : x = y :=
  Prod.ext (Origin.cache.inj (Prod.mk.inj h).2) (Prod.mk.inj h).1

/-- What a cache was set up with, and its layout. -/
structure SpecOk (l : CacheLayout) (size align : ℕ) : Prop where
  layout : l.objSize = objSizeOf size align
  align : AlignOk align

/-- The state between two calls. -/
structure Caching (pages : Set ℕ) (c : CacheClient) (v : View) : Prop where
  inv : Inv pages c.state v
  ready : ∀ k, k ∈ v.ready ↔ c.specs k ≠ none
  specs : ∀ k size align, c.specs k = some (size, align) → SpecOk (c.state.caches k) size align
  large : v.large = ∅
  live : ∀ x, x ∈ c.live ↔ liveKey x ∈ owned c.state v
  nodup : c.live.Nodup

theorem AlignOk.pos {align : ℕ} (h : AlignOk align) : 0 < align := by
  obtain ⟨k, rfl⟩ := h.pow
  exact Nat.two_pow_pos k

/-- Pages are aligned. -/
theorem AlignOk.dvd_base {align : ℕ} (h : AlignOk align) (p : ℕ) : align ∣ base p := by
  have hdvd : align ∣ pageSize := by
    obtain ⟨k, rfl⟩ := h.pow
    have hle : 2 ^ k ≤ 2 ^ 12 := h.le
    exact Nat.pow_dvd_pow 2 ((Nat.pow_le_pow_iff_right (by decide)).mp hle)
  have hhigh : pageSize ∣ higherBase := by decide
  exact Nat.dvd_add (hdvd.mul_left p) (hdvd.trans hhigh)

namespace Caching

theorem start (hs : Ready s.pages) (h0 : ∀ x ∈ allFree s.pages, x.1 ≠ 0) (hmap : Mapped s.pages) :
    Caching (pagesOf (allFree s.pages)) ⟨s, fun _ => none, []⟩ .none := by
  refine ⟨inv_start hs h0 hmap, fun k => iff_of_false id fun h => h rfl, fun _ _ _ => nofun, rfl,
    fun x => ?_, List.nodup_nil⟩
  rw [owned_start]
  exact iff_of_false List.not_mem_nil (Set.notMem_empty _)

/-- A live object, by pool and slot. -/
theorem object (h : Caching pages c v) {x : ℕ × ℕ} (hx : x ∈ c.live) :
    ∃ o ∈ objects c.state v, o.cache = x.1 ∧ o.addr c.state.caches = x.2 := by
  rcases (h.live x).mp hx with ⟨o, ho, he⟩ | ⟨y, hy, -⟩
  · exact ⟨o, ho, Origin.cache.inj (Prod.mk.inj he).2, (Prod.mk.inj he).1⟩
  · rw [h.large] at hy
    exact absurd hy (Set.notMem_empty y)

/-- A call that leaves the set-up caches alone. -/
theorem next {s' : SlabState} {v' : View} (live : List (ℕ × ℕ)) (h : Caching pages c v)
    (hinv : Inv pages s' v') (hcaches : s'.caches = c.state.caches) (hready : v'.ready = v.ready)
    (hlarge : v'.large = v.large) (hlive : ∀ x, x ∈ live ↔ liveKey x ∈ owned s' v') (hnd : live.Nodup) :
    Caching pages { c with state := s', live := live } v' := by
  refine ⟨hinv, fun k => ?_, fun k size align e => ?_, hlarge.trans h.large, hlive, hnd⟩
  · rw [hready]
    exact h.ready k
  · dsimp only at e ⊢
    rw [hcaches]
    exact h.specs k size align e

/-- A legal call returns, and leaves the state between two calls. -/
theorem step (h : Caching pages c v) {op : CacheOp} (hop : op.Legal c) :
    ∃ c' v', op.step c = .ok c' ∧ Caching pages c' v' := by
  cases op with
  | setup cache size align =>
    obtain ⟨hnone, hsize, halign, hno⟩ := hop
    have hc : cache ∉ v.ready := fun hr => (h.ready cache).mp hr hnone
    obtain ⟨s', l, e, hl, hcaches, hinv, howned, -⟩ := memCacheSetup_spec h.inv hc hsize halign.pos hno
    refine ⟨⟨s', Function.update c.specs cache (some (size, align)), c.live⟩, v.addCache cache,
      by rw [CacheOp.step, e, ok_bind], hinv, fun k => ?_, fun k sz al e' => ?_, h.large, fun x => ?_,
      h.nodup⟩
    · by_cases hk : k = cache
      · rw [hk]
        dsimp only
        rw [Function.update_self]
        exact iff_of_true (Or.inl rfl) nofun
      · dsimp only
        rw [Function.update_of_ne hk, ← h.ready k]
        exact or_iff_right hk
    · dsimp only at e' ⊢
      rw [hcaches]
      by_cases hk : k = cache
      · subst hk
        rw [Function.update_self] at e' ⊢
        obtain ⟨rfl, rfl⟩ := Prod.mk.inj (Option.some.inj e')
        exact ⟨hl.objSize, halign⟩
      · rw [Function.update_of_ne hk] at e' ⊢
        exact h.specs k sz al e'
    · rw [howned]
      exact h.live x
  | alloc cache =>
    rcases memCacheAlloc_spec h.inv ((h.ready cache).mpr hop) with ⟨e, -⟩ | ⟨s', v', o, e, hg⟩
    · exact ⟨c, v, by rw [CacheOp.step, e, ok_bind]; rfl, h⟩
    · obtain ⟨howned, hfresh⟩ := hg.owned
      have hkey : o.key c.state.caches = liveKey (cache, o.addr c.state.caches) := by
        rw [Obj.key, hg.cache]
        rfl
      rw [hkey] at howned hfresh
      refine ⟨_, v', ?_, h.next ((cache, o.addr c.state.caches) :: c.live) hg.inv hg.caches
        hg.ready hg.large (fun x => ?_) (List.nodup_cons.mpr ⟨fun hx => ?_, h.nodup⟩)⟩
      · rw [CacheOp.step, e, ok_bind]
        exact if_neg (objAt_pos _ _ _)
      · rw [howned, List.mem_cons, Set.mem_insert_iff, h.live]
        exact or_congr_left ⟨fun e => by rw [e], liveKey_inj⟩
      · exact hfresh ((h.live _).mp hx)
  | free cache ptr =>
    obtain ⟨o, ho, rfl, rfl⟩ := h.object hop
    obtain ⟨s', e, hl⟩ := memCacheFree_spec h.inv ho
    refine ⟨_, v, ?_, h.next (c.live.erase (o.cache, o.addr c.state.caches)) hl.inv hl.caches rfl
      rfl (fun x => ?_) (h.nodup.erase _)⟩
    · rw [CacheOp.step, e, ok_bind]
    · rw [hl.owned h.inv.mem ho, h.nodup.mem_erase_iff, Set.mem_sep_iff, h.live, and_comm]
      exact and_congr_right fun _ => not_congr ⟨fun e => by rw [e]; rfl, fun e => liveKey_inj e⟩
  | shrink cache =>
    obtain ⟨s', e, hs⟩ := memCacheShrink_spec h.inv ((h.ready cache).mpr hop)
    refine ⟨_, v.shrunk c.state cache, ?_, h.next c.live hs.inv hs.caches rfl rfl (fun x => ?_)
      h.nodup⟩
    · rw [CacheOp.step, e, ok_bind]
    · rw [hs.owned]
      exact h.live x

theorem reach (h : Caching pages c v) (hr : Reaches CacheOp.step (fun c op => op.Legal c) c c') :
    ∃ v', Caching pages c' v' := by
  refine hr.invariant (P := fun d => ∃ w, Caching pages d w) ⟨v, h⟩ ?_
  rintro d op d' ⟨w, hd⟩ hop e
  obtain ⟨d'', w', e', hd'⟩ := hd.step hop
  obtain rfl := Except.ok.inj (e'.symm.trans e)
  exact ⟨w', hd'⟩

/-! ### What the invariant says -/

theorem poolLaw (h : Caching pages c v) {cache : ℕ} (hp : p ∈ v.pools cache) :
    PoolLaw c cache (poolAt (c.state.caches cache) p) := by
  have hready := h.inv.mem.ready cache p hp
  have hpos := (h.inv.mem.layout hp).bits.pos
  have hhome : IsHead cache (home c.state cache p) := isHead_homeOf cache _ _
  refine ⟨⟨home c.state cache p, ⟨⟨cache, (h.ready cache).mp hready, hhome⟩,
    (onList_iff h.inv hp hready hhome).mpr rfl⟩, ?_⟩, ?_, ?_, ?_⟩
  · rintro g ⟨⟨k, hk, hg⟩, hon⟩
    exact ((onList_iff h.inv hp ((h.ready k).mpr hk) hg).mp hon).symm
  · exact (onList_iff h.inv hp hready (Or.inl rfl)).trans home_free_iff
  · exact (onList_iff h.inv hp hready (Or.inr (Or.inr rfl))).trans (home_busy_iff hpos)
  · exact (onList_iff h.inv hp hready (Or.inr (Or.inl rfl))).trans home_partial_iff

theorem law (h : Caching pages c v) : CacheLaw pages v.pools c := by
  have hm := h.inv.mem
  have hheld : v.held c.state.caches =
      {x | ∃ cache, x.1 ∈ v.pools cache ∧ x.2 = (c.state.caches cache).poolOrder} := by
    ext x
    refine or_iff_left fun hx => ?_
    rw [h.large] at hx
    exact hx
  refine ⟨hheld ▸ hm.holds.law, fun k p hp => (h.ready k).mp (hm.ready k p hp),
    fun k p hp => h.poolLaw hp, fun k pool ⟨hk, hon⟩ => ?_, ?_, fun x hx => ?_, fun x hx => ?_,
    fun x hx k p hp => hm.owned_metadata ((h.live x).mp hx) hp, fun op hop => ?_, fun k hk s' e => ?_⟩
  · exact (onList_pools h.inv).mp ⟨(h.ready k).mpr hk, hon⟩
  · refine h.nodup.imp_of_mem fun hx hy hne => ?_
    exact hm.owned_apart ((h.live _).mp hx) ((h.live _).mp hy) fun e => hne (liveKey_inj e)
  · obtain ⟨o, ho, hcache, haddr⟩ := h.object hx
    have hready := (h.ready x.1).mp (hcache ▸ hm.ready _ _ ho.1)
    obtain ⟨⟨size, align⟩, hspec⟩ := Option.ne_none_iff_exists'.mp hready
    have hok := h.specs _ _ _ hspec
    have hpos := hok.align.pos
    refine ⟨size, align, hspec, ?_, ?_⟩
    · rw [hok.layout]
      exact le_objSizeOf hpos
    · have hobj : align ∣ (c.state.caches o.cache).objSize := by
        rw [hcache, hok.layout]
        exact Nat.dvd_mul_right _ _
      rw [← haddr]
      exact Nat.dvd_add (hok.align.dvd_base o.page) (hobj.mul_left o.slot)
  · obtain ⟨o, ho, hcache, haddr⟩ := h.object hx
    have hobj := (hm.layout ho.1).obj_lt ho.2.1
    have hdata := (hm.pools _ _ ho.1).data
    rw [← hcache, ← haddr]
    refine ⟨o.page, ho.1, ?_, ?_⟩
    · rw [hdata]
      exact Nat.le_add_right _ _
    · rw [Obj.addr, objAt, poolAt]
      omega
  · obtain ⟨c', -, e, -⟩ := h.step hop
    exact ⟨c', e⟩
  · rcases memCacheAlloc_spec h.inv ((h.ready k).mpr hk) with ⟨e', hnone⟩ | ⟨s'', v', o, e', -⟩
    · obtain ⟨rfl, -⟩ := Prod.mk.inj (Except.ok.inj (e'.symm.trans e))
      exact hnone
    · exact absurd (Prod.mk.inj (Except.ok.inj (e'.symm.trans e))).2 (objAt_pos _ _ _)

end Caching

/-! ### All runs -/

/-- Over free memory in the direct map, all runs keep the law. -/
theorem cacheLaw_of_run (hs : Ready s.pages) (h0 : ∀ x ∈ allFree s.pages, x.1 ≠ 0) (hmap : Mapped s.pages)
    (hr : CacheReach s c) : ∃ pools, CacheLaw (pagesOf (allFree s.pages)) pools c := by
  obtain ⟨v, hc⟩ := (Caching.start hs h0 hmap).reach hr
  exact ⟨v.pools, hc.law⟩

/-- Page `1` is free. -/
def onePage : SlabState := blankSlabs (oneBlock 1 0)

/-- The first object of a cache of objects of 64 bytes. -/
def firstObject : Exec (SlabState × ℕ) := do
  let s ← memCacheSetup onePage 0 64 64
  memCacheAlloc s 0

theorem onePage_cacheLaw : ∃ c, CacheReach onePage c ∧ c.live ≠ [] ∧
    ∃ pools, CacheLaw (pagesOf (allFree onePage.pages)) pools c := by
  obtain ⟨hs, h0, hmap⟩ : Ready onePage.pages ∧ (∀ x ∈ allFree onePage.pages, x.1 ≠ 0) ∧
    Mapped onePage.pages := blankSlabs_start (by decide) (by decide) (by decide) (by decide)
  have hrun : (firstObject.toOption.map fun r => decide (r.2 = 0)) = some false := by decide +kernel
  rw [firstObject] at hrun
  have hlegal : CacheOp.Legal ⟨onePage, fun _ => none, []⟩ (.setup 0 64 64) :=
    ⟨rfl, by decide, ⟨⟨6, rfl⟩, by decide⟩, by decide, by decide, by decide⟩
  cases e₁ : memCacheSetup onePage 0 64 64 with
  | error _ =>
    rw [e₁] at hrun
    cases hrun
  | ok s₁ =>
    rw [e₁, ok_bind] at hrun
    cases e₂ : memCacheAlloc s₁ 0 with
    | error _ =>
      rw [e₂] at hrun
      cases hrun
    | ok r =>
      obtain ⟨s₂, ptr⟩ := r
      rw [e₂] at hrun
      have hptr : ptr ≠ 0 := of_decide_eq_false (Option.some.inj hrun)
      have hr₁ : CacheReach onePage ⟨s₁, Function.update (fun _ => none) 0 (some (64, 64)), []⟩ :=
        .next .start hlegal (by rw [CacheOp.step, e₁, ok_bind])
      have hr₂ : CacheReach onePage
          ⟨s₂, Function.update (fun _ => none) 0 (some (64, 64)), [(0, ptr)]⟩ := by
        refine .next (i := .alloc 0) hr₁ ?_ ?_
        · dsimp only [CacheOp.Legal]
          rw [Function.update_self]
          exact nofun
        · rw [CacheOp.step, e₂, ok_bind]
          exact if_neg hptr
      exact ⟨_, hr₂, nofun, cacheLaw_of_run hs h0 hmap hr₂⟩

end FilesKernel.Slab
