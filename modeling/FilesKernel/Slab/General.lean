import FilesKernel.Slab.CacheSetup

/-! `mem_alloc` and `mem_free`.

    A size picks a cache, or an order of the page allocator, and what is handed out keeps this origin
    in the descriptor of its page. So `mem_free` and `mem_realloc`, which get an address alone, come
    back to the allocator and the capacity. -/

namespace FilesKernel.Slab
open CExec CWord LinkedList Buddy

variable {pages : Set ℕ} {s s' : SlabState} {v v' : View} {c p q d n size : ℕ} {k : ℕ × Origin}

/-! ### Sizes -/

/-- Where a block of `size` bytes comes from. -/
def originOf (size : ℕ) : Origin :=
  match memPoolLookup size with
  | some cache => .cache cache
  | none => .order (memOrderCalculate size)

/-- The caches of `mem_alloc` are set up, each for its size. -/
structure Stocked (s : SlabState) (v : View) : Prop where
  ready : ∀ i, i ∈ v.ready ↔ i < memPools
  sizes : ∀ i < memPools, (s.caches i).objSize = memPoolSizes.getD i 0

theorem Stocked.keep (h : Stocked s v) (hcaches : s'.caches = s.caches) (hready : v'.ready = v.ready) :
    Stocked s' v' := by
  refine ⟨fun i => ?_, fun i hi => ?_⟩
  · rw [hready]
    exact h.ready i
  · rw [hcaches]
    exact h.sizes i hi

theorem memPoolLookup_some {i : ℕ} (h : memPoolLookup size = some i) :
    i < memPools ∧ size ≤ memPoolSizes.getD i 0 := by
  obtain ⟨hi, hle, -⟩ := List.findIdx?_eq_some_iff_getElem.mp h
  refine ⟨hi, ?_⟩
  rw [List.getD_eq_getElem?_getD, List.getElem?_eq_getElem hi]
  exact of_decide_eq_true hle

/-- The loop stops at an order that is large enough, or behind the last one. -/
theorem memOrderFrom_spec (size : ℕ) : ∀ n order, memOrderFrom size n order = order + n ∨
    size ≤ 2 ^ (memOrderFrom size n order + pageShift)
  | 0, _ => Or.inl rfl
  | n + 1, order => by
      rw [memOrderFrom]
      split_ifs with h
      · exact Or.inr h
      · rw [Nat.add_comm n 1, ← Nat.add_assoc]
        exact memOrderFrom_spec size n (order + 1)

/-- An order that the page allocator serves is large enough. -/
theorem memOrderCalculate_le (h : memOrderCalculate size ≤ maxOrder) :
    size ≤ 2 ^ (memOrderCalculate size + pageShift) := by
  rcases memOrderFrom_spec size (maxOrder + 1) 0 with he | hle
  · rw [memOrderCalculate] at h
    omega
  · exact hle

/-! ### Blocks of pages -/

def View.addLarge (v : View) (x : ℕ × ℕ) : View := { v with large := insert x v.large }

def View.removeLarge (v : View) (x : ℕ × ℕ) : View := { v with large := {y ∈ v.large | y ≠ x} }

theorem held_addLarge (caches : ℕ → CacheLayout) (x : ℕ × ℕ) :
    (v.addLarge x).held caches = insert x (v.held caches) := by
  ext y
  exact or_left_comm

theorem held_removeLarge (hm : Mem pages s v) {x : ℕ × ℕ} (hx : x ∈ v.large) :
    (v.removeLarge x).held s.caches = {y ∈ v.held s.caches | y ≠ x} := by
  ext y
  constructor
  · rintro (⟨c, hp, ho⟩ | ⟨hy, hne⟩)
    · refine ⟨Or.inl ⟨c, hp, ho⟩, ?_⟩
      rintro rfl
      exact hm.not_large hp hx
    · exact ⟨Or.inr hy, hne⟩
  · rintro ⟨⟨c, hp, ho⟩ | hy, hne⟩
    · exact Or.inl ⟨c, hp, ho⟩
    · exact Or.inr ⟨hy, hne⟩

theorem block_pos (o : ℕ) : 0 < 2 ^ o * pageSize := by
  have hpos : 0 < pageSize := by decide
  exact Nat.mul_pos (Nat.two_pow_pos o) hpos

theorem InMap.first_lt (h : InMap p n) : p * pageSize < maxPmemSize := by
  have hlt := h.lt (block_pos n)
  rwa [Nat.add_zero] at hlt

theorem singleton_subset_descriptors (d o : ℕ) : {d} ⊆ descriptors d (2 ^ o) := fun _ ha =>
  ⟨0, Nat.two_pow_pos o, ha⟩

/-- What a call that hands out memory does: `k` is new. -/
structure Obtains (pages : Set ℕ) (s : SlabState) (v : View) (s' : SlabState) (v' : View)
    (k : ℕ × Origin) : Prop where
  inv : Inv pages s' v'
  fresh : k ∉ owned s v
  owned : owned s' v' = insert k (owned s v)
  caches : s'.caches = s.caches
  ready : v'.ready = v.ready

theorem Gains.obtains {o : Obj} (h : Gains pages s v c s' v' o) :
    Obtains pages s v s' v' (o.key s.caches) :=
  ⟨h.inv, h.owned.2, h.owned.1, h.caches, h.ready⟩

/-- A block of pages is handed out, with its order in the descriptor of the first page. -/
theorem obtains_of_block {t : PageState} (h : Inv pages s v) (hd : Describes s.pages p d)
    (hserved : Served s.pages t)
    (hnew : ∀ y ∈ v.held s.caches, Disjoint (blockPages (p, n)) (blockPages y))
    (hholds : Holds pages t (insert (p, n) (v.held s.caches))) :
    Obtains pages s v (SlabState.setOrder { s with pages := t } d n) (v.addLarge (p, n))
      (blockKey (p, n)) := by
  have hm := h.mem
  have hz := hholds.zonesOk
  have hdt : Describes t p d := by
    rw [Describes, hserved.zones]
    exact hd
  have hrow := describes_from hholds (Or.inl rfl) hdt
  have hmark := marked_clear { s with pages := t } d (.order n)
  obtain ⟨s₁, hs₁⟩ : ∃ s₁, s₁ = SlabState.setOrder { s with pages := t } d n := ⟨_, rfl⟩
  have hmark₁ : Marked { s with pages := t } s₁ {d} false (.order n) := hs₁ ▸ hmark
  have hzones : s₁.pages.zones = s.pages.zones := hmark₁.zones.trans hserved.zones
  have hother : ∀ {q b u y}, y ∈ v.held s.caches → q ∈ blockPages y → Uses s q b u →
      Uses s₁ q b u := fun hy hq hu =>
    (hu.served hserved).other hz hrow hmark₁ (singleton_subset_descriptors d n) (hnew _ hy) hq
  have hobjects : objects s₁ (v.addLarge (p, n)) = objects s v := by rw [hs₁]; rfl
  have hcaches : s₁.caches = s.caches := hmark₁.caches
  have hfresh : blockKey (p, n) ∉ owned s v := by
    intro hk
    obtain ⟨x, hx, hsub⟩ := hm.holder hk
    rw [Mem.rangeOf_block] at hsub
    have hin : base p ∈ bytesOf (p, n) :=
      Set.mem_Ico.mpr ⟨Nat.le_refl _, Nat.lt_add_of_pos_right (block_pos n)⟩
    exact Set.disjoint_left.mp (bytesOf_disjoint (hnew x hx)) hin (hsub hin)
  have howned : owned s₁ (v.addLarge (p, n)) = insert (blockKey (p, n)) (owned s v) := by
    rw [owned, hobjects, hcaches, View.addLarge, Set.image_insert_eq, Set.union_insert]
    rfl
  rw [← hs₁]
  refine ⟨⟨⟨?_, fun z hz' => hm.mapped z (hzones ▸ hz'), fun c hc => ?_, hm.ready, fun c p' hp' => ?_,
    fun x hx => ?_⟩, ?_⟩, hfresh, howned, hcaches, rfl⟩
  · rw [hcaches, held_addLarge]
    exact hmark₁.holds _ _ hholds
  · rw [hcaches]
    exact hm.sound c hc
  · refine (hm.pools c p' hp').keep (by rw [hcaches]) (by rw [hs₁]; rfl) hzones fun q hq {b u} hu => ?_
    exact hother (Mem.held_pool hp') hq hu
  · rcases hx with rfl | hx
    · intro e he
      rw [Describes, hmark₁.zones] at he
      obtain rfl := Describes.eq hz he hdt
      exact hmark₁.inside e rfl
    · exact hother (Or.inr hx) (first_mem x) (hm.large x hx)
  · rw [hs₁]
    exact h.lists

/-! ### Allocation -/

theorem memAlloc_spec (h : Inv pages s v) (hst : Stocked s v) (size : ℕ) :
    memAlloc s size = .ok (s, 0) ∨
    ∃ s' v' ptr, memAlloc s size = .ok (s', ptr) ∧ Obtains pages s v s' v' (ptr, originOf size) ∧
      size ≤ capacity s.caches (originOf size) := by
  cases hl : memPoolLookup size with
  | some i =>
    have horigin : originOf size = .cache i := by rw [originOf, hl]
    obtain ⟨hi, hle⟩ := memPoolLookup_some hl
    rw [memAlloc, hl, horigin]
    rcases memCacheAlloc_spec h ((hst.ready i).mpr hi) with ⟨e, -⟩ | ⟨s', v', o, e, hg⟩
    · exact Or.inl e
    · have ho := hg.obtains
      rw [Obj.key, hg.cache] at ho
      exact Or.inr ⟨s', v', _, e, ho, hle.trans_eq (hst.sizes i hi).symm⟩
  | none =>
    have horigin : originOf size = .order (memOrderCalculate size) := by rw [originOf, hl]
    obtain ⟨r, er, hr⟩ := pageAllocPage_granted h.mem.holds (memOrderCalculate size)
    rw [memAlloc, hl, horigin]
    dsimp only
    rw [er]
    cases hr with
    | none =>
      left
      rw [ok_bind]
      exact if_pos rfl
    | @block t d p hd hserved haligned hpos horder hnew hholds =>
      right
      have hob := obtains_of_block h hd hserved hnew hholds
      have hheld : (p, memOrderCalculate size) ∈
          (v.addLarge (p, memOrderCalculate size)).held (SlabState.setOrder { s with pages := t } d
            (memOrderCalculate size)).caches := Or.inr (Or.inl rfl)
      have hmap := hob.inv.mem.inMap hheld
      have hbase : va (p * pageSize) = base p := va_eq hmap.first_lt
      have hzones : (SlabState.setOrder { s with pages := t } d (memOrderCalculate size)).pages.zones =
          s.pages.zones := hserved.zones
      have haddr : pageAddr (SlabState.setOrder { s with pages := t } d
          (memOrderCalculate size)).pages d = .ok (p * pageSize) := by
        refine Describes.pageAddr hob.inv.mem.holds.zonesOk ?_
        rw [Describes, hzones]
        exact hd
      refine ⟨_, _, base p, ?_, hob, memOrderCalculate_le horder⟩
      rw [ok_bind]
      dsimp only
      rw [if_neg hd.ne_zero, haddr, ok_bind, hbase]

/-! ### The origin of an address -/

/-- What the descriptor says about memory of an origin. -/
def useOf : Origin → Bool × PageUse
  | .cache c => (true, .cache (some c))
  | .order n => (false, .order n)

/-- The page of an address in a block -/
theorem ptrPage_eq (hm : Mem pages s v) {x : ℕ × ℕ} (hx : x ∈ v.held s.caches) {off : ℕ}
    (hoff : off < 2 ^ x.2 * pageSize) : ∃ d, Describes s.pages (x.1 + off / pageSize) d ∧
      ptrPage s (base x.1 + off) = .ok d := by
  obtain ⟨hpa, hlt⟩ := (hm.inMap hx).pa_div hoff
  obtain ⟨d, hd⟩ := hm.described hx (q := x.1 + off / pageSize)
    (Set.mem_Ico.mpr ⟨Nat.le_add_right _ _, Nat.add_lt_add_left hlt _⟩)
  refine ⟨d, hd, ?_⟩
  rw [ptrPage, hpa]
  exact hd.addrPage hm.holds.zonesOk

theorem ptrPage_first (hm : Mem pages s v) {x : ℕ × ℕ} (hx : x ∈ v.held s.caches) :
    ∃ d, Describes s.pages x.1 d ∧ ptrPage s (base x.1) = .ok d := by
  obtain ⟨d, hd, e⟩ := ptrPage_eq hm hx (block_pos x.2)
  rw [Nat.zero_div, Nat.add_zero] at hd
  rw [Nat.add_zero] at e
  exact ⟨d, hd, e⟩

theorem ptrPage_spec (hm : Mem pages s v) (hk : k ∈ owned s v) : ∃ d, ptrPage s k.1 = .ok d ∧
    (s.pages.testBit d pageCacheBit, s.use d) = useOf k.2 := by
  rcases hk with ⟨o, ho, rfl⟩ | ⟨x, hx, rfl⟩
  · have hoff := hm.off_lt ho.1 ho.2.1
    obtain ⟨d, hd, e⟩ := ptrPage_eq hm (Mem.held_pool ho.1) hoff
    have hq := Mem.page_mem (p := o.page) (s.caches o.cache) (poolSize_eq (s.caches o.cache) ▸ hoff)
    have hu := hm.uses ho.1 hq d hd
    exact ⟨d, e, Prod.ext hu.1 hu.2⟩
  · obtain ⟨d, hd, e⟩ := ptrPage_first hm (Or.inr hx)
    have hu := hm.large x hx d hd
    exact ⟨d, e, Prod.ext hu.1 hu.2⟩

/-- The capacity is found again. -/
theorem oldSize_spec (hm : Mem pages s v) (hk : k ∈ owned s v) :
    oldSize s k.1 = .ok (capacity s.caches k.2) := by
  obtain ⟨d, e, huse⟩ := ptrPage_spec hm hk
  rw [oldSize, e, ok_bind]
  obtain ⟨ptr, origin⟩ := k
  cases origin with
  | cache c =>
    obtain ⟨hbit, hu⟩ := Prod.mk.inj huse
    rw [hbit, hu]
    rfl
  | order n =>
    obtain ⟨hbit, hu⟩ := Prod.mk.inj huse
    have hord : n + pageShift < 64 := by
      rcases hk with ⟨o, -, he⟩ | ⟨x, hx, he⟩
      · cases (Prod.mk.inj he).2
      · obtain rfl := Origin.order.inj (Prod.mk.inj he).2
        have hle := hm.holds.order_le (Or.inr hx)
        rw [maxOrder] at hle
        rw [pageShift]
        omega
    rw [hbit, hu]
    dsimp only
    rw [Nat.add_comm, shiftOne_eq hord]
    rfl

/-! ### Release -/

/-- The release of memory to where it came from: the cache, or the page allocator with the order. -/
def giveBack (s : SlabState) (k : ℕ × Origin) : Exec SlabState :=
  match k.2 with
  | .cache cache => memCacheFree s cache k.1
  | .order order => do
    let page ← ptrPage s k.1
    let pages ← pageFree (s.setOrder page 0).pages (pa k.1) order
    .ok { s.setOrder page 0 with pages := pages }

/-- What a call that takes memory back does: `k` is not owned any more. -/
structure Releases (pages : Set ℕ) (s : SlabState) (v : View) (s' : SlabState) (v' : View)
    (k : ℕ × Origin) : Prop where
  inv : Inv pages s' v'
  owned : owned s' v' = {x ∈ owned s v | x ≠ k}
  caches : s'.caches = s.caches
  ready : v'.ready = v.ready

theorem blockKey_inj {x y : ℕ × ℕ} (h : blockKey x = blockKey y) : x = y :=
  Prod.ext (base_inj (Prod.mk.inj h).1) (Origin.order.inj (Prod.mk.inj h).2)

/-- The block goes back to the page allocator. -/
theorem releases_of_block {t : PageState} {x : ℕ × ℕ} (h : Inv pages s v) (hx : x ∈ v.large)
    (hd : Describes s.pages x.1 d) (hserved : Served (s.setOrder d 0).pages t)
    (hholds : Holds pages t {y ∈ v.held s.caches | y ≠ x}) :
    Releases pages s v { s.setOrder d 0 with pages := t } (v.removeLarge x) (blockKey x) := by
  have hm := h.mem
  have hz := hm.holds.zonesOk
  have hrow := describes_from hm.holds (Or.inr hx) hd
  have hmark : Marked s (s.setOrder d 0) {d} false (.order 0) := marked_clear s d (.order 0)
  have hzones : t.zones = s.pages.zones := hserved.zones
  have hother : ∀ {q b u y}, y ∈ v.held s.caches → y ≠ x → q ∈ blockPages y → Uses s q b u →
      Uses { s.setOrder d 0 with pages := t } q b u := fun hy hne hq hu =>
    have hdis := hm.holds.law.live_apart _ (Or.inr hx) _ hy (Ne.symm hne)
    (hu.other hz hrow hmark (singleton_subset_descriptors d x.2) hdis hq).served hserved
  have hobjects : objects { s.setOrder d 0 with pages := t } (v.removeLarge x) = objects s v := rfl
  refine ⟨⟨⟨?_, fun z hz' => hm.mapped z (hzones ▸ hz'), hm.sound, hm.ready, fun c p hp => ?_,
    fun y hy => ?_⟩, h.lists⟩, ?_, rfl, rfl⟩
  · have hheld := held_removeLarge hm hx
    exact hheld ▸ hholds
  · refine (hm.pools c p hp).keep rfl rfl hzones fun q hq {b u} hu => ?_
    refine hother (Mem.held_pool hp) ?_ hq hu
    rintro rfl
    exact hm.not_large hp hx
  · exact hother (Or.inr hy.1) hy.2 (first_mem y) (hm.large y hy.1)
  · ext k
    rw [owned, hobjects]
    constructor
    · rintro (⟨o, ho, rfl⟩ | ⟨y, ⟨hy, hne⟩, rfl⟩)
      · exact ⟨Or.inl ⟨o, ho, rfl⟩, fun he => by cases (Prod.mk.inj he).2⟩
      · exact ⟨Or.inr ⟨y, hy, rfl⟩, fun he => hne (blockKey_inj he)⟩
    · rintro ⟨⟨o, ho, rfl⟩ | ⟨y, hy, rfl⟩, hne⟩
      · exact Or.inl ⟨o, ho, rfl⟩
      · exact Or.inr ⟨y, ⟨hy, fun he => hne (by rw [he])⟩, rfl⟩

/-- `mem_free` finds the way back by itself. -/
theorem memFree_eq (hm : Mem pages s v) (hk : k ∈ owned s v) : memFree s k.1 = giveBack s k := by
  obtain ⟨d, e, huse⟩ := ptrPage_spec hm hk
  have hpos : k.1 ≠ 0 := by
    have hle := (hm.owned_lt hk).1
    rw [higherBase] at hle
    omega
  rw [memFree, if_neg hpos, e, ok_bind, giveBack]
  rcases hk with ⟨o, ho, rfl⟩ | ⟨x, hx, rfl⟩
  · obtain ⟨hbit, hu⟩ := Prod.mk.inj huse
    rw [hbit, hu]
    rfl
  · obtain ⟨hbit, hu⟩ := Prod.mk.inj huse
    have hmap : InMap x.1 x.2 := hm.inMap (Or.inr hx)
    have hpa : pa (base x.1) = x.1 * pageSize := pa_eq hmap.first_lt
    have hord : x.2 + pageShift < 64 := by
      have hle := hmap.order
      rw [maxOrder] at hle
      rw [pageShift]
      omega
    have hround : x.1 * pageSize / 2 ^ (x.2 + pageShift) * 2 ^ (x.2 + pageShift) = x.1 * pageSize :=
      Nat.div_mul_cancel (Nat.pow_add 2 _ _ ▸ Nat.mul_dvd_mul_right hmap.aligned pageSize)
    rw [hbit, hu]
    dsimp only [blockKey]
    rw [shiftOne_eq hord, ok_bind, hpa, hround]
    rw [blockKey] at e
    rw [e, ok_bind]

theorem memFree_spec (h : Inv pages s v) (hk : k ∈ owned s v) :
    ∃ s' v', memFree s k.1 = .ok s' ∧ Releases pages s v s' v' k := by
  have hm := h.mem
  rw [memFree_eq hm hk]
  rcases hk with ⟨o, ho, rfl⟩ | ⟨x, hx, rfl⟩
  · obtain ⟨s', e, hl⟩ := memCacheFree_spec h ho
    exact ⟨s', v, e, hl.inv, hl.owned hm ho, hl.caches, rfl⟩
  · obtain ⟨d, hd, e⟩ := ptrPage_first hm (Or.inr hx)
    have hmap : InMap x.1 x.2 := hm.inMap (Or.inr hx)
    have hpa : pa (base x.1) = x.1 * pageSize := pa_eq hmap.first_lt
    have hmark : Marked s (s.setOrder d 0) {d} false (.order 0) := marked_clear s d (.order 0)
    obtain ⟨t, et, hserved, hholds⟩ := pageFree_holds (hmark.holds _ _ hm.holds) (Or.inr hx)
    refine ⟨_, _, ?_, releases_of_block h hx hd hserved hholds⟩
    rw [giveBack, blockKey]
    dsimp only
    rw [e, ok_bind, hpa, et, ok_bind]

/-! ### All caches -/

theorem memPoolSizes_spec : ∀ x ∈ memPoolSizes, 0 < x ∧ 64 ∣ x ∧ x ≤ 8192 := by decide

/-- The sizes are multiples of the alignment, and small. -/
theorem memPoolSizes_layout {x : ℕ} (hx : x ∈ memPoolSizes) :
    0 < x ∧ objSizeOf x 64 = x ∧ NoOverflow x 64 := by
  obtain ⟨hpos, ⟨j, hj⟩, hle⟩ := memPoolSizes_spec x hx
  have hobj : objSizeOf x 64 = x := by
    rw [objSizeOf]
    omega
  refine ⟨hpos, hobj, ⟨by omega, ?_, ?_⟩⟩
  · rw [minSizeOf_eq, hobj]
    omega
  · rw [minSizeOf_eq, hobj, pageShift]
    omega

/-- The caches in `is` are set up, each for its size. -/
structure SetsUp (pages : Set ℕ) (s : SlabState) (v : View) (is : List ℕ) (s' : SlabState) (v' : View) :
    Prop where
  inv : Inv pages s' v'
  ready : ∀ i, i ∈ v'.ready ↔ i ∈ is ∨ i ∈ v.ready
  sizes : ∀ i ∈ is, (s'.caches i).objSize = memPoolSizes.getD i 0
  others : ∀ i ∉ is, s'.caches i = s.caches i
  owned : owned s' v' = owned s v

theorem setupCaches_spec : ∀ {is : List ℕ} {s : SlabState} {v : View}, Inv pages s v → is.Nodup →
    (∀ i ∈ is, i < memPools ∧ i ∉ v.ready) → ∃ s' v',
    runOps (fun s i => memCacheSetup s i (memPoolSizes.getD i 0) (memPoolSizes.getD 0 0)) s is = .ok s' ∧
      SetsUp pages s v is s' v'
  | [], s, v, h, _, _ =>
      ⟨s, v, rfl, h, fun _ => (or_iff_right List.not_mem_nil).symm, fun _ => nofun, fun _ _ => rfl, rfl⟩
  | i :: is, s, v, h, hnd, his => by
      obtain ⟨hi, hnew⟩ := his i List.mem_cons_self
      obtain ⟨hni, hnd⟩ := List.nodup_cons.mp hnd
      have hmem : memPoolSizes.getD i 0 ∈ memPoolSizes := by
        rw [List.getD_eq_getElem?_getD, List.getElem?_eq_getElem hi]
        exact List.getElem_mem hi
      obtain ⟨hpos, hobj, hno⟩ := memPoolSizes_layout hmem
      obtain ⟨s₁, l, e₁, hl, hcaches, hinv, howned, -⟩ := memCacheSetup_spec h hnew hpos (by decide) hno
      obtain ⟨s', v', e, hs⟩ := setupCaches_spec hinv hnd fun j hj => by
        obtain ⟨hlt, hnj⟩ := his j (List.mem_cons_of_mem _ hj)
        exact ⟨hlt, fun hr => hr.elim (fun he => hni (he ▸ hj)) hnj⟩
      refine ⟨s', v', (runOps_cons _).mpr ⟨s₁, e₁, e⟩, hs.inv, fun j => ?_, fun j hj => ?_, fun j hj => ?_,
        hs.owned.trans howned⟩
      · rw [hs.ready, List.mem_cons, or_assoc]
        exact or_left_comm
      · rcases List.mem_cons.mp hj with rfl | hj
        · rw [hs.others j hni, hcaches, Function.update_self, hl.objSize, hobj]
        · exact hs.sizes j hj
      · rw [List.mem_cons, not_or] at hj
        rw [hs.others j hj.2, hcaches, Function.update_of_ne hj.1]

theorem memAllocSetup_spec (h : Inv pages s v) (hnone : v.ready = ∅) :
    ∃ s' v', memAllocSetup s = .ok s' ∧ Inv pages s' v' ∧ Stocked s' v' ∧ owned s' v' = owned s v := by
  have hnew : ∀ i ∈ List.range memPools, i < memPools ∧ i ∉ v.ready := fun i hi =>
    ⟨List.mem_range.mp hi, by rw [hnone]; exact Set.notMem_empty i⟩
  obtain ⟨s', v', e, hs⟩ := setupCaches_spec h List.nodup_range hnew
  refine ⟨s', v', e, hs.inv, ⟨fun i => ?_, fun i hi => hs.sizes i (List.mem_range.mpr hi)⟩, hs.owned⟩
  rw [hs.ready, List.mem_range, hnone]
  exact or_iff_left (Set.notMem_empty i)

/-- The caches in `is` are shrunk. -/
structure ShrinksAll (pages : Set ℕ) (s : SlabState) (v : View) (is : List ℕ) (s' : SlabState)
    (v' : View) : Prop where
  inv : Inv pages s' v'
  owned : owned s' v' = owned s v
  caches : s'.caches = s.caches
  ready : v'.ready = v.ready
  large : v'.large = v.large
  pools : ∀ c, v'.pools c ⊆ v.pools c
  empty : objects s v = ∅ → ∀ i ∈ is, v'.pools i = ∅

/-- Where no object is in use, all pools are free. -/
theorem home_of_no_objects (hm : Mem pages s v) (hno : objects s v = ∅) (hp : p ∈ v.pools c) :
    home s c p = .freePools c := by
  have hall : freeSlots (s.caches c) (s.poolOf c p) = Finset.range (s.caches c).objCount := by
    refine Finset.Subset.antisymm (Finset.filter_subset _ _) fun i hi => ?_
    by_contra hbusy
    have ho : (⟨c, p, i⟩ : Obj) ∈ objects s v := ⟨hp, Finset.mem_range.mp hi, hbusy⟩
    rw [hno] at ho
    exact ho
  rw [home_free_iff, (hm.pools c p hp).counts.free, hall, Finset.card_range]

theorem shrinkCaches_spec : ∀ {is : List ℕ} {s : SlabState} {v : View}, Inv pages s v →
    (∀ i ∈ is, i ∈ v.ready) → ∃ s' v', runOps memCacheShrink s is = .ok s' ∧
      ShrinksAll pages s v is s' v'
  | [], s, v, h, _ =>
      ⟨s, v, rfl, h, rfl, rfl, rfl, rfl, fun _ => Set.Subset.refl _, fun _ _ => nofun⟩
  | i :: is, s, v, h, his => by
      obtain ⟨s₁, e₁, hs₁⟩ := memCacheShrink_spec h (his i List.mem_cons_self)
      obtain ⟨s', v', e, hs⟩ := shrinkCaches_spec hs₁.inv fun j hj => his j (List.mem_cons_of_mem _ hj)
      have hsub : ∀ c, v'.pools c ⊆ v.pools c := fun c p hp => (mem_shrunk.mp (hs.pools c hp)).1
      refine ⟨s', v', (runOps_cons _).mpr ⟨s₁, e₁, e⟩, hs.inv, hs.owned.trans hs₁.owned,
        hs.caches.trans hs₁.caches, hs.ready, hs.large, hsub, fun hno j hj => ?_⟩
      rcases List.mem_cons.mp hj with rfl | hj
      · refine Set.eq_empty_of_forall_notMem fun p hp => ?_
        obtain ⟨hp, hne⟩ := mem_shrunk.mp (hs.pools j hp)
        exact hne (home_of_no_objects h.mem hno hp)
      · exact hs.empty (hs₁.objects.trans hno) j hj

theorem memAllocShrink_spec (h : Inv pages s v) (hst : Stocked s v) :
    ∃ s' v', memAllocShrink s = .ok s' ∧ ShrinksAll pages s v (List.range memPools) s' v' :=
  shrinkCaches_spec h fun i hi => (hst.ready i).mpr (List.mem_range.mp hi)

/-- When nothing is owned any more, `mem_alloc_shrink` gives all pages back. -/
theorem memAllocShrink_allBack (h : Inv pages s v) (hst : Stocked s v) (hno : owned s v = ∅) :
    ∃ s', memAllocShrink s = .ok s' ∧ AllBack pages s'.pages := by
  obtain ⟨s', v', e, hs⟩ := memAllocShrink_spec h hst
  obtain ⟨hobjects, hlarge⟩ := Set.union_empty_iff.mp hno
  have hempty := hs.empty (Set.image_eq_empty.mp hobjects)
  have hheld : v'.held s'.caches = ∅ := by
    refine Set.eq_empty_of_forall_notMem fun x hx => ?_
    rcases hx with ⟨c, hp, -⟩ | hx
    · have hc : c < memPools := by
        rw [← hst.ready c, ← hs.ready]
        exact hs.inv.mem.ready c _ hp
      rw [hempty c (List.mem_range.mpr hc)] at hp
      exact hp
    · rw [hs.large, Set.image_eq_empty.mp hlarge] at hx
      exact hx
  have hholds := hs.inv.mem.holds
  rw [hheld] at hholds
  exact ⟨s', e, hholds.allBack⟩

end FilesKernel.Slab
