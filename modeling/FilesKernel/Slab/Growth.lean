import FilesKernel.Slab.Objects
import FilesKernel.Slab.Slots

/-! New pools.

    A new pool is a block of the page allocator that nobody else holds; its descriptors are marked with
    the cache, and those of other pages stay as they are. So `__mem_cache_alloc` finds no object only
    where the page allocator finds no block. -/

namespace FilesKernel.Slab
open CExec CWord LinkedList Buddy

variable {pages : Set ℕ} {s s' : SlabState} {v : View} {c c' p p' q d e n : ℕ} {h : Node} {m : MemPool}

/-! ### Descriptors of a block -/

theorem not_mem_descriptors {t : PageState} (hz : ZonesOk t.zones)
    (hd : ∀ i < n, Describes t (p + i) (d + sizeofPage * i)) (hq : ∀ i < n, q ≠ p + i)
    (he : Describes t q e) : e ∉ descriptors d n := by
  rintro ⟨i, hi, rfl⟩
  exact hq i hi (he.inj hz (hd i hi))

/-- The descriptors of a held block, from the first one on. -/
theorem describes_from {t : PageState} {held : Set (ℕ × ℕ)} {o : ℕ} (hh : Holds pages t held)
    (hx : (p, o) ∈ held) (hd : Describes t p d) :
    ∀ i < 2 ^ o, Describes t (p + i) (d + sizeofPage * i) := by
  obtain ⟨d', hd'⟩ := hh.describes hx
  have hfirst := hd' 0 (Nat.two_pow_pos o)
  rw [Nat.add_zero, Nat.mul_zero, Nat.add_zero] at hfirst
  obtain rfl := hfirst.eq hh.zonesOk hd
  exact hd'

/-- Pages of other blocks. -/
theorem ne_of_disjoint {x y : ℕ × ℕ} (hdis : Disjoint (blockPages x) (blockPages y))
    (hq : q ∈ blockPages y) : ∀ i < 2 ^ x.2, q ≠ x.1 + i := by
  rintro i hi rfl
  exact Set.disjoint_left.mp hdis (Set.mem_Ico.mpr ⟨by omega, by omega⟩) hq

/-- Pages of other blocks are used as before. -/
theorem Uses.other {x y : ℕ × ℕ} {A : Set ℕ} {b b' : Bool} {u u' : PageUse} (hu : Uses s q b u)
    (hz : ZonesOk s.pages.zones)
    (hrow : ∀ i < 2 ^ x.2, Describes s.pages (x.1 + i) (d + sizeofPage * i))
    (hmark : Marked s s' A b' u') (hA : A ⊆ descriptors d (2 ^ x.2))
    (hdis : Disjoint (blockPages x) (blockPages y)) (hq : q ∈ blockPages y) : Uses s' q b u :=
  hu.marked hmark fun _ he hmem => not_mem_descriptors hz hrow (ne_of_disjoint hdis hq) he (hA hmem)

theorem first_mem (x : ℕ × ℕ) : x.1 ∈ blockPages x :=
  Set.mem_Ico.mpr ⟨Nat.le_refl _, Nat.lt_add_of_pos_right (Nat.two_pow_pos _)⟩

/-! ### A new pool -/

theorem held_addPool (caches : ℕ → CacheLayout) :
    (v.addPool c p).held caches = insert (p, (caches c).poolOrder) (v.held caches) := by
  ext x
  simp only [View.held, View.addPool, Set.mem_ofPred_eq, Set.mem_insert_iff]
  constructor
  · rintro (⟨c', hp, ho⟩ | hx)
    · by_cases hc : c' = c
      · subst hc
        rw [Function.update_self] at hp
        rcases hp with hp | hp
        · exact Or.inl (Prod.ext hp ho)
        · exact Or.inr (Or.inl ⟨c', hp, ho⟩)
      · rw [Function.update_of_ne hc] at hp
        exact Or.inr (Or.inl ⟨c', hp, ho⟩)
    · exact Or.inr (Or.inr hx)
  · rintro (rfl | ⟨c', hp, ho⟩ | hx)
    · exact Or.inl ⟨c, by rw [Function.update_self]; exact Or.inl rfl, rfl⟩
    · refine Or.inl ⟨c', ?_, ho⟩
      by_cases hc : c' = c
      · subst hc
        rw [Function.update_self]
        exact Or.inr hp
      · rwa [Function.update_of_ne hc]
    · exact Or.inr hx

theorem mem_addPool : p' ∈ (v.addPool c p).pools c' ↔ c' = c ∧ p' = p ∨ p' ∈ v.pools c' := by
  rw [View.addPool]
  dsimp only
  by_cases hc : c' = c
  · subst hc
    rw [Function.update_self, Set.mem_insert_iff]
    exact or_congr_left (and_iff_right rfl).symm
  · rw [Function.update_of_ne hc]
    exact (or_iff_right fun h => hc h.1).symm

/-- A pool has been made: all its objects are free, and it is on no list. -/
structure Created (pages : Set ℕ) (s : SlabState) (v : View) (c p : ℕ) (s' : SlabState) : Prop where
  mem : Mem pages s' (v.addPool c p)
  new : p ∉ v.pools c
  caches : s'.caches = s.caches
  links : s'.links = s.links
  others : ∀ c', ∀ p' ∈ v.pools c', s'.poolOf c' p' = s.poolOf c' p'
  slots : freeSlots (s.caches c) (s'.poolOf c p) = Finset.range (s.caches c).objCount

/-- The metadata of a pool on a new block are not those of another pool. -/
theorem Mem.poolAt_ne (hm : Mem pages s v) {l : CacheLayout} (hlay : l.Sound)
    (hmap : InMap p l.poolOrder)
    (hnew : ∀ y ∈ v.held s.caches, Disjoint (blockPages (p, l.poolOrder)) (blockPages y))
    (hp' : p' ∈ v.pools c') : poolAt (s.caches c') p' ≠ poolAt l p := by
  intro he
  have hmeta := hlay.metaOffs_lt
  have hmeta' := (hm.layout hp').metaOffs_lt
  have hq := Mem.page_mem (p := p') _ hmeta'
  have hq' := Mem.page_mem (p := p) l hmeta
  rw [poolSize_eq] at hmeta hmeta'
  have he' : base p' + (s.caches c').metaOffs = base p + l.metaOffs := he
  rw [← ((hm.poolInMap hp').pa_div hmeta').1, he', (hmap.pa_div hmeta).1] at hq
  exact Set.disjoint_left.mp (hnew _ (Mem.held_pool hp')) hq' hq

/-- A block is marked as a pool, and its metadata say that all objects are free. -/
theorem created_of_block {t : PageState} {s₁ : SlabState} {l : CacheLayout} (hm : Mem pages s v)
    (hc : c ∈ v.ready) (hl : l = s.caches c) (hserved : Served s.pages t) (hd : Describes t p d)
    (hmap : InMap p l.poolOrder)
    (hnew : ∀ y ∈ v.held s.caches, Disjoint (blockPages (p, l.poolOrder)) (blockPages y))
    (hholds : Holds pages t (insert (p, l.poolOrder) (v.held s.caches)))
    (hmark : Marked { s with pages := t } s₁ (descriptors d (2 ^ l.poolOrder)) true (.cache (some c)))
    (hpage : m.page = d) (hdata : m.data = base p) (hcounts : m.Counts l)
    (hslots : freeSlots l m = Finset.range l.objCount) :
    Created pages s v c p (s₁.setPool (poolAt l p) m) := by
  have hz := hholds.zonesOk
  have hrow := describes_from hholds (Or.inl rfl) hd
  have hother : ∀ {q b u}, (∃ y ∈ v.held s.caches, q ∈ blockPages y) → Uses s q b u →
      Uses s₁ q b u := by
    rintro q b u ⟨y, hy, hq⟩ hu
    exact (hu.served hserved).other hz hrow hmark (Set.Subset.refl _) (hnew y hy) hq
  obtain ⟨s₂, hs₂⟩ : ∃ s₂, s₂ = s₁.setPool (poolAt l p) m := ⟨_, rfl⟩
  have hcaches : s₂.caches = s.caches := by rw [hs₂]; exact hmark.caches
  have hpages : s₂.pages = s₁.pages := by rw [hs₂]; rfl
  have hzones : s₂.pages.zones = t.zones := by rw [hpages]; exact hmark.zones
  have hpools : ∀ a, s₂.pools a = if a = poolAt l p then m else s.pools a := fun a => by
    rw [hs₂, setPool_pools, hmark.pools]
  have huse : ∀ {q b u}, Uses s₁ q b u → Uses s₂ q b u := fun hu => by rw [hs₂]; exact hu
  have hnewPool : s₂.poolOf c p = m := by
    rw [SlabState.poolOf, hcaches, ← hl, hpools, if_pos rfl]
  have holdPool : ∀ c', ∀ p' ∈ v.pools c', s₂.poolOf c' p' = s.poolOf c' p' := fun c' p' hp' => by
    rw [SlabState.poolOf, hcaches, hpools, if_neg (hm.poolAt_ne (hl ▸ hm.sound c hc) hmap hnew hp')]
    rfl
  have hheld : (v.addPool c p).held s.caches = insert (p, l.poolOrder) (v.held s.caches) := by
    rw [held_addPool, hl]
  have hp : p ∉ v.pools c := fun hp => by
    have hin : (p, l.poolOrder) ∈ v.held s.caches := Or.inl ⟨c, hp, by rw [hl]⟩
    exact Set.disjoint_left.mp (hnew _ hin) (first_mem _) (first_mem (p, l.poolOrder))
  rw [← hs₂]
  refine ⟨⟨?_, fun z hz => ?_, fun c' hc' => ?_, fun c' p' hp' => ?_, fun c' p' hp' => ?_,
    fun x hx => ?_⟩, hp, hcaches, ?_, holdPool, ?_⟩
  · rw [hcaches, hheld, hpages]
    exact hmark.holds _ _ hholds
  · rw [hzones, hserved.zones] at hz
    exact hm.mapped z hz
  · rw [hcaches]
    exact hm.sound c' hc'
  · rcases mem_addPool.mp hp' with ⟨rfl, -⟩ | hp'
    · exact hc
    · exact hm.ready c' p' hp'
  · rcases mem_addPool.mp hp' with ⟨rfl, rfl⟩ | hp'
    · refine ⟨?_, ?_, ?_, fun i hi e he => ?_⟩
      · rwa [hnewPool, hpage, Describes, hzones]
      · rw [hnewPool, hdata]
      · rw [hnewPool, hcaches, ← hl]
        exact hcounts
      · rw [hcaches, ← hl] at hi
        rw [Describes, hzones] at he
        obtain rfl := Describes.eq hz he (hrow i hi)
        rw [hs₂]
        exact hmark.inside _ ⟨i, hi, rfl⟩
    · refine (hm.pools c' p' hp').keep (by rw [hcaches]) (holdPool c' p' hp')
        (hzones.trans hserved.zones) fun q hq {b u} hu => ?_
      exact huse (hother ⟨_, Mem.held_pool hp', hq⟩ hu)
  · exact huse (hother ⟨x, Or.inr hx, first_mem x⟩ (hm.large x hx))
  · rw [hs₂]
    exact hmark.links
  · rw [hnewPool, ← hl]
    exact hslots

theorem memPoolCreate_spec (hm : Mem pages s v) (hc : c ∈ v.ready) :
    (memPoolCreate s c = .ok (s, 0) ∧
      pageAllocPage s.pages (s.caches c).poolOrder = .ok (s.pages, 0)) ∨
    ∃ s' p, memPoolCreate s c = .ok (s', poolAt (s.caches c) p) ∧ Created pages s v c p s' := by
  obtain ⟨l, hl⟩ : ∃ l, l = s.caches c := ⟨_, rfl⟩
  have hlay : l.Sound := hl ▸ hm.sound c hc
  obtain ⟨r, er, hr⟩ := pageAllocPage_granted hm.holds l.poolOrder
  rw [← hl, memPoolCreate, ← hl]
  dsimp only
  rw [er]
  cases hr with
  | none =>
    left
    rw [ok_bind]
    exact ⟨if_pos rfl, rfl⟩
  | @block t d p hd hserved haligned hpos horder hnew hholds =>
    right
    have hd' : Describes t p d := by
      rw [Describes, hserved.zones]
      exact hd
    have hmap : InMap p l.poolOrder := by
      obtain ⟨z, hz, hin⟩ := hholds.law.inside _ (Or.inl rfl)
      have hstop : p + 2 ^ l.poolOrder ≤ z.stop := hin.stop
      have hz' : z ∈ s.pages.zones := hserved.zones ▸ hz
      exact ⟨(Nat.mul_le_mul_right _ hstop).trans (hm.mapped z hz'), haligned, horder⟩
    have hlt := hmap.lt (poolSize_eq l ▸ hlay.metaOffs_lt)
    have hpool : va (wrap (p * pageSize + l.metaOffs)) = poolAt l p := by
      have hlt' := hlt
      rw [maxPmemSize] at hlt'
      rw [wrap_of_lt (by omega), va_eq hlt, poolAt, base, Nat.add_right_comm]
    have hdata : va (p * pageSize) = base p := va_eq (by omega)
    obtain ⟨m, em, hmpage, hmdata, hcounts, hslots, -⟩ := memPoolBitmapSetup_counts hlay.bits
      { (claimPages c d (2 ^ l.poolOrder) { s with pages := t }).pools (poolAt l p) with
        page := d, data := base p }
    refine ⟨_, p, ?_, created_of_block hm hc hl hserved hd' hmap hnew hholds
      (claimPages_marked { s with pages := t } c d _) hmpage hmdata hcounts hslots⟩
    rw [ok_bind]
    dsimp only
    rw [if_neg hd.ne_zero, hd'.pageAddr hholds.zonesOk, ok_bind, hpool, hdata, em, ok_bind]

/-! ### The first object of a new pool -/

/-- The objects in use are the same: a new pool has none. -/
theorem Created.objects (h : Created pages s v c p s') : objects s' (v.addPool c p) = objects s v := by
  ext ⟨c', p', k⟩
  constructor
  · rintro ⟨hp', hk, hbusy⟩
    dsimp only at hp' hk hbusy
    rw [h.caches] at hk hbusy
    rcases mem_addPool.mp hp' with ⟨rfl, rfl⟩ | hp'
    · rw [h.slots, Finset.mem_range] at hbusy
      exact absurd hk hbusy
    · rw [h.others c' p' hp'] at hbusy
      exact ⟨hp', hk, hbusy⟩
  · rintro ⟨hp', hk, hbusy⟩
    dsimp only at hp' hk hbusy
    refine ⟨mem_addPool.mpr (Or.inr hp'), ?_, ?_⟩
    · rwa [h.caches]
    · rwa [h.caches, h.others c' p' hp']

/-- The pool comes to the front of the list where it belongs. -/
theorem Created.link (hcr : Created pages s v c p s') (hm : Mem pages s v) (hl : Lists s v)
    (hc : c ∈ v.ready) (hhome : homeOf c (s.caches c) m.free = h) : ∃ links,
      listAdd s'.links (.pool (poolAt (s.caches c) p)) h = .ok links ∧
      Lists { s'.setPool (poolAt (s.caches c) p) m with links := links } (v.addPool c p) := by
  obtain ⟨a, ha⟩ : ∃ a, a = poolAt (s.caches c) p := ⟨_, rfl⟩
  have hh : IsHead c h := hhome ▸ isHead_homeOf c _ _
  have hself : p ∈ (v.addPool c p).pools c := mem_addPool.mpr (Or.inl ⟨rfl, rfl⟩)
  have hnew : ∀ c', ∀ p' ∈ v.pools c', poolAt (s.caches c') p' ≠ a := fun c' p' hp' he => by
    have hold : p' ∈ (v.addPool c p).pools c' := mem_addPool.mpr (Or.inr hp')
    rw [ha, ← hcr.caches] at he
    obtain ⟨rfl, rfl⟩ := hcr.mem.poolAt_inj hold hself he
    exact hcr.new hp'
  have hout : ∀ {c' g} {L : List ℕ}, IsHead c' g → Members s v c' g L →
      Node.pool a ∉ g :: L.map .pool := fun hg hL hmem => by
    rcases List.mem_cons.mp hmem with he | hmem
    · exact hg.ne_pool a he.symm
    · obtain ⟨b, hb, hba⟩ := List.mem_map.mp hmem
      obtain ⟨p', hp', he, -⟩ := (hL b).mp hb
      exact hnew _ p' hp' (he.symm.trans (Node.pool.inj hba))
  obtain ⟨K, hk, hK⟩ := listed_iff.mp (hl c hc h hh)
  obtain ⟨links, e, hk', hf⟩ := listAdd_spec hk (hout hh hK) nofun
  have hcaches : ∀ c', (s'.setPool a m).caches c' = s.caches c' := fun c' => by
    rw [← hcr.caches]
    rfl
  rw [← ha]
  refine ⟨links, by rw [hcr.links, e], fun c' hc' g hg => ?_⟩
  have hhomes : ∀ p' ∈ v.pools c', home (s'.setPool a m) c' p' = home s c' p' := fun p' hp' => by
    have hof : (s'.setPool a m).poolOf c' p' = s.poolOf c' p' := by
      rw [SlabState.poolOf, hcaches, setPool_pools, if_neg (hnew c' p' hp'), ← hcr.others c' p' hp',
        SlabState.poolOf, hcr.caches]
    rw [home, hof, hcaches]
    rfl
  have hhomeNew : home (s'.setPool a m) c p = h := by
    have hof : (s'.setPool a m).poolOf c p = m := by
      rw [SlabState.poolOf, hcaches, setPool_pools, if_pos ha.symm]
    rw [home, hof, hcaches, hhome]
  have hmembers : ∀ M : List ℕ, (∀ b, b ∈ M ↔ (c' = c ∧ g = h ∧ b = a) ∨
      ∃ p' ∈ v.pools c', b = poolAt (s.caches c') p' ∧ home s c' p' = g) →
      Members { s'.setPool a m with links := links } (v.addPool c p) c' g M := fun M hM b => by
    rw [hM]
    have hpool : ∀ p', poolAt ((s'.setPool a m).caches c') p' = poolAt (s.caches c') p' := fun p' => by
      rw [hcaches]
    constructor
    · rintro (⟨rfl, rfl, rfl⟩ | ⟨p', hp', hb, hg'⟩)
      · exact ⟨p, hself, ha.trans (hpool p).symm, hhomeNew⟩
      · exact ⟨p', mem_addPool.mpr (Or.inr hp'), hb.trans (hpool p').symm, (hhomes p' hp').trans hg'⟩
    · rintro ⟨p', hp', hb, hg'⟩
      have hb' : b = poolAt (s.caches c') p' := hb.trans (hpool p')
      rcases mem_addPool.mp hp' with ⟨rfl, rfl⟩ | hp'
      · exact Or.inl ⟨rfl, hg'.symm.trans hhomeNew, hb'.trans ha.symm⟩
      · exact Or.inr ⟨p', hp', hb', (hhomes p' hp').symm.trans hg'⟩
  by_cases hgh : g = h
  · subst hgh
    obtain rfl := hg.cache hh
    refine listed_iff.mpr ⟨a :: K, hk', hmembers _ fun b => ?_⟩
    rw [List.mem_cons, hK]
    exact or_congr_left ⟨fun e => ⟨rfl, rfl, e⟩, fun e => e.2.2⟩
  · obtain ⟨M, hM, hmem⟩ := listed_iff.mp (hl c' hc' g hg)
    refine listed_iff.mpr ⟨M, hM.congr fun x hx => hf x ?_ ?_, hmembers _ fun b => ?_⟩
    · exact fun hx' => hmem.disjoint hK hm hg hh hgh hx hx'
    · exact fun he => hout hg hmem (he ▸ hx)
    · rw [hmem]
      exact (or_iff_right fun e => hgh e.2.1).symm

/-- All pools are full: a new one is made. -/
theorem memCacheAlloc_new (h : Inv pages s v) (hc : c ∈ v.ready)
    (hr : OnRing s.links (.partialPools c) []) (hr' : OnRing s.links (.freePools c) []) :
    (memCacheAlloc s c = .ok (s, 0) ∧
      pageAllocPage s.pages (s.caches c).poolOrder = .ok (s.pages, 0)) ∨
    ∃ s' v' o, memCacheAlloc s c = .ok (s', o.addr s.caches) ∧ Gains pages s v c s' v' o := by
  have hempty : listEmpty s.links (.partialPools c) = .ok true := listEmpty_spec hr
  have hempty' : listEmpty s.links (.freePools c) = .ok true := listEmpty_spec hr'
  have hthree := (h.mem.sound c hc).three
  rw [memCacheAlloc, hempty, ok_bind, if_neg Bool.false_ne_true.symm, hempty', ok_bind,
    if_neg Bool.false_ne_true.symm]
  rcases memPoolCreate_spec h.mem hc with ⟨e, enone⟩ | ⟨s₁, p, e, hcr⟩
  · refine Or.inl ⟨?_, enone⟩
    rw [e, ok_bind]
    exact if_pos rfl
  right
  have hself : p ∈ (v.addPool c p).pools c := mem_addPool.mpr (Or.inl ⟨rfl, rfl⟩)
  have hcount : (s₁.poolOf c p).free = (s.caches c).objCount := by
    rw [(hcr.mem.pools c p hself).counts.free, hcr.caches, hcr.slots, Finset.card_range]
  obtain ⟨k, m, et, hk, hch, hm⟩ := takeObject_spec hcr.mem hself (by omega)
  have hobj := objects_take hcr.mem hself hk hch
  rw [hcr.caches] at et hobj
  obtain ⟨links, el, hlists⟩ := hcr.link (h := .partialPools c) (m := m) h.mem h.lists hc
    (homeOf_some c (by omega) (by omega))
  have hmem := (hcr.mem.setPool hself hch).setLinks links
  rw [hcr.caches] at hmem
  have hfresh : (⟨c, p, k⟩ : Obj) ∉ objects s v := fun ho => hcr.new ho.1
  have hlinks : (s₁.setPool (poolAt (s.caches c) p) m).links = s₁.links := rfl
  refine ⟨_, v.addPool c p, ⟨c, p, k⟩, ?_, ⟨hmem, hlists⟩, rfl, hfresh, ?_, hcr.caches, rfl, rfl⟩
  · rw [e, ok_bind]
    dsimp only
    rw [if_neg (poolAt_pos _ _), et, ok_bind]
    dsimp only
    rw [hlinks, el, ok_bind]
    rfl
  · rw [objects_setLinks, hobj, hcr.objects]

/-- `__mem_cache_alloc` finds an object, or there is no block of pages for a new pool. -/
theorem memCacheAlloc_spec (h : Inv pages s v) (hc : c ∈ v.ready) :
    (memCacheAlloc s c = .ok (s, 0) ∧
      pageAllocPage s.pages (s.caches c).poolOrder = .ok (s.pages, 0)) ∨
    ∃ s' v' o, memCacheAlloc s c = .ok (s', o.addr s.caches) ∧ Gains pages s v c s' v' o := by
  obtain ⟨L, hr, hL⟩ := listed_iff.mp (h.lists c hc _ (Or.inr (Or.inl rfl)))
  obtain ⟨K, hk, hK⟩ := listed_iff.mp (h.lists c hc _ (Or.inl rfl))
  by_cases hLn : L = []
  · subst hLn
    by_cases hKn : K = []
    · subst hKn
      exact memCacheAlloc_new h hc hr hk
    · obtain ⟨s', o, e, hg⟩ := memCacheAlloc_free h hr hk hK hKn
      exact Or.inr ⟨s', v, o, e, hg⟩
  · obtain ⟨s', o, e, hg⟩ := memCacheAlloc_partial h hr hL hLn
    exact Or.inr ⟨s', v, o, e, hg⟩

end FilesKernel.Slab
