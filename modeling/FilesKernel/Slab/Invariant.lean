import FilesKernel.Slab.Pools

/-! The invariant of the allocator between two calls.

    What the allocator has is a set of pools for each cache, and a set of blocks of pages that it has
    handed out whole. Memory fits: the page allocator knows these blocks as held, the descriptors say
    what they are used for, and a pool is on the list that its counter says. -/

namespace FilesKernel.Slab
open CExec CWord LinkedList Buddy

/-- The caches that are set up, their pools by first page, and the blocks handed out whole. -/
structure View where
  ready : Set ℕ
  pools : ℕ → Set ℕ
  large : Set (ℕ × ℕ)

namespace View
variable (v : View)

/-- The blocks of the page allocator that are held. -/
def held (caches : ℕ → CacheLayout) : Set (ℕ × ℕ) :=
  {x | (∃ c, x.1 ∈ v.pools c ∧ x.2 = (caches c).poolOrder) ∨ x ∈ v.large}

def addPool (c p : ℕ) : View :=
  { v with pools := Function.update v.pools c (insert p (v.pools c)) }

def removePool (c p : ℕ) : View :=
  { v with pools := Function.update v.pools c {q ∈ v.pools c | q ≠ p} }

end View

/-- Object `slot` of the pool of `cache` that begins with page `page` -/
structure Obj where
  cache : ℕ
  page : ℕ
  slot : ℕ
  deriving DecidableEq

/-- Where the object is. -/
def Obj.addr (caches : ℕ → CacheLayout) (o : Obj) : ℕ := objAt (caches o.cache) o.page o.slot

/-- The metadata of a pool -/
def SlabState.poolOf (s : SlabState) (c p : ℕ) : MemPool := s.pools (poolAt (s.caches c) p)

/-- The objects in use. -/
def objects (s : SlabState) (v : View) : Set Obj :=
  {o | o.page ∈ v.pools o.cache ∧ o.slot < (s.caches o.cache).objCount ∧
    o.slot ∉ freeSlots (s.caches o.cache) (s.poolOf o.cache o.page)}

/-- The list for a pool of cache `c` that has `free` free objects. -/
def homeOf (c : ℕ) (l : CacheLayout) (free : ℕ) : Node :=
  if free = l.objCount then .freePools c else if free = 0 then .busyPools c else .partialPools c

def IsHead (c : ℕ) (h : Node) : Prop := h = .freePools c ∨ h = .partialPools c ∨ h = .busyPools c

structure PoolOk (s : SlabState) (c p : ℕ) : Prop where
  page : Describes s.pages p (s.poolOf c p).page
  data : (s.poolOf c p).data = base p
  counts : (s.poolOf c p).Counts (s.caches c)
  claimed : ∀ i < 2 ^ (s.caches c).poolOrder, Uses s (p + i) true (.cache (some c))

/-- All but the lists. -/
structure Mem (pages : Set ℕ) (s : SlabState) (v : View) : Prop where
  holds : Holds pages s.pages (v.held s.caches)
  mapped : Mapped s.pages
  sound : ∀ c ∈ v.ready, (s.caches c).Sound
  ready : ∀ c, ∀ p ∈ v.pools c, c ∈ v.ready
  pools : ∀ c, ∀ p ∈ v.pools c, PoolOk s c p
  large : ∀ x ∈ v.large, Uses s x.1 false (.order x.2)

/-- The list with head `h` has the pools of `c` that belong on it. -/
def Listed (s : SlabState) (v : View) (c : ℕ) (h : Node) : Prop :=
  ∃ L : List ℕ, OnRing s.links h (L.map .pool) ∧
    ∀ a, a ∈ L ↔ ∃ p ∈ v.pools c, a = poolAt (s.caches c) p ∧
      homeOf c (s.caches c) (s.pools a).free = h

def Lists (s : SlabState) (v : View) : Prop := ∀ c ∈ v.ready, ∀ h, IsHead c h → Listed s v c h

structure Inv (pages : Set ℕ) (s : SlabState) (v : View) : Prop where
  mem : Mem pages s v
  lists : Lists s v

variable {pages : Set ℕ} {s s' : SlabState} {v : View} {c c' p p' q k : ℕ} {h g : Node}

theorem isHead_homeOf (c : ℕ) (l : CacheLayout) (free : ℕ) : IsHead c (homeOf c l free) := by
  rw [homeOf]
  split_ifs
  · exact Or.inl rfl
  · exact Or.inr (Or.inr rfl)
  · exact Or.inr (Or.inl rfl)

theorem IsHead.cache (hh : IsHead c h) (hh' : IsHead c' h) : c = c' := by
  rcases hh with rfl | rfl | rfl <;> rcases hh' with hh' | hh' | hh' <;> cases hh' <;> rfl

theorem IsHead.ne_pool (hh : IsHead c h) (a : ℕ) : h ≠ .pool a := by
  rcases hh with rfl | rfl | rfl <;> exact nofun

/-! ### Pools and their addresses -/

/-- The pool stays as it is. -/
theorem PoolOk.keep (h : PoolOk s c p) (hcaches : s'.caches c = s.caches c)
    (hpool : s'.poolOf c p = s.poolOf c p) (hzones : s'.pages.zones = s.pages.zones)
    (huses : ∀ q ∈ blockPages (p, (s.caches c).poolOrder), ∀ {b u}, Uses s q b u → Uses s' q b u) :
    PoolOk s' c p := by
  refine ⟨?_, ?_, ?_, fun i hi => ?_⟩
  · rw [hpool, Describes, hzones]
    exact h.page
  · rw [hpool]
    exact h.data
  · rw [hpool, hcaches]
    exact h.counts
  · rw [hcaches] at hi
    exact huses _ (Set.mem_Ico.mpr ⟨Nat.le_add_right _ _, Nat.add_lt_add_left hi p⟩) (h.claimed i hi)

namespace Mem

theorem inMap (hm : Mem pages s v) {x : ℕ × ℕ} (hx : x ∈ v.held s.caches) : InMap x.1 x.2 := by
  obtain ⟨z, hz, hin⟩ := hm.holds.law.inside x hx
  have hstop : x.1 + 2 ^ x.2 ≤ z.stop := hin.stop
  exact ⟨(Nat.mul_le_mul_right _ hstop).trans (hm.mapped z hz), hin.aligned, hm.holds.order_le hx⟩

theorem held_pool (hp : p ∈ v.pools c) : (p, (s.caches c).poolOrder) ∈ v.held s.caches :=
  Or.inl ⟨c, hp, rfl⟩

theorem poolInMap (hm : Mem pages s v) (hp : p ∈ v.pools c) : InMap p (s.caches c).poolOrder :=
  hm.inMap (held_pool hp)

theorem layout (hm : Mem pages s v) (hp : p ∈ v.pools c) : (s.caches c).Sound :=
  hm.sound c (hm.ready c p hp)

/-- Pages of pools have descriptors. -/
theorem described (hm : Mem pages s v) {x : ℕ × ℕ} (hx : x ∈ v.held s.caches)
    (hq : q ∈ blockPages x) : ∃ d, Describes s.pages q d := by
  obtain ⟨d, hd⟩ := hm.holds.describes hx
  obtain ⟨hle, hlt⟩ := Set.mem_Ico.mp hq
  have h := hd (q - x.1) (by omega)
  rw [Nat.add_sub_cancel' hle] at h
  exact ⟨_, h⟩

theorem uses (hm : Mem pages s v) (hp : p ∈ v.pools c)
    (hq : q ∈ blockPages (p, (s.caches c).poolOrder)) : Uses s q true (.cache (some c)) := by
  obtain ⟨hle, hlt⟩ := Set.mem_Ico.mp hq
  dsimp only at hle hlt
  have hu := (hm.pools c p hp).claimed (q - p) (by omega)
  rwa [Nat.add_sub_cancel' hle] at hu

/-- A page is in one pool at most. -/
theorem pool_unique (hm : Mem pages s v) (hp : p ∈ v.pools c) (hp' : p' ∈ v.pools c')
    (hq : q ∈ blockPages (p, (s.caches c).poolOrder))
    (hq' : q ∈ blockPages (p', (s.caches c').poolOrder)) : c = c' ∧ p = p' := by
  obtain ⟨d, hd⟩ := hm.described (held_pool hp) hq
  have hu := (hm.uses hp hq d hd).2
  rw [(hm.uses hp' hq' d hd).2] at hu
  obtain rfl := Option.some.inj (PageUse.cache.inj hu)
  refine ⟨rfl, ?_⟩
  by_contra hne
  have hdis := hm.holds.law.live_apart _ (held_pool hp) _ (held_pool hp') fun e =>
    hne (Prod.mk.inj e).1
  exact Set.disjoint_left.mp hdis hq hq'

theorem page_mem (l : CacheLayout) {off : ℕ} (hoff : off < l.poolSize) :
    p + off / pageSize ∈ blockPages (p, l.poolOrder) := by
  rw [poolSize_eq] at hoff
  have hlt : off / pageSize < 2 ^ l.poolOrder := Nat.div_lt_of_lt_mul (by rwa [Nat.mul_comm])
  exact Set.mem_Ico.mpr ⟨Nat.le_add_right _ _, Nat.add_lt_add_left hlt p⟩

/-- An address in a pool is in no other. -/
theorem addr_unique (hm : Mem pages s v) (hp : p ∈ v.pools c) (hp' : p' ∈ v.pools c') {i j : ℕ}
    (hi : i < (s.caches c).poolSize) (hj : j < (s.caches c').poolSize)
    (he : base p + i = base p' + j) : c = c' ∧ p = p' ∧ i = j := by
  have hq := page_mem (p := p) _ hi
  have hq' := page_mem (p := p') _ hj
  rw [poolSize_eq] at hi hj
  rw [← ((hm.poolInMap hp).pa_div hi).1, he, ((hm.poolInMap hp').pa_div hj).1] at hq
  obtain ⟨rfl, rfl⟩ := hm.pool_unique hp hp' hq hq'
  exact ⟨rfl, rfl, Nat.add_left_cancel he⟩

theorem poolAt_inj (hm : Mem pages s v) (hp : p ∈ v.pools c) (hp' : p' ∈ v.pools c')
    (he : poolAt (s.caches c) p = poolAt (s.caches c') p') : c = c' ∧ p = p' := by
  obtain ⟨hc, hpp, -⟩ := hm.addr_unique hp hp' (hm.layout hp).metaOffs_lt (hm.layout hp').metaOffs_lt he
  exact ⟨hc, hpp⟩

/-- The links do not matter. -/
theorem setLinks (hm : Mem pages s v) (m : Heads Node) : Mem pages { s with links := m } v :=
  ⟨hm.holds, hm.mapped, hm.sound, hm.ready, fun c p hp =>
    let h := hm.pools c p hp
    ⟨h.page, h.data, h.counts, h.claimed⟩, hm.large⟩

end Mem

/-! ### Updating a pool -/

theorem setPool_pools (s : SlabState) (a b : ℕ) (m : MemPool) :
    (s.setPool a m).pools b = if b = a then m else s.pools b := Function.update_apply ..

theorem poolOf_setPool (hm : Mem pages s v) (hp : p ∈ v.pools c) (hp' : p' ∈ v.pools c') (m : MemPool) :
    (s.setPool (poolAt (s.caches c) p) m).poolOf c' p' =
      if c' = c ∧ p' = p then m else s.poolOf c' p' := by
  have hiff : poolAt (s.caches c') p' = poolAt (s.caches c) p ↔ c' = c ∧ p' = p :=
    ⟨hm.poolAt_inj hp' hp, fun ⟨hc, hpp⟩ => by rw [hc, hpp]⟩
  refine (setPool_pools s _ _ m).trans ?_
  by_cases he : c' = c ∧ p' = p
  · exact (if_pos (hiff.mpr he)).trans (if_pos he).symm
  · exact (if_neg fun h => he (hiff.mp h)).trans (if_neg he).symm

/-- The new metadata describe the same pool. -/
theorem Mem.setPool {m : MemPool} {slots : Finset ℕ} (hm : Mem pages s v) (hp : p ∈ v.pools c)
    (hch : (s.poolOf c p).Changes (s.caches c) m slots) :
    Mem pages (s.setPool (poolAt (s.caches c) p) m) v := by
  refine ⟨hm.holds, hm.mapped, hm.sound, hm.ready, fun c' p' hp' => ?_, hm.large⟩
  have hold := hm.pools c' p' hp'
  have hof := poolOf_setPool hm hp hp' m
  by_cases he : c' = c ∧ p' = p
  · obtain ⟨rfl, rfl⟩ := he
    rw [if_pos ⟨rfl, rfl⟩] at hof
    refine ⟨?_, ?_, ?_, hold.claimed⟩
    · rw [hof, hch.page]
      exact hold.page
    · rw [hof, hch.data]
      exact hold.data
    · rw [hof]
      exact hch.counts
  · rw [if_neg he] at hof
    refine ⟨?_, ?_, ?_, hold.claimed⟩
    · rw [hof]
      exact hold.page
    · rw [hof]
      exact hold.data
    · rw [hof]
      exact hold.counts

/-- The objects of the other pools are in use as before. -/
theorem mem_objects_setPool {m : MemPool} {slots : Finset ℕ} (hm : Mem pages s v) (hp : p ∈ v.pools c)
    (hch : (s.poolOf c p).Changes (s.caches c) m slots) (o : Obj) :
    o ∈ objects (s.setPool (poolAt (s.caches c) p) m) v ↔
      if o.cache = c ∧ o.page = p then o.slot < (s.caches c).objCount ∧ o.slot ∉ slots
      else o ∈ objects s v := by
  obtain ⟨c', p', k⟩ := o
  by_cases he : c' = c ∧ p' = p
  · obtain ⟨rfl, rfl⟩ := he
    have hof := poolOf_setPool hm hp hp m
    rw [if_pos ⟨rfl, rfl⟩] at hof
    rw [if_pos ⟨rfl, rfl⟩, objects, Set.mem_ofPred_eq, hof, ← hch.free]
    exact and_iff_right hp
  · rw [if_neg he]
    refine and_congr_right fun hp' => ?_
    have hof := poolOf_setPool hm hp hp' m
    rw [if_neg he] at hof
    rw [← hof]
    rfl

theorem objects_take {m : MemPool} (hm : Mem pages s v) (hp : p ∈ v.pools c)
    (hk : k ∈ freeSlots (s.caches c) (s.poolOf c p))
    (hch : (s.poolOf c p).Changes (s.caches c) m ((freeSlots (s.caches c) (s.poolOf c p)).erase k)) :
    objects (s.setPool (poolAt (s.caches c) p) m) v = insert ⟨c, p, k⟩ (objects s v) := by
  have hlt := (mem_freeSlots.mp hk).1
  ext ⟨c', p', j⟩
  rw [mem_objects_setPool hm hp hch, Set.mem_insert_iff, Obj.mk.injEq]
  by_cases he : c' = c ∧ p' = p
  · obtain ⟨rfl, rfl⟩ := he
    rw [if_pos ⟨rfl, rfl⟩, Finset.mem_erase, not_and_or, not_not]
    constructor
    · rintro ⟨hj, rfl | hj'⟩
      · exact Or.inl ⟨rfl, rfl, rfl⟩
      · exact Or.inr ⟨hp, hj, hj'⟩
    · rintro (⟨-, -, rfl⟩ | ⟨-, hj, hj'⟩)
      · exact ⟨hlt, Or.inl rfl⟩
      · exact ⟨hj, Or.inr hj'⟩
  · rw [if_neg he]
    exact (or_iff_right fun ⟨hc, hpp, _⟩ => he ⟨hc, hpp⟩).symm

theorem objects_give {m : MemPool} (hm : Mem pages s v) (ho : ⟨c, p, k⟩ ∈ objects s v)
    (hch : (s.poolOf c p).Changes (s.caches c) m (insert k (freeSlots (s.caches c) (s.poolOf c p)))) :
    objects (s.setPool (poolAt (s.caches c) p) m) v = {o ∈ objects s v | o ≠ ⟨c, p, k⟩} := by
  have hp : p ∈ v.pools c := ho.1
  ext ⟨c', p', j⟩
  rw [mem_objects_setPool hm hp hch, Set.mem_sep_iff, ne_eq, Obj.mk.injEq]
  by_cases he : c' = c ∧ p' = p
  · obtain ⟨rfl, rfl⟩ := he
    rw [if_pos ⟨rfl, rfl⟩, Finset.mem_insert, not_or]
    constructor
    · rintro ⟨hj, hjk, hj'⟩
      exact ⟨⟨hp, hj, hj'⟩, fun h => hjk h.2.2⟩
    · rintro ⟨⟨-, hj, hj'⟩, hne⟩
      exact ⟨hj, fun h => hne ⟨rfl, rfl, h⟩, hj'⟩
  · rw [if_neg he]
    exact (and_iff_left fun ⟨hc, hpp, _⟩ => he ⟨hc, hpp⟩).symm

end FilesKernel.Slab
