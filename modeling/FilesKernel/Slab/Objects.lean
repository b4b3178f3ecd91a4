import FilesKernel.Slab.Caches

/-! Objects are taken from pools and given back.

    `mem_cache_free` finds the pool of an object by rounding down, and both ways keep the invariant: the
    counter of one pool goes up or down by one, and the pool ends on the list that it says. -/

namespace FilesKernel.Slab
open CExec CWord LinkedList Buddy

variable {pages : Set ℕ} {s s' : SlabState} {v v' : View} {c p k o : ℕ} {l : CacheLayout}

/-! ### The lists by their counters -/

theorem homeOf_full (c : ℕ) (l : CacheLayout) : homeOf c l l.objCount = .freePools c := if_pos rfl

theorem homeOf_zero (c : ℕ) (h : 0 < l.objCount) : homeOf c l 0 = .busyPools c := by
  rw [homeOf, if_neg (Nat.ne_of_lt h), if_pos rfl]

theorem homeOf_some (c : ℕ) {free : ℕ} (h : 0 < free) (h' : free < l.objCount) :
    homeOf c l free = .partialPools c := by
  rw [homeOf, if_neg (Nat.ne_of_lt h'), if_neg (Nat.ne_of_gt h)]

/-! ### Addresses in a pool -/

theorem InMap.base_lt (h : InMap p o) {off : ℕ} (hoff : off < 2 ^ o * pageSize) :
    base p + off < 2 ^ 64 := by
  have hlt := h.lt hoff
  rw [maxPmemSize] at hlt
  rw [base, higherBase]
  omega

namespace Mem

theorem off_lt (hm : Mem pages s v) (hp : p ∈ v.pools c) (hk : k < (s.caches c).objCount) :
    k * (s.caches c).objSize < 2 ^ (s.caches c).poolOrder * pageSize := by
  have hobj := (hm.layout hp).obj_lt hk
  have hmeta := (hm.layout hp).metaOffs_lt
  rw [poolSize_eq] at hmeta
  omega

theorem objAt_lt (hm : Mem pages s v) (hp : p ∈ v.pools c) (hk : k < (s.caches c).objCount) :
    objAt (s.caches c) p k < 2 ^ 64 := (hm.poolInMap hp).base_lt (hm.off_lt hp hk)

theorem poolAt_lt (hm : Mem pages s v) (hp : p ∈ v.pools c) : poolAt (s.caches c) p < 2 ^ 64 :=
  (hm.poolInMap hp).base_lt (poolSize_eq (s.caches c) ▸ (hm.layout hp).metaOffs_lt)

end Mem

theorem poolAt_pos (l : CacheLayout) (p : ℕ) : poolAt l p ≠ 0 := by
  rw [poolAt, base, higherBase]
  omega

theorem objAt_pos (l : CacheLayout) (p k : ℕ) : objAt l p k ≠ 0 := by
  rw [objAt, base, higherBase]
  omega

/-! ### Taking an object -/

/-- `mem_pool_alloc` of a pool with a free object. -/
theorem takeObject_spec (hm : Mem pages s v) (hp : p ∈ v.pools c) (hfree : 0 < (s.poolOf c p).free) :
    ∃ k m, takeObject s c (poolAt (s.caches c) p) =
        .ok (s.setPool (poolAt (s.caches c) p) m, objAt (s.caches c) p k) ∧
      k ∈ freeSlots (s.caches c) (s.poolOf c p) ∧
      (s.poolOf c p).Changes (s.caches c) m ((freeSlots (s.caches c) (s.poolOf c p)).erase k) ∧
      m.free + 1 = (s.poolOf c p).free := by
  have hok := hm.pools c p hp
  obtain ⟨k, m, e, hk, -, hch, hfree'⟩ := memPoolAlloc_spec (hm.layout hp).bits hok.counts hfree
  have hlt := (mem_freeSlots.mp hk).1
  have hobj : base p + k * (s.caches c).objSize < 2 ^ 64 := hm.objAt_lt hp hlt
  refine ⟨k, m, ?_, hk, hch, hfree'⟩
  have hpool : s.pools (poolAt (s.caches c) p) = s.poolOf c p := rfl
  rw [takeObject, hpool, e, ok_bind, hok.data, wrap_of_lt (x := k * (s.caches c).objSize) (by omega),
    wrap_of_lt hobj]
  rfl

theorem objects_setLinks (s : SlabState) (links : Heads Node) (v : View) :
    objects { s with links := links } v = objects s v := rfl

/-- What a call of `__mem_cache_alloc` gives: an object of the cache that was free. -/
structure Gains (pages : Set ℕ) (s : SlabState) (v : View) (c : ℕ) (s' : SlabState) (v' : View)
    (o : Obj) : Prop where
  inv : Inv pages s' v'
  cache : o.cache = c
  fresh : o ∉ objects s v
  objects : objects s' v' = insert o (objects s v)
  caches : s'.caches = s.caches
  ready : v'.ready = v.ready
  large : v'.large = v.large

/-- An object is taken, and the pool is on the list where it belongs. -/
theorem Gains.of_pool {m : MemPool} {links : Heads Node} (hm : Mem pages s v) (hp : p ∈ v.pools c)
    (hk : k ∈ freeSlots (s.caches c) (s.poolOf c p))
    (hch : (s.poolOf c p).Changes (s.caches c) m ((freeSlots (s.caches c) (s.poolOf c p)).erase k))
    (hl : Lists { s.setPool (poolAt (s.caches c) p) m with links := links } v) :
    Gains pages s v c { s.setPool (poolAt (s.caches c) p) m with links := links } v ⟨c, p, k⟩ := by
  have hmem := (hm.setPool hp hch).setLinks links
  have hobj := objects_take hm hp hk hch
  refine ⟨⟨hmem, hl⟩, rfl, fun ho => ho.2.2 hk, ?_, rfl, rfl, rfl⟩
  rw [objects_setLinks]
  exact hobj

/-- The pool at the front of a list. -/
theorem first_of_list {h : Node} {a : ℕ} {L : List ℕ} (hr : OnRing s.links h ((a :: L).map .pool))
    (hL : Members s v c h (a :: L)) : listFirst s.links h = .ok (.pool a) ∧
      ∃ p ∈ v.pools c, a = poolAt (s.caches c) p ∧ home s c p = h :=
  ⟨listFirst_spec hr, (hL a).mp List.mem_cons_self⟩

/-- There is a pool with some free objects. -/
theorem memCacheAlloc_partial (h : Inv pages s v) {L : List ℕ}
    (hr : OnRing s.links (.partialPools c) (L.map .pool)) (hL : Members s v c (.partialPools c) L)
    (hne : L ≠ []) : ∃ s' o, memCacheAlloc s c = .ok (s', o.addr s.caches) ∧ Gains pages s v c s' v o := by
  obtain ⟨a, L, rfl⟩ := List.exists_cons_of_ne_nil hne
  obtain ⟨hfirst, p, hp, rfl, hhome⟩ := first_of_list hr hL
  have hlay := h.mem.layout hp
  have hpos := hlay.bits.pos
  have hle := (h.mem.pools c p hp).counts.free_le
  have hfree : 0 < (s.poolOf c p).free ∧ (s.poolOf c p).free < (s.caches c).objCount := by
    rw [home, homeOf] at hhome
    split_ifs at hhome with h₁ h₂
    omega
  obtain ⟨k, m, e, hk, hch, hm⟩ := takeObject_spec h.mem hp hfree.1
  have hpool : ((s.setPool (poolAt (s.caches c) p) m).pools (poolAt (s.caches c) p)).free = m.free := by
    rw [setPool_pools, if_pos rfl]
  have hempty : listEmpty s.links (.partialPools c) = .ok false := listEmpty_spec hr
  rw [memCacheAlloc, hempty, ok_bind, if_pos rfl, hfirst]
  simp only [ok_bind, poolEntry, e, hpool]
  by_cases hzero : m.free = 0
  · have hnew : homeOf c (s.caches c) m.free = .busyPools c := by rw [hzero, homeOf_zero c hpos]
    obtain ⟨links, er, hl⟩ := h.lists.relink h.mem hp hnew (by rw [hhome]; rintro ⟨⟩)
    refine ⟨_, ⟨c, p, k⟩, ?_, .of_pool h.mem hp hk hch hl⟩
    rw [if_pos hzero, er, ok_bind]
    rfl
  · have hnew : homeOf c (s.caches c) m.free = home s c p := by
      rw [hhome, homeOf_some c (by omega) (by omega)]
    exact ⟨_, ⟨c, p, k⟩, if_neg hzero, .of_pool h.mem hp hk hch (h.lists.stay h.mem hp hnew)⟩

/-- All pools are full or free, and there is a free one. -/
theorem memCacheAlloc_free (h : Inv pages s v)
    (hr' : OnRing s.links (.partialPools c) []) {L : List ℕ}
    (hr : OnRing s.links (.freePools c) (L.map .pool)) (hL : Members s v c (.freePools c) L)
    (hne : L ≠ []) : ∃ s' o, memCacheAlloc s c = .ok (s', o.addr s.caches) ∧ Gains pages s v c s' v o := by
  obtain ⟨a, L, rfl⟩ := List.exists_cons_of_ne_nil hne
  obtain ⟨hfirst, p, hp, rfl, hhome⟩ := first_of_list hr hL
  have hlay := h.mem.layout hp
  have hthree := hlay.three
  have hfree : (s.poolOf c p).free = (s.caches c).objCount := by
    rw [home, homeOf] at hhome
    split_ifs at hhome with h₁ h₂
    exact h₁
  obtain ⟨k, m, e, hk, hch, hm⟩ := takeObject_spec h.mem hp (by omega)
  have hpool : ((s.setPool (poolAt (s.caches c) p) m).pools (poolAt (s.caches c) p)).free = m.free := by
    rw [setPool_pools, if_pos rfl]
  have hcaches : (s.setPool (poolAt (s.caches c) p) m).caches c = s.caches c := rfl
  have hempty' : listEmpty s.links (.partialPools c) = .ok true := listEmpty_spec hr'
  have hempty : listEmpty s.links (.freePools c) = .ok false := listEmpty_spec hr
  have hnew : homeOf c (s.caches c) m.free = .partialPools c := homeOf_some c (by omega) (by omega)
  obtain ⟨links, er, hl⟩ := h.lists.relink h.mem hp hnew (by rw [hhome]; rintro ⟨⟩)
  refine ⟨_, ⟨c, p, k⟩, ?_, .of_pool h.mem hp hk hch hl⟩
  rw [memCacheAlloc, hempty', ok_bind, if_neg Bool.false_ne_true.symm, hempty, ok_bind, if_pos rfl, hfirst]
  simp only [ok_bind, poolEntry, e, hpool, hcaches]
  rw [if_pos (by omega), er, ok_bind]
  rfl

/-! ### Giving an object back -/

/-- What a call of `__mem_cache_free` does: the object is free. -/
structure Loses (pages : Set ℕ) (s : SlabState) (v : View) (s' : SlabState) (o : Obj) : Prop where
  inv : Inv pages s' v
  objects : objects s' v = {x ∈ objects s v | x ≠ o}
  caches : s'.caches = s.caches

theorem memCacheFree_spec {o : Obj} (h : Inv pages s v) (ho : o ∈ objects s v) :
    ∃ s', memCacheFree s o.cache (o.addr s.caches) = .ok s' ∧ Loses pages s v s' o := by
  obtain ⟨c, p, k⟩ := o
  obtain ⟨hp, hk, hbusy⟩ := ho
  dsimp only at hp hk hbusy
  have hm := h.mem
  have hlay := hm.layout hp
  have hthree := hlay.three
  have hok := hm.pools c p hp
  have hin := hm.poolInMap hp
  have horder := hin.order
  have hoff := hm.off_lt hp hk
  have hobj := hm.objAt_lt hp hk
  have hslot : wsub (objAt (s.caches c) p k) (s.poolOf c p).data / (s.caches c).objSize = k := by
    rw [hok.data, objAt, wsub_of_le (Nat.le_add_right _ _) hobj, Nat.add_sub_cancel_left,
      Nat.mul_div_cancel _ hlay.objSize]
  obtain ⟨m, e, hch, hfree⟩ := memPoolFree_spec hlay.bits hok.counts hlay.objSize hslot hk hbusy
  have hle := hch.counts.free_le
  have hpool : wrap (base p + (s.caches c).metaOffs) = poolAt (s.caches c) p :=
    wrap_of_lt (hm.poolAt_lt hp)
  have hat : s.pools (poolAt (s.caches c) p) = s.poolOf c p := rfl
  have hshift : (s.caches c).poolOrder + pageShift < 64 := by
    rw [maxOrder] at horder
    rw [pageShift]
    omega
  have halign : alignDown (objAt (s.caches c) p k) (2 ^ ((s.caches c).poolOrder + pageShift)) =
      .ok (base p) := hin.alignDown hoff
  have hgive := objects_give hm (show ⟨c, p, k⟩ ∈ objects s v from ⟨hp, hk, hbusy⟩) hch
  have hloses : ∀ links, Lists { s.setPool (poolAt (s.caches c) p) m with links := links } v →
      Loses pages s v { s.setPool (poolAt (s.caches c) p) m with links := links } ⟨c, p, k⟩ :=
    fun links hl => ⟨⟨(hm.setPool hp hch).setLinks links, hl⟩, by
      rw [objects_setLinks]
      exact hgive, rfl⟩
  have hcall : memCacheFree s c (objAt (s.caches c) p k) = (do
      let s' ← relinkIf (m.free = 1) (s.setPool (poolAt (s.caches c) p) m) (poolAt (s.caches c) p)
        (.partialPools c)
      relinkIf (m.free = (s.caches c).objCount) s' (poolAt (s.caches c) p) (.freePools c)) := by
    rw [memCacheFree]
    dsimp only
    rw [shiftOne_eq hshift, ok_bind, halign, ok_bind, hpool, hat, e, ok_bind]
  rw [Obj.addr, hcall]
  -- the pool was full before, or it is free now, or neither
  by_cases hone : m.free = 1
  · have hold : home s c p = .busyPools c := by
      rw [home, show (s.poolOf c p).free = 0 by omega, homeOf_zero c hlay.bits.pos]
    have hnew : homeOf c (s.caches c) m.free = .partialPools c := homeOf_some c (by omega) (by omega)
    obtain ⟨links, er, hl⟩ := h.lists.relink hm hp hnew (by rw [hold]; rintro ⟨⟩)
    refine ⟨_, ?_, hloses links hl⟩
    rw [relinkIf, if_pos hone, er, ok_bind, relinkIf, if_neg (by omega)]
  · by_cases hall : m.free = (s.caches c).objCount
    · have hold : home s c p = .partialPools c := homeOf_some c (by omega) (by omega)
      have hnew : homeOf c (s.caches c) m.free = .freePools c := by rw [hall, homeOf_full]
      obtain ⟨links, er, hl⟩ := h.lists.relink hm hp hnew (by rw [hold]; rintro ⟨⟩)
      refine ⟨_, ?_, hloses links hl⟩
      rw [relinkIf, if_neg hone, ok_bind, relinkIf, if_pos hall, er]
    · have hsame : homeOf c (s.caches c) m.free = home s c p := by
        rw [home, homeOf_some c (by omega) (by omega), homeOf_some c (by omega) (by omega)]
      refine ⟨s.setPool (poolAt (s.caches c) p) m, ?_, hloses s.links (h.lists.stay hm hp hsame)⟩
      rw [relinkIf, if_neg hone, ok_bind, relinkIf, if_neg hall]

end FilesKernel.Slab
