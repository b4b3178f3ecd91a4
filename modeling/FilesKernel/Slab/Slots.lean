import FilesKernel.Slab.Bitmap

/-! Pools as sets of free slots.

    To a caller a pool is the set of the slots that are free: the clear bits. Setting up frees every
    slot, allocation takes the least one, and freeing puts one back, so that freeing right behind an
    allocation gives the pool back as it was. -/

namespace FilesKernel.Slab
open CExec CWord CBits

variable {cache : CacheLayout} {pool pool' : MemPool} {F : Finset ℕ} {k : ℕ}

/-- The address of slot `k` -/
def slotAddr (cache : CacheLayout) (pool : MemPool) (k : ℕ) : ℕ :=
  wrap (pool.data + wrap (k * cache.objSize))

/-- The numbers of a layout, as far as its slots need them. -/
structure CacheLayout.Slots (cache : CacheLayout) : Prop where
  bits : cache.Bits
  objSize : 0 < cache.objSize
  room : cache.objSize * cache.objCount ≤ 2 ^ 64

/-- The clear bits are the slots in `F`, and the counter counts them. -/
structure MemPool.Shows (cache : CacheLayout) (pool : MemPool) (F : Finset ℕ) : Prop where
  slots : ∀ i ∈ F, i < cache.objCount
  clear : ∀ i < 64 * cache.maskWords, taken pool.bitmask i = false ↔ i ∈ F
  free : pool.free = F.card

inductive SlotOp where
  | alloc
  | free (k : ℕ)
  deriving Repr

/-- In a run of calls the pool shows the free slots. An allocation returns the first one, and freeing
    that one gives the pool back. -/
def SlotsRefine (cache : CacheLayout) : MemPool → Finset ℕ → List SlotOp → Prop
  | pool, F, [] => pool.Shows cache F
  | pool, F, .alloc :: ops => pool.Shows cache F ∧ (0 < pool.free → ∃ k pool',
      memPoolAlloc cache pool = .ok (pool', slotAddr cache pool k) ∧ k ∈ F ∧ (∀ i ∈ F, k ≤ i) ∧
      memPoolFree cache pool' (slotAddr cache pool k) = .ok pool ∧
      SlotsRefine cache pool' (F.erase k) ops)
  | pool, F, .free k :: ops => pool.Shows cache F ∧ (k < cache.objCount → k ∉ F → ∃ pool',
      memPoolFree cache pool (slotAddr cache pool k) = .ok pool' ∧
      SlotsRefine cache pool' (insert k F) ops)

/-! ### One pool for one set -/

theorem bitmask_ext {mask mask' : List Word} (hlen : mask.length = mask'.length)
    (h : ∀ i < 64 * mask.length, taken mask i = taken mask' i) : mask = mask' := by
  refine List.ext_getElem hlen fun w hw hw' => BitVec.eq_of_getLsbD_eq fun j hj => ?_
  have hbit := h (64 * w + j) (by omega)
  have hdiv : (64 * w + j) / 64 = w := by omega
  have hmod : (64 * w + j) % 64 = j := by omega
  rw [taken, taken, hdiv, hmod, List.getD_eq_getElem?_getD, List.getD_eq_getElem?_getD,
    List.getElem?_eq_getElem hw, List.getElem?_eq_getElem hw', Option.getD_some,
    Option.getD_some] at hbit
  exact hbit

theorem taken_iff (h : pool.Counts cache) {i : ℕ} (hi : i < 64 * cache.maskWords) :
    taken pool.bitmask i = true ↔ i ∉ freeSlots cache pool := by
  rw [mem_freeSlots, not_and, Bool.not_eq_false]
  refine ⟨fun ht _ => ht, fun ht => ?_⟩
  rcases Nat.lt_or_ge i cache.objCount with hlt | hge
  · exact ht hlt
  · exact h.pad i hge hi

/-- A pool is given by where it lies and by its free slots. -/
theorem MemPool.ext_of_slots (h : pool.Counts cache) (h' : pool'.Counts cache)
    (hpage : pool'.page = pool.page) (hdata : pool'.data = pool.data)
    (hslots : freeSlots cache pool' = freeSlots cache pool) : pool' = pool := by
  have hmask : pool'.bitmask = pool.bitmask := by
    refine bitmask_ext (h'.length.trans h.length.symm) fun i hi => ?_
    rw [h'.length] at hi
    rw [Bool.eq_iff_iff, taken_iff h' hi, taken_iff h hi, hslots]
  have hfree : pool'.free = pool.free := by rw [h'.free, h.free, hslots]
  obtain ⟨page, data, free, mask⟩ := pool
  obtain ⟨page', data', free', mask'⟩ := pool'
  simp only at hpage hdata hmask hfree
  rw [hpage, hdata, hmask, hfree]

theorem MemPool.Counts.shows (h : pool.Counts cache) : pool.Shows cache (freeSlots cache pool) := by
  refine ⟨fun i hi => (mem_freeSlots.mp hi).1, fun i hi => ?_, h.free⟩
  rw [← not_iff_not, Bool.not_eq_false]
  exact taken_iff h hi

/-- A pool that is set up has all its slots free. -/
theorem memPoolBitmapSetup_counts (h : cache.Bits) (pool : MemPool) : ∃ pool',
    memPoolBitmapSetup cache { pool with free := cache.objCount } = .ok pool' ∧
      pool'.page = pool.page ∧ pool'.data = pool.data ∧ pool'.Counts cache ∧
      freeSlots cache pool' = Finset.range cache.objCount ∧
      ∀ i < 64 * cache.maskWords, taken pool'.bitmask i = decide (cache.objCount ≤ i) := by
  obtain ⟨mask, e, hlen, htaken⟩ := memPoolBitmapSetup_spec h { pool with free := cache.objCount }
  have hfree : freeSlots cache { pool with free := cache.objCount, bitmask := mask } =
      Finset.range cache.objCount := by
    ext i
    rw [mem_freeSlots, Finset.mem_range, and_iff_left_iff_imp]
    intro hi
    have hw := h.lt_words hi
    rw [htaken i (by omega)]
    exact decide_eq_false (Nat.not_le_of_lt hi)
  refine ⟨_, e, rfl, rfl, ⟨hlen, fun i hi hi' => ?_, ?_⟩, hfree, htaken⟩
  · rw [htaken i hi']
    exact decide_eq_true hi
  · rw [hfree, Finset.card_range]

/-! ### Calls -/

/-- From its address one comes back to a slot. -/
theorem slot_of_addr (hl : cache.Slots) (hk : k < cache.objCount) :
    wsub (slotAddr cache pool k) pool.data / cache.objSize = k := by
  have hpos := hl.objSize
  have hlt : k * cache.objSize < 2 ^ 64 := by
    have h : (k + 1) * cache.objSize ≤ cache.objSize * cache.objCount := by
      rw [Nat.mul_comm]
      exact Nat.mul_le_mul_left _ hk
    have hroom := hl.room
    rw [Nat.add_mul] at h
    omega
  have hoffs : wsub (slotAddr cache pool k) pool.data = k * cache.objSize := by
    rw [slotAddr, wrap_of_lt hlt, wsub_wrap_add hlt]
  rw [hoffs, Nat.mul_div_cancel _ hpos]

/-- Allocation takes the first free slot, and freeing that slot undoes it. -/
theorem memPoolAlloc_undo (hl : cache.Slots) (h : pool.Counts cache)
    (hpos : 0 < pool.free) : ∃ k pool',
    memPoolAlloc cache pool = .ok (pool', slotAddr cache pool k) ∧ k ∈ freeSlots cache pool ∧
      (∀ i ∈ freeSlots cache pool, k ≤ i) ∧
      memPoolFree cache pool' (slotAddr cache pool k) = .ok pool ∧
      pool.Changes cache pool' ((freeSlots cache pool).erase k) := by
  obtain ⟨k, pool', e, hmem, hleast, hchange, -⟩ := memPoolAlloc_spec hl.bits h hpos
  have hk := (mem_freeSlots.mp hmem).1
  have hback : wsub (slotAddr cache pool k) pool'.data / cache.objSize = k := by
    rw [hchange.data]
    exact slot_of_addr hl hk
  obtain ⟨pool'', e', hchange', -⟩ := memPoolFree_spec hl.bits hchange.counts hl.objSize hback hk
    (by rw [hchange.free]; exact Finset.notMem_erase _ _)
  have hslots : freeSlots cache pool'' = freeSlots cache pool := by
    rw [hchange'.free, hchange.free, Finset.insert_erase hmem]
  have hsame := MemPool.ext_of_slots h hchange'.counts (hchange'.page.trans hchange.page)
    (hchange'.data.trans hchange.data) hslots
  exact ⟨k, pool', e, hmem, hleast, by rw [e', hsame], hchange⟩

theorem slotsRefine (hl : cache.Slots) : ∀ (ops : List SlotOp) {pool : MemPool},
    pool.Counts cache → SlotsRefine cache pool (freeSlots cache pool) ops
  | [], pool, h => h.shows
  | .alloc :: ops, pool, h => by
      refine ⟨h.shows, fun hpos => ?_⟩
      obtain ⟨k, pool', e, hmem, hleast, hundo, hchange⟩ := memPoolAlloc_undo hl h hpos
      refine ⟨k, pool', e, hmem, hleast, hundo, ?_⟩
      rw [← hchange.free]
      exact slotsRefine hl ops hchange.counts
  | .free k :: ops, pool, h => by
      refine ⟨h.shows, fun hk hbusy => ?_⟩
      obtain ⟨pool', e, hchange, -⟩ := memPoolFree_spec hl.bits h hl.objSize (slot_of_addr hl hk) hk
        hbusy
      refine ⟨pool', e, ?_⟩
      rw [← hchange.free]
      exact slotsRefine hl ops hchange.counts

/-- A bitmap that is set up marks the positions that are no slots, and from then on it refines the
    set of the free slots. -/
theorem memPoolBitmapSetup_refines (hl : cache.Slots) : ∃ pool',
    memPoolBitmapSetup cache { pool with free := cache.objCount } = .ok pool' ∧
      (∀ i < 64 * cache.maskWords, taken pool'.bitmask i = true ↔ cache.objCount ≤ i) ∧
      ∀ ops, SlotsRefine cache pool' (Finset.range cache.objCount) ops := by
  obtain ⟨pool', e, -, -, hcounts, hslots, htaken⟩ := memPoolBitmapSetup_counts hl.bits pool
  refine ⟨pool', e, fun i hi => ?_, fun ops => ?_⟩
  · rw [htaken i hi, decide_eq_true_iff]
  · rw [← hslots]
    exact slotsRefine hl ops hcounts

/-- The same on a layout with three objects of 64 bytes, for a pool that was in use before. -/
theorem threeSlots_refine : ∃ pool',
    memPoolBitmapSetup ⟨4048, 3, 1, 64, 0⟩ { (⟨0, 4096, 0, [5#64]⟩ : MemPool) with free := 3 } =
        .ok pool' ∧
      (∀ i < 64 * 1, taken pool'.bitmask i = true ↔ 3 ≤ i) ∧
      ∀ ops, SlotsRefine ⟨4048, 3, 1, 64, 0⟩ pool' (Finset.range 3) ops :=
  @memPoolBitmapSetup_refines ⟨4048, 3, 1, 64, 0⟩ ⟨0, 4096, 0, [5#64]⟩
    ⟨⟨by decide, by decide, by decide⟩, by decide, by decide⟩

/-- The layouts of the allocator have such numbers. -/
theorem memCacheLayoutSetup_slots {size align : ℕ} (hs : 0 < size) (ha : 0 < align)
    (hno : NoOverflow size align) : ∃ l, memCacheLayoutSetup size align = .ok l ∧ l.Slots := by
  obtain ⟨l, e, hobj, horder, hwords, hinside, hgreatest⟩ := memCacheLayoutSetup_eq hs ha hno
  have hfit : l.objSize * l.objCount + metaBytes l.objCount ≤ l.poolSize := hgreatest.1
  have hthree : l.Holds 3 := by
    rw [CacheLayout.Holds, CacheLayout.poolSize, hobj, horder]
    exact three_fit (Nat.pow_le_pow_right (by decide) (Nat.le_add_left _ _)) minSizeOf_lt
  have hcount : 3 ≤ l.objCount := hgreatest.2 hthree
  have hpos : 0 < l.objSize := by
    rw [hobj]
    exact hs.trans_le (le_objSizeOf ha)
  have hle := Nat.le_mul_of_pos_left l.objCount hpos
  have horder' : poolOrderOf size align ≤ 51 := Nat.clog_le_of_le_pow hno.pool
  have hsize : l.poolSize ≤ 2 ^ 63 := by
    rw [CacheLayout.poolSize, horder]
    exact Nat.pow_le_pow_right (by decide) (by rw [pageShift]; omega)
  exact ⟨l, e, ⟨by omega, hwords, by omega⟩, hpos, by omega⟩

end FilesKernel.Slab
