import FilesKernel.Buddy.Callers
import FilesKernel.Slab.Bitmap

/-! The slab allocator, and `mem_alloc` over it and the page allocator (`alloc.c`).

    A pool is named by the address of its `struct mem_pool`, a cache by a number: `mem_pool[i]` is `i`.
    The metadata of pools and the list links in them are records apart from the bytes that callers
    store, which are a memory of their own: what callers get is never on metadata. Spinlocks are left
    out. -/

namespace FilesKernel.Slab
open CExec CWord LinkedList Buddy

/-! ### The state -/

def pageCacheBit : ℕ := 0

/-- The list heads in caches and pools, and the one on the stack of `mem_cache_shrink`. -/
inductive Node where
  | null
  | freePools (cache : ℕ)
  | partialPools (cache : ℕ)
  | busyPools (cache : ℕ)
  | freeSlabs
  | pool (addr : ℕ)
  deriving DecidableEq, Repr

instance : Zero Node := ⟨.null⟩

/-- The union in `struct page`; its `cache` may be null. -/
inductive PageUse where
  | order (n : ℕ)
  | cache (cache : Option ℕ)
  deriving DecidableEq, Repr

structure SlabState where
  pages : PageState
  use : ℕ → PageUse
  links : Heads Node
  pools : ℕ → MemPool
  caches : ℕ → CacheLayout

namespace SlabState
variable (s : SlabState)

def setPool (addr : ℕ) (pool : MemPool) : SlabState :=
  { s with pools := Function.update s.pools addr pool }

/-- One round of the loop of `mem_pool_create` -/
def claim (page cache : ℕ) : SlabState :=
  { s with
    pages := s.pages.setBit page pageCacheBit
    use := Function.update s.use page (.cache (some cache)) }

/-- One round of the loop of `mem_pool_destroy` -/
def disclaim (page : ℕ) : SlabState :=
  { s with
    pages := s.pages.clearBit page pageCacheBit
    use := Function.update s.use page (.cache none) }

/-- `page->u.order = order`, behind `page_clear_bit` -/
def setOrder (page order : ℕ) : SlabState :=
  { s with
    pages := s.pages.clearBit page pageCacheBit
    use := Function.update s.use page (.order order) }

end SlabState

/-! ### Pools -/

/-- The loop of `mem_pool_create` over `page[0]` to `page[n - 1]` -/
def claimPages (cache page : ℕ) : ℕ → SlabState → SlabState
  | 0, s => s
  | n + 1, s => (claimPages cache page n s).claim (page + sizeofPage * n) cache

/-- The loop of `mem_pool_destroy` over `page[0]` to `page[n - 1]` -/
def disclaimPages (page : ℕ) : ℕ → SlabState → SlabState
  | 0, s => s
  | n + 1, s => (disclaimPages page n s).disclaim (page + sizeofPage * n)

def memPoolCreate (s : SlabState) (cache : ℕ) : Exec (SlabState × ℕ) := do
  let l := s.caches cache
  let (pages, page) ← pageAllocPage s.pages l.poolOrder
  if page = 0 then .ok ({ s with pages := pages }, 0)
  else do
    let addr ← pageAddr pages page
    let pool := va (wrap (addr + l.metaOffs))
    let s := claimPages cache page (2 ^ l.poolOrder) { s with pages := pages }
    let m ← memPoolBitmapSetup l { s.pools pool with page := page, data := va addr, free := l.objCount }
    .ok (s.setPool pool m, pool)

def memPoolDestroy (s : SlabState) (cache pool : ℕ) : Exec SlabState := do
  let l := s.caches cache
  bugOn ((s.pools pool).free ≠ l.objCount) "pool->free != cache->obj_count"
  let page := (s.pools pool).page
  let s := disclaimPages page (2 ^ l.poolOrder) s
  let pages ← pageFreePage s.pages page l.poolOrder
  .ok { s with pages := pages }

/-! ### Caches -/

def memCacheSetup (s : SlabState) (cache size align : ℕ) : Exec SlabState := do
  let l ← memCacheLayoutSetup size align
  let m ← listInit s.links (.freePools cache)
  let m ← listInit m (.partialPools cache)
  let m ← listInit m (.busyPools cache)
  .ok { s with links := m, caches := Function.update s.caches cache l }

/-- `LIST_ENTRY(ptr, struct mem_pool, ll)`, which has to be one -/
def poolEntry : Node → Exec ℕ
  | .pool addr => .ok addr
  | _ => .error .fault

/-- One round of the loop of `mem_cache_shrink`. -/
def shrinkBody (cache : ℕ) : SlabState × Node → Exec ((SlabState × Node) ⊕ SlabState)
  | (s, ptr) =>
    if ptr = .freeSlabs then .ok (.inr s)
    else do
      let pool ← poolEntry ptr
      let n ← load s.links ptr
      let s ← memPoolDestroy s cache pool
      .ok (.inl (s, n.next))

def memCacheShrink (s : SlabState) (cache : ℕ) : Exec SlabState := do
  let m ← listInit s.links .freeSlabs
  let m ← listSplice m (.freePools cache) .freeSlabs
  let n ← load m .freeSlabs
  loop (shrinkBody cache) maxSteps ({ s with links := m }, n.next)

/-- `mem_pool_alloc` of the pool at `pool` -/
def takeObject (s : SlabState) (cache pool : ℕ) : Exec (SlabState × ℕ) := do
  let (m, data) ← memPoolAlloc (s.caches cache) (s.pools pool)
  .ok (s.setPool pool m, data)

/-- `list_del(&pool->ll)`, and `list_add` to another list -/
def relink (s : SlabState) (pool : ℕ) (head : Node) : Exec SlabState := do
  let m ← listDel s.links (.pool pool)
  let m ← listAdd m (.pool pool) head
  .ok { s with links := m }

/-- A relink under a condition, as in `__mem_cache_free` -/
def relinkIf (cond : Prop) [Decidable cond] (s : SlabState) (pool : ℕ) (head : Node) : Exec SlabState :=
  if cond then relink s pool head else .ok s

/-- `__mem_cache_alloc` -/
def memCacheAlloc (s : SlabState) (cache : ℕ) : Exec (SlabState × ℕ) := do
  let noPartial ← listEmpty s.links (.partialPools cache)
  if noPartial = false then do
    let ptr ← listFirst s.links (.partialPools cache)
    let pool ← poolEntry ptr
    let (s, data) ← takeObject s cache pool
    if (s.pools pool).free = 0 then do
      let s ← relink s pool (.busyPools cache)
      .ok (s, data)
    else .ok (s, data)
  else do
    let noFree ← listEmpty s.links (.freePools cache)
    if noFree = false then do
      let ptr ← listFirst s.links (.freePools cache)
      let pool ← poolEntry ptr
      let (s, data) ← takeObject s cache pool
      if (s.pools pool).free ≠ (s.caches cache).objCount then do
        let s ← relink s pool (.partialPools cache)
        .ok (s, data)
      else .ok (s, data)
    else do
      let (s, pool) ← memPoolCreate s cache
      if pool = 0 then .ok (s, 0)
      else do
        let (s, data) ← takeObject s cache pool
        let m ← listAdd s.links (.pool pool) (.partialPools cache)
        .ok ({ s with links := m }, data)

def alignDown (size align : ℕ) : Exec ℕ := do
  let n ← divide size align
  .ok (wrap (align * n))

/-- `__mem_cache_free` -/
def memCacheFree (s : SlabState) (cache ptr : ℕ) : Exec SlabState := do
  let l := s.caches cache
  let poolSize ← shiftOne (l.poolOrder + pageShift)
  let addr ← alignDown ptr poolSize
  let pool := wrap (addr + l.metaOffs)
  let m ← memPoolFree l (s.pools pool) ptr
  let s ← relinkIf (m.free = 1) (s.setPool pool m) pool (.partialPools cache)
  relinkIf (m.free = l.objCount) s pool (.freePools cache)

/-! ### The general allocator -/

/-- `mem_pool_size` -/
def memPoolSizes : List ℕ := [
  64,   128,  192,  256,  320,  384,  448,
  512,  576,  640,  704,  768,  832,  896,
  960,  1024, 1152, 1280, 1408, 1536, 1664,
  1792, 1920, 2048, 2304, 2560, 2816, 3072,
  3584, 4096, 5120, 6144, 7168, 8192]

/-- `MEM_POOLS` -/
def memPools : ℕ := memPoolSizes.length

def memPoolLookup (size : ℕ) : Option ℕ := memPoolSizes.findIdx? fun s => decide (s ≥ size)

/-- The loop of `mem_order_calculate`, from `order` on with `n` rounds left. -/
def memOrderFrom (size : ℕ) : ℕ → ℕ → ℕ
  | 0, order => order
  | n + 1, order => if 2 ^ (order + pageShift) ≥ size then order else memOrderFrom size n (order + 1)

def memOrderCalculate (size : ℕ) : ℕ := memOrderFrom size (maxOrder + 1) 0

def memAllocSetup (s : SlabState) : Exec SlabState :=
  runOps (fun s i => memCacheSetup s i (memPoolSizes.getD i 0) (memPoolSizes.getD 0 0)) s
    (List.range memPools)

def memAllocShrink (s : SlabState) : Exec SlabState :=
  runOps memCacheShrink s (List.range memPools)

def memAlloc (s : SlabState) (size : ℕ) : Exec (SlabState × ℕ) :=
  match memPoolLookup size with
  | some cache => memCacheAlloc s cache
  | none => do
    let order := memOrderCalculate size
    let (pages, page) ← pageAllocPage s.pages order
    if page = 0 then .ok ({ s with pages := pages }, 0)
    else do
      let s := SlabState.setOrder { s with pages := pages } page order
      let addr ← pageAddr s.pages page
      .ok (s, va addr)

/-- The descriptor of the page that `ptr` points into -/
def ptrPage (s : SlabState) (ptr : ℕ) : Exec ℕ := addrPage s.pages (pa ptr / pageSize * pageSize)

def memFree (s : SlabState) (ptr : ℕ) : Exec SlabState :=
  if ptr = 0 then .ok s
  else do
    let page ← ptrPage s ptr
    match s.pages.testBit page pageCacheBit, s.use page with
    | true, .cache (some cache) => memCacheFree s cache ptr
    | false, .order order => do
      let size ← shiftOne (order + pageShift)
      let s := s.setOrder page 0
      let pages ← pageFree s.pages (pa ptr / size * size) order
      .ok { s with pages := pages }
    | _, _ => .error .fault

/-- The bytes that callers store. -/
abbrev Bytes := ℕ → UInt8

def memcpy (bytes : Bytes) : ℕ → ℕ → ℕ → Bytes
  | _, _, 0 => bytes
  | dst, src, size + 1 =>
    memcpy (Function.update bytes dst (bytes src)) (wrap (dst + 1)) (wrap (src + 1)) size

/-- `old_size` of `mem_realloc`: the size of the object, or that of the block of pages. -/
def oldSize (s : SlabState) (ptr : ℕ) : Exec ℕ := do
  let page ← ptrPage s ptr
  match s.pages.testBit page pageCacheBit, s.use page with
  | true, .cache (some cache) => .ok (s.caches cache).objSize
  | false, .order order => shiftOne (pageShift + order)
  | _, _ => .error .fault

def memRealloc (s : SlabState) (bytes : Bytes) (ptr size : ℕ) : Exec (SlabState × Bytes × ℕ) :=
  if ptr = 0 then do
    let (s, new) ← memAlloc s size
    .ok (s, bytes, new)
  else do
    let old ← oldSize s ptr
    if old ≥ size then .ok (s, bytes, ptr)
    else do
      let (s, new) ← memAlloc s size
      if new = 0 then .ok (s, bytes, 0)
      else do
        let bytes := memcpy bytes new ptr old
        let s ← memFree s ptr
        .ok (s, bytes, new)

end FilesKernel.Slab
