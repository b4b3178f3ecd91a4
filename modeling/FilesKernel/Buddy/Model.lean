import FilesKernel.Balloc.Model
import FilesKernel.Memory

/-! The page allocator (`memory.c`).

    A zone is a run of pages with one descriptor for each, behind `struct page_alloc_zone` in one piece
    of memory. The free blocks of order `i` are on the list `zone->order[i]`, and the first descriptor
    of a block says that it is free, and its order. Addresses are physical here: `va` only shifts them.
    The list of zones grows at its end while they are set up, and is then only read; spinlocks are left
    out, and so are the printed dumps. -/

namespace FilesKernel.Buddy
open CExec CWord LinkedList Balloc RbTree

def maxOrder : ℕ := 18

/-- `sizeof(struct page)`, `sizeof(struct page_alloc_zone)`, and the offsets in the latter. -/
def sizeofPage : ℕ := 32
def sizeofZone : ℕ := 376
def orderOffs : ℕ := 40
def pagesOffs : ℕ := 344

/-! ### Page flags -/

abbrev Flags := BitVec 64

def pageFreeMask : Flags := 1#64 <<< 8
def pageOrderMask : Flags := pageFreeMask - 1#64

def pageOrder (f : Flags) : ℕ := (f &&& pageOrderMask).toNat
def pageIsFree (f : Flags) : Bool := f &&& pageFreeMask ≠ 0#64
def pageSetFree (f : Flags) : Flags := f ||| pageFreeMask
def pageSetBusy (f : Flags) : Flags := f &&& ~~~pageFreeMask

/-- `page_set_order`, behind its assertion -/
def pageWithOrder (f : Flags) (order : ℕ) : Flags :=
  (f &&& ~~~pageOrderMask) ||| BitVec.ofNat 64 order

/-! ### Zones -/

structure Zone where
  addr : ℕ
  begin : ℕ
  stop : ℕ
  deriving DecidableEq, Repr

/-- `&zone->order[i]`; `order[MAX_ORDER + 1]` is where `pages` begins. -/
def Zone.order (z : Zone) (i : ℕ) : ℕ := z.addr + orderOffs + 16 * i

def Zone.pages (z : Zone) : ℕ := z.addr + pagesOffs

/-- The descriptor of the page with index `idx` -/
def Zone.page (z : Zone) (idx : ℕ) : ℕ := z.pages + sizeofPage * (idx - z.begin)

/-- `zone->pages + (idx - zone->begin)`, which has to be in the array -/
def Zone.pageAt (z : Zone) (idx : ℕ) : Exec ℕ :=
  if z.begin ≤ idx ∧ idx < z.stop then .ok (z.page idx) else .error .fault

/-- `(size_t)(page - pages)` -/
def pageDiff (page pages : ℕ) : ℕ :=
  if pages ≤ page then (page - pages) / sizeofPage
  else 2 ^ 64 - (pages - page + (sizeofPage - 1)) / sizeofPage

/-- `zone->begin + (page - zone->pages)` -/
def Zone.idx (z : Zone) (page : ℕ) : ℕ := wrap (z.begin + pageDiff page z.pages)

structure PageState where
  heads : Heads ℕ
  flags : ℕ → Flags
  zones : List Zone

namespace PageState
variable (s : PageState)

def setFree (page : ℕ) : PageState :=
  { s with flags := Function.update s.flags page (pageSetFree (s.flags page)) }

def setBusy (page : ℕ) : PageState :=
  { s with flags := Function.update s.flags page (pageSetBusy (s.flags page)) }

/-- `page_set_order` -/
def setOrder (page order : ℕ) : Exec PageState := do
  bugOn (order > 255) "order > (int)PAGE_ORDER_MASK"
  .ok { s with flags := Function.update s.flags page (pageWithOrder (s.flags page) order) }

end PageState

variable (s : PageState)

def pageAllocZoneFind (idx : ℕ) : Option Zone :=
  s.zones.find? fun z => decide (idx ≥ z.begin ∧ idx < z.stop)

def pageZone (page : ℕ) : Exec Zone :=
  match s.zones.find? fun z => decide (pageDiff page z.pages < z.stop - z.begin) with
  | some z => .ok z
  | none => .error (.bug "orphan page")

def pageAddr (page : ℕ) : Exec ℕ := do
  let z ← pageZone s page
  .ok (wrap (z.idx page * pageSize))

def addrPage (addr : ℕ) : Exec ℕ := do
  bugOn (addr % pageSize ≠ 0) "addr & PAGE_MASK"
  match pageAllocZoneFind s (addr / pageSize) with
  | some z => .ok (z.page (addr / pageSize))
  | none => .error (.bug "Page for addr 0x%lx not found\n")

/-! ### Allocation -/

/-- The first loop of `__page_alloc_zone`, with at most `n` rounds. -/
def pageFindOrder (z : Zone) : ℕ → ℕ → Exec ℕ
  | 0, _ => .error .fuel
  | n + 1, current => do
    let empty ← listEmpty s.heads (z.order current)
    if empty ∧ current ≤ maxOrder then pageFindOrder z n (current + 1) else .ok current

/-- The second loop of `__page_alloc_zone`, from `current` down to `order`. -/
def pageSplit (z : Zone) (idx order : ℕ) : ℕ → PageState → Exec PageState
  | 0, s => if order = 0 then .ok s else .error .fault
  | current + 1, s =>
    if current + 1 = order then .ok s
    else do
      let buddy ← z.pageAt (idx ^^^ 2 ^ current)
      let m ← listAdd s.heads buddy (z.order current)
      let s ← PageState.setOrder { s with heads := m } buddy current
      pageSplit z idx order current (s.setFree buddy)

/-- `__page_alloc_zone` -/
def pageAllocZone (z : Zone) (order : ℕ) : Exec (PageState × ℕ) := do
  let current ← pageFindOrder s z (maxOrder + 2) order
  if current > maxOrder then .ok (s, 0)
  else do
    let empty ← listEmpty s.heads (z.order current)
    bugOn (empty = true) "list_empty(&zone->order[current])"
    let page ← listFirst s.heads (z.order current)
    let idx := z.idx page
    let s := s.setBusy page
    let m ← listDel s.heads page
    let s ← pageSplit z idx order current { s with heads := m }
    .ok (s, page)

/-- The loop over the zones, of `__page_alloc` and of `page_alloc`. -/
def pageAllocFrom (order : ℕ) : List Zone → PageState → Exec (PageState × Option (Zone × ℕ))
  | [], s => .ok (s, none)
  | z :: zs, s => do
    let (s, page) ← pageAllocZone s z order
    if page ≠ 0 then .ok (s, some (z, page)) else pageAllocFrom order zs s

/-- `__page_alloc`, which returns a descriptor -/
def pageAllocPage (order : ℕ) : Exec (PageState × ℕ) :=
  if order > maxOrder then .ok (s, 0)
  else do
    match ← pageAllocFrom order s.zones s with
    | (s, none) => .ok (s, 0)
    | (s, some (_, page)) => .ok (s, page)

/-- `page_alloc`, which returns an address -/
def pageAlloc (order : ℕ) : Exec (PageState × ℕ) :=
  if order > maxOrder then .ok (s, 0)
  else do
    match ← pageAllocFrom order s.zones s with
    | (s, none) => .ok (s, 0)
    | (s, some (z, page)) => .ok (s, wrap (z.idx page * pageSize))

/-! ### Freeing -/

/-- The loop of `__page_free_zone`, with at most `n` rounds: `page` and `order` at its end. -/
def pageMerge (z : Zone) : ℕ → PageState → ℕ → ℕ → ℕ → Exec (PageState × ℕ × ℕ)
  | 0, s, page, _, order => .ok (s, page, order)
  | n + 1, s, page, idx, order => do
    let bidx := idx ^^^ 2 ^ order
    if bidx < z.begin ∨ bidx ≥ z.stop then .ok (s, page, order)
    else do
      let buddy ← z.pageAt bidx
      if ¬ pageIsFree (s.flags buddy) ∨ pageOrder (s.flags buddy) ≠ order then .ok (s, page, order)
      else do
        let m ← listDel s.heads buddy
        let s := { s with heads := m }
        if bidx < idx then pageMerge z n s buddy bidx (order + 1)
        else pageMerge z n s page idx (order + 1)

/-- `__page_free_zone` -/
def pageFreeZone (z : Zone) (page order : ℕ) : Exec PageState := do
  let idx := z.idx page
  bugOn (idx % 2 ^ order ≠ 0) "idx & ((1ull << order) - 1)"
  let (s, page, order) ← pageMerge z (maxOrder - order) s page idx order
  let m ← listAdd s.heads page (z.order order)
  let s ← PageState.setOrder { s with heads := m } page order
  .ok (s.setFree page)

def pageFree (addr order : ℕ) : Exec PageState :=
  if addr = 0 then .ok s
  else match pageAllocZoneFind s (addr / pageSize) with
    | none => .error (.bug "!zone")
    | some z => do
      let page ← z.pageAt (addr / pageSize)
      pageFreeZone s z page order

/-- `__page_free`, which takes a descriptor -/
def pageFreePage (page order : ℕ) : Exec PageState :=
  if page = 0 then .ok s
  else do
    let z ← pageZone s page
    pageFreeZone s z page order

/-! ### Setting up -/

/-- The index of the first page that begins at `addr` or behind it. -/
def pageUp (addr : ℕ) : ℕ := wrap (addr + (pageSize - 1)) / pageSize

/-- The list heads `order[0]` to `order[n - 1]` -/
def pageInitOrders (z : Zone) : ℕ → Heads ℕ → Exec (Heads ℕ)
  | 0, m => .ok m
  | n + 1, m => do
    let m ← pageInitOrders z n m
    listInit m (z.order n)

/-- `__page_alloc_zone_setup`; its `memset` is one of `zone->end - zone->end` descriptors. -/
def pageAllocZoneSetup (c : Image) (bs : BallocState) (zbegin zend : ℕ) :
    Exec (BallocState × PageState) := do
  let b := pageUp zbegin
  let e := zend / pageSize
  if b ≥ e then .ok (bs, s)
  else do
    let (bs, addr) ← ballocAlloc c bs (wrap (sizeofZone + sizeofPage * (e - b))) 0 (2 ^ 64 - 1)
    bugOn (addr = 2 ^ 64 - 1) "pa(zone) == UINTPTR_MAX"
    let z : Zone := ⟨addr, b, e⟩
    let m ← pageInitOrders z (maxOrder + 1) s.heads
    .ok (bs, { s with heads := m, zones := s.zones ++ [z] })

/-- The order of the next block, with at most `n` rounds left. -/
def pageCarveOrder (page e : ℕ) : ℕ → ℕ → ℕ
  | 0, order => order
  | n + 1, order =>
    if page &&& 2 ^ order ≠ 0 then order
    else if page + 2 ^ (order + 1) > e then order
    else pageCarveOrder page e n (order + 1)

/-- One round of the loop of `__page_alloc_zone_free`. -/
def pageCarveBody (z : Zone) (e : ℕ) : PageState × ℕ → Exec ((PageState × ℕ) ⊕ PageState)
  | (s, page) =>
    if page = e then .ok (.inr s)
    else do
      let order := pageCarveOrder page e maxOrder 0
      let ptr ← z.pageAt page
      let m ← listAddTail s.heads ptr (z.order order)
      let s ← PageState.setOrder { s with heads := m } ptr order
      .ok (.inl (s.setFree ptr, page + 2 ^ order))

/-- `__page_alloc_zone_free` -/
def pageAllocZoneFree (zbegin zend : ℕ) : Exec PageState := do
  let b := if pageUp zbegin ≠ 0 then pageUp zbegin else 1
  let e := zend / pageSize
  if b ≥ e then .ok s
  else match pageAllocZoneFind s b with
    | none => .error (.bug "!zone")
    | some z => do
      bugOn (b < z.begin ∨ b ≥ z.stop) "begin < zone->begin || begin >= zone->end"
      bugOn (e ≤ z.begin ∨ e > z.stop) "end <= zone->begin || end > zone->end"
      loop (pageCarveBody z e) maxSteps (s, b)

/-- One round of the loop of `page_alloc_setup` over `memory_map`. -/
def pageSetupBody (c : Image) : (BallocState × PageState) × ℕ →
    Exec (((BallocState × PageState) × ℕ) ⊕ (BallocState × PageState))
  | ((bs, s), ptr) =>
    if ptr = 0 then .ok (.inr (bs, s))
    else do
      let p ← pageAllocZoneSetup s c bs (bs.range ptr).begin (bs.range ptr).stop
      let next ← rbNext (p.1.tree .memoryMap) ptr
      .ok (.inl (p, next))

/-- One round of the loop of `page_alloc_setup` over `free_ranges`. -/
def pageFillBody (bs : BallocState) : PageState × ℕ → Exec ((PageState × ℕ) ⊕ PageState)
  | (s, ptr) =>
    if ptr = 0 then .ok (.inr s)
    else do
      let s ← pageAllocZoneFree s (bs.range ptr).begin (bs.range ptr).stop
      let next ← rbNext (bs.tree .freeRanges) ptr
      .ok (.inl (s, next))

def pageAllocSetup (c : Image) (bs : BallocState) : Exec (BallocState × PageState) := do
  let ptr ← rbLeftmost (bs.tree .memoryMap) bs.memoryMap
  let (bs, s) ← loop (pageSetupBody c) maxSteps ((bs, { s with zones := [] }), ptr)
  let ptr ← rbLeftmost (bs.tree .freeRanges) bs.freeRanges
  let s ← loop (pageFillBody bs) maxSteps (s, ptr)
  .ok (bs, s)

end FilesKernel.Buddy
