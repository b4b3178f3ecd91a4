import FilesKernel.LinkedList.Model

/-! Ranges of the kernel mapping window (`paging.c`).

    The window has `KMAP_PAGES` pages and one descriptor for each; the first and the last descriptor
    of a range record its length. A free range is on the list `kmap_free_ranges[i]` for its size, the
    list head of a live one points to itself. An access outside the array of descriptors is a
    fault. -/

namespace FilesKernel.Kmap
open CExec LinkedList

def kmapOrders : ℕ := 16

/-- `KMAP_SIZE >> PAGE_SHIFT` -/
def kmapPages : ℕ := 0x080000000 / 2 ^ 12

/-- What a list pointer can point to: `kmap_ranges[i].ll` or `&kmap_free_ranges[i]`. -/
inductive Ref where
  | null
  | range (i : ℕ)
  | head (i : ℕ)
  deriving DecidableEq, Repr

instance : Zero Ref := ⟨.null⟩

structure KmapState where
  lists : Heads Ref
  pages : ℕ → ℕ

variable (s : KmapState)

/-- `kmap_ranges[i].pages` -/
def KmapState.getPages (i : ℕ) : Exec ℕ := if i < kmapPages then .ok (s.pages i) else .error .fault

/-- `kmap_ranges[i].pages = n` -/
def KmapState.setPages (i n : ℕ) : Exec KmapState :=
  if i < kmapPages then .ok { s with pages := Function.update s.pages i n } else .error .fault

/-- `(range + pages - 1)->pages = range->pages = pages` -/
def KmapState.tag (range pages : ℕ) : Exec KmapState := do
  let s ← s.setPages range pages
  s.setPages (range + pages - 1) pages

/-- The loop of `kmap_order` from `order` on, with `n` rounds left. -/
def kmapOrderFrom (pages : ℕ) : ℕ → ℕ → ℕ
  | 0, order => order
  | n + 1, order => if 2 ^ order < pages then kmapOrderFrom pages n (order + 1) else order

def kmapOrder (pages : ℕ) : ℕ := kmapOrderFrom pages kmapOrders 0

/-- `&kmap_free_ranges[order - 1]` -/
def kmapHeadBelow : ℕ → Exec Ref
  | 0 => .error .fault
  | o + 1 => if o < kmapOrders then .ok (.head o) else .error .fault

/-- One step along a list of free ranges. -/
def kmapFindBody (head : Ref) (pages : ℕ) (ptr : Ref) : Exec (Ref ⊕ Option ℕ) :=
  if ptr = head then .ok (.inr none)
  else match ptr with
    | .range i => do
      let p ← s.getPages i
      if p ≥ pages then .ok (.inr (some i))
      else do
        let n ← load s.lists ptr
        .ok (.inl n.next)
    | _ => .error .fault

def kmapFindFree (head : Ref) (pages : ℕ) : Exec (Option ℕ) := do
  let n ← load s.lists head
  loop (kmapFindBody s head pages) maxSteps n.next

/-- The part of `kmap_free_range` that takes in the range before. -/
def kmapJoinPrev (range pages : ℕ) : Exec (KmapState × ℕ × ℕ) :=
  if range > 0 then do
    let back ← s.getPages (range - 1)
    if back ≤ range then do
      let prev := range - back
      let empty ← listEmpty s.lists (.range prev)
      if !empty then do
        let m ← listDel s.lists (.range prev)
        let s := { s with lists := m }
        let more ← s.getPages prev
        .ok (s, prev, pages + more)
      else .ok (s, range, pages)
    else .error .fault
  else .ok (s, range, pages)

/-- The part of `kmap_free_range` that takes in the range behind. -/
def kmapJoinNext (range pages : ℕ) : Exec (KmapState × ℕ) :=
  if range + pages < kmapPages then do
    let next := range + pages
    let empty ← listEmpty s.lists (.range next)
    if !empty then do
      let m ← listDel s.lists (.range next)
      let s := { s with lists := m }
      let more ← s.getPages next
      .ok (s, pages + more)
    else .ok (s, pages)
  else .ok (s, pages)

def kmapFreeRange (range pages : ℕ) : Exec KmapState := do
  let (s, range, pages) ← kmapJoinPrev s range pages
  let (s, pages) ← kmapJoinNext s range pages
  let s ← s.tag range pages
  let head ← kmapHeadBelow (kmapOrder (pages + 1))
  let m ← listAdd s.lists (.range range) head
  .ok { s with lists := m }

/-- The loop of `kmap_alloc_range` over the orders, with `n` of them left. -/
def kmapFindFrom (pages : ℕ) : ℕ → Exec (Option ℕ)
  | 0 => .ok none
  | n + 1 => do
    let range ← kmapFindFree s (.head (kmapOrders - (n + 1))) pages
    if range.isSome then .ok range else kmapFindFrom pages n

/-- The range that `kmap_alloc_range` decides for. -/
def kmapChoose (pages : ℕ) : Exec (Option ℕ) := do
  let start := kmapOrder pages
  let range ← kmapFindFrom s pages (kmapOrders - start)
  if range.isNone ∧ 2 ^ start > pages then do
    let head ← kmapHeadBelow start
    kmapFindFree s head pages
  else .ok range

def kmapAllocRange (pages : ℕ) : Exec (KmapState × Option ℕ) := do
  match ← kmapChoose s pages with
  | none => .ok (s, none)
  | some range => do
    let rangePages ← s.getPages range
    let m ← listDel s.lists (.range range)
    let m ← listInit m (.range range)
    let s ← KmapState.tag { s with lists := m } range pages
    let s ← (if rangePages > pages then kmapFreeRange s (range + pages) (rangePages - pages)
      else .ok s : Exec KmapState)
    .ok (s, some range)

/-- The list heads that `kmap_setup` initialises, from index `KMAP_ORDERS - n` on. -/
def kmapSetupHeads : ℕ → Heads Ref → Exec (Heads Ref)
  | 0, m => .ok m
  | n + 1, m => do
    let m ← listInit m (.head (kmapOrders - (n + 1)))
    kmapSetupHeads n m

/-- The part of `kmap_setup` that sets up the ranges. -/
def kmapSetupRanges : Exec KmapState := do
  let m ← kmapSetupHeads kmapOrders s.lists
  kmapFreeRange { s with lists := m } 0 kmapPages

end FilesKernel.Kmap
