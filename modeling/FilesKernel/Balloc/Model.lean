import FilesKernel.Boot.Model
import FilesKernel.Lib.Spans
import FilesKernel.LinkedList.Model
import FilesKernel.RbTree.Model

/-! The bootstrap allocator (`balloc.c`).

    Two red-black trees of ranges, `memory_map` and `free_ranges`, over one pool of
    `BALLOC_MAX_RANGES` nodes. A node that is in no tree is on `balloc_free_list`; its two list
    words lie where a tree node has `left` and `right`. -/

namespace FilesKernel.Balloc
open CExec CWord RbTree LinkedList Spans Boot

def ballocMaxRanges : ℕ := 128

/-- `sizeof(struct memory_node)` -/
def memoryNodeSize : ℕ := 40

/-- Where the linker puts the static objects and the kernel image. -/
structure Image where
  ballocNodes : ℕ
  ballocFreeList : ℕ
  textPhysBegin : ℕ
  bssPhysEnd : ℕ
  nodes_pos : 0 < ballocNodes
  nodes_aligned : ballocNodes % 8 = 0
  nodes_end : ballocNodes + memoryNodeSize * ballocMaxRanges ≤ 2 ^ 64
  list_pos : 0 < ballocFreeList
  list_aligned : ballocFreeList % 8 = 0
  list_end : ballocFreeList + 16 ≤ 2 ^ 64
  list_apart : ballocFreeList + 16 ≤ ballocNodes ∨
    ballocNodes + memoryNodeSize * ballocMaxRanges ≤ ballocFreeList
  image_le : textPhysBegin ≤ bssPhysEnd

/-- `&balloc_nodes[i]` -/
def Image.node (c : Image) (i : ℕ) : ℕ := c.ballocNodes + memoryNodeSize * i

inductive RangeTree where | memoryMap | freeRanges
  deriving DecidableEq

/-- `link` of all nodes and of the list head, `begin` and `end` of all nodes, and the roots. -/
structure BallocState where
  links : ℕ → RbNode
  range : ℕ → Span ℕ
  memoryMap : ℕ
  freeRanges : ℕ

namespace BallocState
variable (s : BallocState)

/-- `tree->root` -/
def root : RangeTree → ℕ
  | .memoryMap => s.memoryMap
  | .freeRanges => s.freeRanges

def tree (t : RangeTree) : RbState := ⟨s.links, s.root t⟩

def setTree (rb : RbState) : RangeTree → BallocState
  | .memoryMap => { s with links := rb.mem, memoryMap := rb.root }
  | .freeRanges => { s with links := rb.mem, freeRanges := rb.root }

/-- The `ll` view of the `link` union. -/
def heads : Heads ℕ := fun a => ⟨(s.links a).left, (s.links a).right⟩

def setHeads (m : Heads ℕ) : BallocState :=
  { s with links := fun a => { s.links a with left := (m a).next, right := (m a).prev } }

def setRange (a : ℕ) (r : Span ℕ) : BallocState :=
  { s with range := Function.update s.range a r }

end BallocState

variable (c : Image) (s : BallocState)

/-! ### Nodes -/

def ballocAllocNode : Exec (BallocState × ℕ) := do
  let empty ← listEmpty s.heads c.ballocFreeList
  bugOn (empty = true) "list_empty(&balloc_free_list) && \"Please, increase BALLOC_MAX_RANGES constant\""
  let head ← load s.heads c.ballocFreeList
  let node := head.next
  let m ← listDel s.heads node
  .ok (s.setHeads m, node)

def ballocFreeNode (node : ℕ) : Exec BallocState := do
  let m ← listAdd s.heads node c.ballocFreeList
  .ok (s.setHeads m)

/-- The loop of `balloc_setup_nodes` from index `BALLOC_MAX_RANGES - n` on. -/
def ballocSetupLoop : ℕ → BallocState → Exec BallocState
  | 0, s => .ok s
  | n + 1, s => do
    let s ← ballocFreeNode c s (c.node (ballocMaxRanges - (n + 1)))
    ballocSetupLoop n s

def ballocSetupNodes : Exec BallocState := do
  let m ← listInit s.heads c.ballocFreeList
  ballocSetupLoop c ballocMaxRanges (s.setHeads m)

/-! ### Adding a range -/

/-- `*plink` -/
def plinkNode (rb : RbState) : Plink → Exec ℕ
  | .root => .ok rb.root
  | .child d p => do
    let np ← rb.load p
    .ok (np.child d)

/-- One step of the search of `__balloc_add_range` for the place of a range that begins at `from`:
    `parent` and `plink`. -/
def ballocPlaceBody (t : RangeTree) (b : ℕ) : ℕ × Plink → Exec ((ℕ × Plink) ⊕ (ℕ × Plink))
  | (parent, plink) => do
    let node ← plinkNode (s.tree t) plink
    if node = 0 then .ok (.inr (parent, plink))
    else if (s.range node).begin < b then .ok (.inl (node, .child .right node))
    else .ok (.inl (node, .child .left node))

/-- `rb_erase` of `node` from the tree -/
def eraseNode (t : RangeTree) (node : ℕ) : Exec BallocState := do
  let rb ← rbErase (s.tree t) node
  .ok (s.setTree rb t)

/-- `rb_link` and `rb_insert` -/
def insertNode (t : RangeTree) (node parent : ℕ) (plink : Plink) : Exec BallocState := do
  let rb ← rbLink (s.tree t) node parent plink
  let rb ← rbInsert rb node
  .ok (s.setTree rb t)

/-- The part of `__balloc_add_range` that takes the predecessor `prev` into `new`. -/
def ballocJoinPrev (t : RangeTree) (new : ℕ) : Exec BallocState := do
  let prev ← rbPrev (s.tree t) new
  if prev ≠ 0 ∧ (s.range prev).stop ≥ (s.range new).begin then
    let s := s.setRange new { s.range new with begin := (s.range prev).begin }
    let s := if (s.range prev).stop > (s.range new).stop then
        s.setRange new { s.range new with stop := (s.range prev).stop }
      else s
    let s ← eraseNode s t prev
    ballocFreeNode c s prev
  else .ok s

/-- The part of `__balloc_add_range` that takes the successor `next` into `new`. -/
def ballocJoinNext (t : RangeTree) (new : ℕ) : Exec BallocState := do
  let next ← rbNext (s.tree t) new
  if next ≠ 0 ∧ (s.range next).begin ≤ (s.range new).stop then
    let s := s.setRange new { s.range new with stop := (s.range next).stop }
    let s ← eraseNode s t next
    ballocFreeNode c s next
  else .ok s

/-- `__balloc_add_range(tree, from, to)` -/
def ballocAddRange (t : RangeTree) (b e : ℕ) : Exec BallocState := do
  let (parent, plink) ← loop (ballocPlaceBody s t b) maxSteps (0, .root)
  let (s, new) ← ballocAllocNode c s
  let s := s.setRange new ⟨b, e⟩
  let s ← insertNode s t new parent plink
  let s ← ballocJoinPrev c s t new
  ballocJoinNext c s t new

/-! ### Removing a range -/

/-- One step of the search for the first range that ends behind `from`: `link` and `ptr`. -/
def ballocFirstBody (t : RangeTree) (b : ℕ) : ℕ × ℕ → Exec ((ℕ × ℕ) ⊕ ℕ)
  | (link, ptr) =>
    if link = 0 then .ok (.inr ptr)
    else do
      let n ← (s.tree t).load link
      if (s.range link).stop > b then .ok (.inl (n.left, link)) else .ok (.inl (n.right, ptr))

def ballocFirst (t : RangeTree) (b : ℕ) : Exec ℕ :=
  loop (ballocFirstBody s t b) maxSteps (s.root t, 0)

/-- What removal and allocation do with a node `ptr`: it leaves the tree, and the parts of its range
    before `b` and from `e` on are added again. -/
def cutNode (t : RangeTree) (ptr b e : ℕ) : Exec BallocState := do
  let s ← eraseNode s t ptr
  let s ← (if (s.range ptr).begin < b then ballocAddRange c s t (s.range ptr).begin b
    else .ok s : Exec BallocState)
  let s ← (if (s.range ptr).stop > e then ballocAddRange c s t e (s.range ptr).stop
    else .ok s : Exec BallocState)
  ballocFreeNode c s ptr

/-- One round of the second loop of `__balloc_remove_range`. -/
def ballocRemoveBody (t : RangeTree) (b e : ℕ) :
    BallocState × ℕ → Exec ((BallocState × ℕ) ⊕ BallocState)
  | (s, ptr) =>
    if ptr ≠ 0 ∧ (s.range ptr).begin < e then do
      let next ← rbNext (s.tree t) ptr
      let s ← cutNode c s t ptr b e
      .ok (.inl (s, next))
    else .ok (.inr s)

/-- `__balloc_remove_range(tree, from, to)` -/
def ballocRemoveRange (t : RangeTree) (b e : ℕ) : Exec BallocState := do
  let ptr ← ballocFirst s t b
  loop (ballocRemoveBody c t b e) maxSteps (s, ptr)

/-! ### Allocation -/

/-- The aligned address at or behind `b`. -/
def ballocAlign (align b : ℕ) : ℕ :=
  let mask := wsub align 1
  wrap (b + mask) &&& (2 ^ 64 - 1 - mask)

/-- One round of the second loop of `__balloc_alloc`. -/
def ballocAllocBody (size align b e : ℕ) : ℕ → Exec (ℕ ⊕ (BallocState × ℕ))
  | ptr =>
    if ptr ≠ 0 ∧ (s.range ptr).begin < e then do
      let r := s.range ptr
      let addr := ballocAlign align (if r.begin > b then r.begin else b)
      if wrap (addr + size) ≤ (if r.stop < e then r.stop else e) then do
        let s ← cutNode c s .freeRanges ptr addr (wrap (addr + size))
        .ok (.inr (s, addr))
      else do
        let next ← rbNext (s.tree .freeRanges) ptr
        .ok (.inl next)
    else .ok (.inr (s, e))

/-- `__balloc_alloc(size, align, from, to)` -/
def ballocAllocAligned (size align b e : ℕ) : Exec (BallocState × ℕ) := do
  let ptr ← ballocFirst s .freeRanges b
  loop (ballocAllocBody c s size align b e) maxSteps ptr

def ballocAlloc (size b e : ℕ) : Exec (BallocState × ℕ) :=
  let align := if size ≤ 8 then 8 else if size ≤ 16 then 16 else if size ≤ 32 then 32 else 64
  ballocAllocAligned c s size align b e

def ballocFree (b e : ℕ) : Exec BallocState := ballocAddRange c s .freeRanges b e

/-! ### The memory map -/

/-- The loops of `balloc_parse_mmap` over the entries, with `act` as their body. -/
def mmapBody (mem : BootMem) (act : BallocState → MmapEntry → Exec BallocState) (stop : ℕ) :
    BallocState × ℕ → Exec ((BallocState × ℕ) ⊕ BallocState)
  | (s, ptr) =>
    if ptr + mmapEntrySize ≤ stop then do
      let entry := mmapEntry mem ptr
      let s ← act s entry
      .ok (.inl (s, wrap (ptr + (entry.size + 4))))
    else .ok (.inr s)

/-- The body of the first loop: every entry goes into both trees. -/
def mmapAdd (s : BallocState) (entry : MmapEntry) : Exec BallocState := do
  let rend := wrap (entry.addr + entry.length)
  let s ← ballocAddRange c s .memoryMap entry.addr rend
  ballocAddRange c s .freeRanges entry.addr rend

/-- The body of the second loop: what is not of type 1 is not free. -/
def mmapReserve (s : BallocState) (entry : MmapEntry) : Exec BallocState := do
  let rend := wrap (entry.addr + entry.length)
  if entry.type ≠ 1 then ballocRemoveRange c s .freeRanges entry.addr rend else .ok s

def ballocParseMmap (mem : BootMem) (info : ℕ) : Exec BallocState := do
  let mb := mbootInfo mem info
  bugOn (mb.flags &&& 2 ^ 6 = 0) "(info->flags & (1ul << 6)) == 0"
  let stop := mb.mmapAddr + mb.mmapSize
  let s ← loop (mmapBody mem (mmapAdd c) stop) maxSteps (s, mb.mmapAddr)
  let s ← ballocAddRange c s .memoryMap c.textPhysBegin c.bssPhysEnd
  let s ← ballocAddRange c s .freeRanges c.textPhysBegin c.bssPhysEnd
  let s ← loop (mmapBody mem (mmapReserve c) stop) maxSteps (s, mb.mmapAddr)
  let initModule ← initramfs mem info
  let s ← ballocRemoveRange c s .freeRanges initModule.1 initModule.2
  ballocRemoveRange c s .freeRanges c.textPhysBegin c.bssPhysEnd

/-- `balloc_setup`, without the printed dump of the ranges. -/
def ballocSetup (mem : BootMem) (info : ℕ) : Exec BallocState := do
  let s ← ballocSetupNodes c s
  ballocParseMmap c s mem info

end FilesKernel.Balloc
