import FilesKernel.Lib.Exec
import FilesKernel.Lib.Words

/-! Page tables (`paging.c`).

    A table is a page of 512 entries, named by its physical address. An access behind the last entry
    of a table is a fault, and so is a call of a function of the null pool. The masks of addresses
    and sizes, which are powers of two, are written with `/` and `%`. -/

namespace FilesKernel.Paging
open CExec CWord

def PTE_PHYS_MASK : ℕ := 0xffffffffff000

/-- The bits `__PTE_PRESENT` and `__PTE_LARGE`. -/
def presentBit : ℕ := 0
def largeBit : ℕ := 7

def PTE_PRESENT : ℕ := 2 ^ 0
def PTE_WRITE : ℕ := 2 ^ 1
def PTE_USER : ℕ := 2 ^ 2
def PTE_LARGE : ℕ := 2 ^ 7

def ptEntries : ℕ := 512

/-- The entries of each table, and how many pages were taken from the pool. -/
structure PtState where
  mem : ℕ → ℕ → ℕ
  taken : ℕ

/-- `get_page` of a pool: the page that it returns when it is called for the `k`-th time; the page
    has been filled with zeros. -/
abbrev PagePool := Option (ℕ → ℕ)

def poolGetPage (pool : PagePool) (s : PtState) : Exec (PtState × ℕ) :=
  match pool with
  | none => .error .fault
  | some page =>
    let p := page s.taken
    .ok (⟨Function.update s.mem p fun _ => 0, s.taken + 1⟩, p)

/-- `pml[i]` -/
def PtState.get (s : PtState) (pml i : ℕ) : Exec ℕ :=
  if i < ptEntries then .ok (s.mem pml i) else .error .fault

/-- `pml[i] = pte` -/
def PtState.set (s : PtState) (pml i pte : ℕ) : Exec PtState :=
  if i < ptEntries then
    .ok { s with mem := Function.update s.mem pml (Function.update (s.mem pml) i pte) }
  else .error .fault

def pmlShift (level : ℕ) : Exec ℕ := do
  bugOn (level < 1 ∨ level > 4) "level < 1 || level > 4"
  .ok ([0, 12, 21, 30, 39].getD level 0)

def pmlOffs (addr level : ℕ) : Exec ℕ := do
  bugOn (level > 4) "level > 4"
  let shift ← pmlShift level
  .ok (addr / 2 ^ shift % ([0x1000, 0x200, 0x200, 0x200, 0x200].getD level 0))

def pmlSize (level : ℕ) : Exec ℕ := do
  bugOn (level < 1 ∨ level > 4) "level < 1 || level > 4"
  let shift ← pmlShift level
  .ok (2 ^ shift)

/-! ### Counting -/

/-- The loop of `__pt_count_pages`, with `sub` for its recursive call and `n` iterations left: what is
    added to the count. There are fewer than 2 ^ 27 tables, so that an `int` can count them. -/
def countEntries (sub : ℕ → ℕ → ℕ → Exec ℕ) (lvl size stop : ℕ) (notaligned : Bool) :
    ℕ → ℕ → ℕ → Exec ℕ
  | 0, _, _ => .ok 0
  | n + 1, start, phys => do
    let entryEnd := wrap (start + size) / size * size
    let mapEnd := if entryEnd < stop then entryEnd else stop
    let tomap := wsub mapEnd start
    let count ← if lvl = 4 ∨ notaligned then sub start mapEnd phys else .ok 0
    let rest ← countEntries sub lvl size stop notaligned n (wrap (start + tomap)) (wrap (phys + tomap))
    .ok (count + rest)

/-- `__pt_count_pages`; `end` is the first address behind the range here. -/
def ptCountPagesInner : ℕ → ℕ → ℕ → ℕ → Exec ℕ
  | 0, _, _, _ => .error (.bug "level < 1 || level > 4")
  | lvl + 1, start, stop, phys => do
    let size ← pmlSize (lvl + 1)
    let first ← pmlOffs start (lvl + 1)
    let final ← pmlOffs (wsub stop 1) (lvl + 1)
    let notaligned := decide (start % size ≠ 0 ∨ phys % size ≠ 0)
    if lvl + 1 = 1 then .ok 1
    else do
      let count ← countEntries (ptCountPagesInner lvl) (lvl + 1) size stop notaligned (final + 1 - first)
        start phys
      .ok (1 + count)

def ptCountPages (start stop phys : ℕ) : Exec ℕ := ptCountPagesInner 4 start stop phys

/-! ### Mapping -/

/-- An iteration of the loop of `__pt_map_pages`, with `sub` for its recursive call: the number of
    bytes that were mapped. -/
def mapEntry (sub : PtState → ℕ → ℕ → ℕ → ℕ → Exec PtState) (pool : PagePool)
    (flags lvl size last pml : ℕ) (s : PtState) (i start phys : ℕ) : Exec (PtState × ℕ) := do
  let pteLarge := if lvl = 3 ∨ lvl = 2 then flags &&& PTE_LARGE else 0
  let aligned := start % size = 0 ∧ phys % size = 0
  let entryEnd := wsub (wrap (start + size) / size * size) 1
  let mapEnd := if entryEnd < last then entryEnd else last
  let tomap := wrap (wsub mapEnd start + 1)
  let pte ← s.get pml i
  if ¬ pte.testBit presentBit then
    if lvl ≠ 4 ∧ tomap = size ∧ aligned ∧ (pteLarge ≠ 0 ∨ lvl = 1) then do
      let s ← s.set pml i (phys ||| flags ||| pteLarge)
      .ok (s, tomap)
    else do
      bugOn (lvl = 1) "lvl == 1"
      let (s, page) ← poolGetPage pool s
      bugOn (page = 0) "!page"
      let pte := page ||| (PTE_PRESENT ||| PTE_WRITE ||| PTE_USER)
      let s ← s.set pml i pte
      let s ← sub s (pte &&& PTE_PHYS_MASK) start mapEnd phys
      .ok (s, tomap)
  else do
    bugOn (lvl = 1) "lvl == 1"
    let s ← sub s (pte &&& PTE_PHYS_MASK) start mapEnd phys
    .ok (s, tomap)

/-- The loop of `__pt_map_pages`, with `n` iterations left. -/
def mapEntries (sub : PtState → ℕ → ℕ → ℕ → ℕ → Exec PtState) (pool : PagePool)
    (flags lvl size last pml : ℕ) : ℕ → PtState → ℕ → ℕ → ℕ → Exec PtState
  | 0, s, _, _, _ => .ok s
  | n + 1, s, i, start, phys => do
    let (s, tomap) ← mapEntry sub pool flags lvl size last pml s i start phys
    mapEntries sub pool flags lvl size last pml n s (i + 1) (wrap (start + tomap))
      (wrap (phys + tomap))

/-- `__pt_map_pages`, with both ends in the range -/
def ptMapPagesInner (pool : PagePool) (flags : ℕ) :
    ℕ → PtState → ℕ → ℕ → ℕ → ℕ → Exec PtState
  | 0, _, _, _, _, _ => .error (.bug "level < 1 || level > 4")
  | lvl + 1, s, pml, start, last, phys => do
    let size ← pmlSize (lvl + 1)
    let first ← pmlOffs start (lvl + 1)
    let final ← pmlOffs last (lvl + 1)
    mapEntries (ptMapPagesInner pool flags lvl) pool flags (lvl + 1) size last pml (final + 1 - first) s
      first start phys

def ptMapPages (pool : PagePool) (s : PtState) (pml4 start stop phys flags : ℕ) : Exec PtState := do
  bugOn (start % 2 ^ 12 ≠ 0) "begin & PAGE_MASK"
  bugOn (stop % 2 ^ 12 ≠ 0) "end & PAGE_MASK"
  ptMapPagesInner pool (flags ||| PTE_PRESENT ||| PTE_LARGE) 4 s pml4 start (wsub stop 1) phys

def ptPopulatePages (pool : PagePool) (s : PtState) (pml4 start stop : ℕ) : Exec PtState := do
  bugOn (start % 2 ^ 12 ≠ 0) "begin & PAGE_MASK"
  bugOn (stop % 2 ^ 12 ≠ 0) "end & PAGE_MASK"
  ptMapPagesInner pool 0 4 s pml4 start (wsub stop 1) 0

end FilesKernel.Paging
