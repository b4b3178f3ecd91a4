import FilesKernel.Kmap.Runs
import FilesKernel.Memory
import FilesKernel.Paging.SinglePage

/-! `kmap` and `kunmap` (`paging.c`).

    The kernel maps arrays of pages into the window below `VIRTUAL_BASE`. A mapping takes a range of
    the window and writes one entry of level 1 for each of its pages; the tables above have been
    there since `kmap_setup`. -/

namespace FilesKernel.Kmap
open CExec CWord Radix Paging Tiling

def kmapBegin : ℕ := virtualBase - kmapSize
def kmapEnd : ℕ := virtualBase

/-- A page frame. -/
structure Frame where
  addr : ℕ
  aligned : 2 ^ 12 ∣ addr
  lt : addr < 2 ^ 52

structure KmapMachine where
  ranges : KmapState
  tables : PtState

def kmapAddr (range : ℕ) : ℕ := kmapBegin + range * pageSize

def addrKmap (addr : ℕ) : ℕ := (addr - kmapBegin) / pageSize

section
variable (pml4 : Frame)

/-- The loop of `__kmap` over the pages. -/
def kmapLoop : List Frame → PtState → ℕ → Exec PtState
  | [], s, _ => .ok s
  | page :: pages, s, addr => do
    let s ← ptMapPages none s pml4.addr addr (addr + pageSize) page.addr PTE_WRITE
    kmapLoop pages s (addr + pageSize)

/-- `__kmap`, where no result is the null pointer -/
def kmap (m : KmapMachine) : List Frame → Exec (KmapMachine × Option ℕ)
  | [] => .ok (m, none)
  | [page] => .ok (m, some (va page.addr))
  | pages => do
    match ← kmapAllocRange m.ranges pages.length with
    | (ranges, none) => .ok ({ m with ranges }, none)
    | (ranges, some range) => do
      let tables ← kmapLoop pml4 pages m.tables (kmapAddr range)
      .ok (⟨ranges, tables⟩, some (kmapAddr range))

/-- The loop of `__kunmap` over the levels: the table and the index of the entry that is reached
    from `*pte`. -/
def kunmapWalk (s : PtState) (addr : ℕ) : ℕ → ℕ → Exec (ℕ × ℕ)
  | 0, _ => .error .fault
  | 1, pte => do
    let i ← pmlOffs addr 1
    .ok (pte &&& PTE_PHYS_MASK, i)
  | l + 2, pte => do
    let i ← pmlOffs addr (l + 2)
    let next ← s.get (pte &&& PTE_PHYS_MASK) i
    kunmapWalk s addr (l + 1) next

/-- The loop of `__kunmap` over the pages, with `n` of them left. -/
def kunmapLoop : ℕ → PtState → ℕ → Exec PtState
  | 0, s, _ => .ok s
  | n + 1, s, addr => do
    let (table, i) ← kunmapWalk s addr 4 pml4.addr
    let s ← s.set table i 0
    kunmapLoop n s (addr + pageSize)

def kunmap (m : KmapMachine) (ptr : ℕ) : Exec KmapMachine :=
  if ptr < kmapBegin ∨ ptr ≥ kmapEnd then .ok m
  else do
    let range := addrKmap ptr
    let count ← m.ranges.getPages range
    let tables ← kunmapLoop pml4 count m.tables ptr
    let pages ← m.ranges.getPages range
    let ranges ← kmapFreeRange m.ranges range pages
    .ok ⟨ranges, tables⟩

/-- `kmap_setup`, where `page` is what `page_alloc(0)` returns from call to call and `ranges` what
    `mem_alloc` does. -/
def kmapSetup (page : ℕ → ℕ) (ranges : ℕ) (m : KmapMachine) : Exec KmapMachine := do
  let tables ← ptPopulatePages (some page) m.tables pml4.addr kmapBegin kmapEnd
  bugOn (ranges = 0) "!kmap_ranges"
  let ranges ← kmapSetupRanges m.ranges
  .ok ⟨ranges, tables⟩

end

/-! ### Runs -/

/-- The live mappings: where they are and which pages they show. -/
abbrev Live := List (ℕ × List Frame)

inductive MapOp where
  | map (pages : List Frame)
  | unmap (ptr : ℕ)

def MapOp.step (pml4 : Frame) (m : KmapMachine) : MapOp → Exec (KmapMachine × Option ℕ)
  | .map pages => kmap pml4 m pages
  | .unmap ptr => do
    let m ← kunmap pml4 m ptr
    .ok (m, none)

def MapOp.after (live : Live) : MapOp → Option ℕ → Live
  | .map pages, some ptr => (ptr, pages) :: live
  | .map _, none => live
  | .unmap ptr, _ => live.filter (·.1 ≠ ptr)

/-- Callers map at least two pages and unmap what is live. -/
def MapOp.Legal (live : Live) : MapOp → Prop
  | .map pages => 2 ≤ pages.length
  | .unmap ptr => ∃ pages, (ptr, pages) ∈ live

/-- The address lies in the mapping. -/
def Covers (x : ℕ × List Frame) (a : ℕ) : Prop := x.1 ≤ a ∧ a < x.1 + pageSize * x.2.length

instance (x : ℕ × List Frame) (a : ℕ) : Decidable (Covers x a) := inferInstanceAs (Decidable (_ ∧ _))

def InWindow (a : ℕ) : Prop := kmapBegin ≤ a ∧ a < kmapEnd

/-- The live mappings show their pages, the rest of the window nothing, and other addresses what
    they showed `before`. -/
structure Shows (mem : ℕ → ℕ → ℕ) (pml4 : Frame) (before : ℕ → Option ℕ) (live : Live) : Prop where
  inside : ∀ x ∈ live, kmapBegin ≤ x.1 ∧ x.1 + pageSize * x.2.length ≤ kmapEnd
  mapped : ∀ x ∈ live, ∀ i (_ : i < x.2.length) d, d < pageSize →
    translate mem pml4.addr (x.1 + i * pageSize + d) = some (x.2[i].addr + d)
  apart : live.Pairwise fun x y =>
    x.1 + pageSize * x.2.length ≤ y.1 ∨ y.1 + pageSize * y.2.length ≤ x.1
  clear : ∀ a, InWindow a → (∀ x ∈ live, ¬ Covers x a) → translate mem pml4.addr a = none
  outside : ∀ a, ¬ InWindow a → translate mem pml4.addr a = before a

/-- As long as the calls are legal, each returns and leaves what is live mapped. -/
def RunsShow (pml4 : Frame) (before : ℕ → Option ℕ) : KmapMachine → Live → List MapOp → Prop
  | _, _, [] => True
  | m, live, op :: ops => op.Legal live → ∃ m' r, op.step pml4 m = .ok (m', r) ∧
      Shows m'.tables.mem pml4 before (op.after live r) ∧
      RunsShow pml4 before m' (op.after live r) ops

variable {pml4 : Frame} {m : KmapMachine} {live : Live} {before : ℕ → Option ℕ} {l : List Range}
  {s : PtState} {n a addr t : ℕ} {pages : List Frame}

/-! ### The loops -/

theorem window_upper : 2 ^ 64 - 2 ^ 47 ≤ kmapBegin ∧ kmapEnd < 2 ^ 64 := by decide

/-- What an address shows that is `d` behind the start of a mapping. -/
def frameAt : List Frame → ℕ → Option ℕ
  | [], _ => none
  | page :: pages, d => if d < pageSize then some (page.addr + d) else frameAt pages (d - pageSize)

theorem frameAt_eq : ∀ {pages : List Frame} {i d : ℕ} (hi : i < pages.length), d < pageSize →
    frameAt pages (i * pageSize + d) = some (pages[i].addr + d)
  | page :: pages, 0, d, hi, hd => by
      rw [Nat.zero_mul, Nat.zero_add, frameAt, if_pos hd]
      rfl
  | page :: pages, i + 1, d, hi, hd => by
      have hi' : i < pages.length := Nat.lt_of_succ_lt_succ hi
      have hge : ¬ (i + 1) * pageSize + d < pageSize := by
        rw [Nat.add_mul]
        omega
      rw [frameAt, if_neg hge, Nat.add_mul, Nat.one_mul,
        show i * pageSize + pageSize + d - pageSize = i * pageSize + d by omega, frameAt_eq hi' hd]
      rfl

/-- The loop of `__kmap` maps page after page. -/
theorem kmapLoop_spec : ∀ {pages : List Frame} {s : PtState} {addr : ℕ},
    Populated s.mem pml4.addr kmapBegin kmapEnd → 2 ^ 12 ∣ addr → kmapBegin ≤ addr →
    addr + pageSize * pages.length ≤ kmapEnd →
    (∀ x, Covers (addr, pages) x → translate s.mem pml4.addr x = none) →
    ∃ s', kmapLoop pml4 pages s addr = .ok s' ∧
      Populated s'.mem pml4.addr kmapBegin kmapEnd ∧ ∀ x, translate s'.mem pml4.addr x =
        if Covers (addr, pages) x then frameAt pages (x - addr) else translate s.mem pml4.addr x
  | [], s, addr, h, _, _, _, _ => ⟨s, rfl, h, fun x => by
      have hout : ¬ Covers (addr, []) x := fun hc => by
        obtain ⟨h₁, h₂⟩ := hc
        simp only [List.length_nil, Nat.mul_zero, Nat.add_zero] at h₂
        omega
      rw [if_neg hout]⟩
  | page :: pages, s, addr, h, hdvd, hbegin, hend, hnone => by
      simp only [List.length_cons, Nat.mul_add, Nat.mul_one] at hend
      have hcovers : ∀ x, Covers (addr, page :: pages) x ↔
          x / 2 ^ 12 = addr / 2 ^ 12 ∨ Covers (addr + pageSize, pages) x := fun x => by
        simp only [Covers, List.length_cons, Nat.mul_add, Nat.mul_one, pageSize]
        omega
      have hroom : addr + pageSize ≤ kmapEnd := by omega
      have hphys := page.aligned
      have hlt := page.lt
      have habsent : translate s.mem pml4.addr addr = none := hnone addr ((hcovers addr).mpr (Or.inl rfl))
      obtain ⟨s₁, hok, hpop, htrans⟩ := h.map window_upper.1 window_upper.2 hdvd hbegin
        hroom hphys hlt (show PTE_WRITE &&& PTE_PHYS_MASK = 0 by decide) habsent
      have hdvd' : 2 ^ 12 ∣ addr + pageSize := Nat.dvd_add hdvd (Nat.dvd_refl _)
      obtain ⟨s', hok', hpop', htrans'⟩ := kmapLoop_spec hpop hdvd' (by omega)
        (show addr + pageSize + pageSize * pages.length ≤ kmapEnd by omega)
        fun x hx => by
          have hpage : x / 2 ^ 12 ≠ addr / 2 ^ 12 := fun e => by
            have := hx.1
            rw [pageSize] at this
            omega
          rw [htrans x, if_neg hpage]
          exact hnone x ((hcovers x).mpr (Or.inr hx))
      refine ⟨s', ?_, hpop', fun x => ?_⟩
      · rw [kmapLoop, pageSize, hok, ok_bind]
        exact hok'
      · rw [htrans' x, htrans x]
        by_cases hrest : Covers (addr + pageSize, pages) x
        · have := hrest.1
          rw [if_pos hrest, if_pos ((hcovers x).mpr (Or.inr hrest)), frameAt, if_neg (by omega),
            Nat.sub_sub]
        · rw [if_neg hrest]
          by_cases hpage : x / 2 ^ 12 = addr / 2 ^ 12
          · rw [if_pos hpage, if_pos ((hcovers x).mpr (Or.inl hpage)), frameAt,
              if_pos (by rw [pageSize]; omega), show x % 2 ^ 12 = x - addr by omega]
          · rw [if_neg hpage, if_neg fun hc => ((hcovers x).mp hc).elim hpage hrest]

/-- The walk of `__kunmap` follows the path. -/
theorem kunmapWalk_spec : ∀ {n p pte : ℕ}, n ≤ 4 → Path ptShape s.mem (index addr) n p t →
    pte &&& PTE_PHYS_MASK = p → kunmapWalk s addr n pte = .ok (t, index addr 1)
  | 1, _, pte, _, hp, hpte => by
      rw [kunmapWalk, pmlOffs_eq (by decide), ok_bind, hpte, show _ = t from hp]
  | n + 2, _, pte, hn, ⟨c, hc, hp⟩, rfl => by
      rw [kunmapWalk, pmlOffs_eq ⟨by omega, hn⟩, ok_bind, get_eq (index_lt _ _), ok_bind]
      exact kunmapWalk_spec (by omega) hp (child_eq_some hc).2

/-- The loop of `__kunmap` clears page after page. -/
theorem kunmapLoop_spec : ∀ {n : ℕ} {s : PtState} {addr : ℕ},
    Populated s.mem pml4.addr kmapBegin kmapEnd → 2 ^ 12 ∣ addr → kmapBegin ≤ addr →
    addr + pageSize * n ≤ kmapEnd →
    ∃ s', kunmapLoop pml4 n s addr = .ok s' ∧
      Populated s'.mem pml4.addr kmapBegin kmapEnd ∧ ∀ x, translate s'.mem pml4.addr x =
        if addr ≤ x ∧ x < addr + pageSize * n then none else translate s.mem pml4.addr x
  | 0, s, addr, h, _, _, _ => ⟨s, rfl, h, fun x => by rw [if_neg (by omega)]⟩
  | n + 1, s, addr, h, hdvd, hbegin, hend => by
      rw [Nat.mul_add, Nat.mul_one] at hend
      obtain ⟨t, ht, -, hwrite⟩ := h.entry window_upper.1 (Nat.le_of_lt window_upper.2) hdvd hbegin
        (by rw [pageSize] at hend; omega)
      obtain ⟨hpop, htrans⟩ := hwrite 0
      have hdvd' : 2 ^ 12 ∣ addr + pageSize := Nat.dvd_add hdvd (Nat.dvd_refl _)
      obtain ⟨s', hok, hpop', htrans'⟩ := kunmapLoop_spec (n := n)
        (s := { s with mem := store s.mem t (index addr 1) 0 }) hpop hdvd' (by omega) (by omega)
      refine ⟨s', ?_, hpop', fun x => ?_⟩
      · rw [kunmapLoop, kunmapWalk_spec (Nat.le_refl 4) ht (and_physMask_of_aligned pml4.aligned pml4.lt),
          ok_bind]
        simp only
        rw [set_eq (index_lt _ _), ok_bind, hok]
      · rw [htrans' x, htrans x, endOfWalk_zero]
        by_cases hrest : addr + pageSize ≤ x ∧ x < addr + pageSize + pageSize * n
        · rw [if_pos hrest, if_pos (by rw [Nat.mul_add]; omega)]
        · rw [if_neg hrest]
          by_cases hpage : x / 2 ^ 12 = addr / 2 ^ 12
          · rw [if_pos hpage, if_pos (by rw [Nat.mul_add, pageSize]; omega)]
          · have hout : ¬ (addr ≤ x ∧ x < addr + pageSize * (n + 1)) := by
              rw [Nat.mul_add]
              rw [pageSize] at hrest ⊢
              omega
            rw [if_neg hpage, if_neg hout]

/-! ### Ranges and mappings -/

/-- The ranges of the live mappings. -/
def held (live : Live) : Set (ℕ × ℕ) :=
  {r | ∃ pages, (kmapAddr r.1, pages) ∈ live ∧ pages.length = r.2}

/-- The window is tiled by the ranges of the live mappings and the free ones, and the tables show
    the live mappings. -/
structure Kept (pml4 : Frame) (before : ℕ → Option ℕ) (m : KmapMachine) (live : Live)
    (l : List Range) : Prop where
  laid : Laid m.ranges l
  settled : Settled l
  callers : Callers (held live) l
  starts : ∀ x ∈ live, ∃ i, x.1 = kmapAddr i
  populated : Populated m.tables.mem pml4.addr kmapBegin kmapEnd
  shown : Shows m.tables.mem pml4 before live

theorem kmapAddr_inj {i j : ℕ} (h : kmapAddr i = kmapAddr j) : i = j := by
  simp only [kmapAddr, pageSize] at h
  omega

theorem addrKmap_kmapAddr (i : ℕ) : addrKmap (kmapAddr i) = i := by
  rw [addrKmap, kmapAddr, Nat.add_sub_cancel_left, Nat.mul_div_cancel _ (by decide)]

theorem kmapAddr_dvd (i : ℕ) : 2 ^ 12 ∣ kmapAddr i :=
  Nat.dvd_add (by decide) (Nat.dvd_mul_left _ _)

theorem kmapAddr_bounds {i n : ℕ} (h : i + n ≤ kmapPages) : kmapBegin ≤ kmapAddr i ∧
    kmapAddr i + pageSize * n ≤ kmapEnd := by
  have hpages : kmapBegin + kmapPages * pageSize = kmapEnd := by decide
  have hstop : (i + n) * pageSize ≤ kmapPages * pageSize := Nat.mul_le_mul_right _ h
  rw [Nat.add_mul, Nat.mul_comm n] at hstop
  rw [kmapAddr]
  omega

theorem kmapAddr_apart {i n j : ℕ} (h : i + n ≤ j) :
    kmapAddr i + pageSize * n ≤ kmapAddr j := by
  have hstop : (i + n) * pageSize ≤ j * pageSize := Nat.mul_le_mul_right _ h
  rw [Nat.add_mul, Nat.mul_comm n] at hstop
  rw [kmapAddr, kmapAddr]
  omega

theorem Kept.tile (h : Kept pml4 before m live l) {x : ℕ × List Frame} (hx : x ∈ live) :
    ∃ i, x.1 = kmapAddr i ∧ (⟨i, x.2.length, .live⟩ : Range) ∈ l := by
  obtain ⟨i, hi⟩ := h.starts x hx
  exact ⟨i, hi, (h.callers i x.2.length).mp ⟨x.2, hi ▸ hx, rfl⟩⟩

/-- `kmap` fails and changes nothing, or shows the pages in a range that was free. -/
theorem kmap_spec (h : Kept pml4 before m live l) (hlen : 2 ≤ pages.length) :
    ∃ m' r l', kmap pml4 m pages = .ok (m', r) ∧
      Kept pml4 before m' (MapOp.after live (.map pages) r) l' := by
  have hkmap : kmap pml4 m pages = (do
      match ← kmapAllocRange m.ranges pages.length with
      | (ranges, none) => .ok ({ m with ranges }, none)
      | (ranges, some range) => do
        let tables ← kmapLoop pml4 pages m.tables (kmapAddr range)
        .ok (⟨ranges, tables⟩, some (kmapAddr range)) : Exec (KmapMachine × Option ℕ)) := by
    match pages, hlen with
    | _ :: _ :: _, _ => rfl
  rcases kmapAllocRange_spec h.laid h.settled (p := pages.length) (by omega) with
    ⟨e, -⟩ | ⟨ranges, i, l', e, hlaid, hsettled, hlive, hfresh, -⟩
  · exact ⟨m, none, l, by rw [hkmap, e]; rfl, h⟩
  obtain ⟨R, hR⟩ := id hlaid
  have hnew : (⟨i, pages.length, .live⟩ : Range) ∈ l' := (hlive _ rfl).mpr (Or.inl rfl)
  have hbounds : kmapBegin ≤ kmapAddr i ∧ kmapAddr i + pageSize * pages.length ≤ kmapEnd :=
    kmapAddr_bounds (hR.mem hnew).2
  -- the live ranges are elsewhere
  have hapart : ∀ x ∈ live, kmapAddr i + pageSize * pages.length ≤ x.1 ∨
      x.1 + pageSize * x.2.length ≤ kmapAddr i := fun x hx => by
    obtain ⟨j, hj, hmem⟩ := h.tile hx
    have hne := hfresh _ hmem rfl
    have hmem' := (hlive ⟨j, x.2.length, .live⟩ rfl).mpr (Or.inr hmem)
    rw [hj]
    rcases hR.tiles.apart hnew hmem' (Ne.symm hne) with hle | hle
    · exact Or.inl (kmapAddr_apart hle)
    · exact Or.inr (kmapAddr_apart hle)
  have hfree : ∀ a, Covers (kmapAddr i, pages) a → ∀ x ∈ live, ¬ Covers x a := fun a ha x hx hc => by
    have h₁ : kmapAddr i ≤ a := ha.1
    have h₂ : a < kmapAddr i + pageSize * pages.length := ha.2
    have h₃ : x.1 ≤ a := hc.1
    have h₄ : a < x.1 + pageSize * x.2.length := hc.2
    rcases hapart x hx with h₅ | h₅ <;> omega
  have hwindow : ∀ a, Covers (kmapAddr i, pages) a → InWindow a := fun a ha =>
    ⟨Nat.le_trans hbounds.1 ha.1, Nat.lt_of_lt_of_le ha.2 hbounds.2⟩
  obtain ⟨tables, hok, hpop, htrans⟩ := kmapLoop_spec h.populated (kmapAddr_dvd i) hbounds.1 hbounds.2
    fun a ha => h.shown.clear a (hwindow a ha) (hfree a ha)
  refine ⟨⟨ranges, tables⟩, some (kmapAddr i), l', ?_, hlaid, hsettled, fun start len => ?_,
    fun x hx => ?_, hpop, fun x hx => ?_, fun x hx j hj d hd => ?_, ?_, fun a ha hout => ?_,
    fun a ha => ?_⟩
  · rw [hkmap, e, ok_bind]
    simp only
    rw [hok, ok_bind]
  · rw [hlive _ rfl, ← h.callers]
    simp only [held, MapOp.after, List.mem_cons, Set.mem_ofPred_eq, Prod.mk.injEq, Tile.mk.injEq,
      and_true]
    constructor
    · rintro ⟨ps, ⟨hstart, rfl⟩ | hps, rfl⟩
      · exact Or.inl ⟨kmapAddr_inj hstart, rfl⟩
      · exact Or.inr ⟨ps, hps, rfl⟩
    · rintro (⟨rfl, rfl⟩ | ⟨ps, hps, rfl⟩)
      · exact ⟨pages, Or.inl ⟨rfl, rfl⟩, rfl⟩
      · exact ⟨ps, Or.inr hps, rfl⟩
  · rcases List.mem_cons.mp hx with rfl | hx
    · exact ⟨i, rfl⟩
    · exact h.starts x hx
  · rcases List.mem_cons.mp hx with rfl | hx
    · exact hbounds
    · exact h.shown.inside x hx
  · have hin : Covers x (x.1 + j * pageSize + d) := by
      have hj' : (j + 1) * pageSize ≤ x.2.length * pageSize := Nat.mul_le_mul_right _ hj
      rw [Nat.add_mul, Nat.one_mul, Nat.mul_comm x.2.length] at hj'
      exact ⟨by omega, by omega⟩
    rw [htrans]
    rcases List.mem_cons.mp hx with rfl | hx
    · rw [if_pos hin, Nat.add_assoc, Nat.add_sub_cancel_left]
      exact frameAt_eq hj hd
    · rw [if_neg fun hc => hfree _ hc x hx hin]
      exact h.shown.mapped x hx j hj d hd
  · exact List.pairwise_cons.mpr ⟨hapart, h.shown.apart⟩
  · rw [htrans, if_neg (hout _ List.mem_cons_self)]
    exact h.shown.clear a ha fun x hx => hout x (List.mem_cons_of_mem _ hx)
  · rw [htrans, if_neg fun hc => ha (hwindow a hc)]
    exact h.shown.outside a ha

/-- `kunmap` of a live mapping clears its pages and frees its range. -/
theorem kunmap_spec (h : Kept pml4 before m live l) {ptr : ℕ} (hptr : (ptr, pages) ∈ live) :
    ∃ m' l', kunmap pml4 m ptr = .ok m' ∧
      Kept pml4 before m' (MapOp.after live (.unmap ptr) none) l' := by
  obtain ⟨i, rfl, hmem⟩ := h.tile hptr
  obtain ⟨R, hR⟩ := id h.laid
  obtain ⟨ranges, r, l', e, hlaid, hsettled, hcallers⟩ := KmapOp.step_spec h.laid h.settled h.callers
    (show KmapOp.Legal (held live) (.free i) from ⟨pages.length, pages, hptr, rfl⟩)
  have hget := hR.getPages hmem (by intro e; cases e)
  have hbounds : kmapBegin ≤ kmapAddr i ∧ kmapAddr i + pageSize * pages.length ≤ kmapEnd :=
    kmapAddr_bounds (hR.mem hmem).2
  have hpos := (hR.mem hmem).1
  obtain ⟨tables, hok, hpop, htrans⟩ := kunmapLoop_spec h.populated (kmapAddr_dvd i) hbounds.1 hbounds.2
  have hfree : kmapFreeRange m.ranges i pages.length = .ok ranges := by
    rw [KmapOp.step, hget, ok_bind] at e
    obtain ⟨s', e', hs'⟩ := bind_eq_ok.mp e
    rw [e', (Prod.mk.inj (Except.ok.inj hs')).1]
  -- a live mapping is the one at `ptr` or apart from it
  have hcase : ∀ x ∈ live, x.1 = kmapAddr i ∧ x.2.length = pages.length ∨ x.1 ≠ kmapAddr i ∧
      (kmapAddr i + pageSize * pages.length ≤ x.1 ∨ x.1 + pageSize * x.2.length ≤ kmapAddr i) :=
    fun x hx => by
      obtain ⟨j, hj, hmem'⟩ := h.tile hx
      by_cases hij : j = i
      · subst hij
        have hsame := hR.tiles.eq_of_start hmem' hmem rfl
        exact Or.inl ⟨hj, (Tile.mk.inj hsame).2.1⟩
      · refine Or.inr ⟨fun e => hij (kmapAddr_inj (hj.symm.trans e)), ?_⟩
        rw [hj]
        rcases hR.tiles.apart hmem hmem' (Ne.symm hij) with hle | hle
        · exact Or.inl (kmapAddr_apart hle)
        · exact Or.inr (kmapAddr_apart hle)
  have hkept : ∀ x, x ∈ live.filter (·.1 ≠ kmapAddr i) ↔ x ∈ live ∧ x.1 ≠ kmapAddr i := fun x => by
    rw [List.mem_filter, decide_eq_true_iff]
  have hafter : MapOp.after live (.unmap (kmapAddr i)) none = live.filter (·.1 ≠ kmapAddr i) := rfl
  rw [hafter]
  refine ⟨⟨ranges, tables⟩, l', ?_, hlaid, hsettled, fun start len => ?_, fun x hx => ?_, hpop,
    fun x hx => ?_, fun x hx j hj d hd => ?_, h.shown.apart.filter _, fun a ha hout => ?_,
    fun a ha => ?_⟩
  · have hin : ¬ (kmapAddr i < kmapBegin ∨ kmapAddr i ≥ kmapEnd) := by
      have : 0 < pageSize * pages.length := Nat.mul_pos (by decide) hpos
      omega
    rw [kunmap, if_neg hin, addrKmap_kmapAddr]
    simp only
    rw [hget, ok_bind, hok, ok_bind, ok_bind, hfree, ok_bind]
  · rw [← hcallers]
    simp only [held, KmapOp.after, Set.mem_ofPred_eq, hkept]
    constructor
    · rintro ⟨ps, ⟨hps, hne⟩, rfl⟩
      exact ⟨⟨ps, hps, rfl⟩, fun e => hne (congrArg kmapAddr e)⟩
    · rintro ⟨⟨ps, hps, rfl⟩, hne⟩
      exact ⟨ps, ⟨hps, fun e => hne (kmapAddr_inj e)⟩, rfl⟩
  · exact h.starts x ((hkept x).mp hx).1
  · exact h.shown.inside x ((hkept x).mp hx).1
  · obtain ⟨hx, hne⟩ := (hkept x).mp hx
    rcases hcase x hx with ⟨e, -⟩ | ⟨-, hapart⟩
    · exact absurd e hne
    · have hj' : (j + 1) * pageSize ≤ x.2.length * pageSize := Nat.mul_le_mul_right _ hj
      rw [Nat.add_mul, Nat.one_mul, Nat.mul_comm x.2.length] at hj'
      rw [htrans, if_neg (by omega)]
      exact h.shown.mapped x hx j hj d hd
  · rw [htrans]
    split
    · rfl
    · rename_i hnot
      refine h.shown.clear a ha fun x hx hc => ?_
      rcases hcase x hx with ⟨e₁, e₂⟩ | ⟨hne, -⟩
      · rw [Covers, e₁, e₂] at hc
        exact hnot hc
      · exact hout x ((hkept x).mpr ⟨hx, hne⟩) hc
  · have hnot : ¬ (kmapAddr i ≤ a ∧ a < kmapAddr i + pageSize * pages.length) := fun hc =>
      ha ⟨Nat.le_trans hbounds.1 hc.1, Nat.lt_of_lt_of_le hc.2 hbounds.2⟩
    rw [htrans, if_neg hnot]
    exact h.shown.outside a ha

theorem runsShow_of_kept : ∀ (ops : List MapOp) {m : KmapMachine} {live : Live} {l : List Range},
    Kept pml4 before m live l → RunsShow pml4 before m live ops
  | [], _, _, _, _ => trivial
  | .map pages :: ops, m, live, l, h => fun hop => by
      obtain ⟨m', r, l', e, h'⟩ := kmap_spec h hop
      exact ⟨m', r, e, h'.shown, runsShow_of_kept ops h'⟩
  | .unmap ptr :: ops, m, live, l, h => fun hop => by
      obtain ⟨pages, hptr⟩ := hop
      obtain ⟨m', l', e, h'⟩ := kunmap_spec h hptr
      exact ⟨m', none, by rw [MapOp.step, e, ok_bind], h'.shown, runsShow_of_kept ops h'⟩

/-- From `kmap_setup` on, every run maps what is live and nothing else. -/
theorem runsShow_of_setup {page : ℕ → ℕ} {ranges : ℕ} (hranges : ranges ≠ 0)
    (hclear : ∀ a, InWindow a → translate m.tables.mem pml4.addr a = none)
    (htree : IsTree ptShape m.tables.mem 4 pml4.addr)
    (hf : Fresh page (m.tables.taken + tablesFor 4 kmapBegin (kmapEnd - 1)) m.tables 4 pml4.addr) :
    ∃ m', kmapSetup pml4 page ranges m = .ok m' ∧
      Shows m'.tables.mem pml4 (translate m.tables.mem pml4.addr) [] ∧
      ∀ ops, RunsShow pml4 (translate m.tables.mem pml4.addr) m' [] ops := by
  have hunmapped : Unmapped m.tables.mem pml4.addr kmapBegin kmapEnd :=
    ⟨by decide, by decide, window_upper.1, window_upper.2, by decide, fun a ha ha' =>
      hclear a ⟨ha, ha'⟩⟩
  obtain ⟨tables, e, hpop, htrans⟩ := ptPopulatePages_spec hunmapped (by decide) htree hf
  obtain ⟨s', l, e', hlaid, hsettled, hcallers⟩ := kmapSetupRanges_spec m.ranges
  have hkept : Kept pml4 (translate m.tables.mem pml4.addr) ⟨s', tables⟩ [] l := by
    refine ⟨hlaid, hsettled, fun start len => ?_, fun _ hx => (by cases hx), hpop,
      fun _ hx => (by cases hx), fun _ hx => (by cases hx), List.Pairwise.nil, fun a ha _ => ?_,
      fun a ha => ?_⟩
    · rw [← hcallers]
      constructor
      · rintro ⟨_, hps, -⟩
        cases hps
      · exact fun hmem => hmem.elim
    · exact (htrans a).trans (if_pos ha)
    · exact (htrans a).trans (if_neg ha)
  refine ⟨⟨s', tables⟩, ?_, hkept.shown, fun ops => runsShow_of_kept ops hkept⟩
  rw [kmapSetup, e, ok_bind, bugOn_false hranges, ok_bind, e', ok_bind]

/-- A table of level 4 with nothing in it. -/
def emptyTop : Frame := ⟨0x1000, by decide, by decide⟩

def emptyMachine : KmapMachine := ⟨⟨fun _ => ⟨.null, .null⟩, fun _ => 0⟩, emptyTables⟩

theorem emptyMachine_runsShow : ∃ m', kmapSetup emptyTop framesBehind 1 emptyMachine = .ok m' ∧
    Shows m'.tables.mem emptyTop (translate emptyMachine.tables.mem emptyTop.addr) [] ∧
    ∀ ops, RunsShow emptyTop (translate emptyMachine.tables.mem emptyTop.addr) m' [] ops :=
  runsShow_of_setup (by decide) (fun a _ => translate_empty _ a)
    (IsTree.empty fun i _ => emptyTables_child 4 0x1000 i) (framesBehind_fresh (by decide))

end FilesKernel.Kmap
