import FilesKernel.Kmap.Mapping

/-! The first page table.

    `paging_setup` maps physical memory at `HIGHER_BASE` and the kernel at `VIRTUAL_BASE`. What lies in
    between, the window of `kmap` with it, is left unmapped. -/

namespace FilesKernel.Kmap
open CExec CWord Radix Paging

/-- How much of `memory` is mapped: whole pages, and no more than there is room for. -/
def memSize (memory : ℕ) : ℕ :=
  let physMemLimit := memory / pageSize * pageSize
  if physMemLimit < maxPmemSize then physMemLimit else maxPmemSize

/-- `paging_setup`, where `memory` is what `balloc_memory` returns: the tables, and the page that goes
    into the register of the walk. -/
def pagingSetup (pool : PagePool) (memory : ℕ) (s : PtState) : Exec (PtState × ℕ) := do
  let (s, pml4) ← poolGetPage pool s
  let s ← ptMapPages pool s pml4 higherBase (wrap (higherBase + memSize memory)) 0 PTE_WRITE
  let s ← ptMapPages pool s pml4 virtualBase 0 0 PTE_WRITE
  .ok (s, pml4)

variable {page : ℕ → ℕ} {s s' : PtState} {memory limit a p : ℕ}

/-! ### The pages -/

/-- The first `limit` pages from the pool are different frames, none of them at `0`. -/
structure GoodPages (page : ℕ → ℕ) (limit : ℕ) : Prop where
  ok : ∀ k < limit, page k ≠ 0 ∧ 2 ^ 12 ∣ page k ∧ page k < 2 ^ 52
  distinct : ∀ j < limit, ∀ k < limit, page j = page k → j = k

/-- The tables over the two ranges, and the one on top -/
def tablesOf (memory : ℕ) : ℕ :=
  1 + tablesFor 4 higherBase (higherBase + memSize memory - 1) + tablesFor 4 virtualBase (2 ^ 64 - 1)

/-- A table full of zeros -/
def cleared (s : PtState) (p : ℕ) : PtState := ⟨Function.update s.mem p fun _ => 0, s.taken + 1⟩

theorem cleared_entry (s : PtState) (p i : ℕ) : ((cleared s p).mem p i).testBit presentBit = false := by
  rw [cleared]
  dsimp only
  rw [Function.update_self]
  exact Nat.zero_testBit _

theorem cleared_translate (s : PtState) (p a : ℕ) : translate (cleared s p).mem p a = none := by
  rw [Paging.translate]
  split
  · exact leafOf_eq_none.mp (leafOf_absent (cleared_entry s p _))
  · rfl

theorem cleared_tree (s : PtState) (p : ℕ) : IsTree ptShape (cleared s p).mem 4 p :=
  IsTree.empty fun i _ => child_absent (cleared_entry s p i)

/-- The other pages are fresh. -/
theorem cleared_fresh (h : GoodPages page limit) (hs : s.taken = 0) (hpos : 0 < limit) :
    Fresh page limit (cleared s (page 0)) 4 (page 0) := by
  have htaken : (cleared s (page 0)).taken = 1 := by rw [cleared, hs]
  refine ⟨fun k _ hk => h.ok k hk, fun j k _ _ hj hk => h.distinct j hj k hk, fun k hk hlt hmem => ?_⟩
  rw [tables_empty fun i => child_absent (cleared_entry s (page 0) i), Set.mem_singleton_iff] at hmem
  have hzero := h.distinct k hlt 0 hpos hmem
  omega

theorem fresh_mono {n : ℕ} (h : Fresh page limit s n p) {limit' : ℕ} (hle : limit' ≤ limit) :
    Fresh page limit' s n p :=
  ⟨fun k hk hlt => h.ok k hk (hlt.trans_le hle),
    fun j k hj hk hj' hk' => h.distinct j k hj hk (hj'.trans_le hle) (hk'.trans_le hle),
    fun k hk hlt => h.out k hk (hlt.trans_le hle)⟩

/-! ### The two ranges -/

theorem memSize_bounds (hmem : pageSize ≤ memory) :
    0 < memSize memory ∧ memSize memory ≤ maxPmemSize ∧ 2 ^ 12 ∣ memSize memory := by
  have hlimit : 2 ^ 12 ≤ memory := hmem
  rw [memSize, pageSize, maxPmemSize]
  split <;> omega

/-- Physical memory is mapped at `HIGHER_BASE`, the kernel at `VIRTUAL_BASE`, and nothing else. -/
structure DirectMapped (mem : ℕ → ℕ → ℕ) (pml4 size : ℕ) : Prop where
  memory : ∀ x < size, translate mem pml4 (higherBase + x) = some x
  kernel : ∀ x < 2 ^ 64 - virtualBase, translate mem pml4 (virtualBase + x) = some x
  rest : ∀ a, ¬ (higherBase ≤ a ∧ a < higherBase + size) →
    ¬ (virtualBase ≤ a ∧ a < 2 ^ 64) → translate mem pml4 a = none
  window : ∀ a, InWindow a → translate mem pml4 a = none

/-- With a page of memory and good pages for the tables, `paging_setup` ends with the direct map. -/
theorem pagingSetup_directMapped (hmem : pageSize ≤ memory) (h : GoodPages page (tablesOf memory))
    (hs : s.taken = 0) : ∃ s', pagingSetup (some page) memory s = .ok (s', page 0) ∧
      DirectMapped s'.mem (page 0) (memSize memory) := by
  obtain ⟨hpos, hmax, hdvd⟩ := memSize_bounds hmem
  have hmax' : memSize memory ≤ 0x00007fff00000000 := hmax
  have hbase : higherBase = 0xffff800000000000 := rfl
  have hvirt : virtualBase = 0xffffffff80000000 := rfl
  have hwrap : wrap (higherBase + memSize memory) = higherBase + memSize memory :=
    wrap_of_lt (by omega)
  have hend : rangeEnd (higherBase + memSize memory) = higherBase + memSize memory :=
    if_neg (by omega)
  have hend' : rangeEnd 0 = 2 ^ 64 := rfl
  have hlimit : 0 < tablesOf memory := by
    rw [tablesOf]
    omega
  obtain ⟨s₀, hs₀⟩ : ∃ s₀, s₀ = cleared s (page 0) := ⟨_, rfl⟩
  have htaken : s₀.taken = 1 := by rw [hs₀, cleared, hs]
  have hfresh : Fresh page (tablesOf memory) s₀ 4 (page 0) := hs₀ ▸ cleared_fresh h hs hlimit
  have hnone : ∀ a, translate s₀.mem (page 0) a = none := fun a => hs₀ ▸ cleared_translate s _ a
  have hflags : PTE_WRITE &&& PTE_PHYS_MASK = 0 := by decide
  have hphys : 2 ^ 12 ∣ 0 := Nat.dvd_zero _
  -- physical memory
  have hun₁ : Unmapped s₀.mem (page 0) higherBase (higherBase + memSize memory) :=
    ⟨by omega, by omega, by omega, by omega, by omega, fun a _ _ => hnone a⟩
  have htree : IsTree ptShape s₀.mem 4 (page 0) := hs₀ ▸ cleared_tree s _
  obtain ⟨s₁, e₁, hm₁, ht₁⟩ := ptMapPages_mapped hun₁ hphys (by omega) hflags htree
    (fresh_mono hfresh (by rw [hend, htaken, tablesOf]; omega))
  rw [hend] at ht₁
  -- the kernel
  have hused := hm₁.used
  rw [wsub_of_le (by omega) (by omega), htaken] at hused
  have hun₂ : Unmapped s₁.mem (page 0) virtualBase 0 :=
    ⟨by omega, by omega, by omega, by omega, by omega,
      fun a ha _ => by rw [ht₁, if_neg (by omega), hnone]⟩
  obtain ⟨s₂, e₂, -, ht₂⟩ := ptMapPages_mapped hun₂ hphys (by omega) hflags hm₁.grows.tree
    (fresh_mono (hfresh.extends hm₁.taken hm₁.grows) (by rw [hend', tablesOf]; omega))
  rw [hend'] at ht₂
  refine ⟨s₂, ?_, fun x hx => ?_, fun x hx => ?_, fun a ha ha' => ?_, fun a ha => ?_⟩
  · have hget : poolGetPage (some page) s = .ok (s₀, page 0) := by rw [hs₀, cleared, poolGetPage, hs]
    rw [pagingSetup, hget, ok_bind]
    dsimp only
    rw [hwrap, e₁, ok_bind, e₂, ok_bind]
  · rw [ht₂, if_neg (by omega), ht₁, if_pos (by omega), Nat.add_sub_cancel_left, Nat.zero_add]
  · rw [ht₂, if_pos (by omega), Nat.add_sub_cancel_left, Nat.zero_add]
  · rw [ht₂, if_neg ha', ht₁, if_neg ha, hnone]
  · have hbegin : kmapBegin = 0xffffffff00000000 := rfl
    have hstop : kmapEnd = 0xffffffff80000000 := rfl
    obtain ⟨hle, hlt⟩ := ha
    rw [ht₂, if_neg (by omega), ht₁, if_neg (by omega), hnone]

/-- One page of memory, and the frames from `0x2000` on. -/
theorem onePage_directMapped : ∃ s', pagingSetup (some framesBehind) pageSize emptyTables =
    .ok (s', framesBehind 0) ∧ DirectMapped s'.mem (framesBehind 0) (memSize pageSize) := by
  refine pagingSetup_directMapped (Nat.le_refl _) ⟨fun k hk => ?_, fun j _ k _ e => ?_⟩ rfl
  · have hlt : tablesOf pageSize ≤ 2 ^ 39 := by decide
    rw [framesBehind]
    omega
  · rw [framesBehind, framesBehind] at e
    omega

end FilesKernel.Kmap
