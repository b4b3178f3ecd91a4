import FilesKernel.Buddy.ZoneMemory
import FilesKernel.Slab.MemRuns
import Mathlib.Data.Set.BooleanAlgebra
import Mathlib.Order.CompletePartialOrder

/-! From `balloc_setup` to `mem_alloc`.

    The page allocator has whole pages of what is left of `free_ranges` behind `paging_setup` and
    `page_alloc_setup`. So what `mem_alloc` hands out, and where pools keep their metadata, is off
    reserved memory, off the page tables, and off the descriptors of pages. -/

namespace FilesKernel.Slab
open CExec Balloc RbTree Spans Boot Buddy

variable {c : Image} {mem : BootMem} {info : ℕ} {bs₀ bs bs₁ bs₂ : BallocState} {s : SlabState}
  {pages : Set ℕ} {v : View} {d : MemClient} {b : MemBlock} {ps : PageState}

/-- The bytes that are in use: live blocks, and the metadata of pools. -/
def MemClient.inUse (pools : ℕ → Set ℕ) (d : MemClient) : Set ℕ :=
  {a | (∃ b ∈ d.live, a ∈ d.range b) ∨
    ∃ cache, ∃ p ∈ pools cache, a ∈ metaRange (d.state.caches cache) p}

/-- They are in pages that the page allocator has. -/
theorem Serving.page_of_inUse (h : Serving pages d v) {a : ℕ} (ha : a ∈ d.inUse v.pools) :
    higherBase ≤ a ∧ (a - higherBase) / pageSize ∈ pages := by
  have hm := h.inv.mem
  obtain ⟨x, hx, hax⟩ : ∃ x ∈ v.held d.state.caches, a ∈ bytesOf x := by
    rcases ha with ⟨b, hb, ha⟩ | ⟨cache, p, hp, ha⟩
    · obtain ⟨x, hx, hsub⟩ := hm.holder (h.mem_owned hb)
      exact ⟨x, hx, hsub ha⟩
    · exact ⟨_, Mem.held_pool hp, hm.meta_subset hp ha⟩
  obtain ⟨hbase, hpage⟩ := mem_bytesOf.mp hax
  rw [← hm.holds.law.pages]
  exact ⟨hbase, Or.inl ⟨x, hx, hpage⟩⟩

/-- The address `a` is in the direct map, of memory that is neither reserved nor that of the page tables
    `pages` nor that of the zones `zs`. -/
structure Backed (c : Image) (mem : BootMem) (info : ℕ) (pages : List ℕ) (zs : List Zone) (a : ℕ) :
    Prop where
  direct : higherBase ≤ a
  unreserved : ¬ Reserved c mem info (a - higherBase)
  tables : a - higherBase ∉ tableBytes pages
  zones : a - higherBase ∉ zoneBytes zs

/-- The heap over the pages of `s`: all runs keep the law, and use backed memory only. -/
structure HeapOver (c : Image) (mem : BootMem) (info : ℕ) (tables : List ℕ) (s : SlabState) : Prop where
  starts : ∃ s', memAllocSetup s = .ok s'
  law : ∀ bytes d, MemReach s bytes d → ∃ pools, MemLaw (pagesOf (allFree s.pages)) pools d ∧
    ∀ a ∈ d.inUse pools, Backed c mem info tables s.pages.zones a

/-- The calls of `main` from `balloc_setup` to `mem_alloc_setup`, over a memory map that fits into the
    direct map and with zero descriptors. -/
theorem heap_of_boot {n : ℕ} {tables : List ℕ} (hroot : ∀ t, bs₀.root t = 0)
    (hentry : ∀ p, IsEntry mem info p →
      (mmapEntry mem p).addr + (mmapEntry mem p).length ≤ maxPmemSize)
    (himage : c.bssPhysEnd ≤ maxPmemSize) (hok : ballocSetup c bs₀ mem info = .ok bs)
    (htables : pagingSetupPages c n bs = .ok (bs₁, tables))
    (hset : pageAllocSetup s.pages c bs₁ = .ok (bs₂, ps))
    (hzero : ∀ z ∈ ps.zones, ∀ p, z.Has p → s.pages.flags (z.page p) = 0#64) :
    HeapOver c mem info tables { s with pages := ps } := by
  have hmax : maxPmemSize ≤ 2 ^ 63 := by decide
  obtain ⟨T, hb⟩ := ballocSetup_booted hroot (by decide) hentry himage hok
  obtain ⟨U, hU, -, hout⟩ := ballocSetup_nothing_reserved hroot
    (fun p hp => (hentry p hp).trans_lt (by decide)) hok
  have hroom : ∀ x ∈ freeSet bs T, ¬ Reserved c mem info x := by
    obtain ⟨⟨L, hs⟩, -⟩ := hb.trees
    obtain rfl := hU.unique (hs.trees .freeRanges)
    rintro x ⟨r, hr, hx⟩
    obtain ⟨m, hm, rfl⟩ := List.mem_map.mp hr
    exact hout m hm x hx.1 hx.2
  obtain ⟨T₁, hb₁, ht₁⟩ := pagingSetupPages_taken hmax hb htables
  rcases pageAllocSetup_spec (hb₁.mono hmax) s.pages with ⟨e, -, -, e'⟩ |
    ⟨bs', T', ps', K, hz, e', hb', hfill⟩
  · rw [hset] at e'
    cases e'
  obtain ⟨rfl, rfl⟩ := Prod.mk.inj (Except.ok.inj (e'.symm.trans hset))
  obtain ⟨T₂, hb₂, ht₂, hmap⟩ := zonesFor_taken hmax hb₁ (hb₁.below .memoryMap) hz
  obtain ⟨hready, h0⟩ := (hfill.settled hzero).ready
  refine ⟨(memLaw_of_run (s := { s with pages := ps' }) hready h0 hmap).1, fun bytes d hr => ?_⟩
  obtain ⟨v, hd⟩ := Serving.reach (s := { s with pages := ps' }) hready h0 hmap hr
  refine ⟨v.pools, hd.law, fun a ha => ?_⟩
  obtain ⟨hbase, hpage⟩ := hd.page_of_inUse ha
  have hfree : a - higherBase ∈ freeSet bs' T₂ := hb'.freeSet_eq hb₂ ▸ hfill.mem_freeSet hb' hpage
  have htaken := ht₁.trans ht₂
  have hno := fun hin => Set.disjoint_left.mp htaken.apart hin hfree
  exact ⟨hbase, hroom _ (htaken.sub hfree), fun hin => hno (Or.inl hin), fun hin => hno (Or.inr hin)⟩

theorem low_maxPmem {p : ℕ} (h : IsEntry lowMem 0 p) :
    (mmapEntry lowMem p).addr + (mmapEntry lowMem p).length ≤ maxPmemSize := by
  rcases low_entries h with rfl | rfl <;> decide +kernel

/-- The calls over `lowMem`, with one page for a table -/
def lowBoot : Exec (List ℕ × PageState) := do
  let bs ← ballocSetup bootImage bootState lowMem 0
  let (bs, tables) ← pagingSetupPages bootImage 1 bs
  let (_, ps) ← pageAllocSetup blankPages bootImage bs
  .ok (tables, ps)

theorem lowBoot_ok : (lowBoot.toOption.map fun r => (r.1, r.2.zones)) = some ([0], [⟨4096, 0, 5⟩]) := by
  decide +kernel

theorem lowBoot_heap : ∃ tables ps, lowBoot = .ok (tables, ps) ∧
    HeapOver bootImage lowMem 0 tables { blankSlabs blankPages with pages := ps } := by
  have hrun := lowBoot_ok
  cases e : lowBoot with
  | error _ =>
    rw [e] at hrun
    cases hrun
  | ok r =>
    have hboot := e
    rw [lowBoot] at hboot
    obtain ⟨bs, hok, hboot⟩ := bind_eq_ok.mp hboot
    obtain ⟨⟨bs₁, tables⟩, htables, hboot⟩ := bind_eq_ok.mp hboot
    obtain ⟨⟨bs₂, ps⟩, hset, hboot⟩ := bind_eq_ok.mp hboot
    obtain rfl := Except.ok.inj hboot
    exact ⟨tables, ps, rfl, heap_of_boot (s := blankSlabs blankPages) bootState_root
      (fun _ => low_maxPmem) (by decide) hok htables hset fun _ _ _ _ => rfl⟩

end FilesKernel.Slab
