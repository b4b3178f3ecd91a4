import FilesKernel.Balloc.Bootstrap
import Mathlib.Data.Set.BooleanAlgebra
import Mathlib.Order.CompletePartialOrder

/-! Memory that `paging_setup` takes for page tables.

    Between `balloc_setup` and `page_alloc_setup`, every page of the first page table comes from
    `__balloc_alloc`. What is taken is free memory before, and is not free any more. -/

namespace FilesKernel.Balloc
open CExec CWord RbTree RedBlack Spans

/-! ### Taken memory -/

variable {c : Image} {bs bs' : BallocState} {T T' : RangeTree → ColorTree ℕ} {M M' size addr : ℕ}
  {free free' free'' used used' : Set ℕ}

theorem Booted.mono (h : Booted c M bs T) (hM : M ≤ M') : Booted c M' bs T :=
  ⟨h.trees, fun t r hr => (h.below t r hr).trans hM, h.sub⟩

/-- Free memory is what the tree at `free_ranges` says. -/
theorem Booted.freeSet_eq (h : Booted c M bs T) (h' : Booted c M' bs T') : freeSet bs T = freeSet bs T' := by
  obtain ⟨⟨L, hs⟩, -⟩ := h.trees
  obtain ⟨⟨L', hs'⟩, -⟩ := h'.trees
  rw [freeSet, freeSet, (hs.trees .freeRanges).unique (hs'.trees .freeRanges)]

/-- `used` is free memory that is not free any more. -/
structure Taken (free free' used : Set ℕ) : Prop where
  sub : free' ⊆ free
  inside : used ⊆ free
  apart : Disjoint used free'

theorem Taken.none (free : Set ℕ) : Taken free free ∅ :=
  ⟨Set.Subset.rfl, Set.empty_subset _, Set.disjoint_left.mpr fun _ hx => absurd hx (Set.notMem_empty _)⟩

theorem Taken.trans (h : Taken free free' used) (h' : Taken free' free'' used') :
    Taken free free'' (used ∪ used') :=
  ⟨h'.sub.trans h.sub, Set.union_subset h.inside (h'.inside.trans h.sub),
    Set.disjoint_union_left.mpr ⟨h.apart.mono_right h'.sub, h'.apart⟩⟩

theorem Allocated.taken {L' : List ℕ} {T' : ColorTree ℕ} (ha : Allocated c bs T size bs' addr L' T') :
    Taken (freeSet bs T) (freeSet bs' (Function.update T .freeRanges T'))
      (Set.Ico addr (addr + size)) := by
  refine ⟨?_, ha.subset, ?_⟩
  · rw [ha.freeSet_eq]
    exact Set.sdiff_subset
  · rw [ha.freeSet_eq]
    exact Set.disjoint_left.mpr fun x hx hx' => hx'.2 hx

/-! ### Page tables -/

def bootstrapMem : ℕ := 0x100000000

/-- `paging_setup_get_page`: a page for the first page table -/
def pagingSetupGetPage (c : Image) (bs : BallocState) : Exec (BallocState × ℕ) := do
  let (bs, page) ← ballocAllocAligned c bs (2 ^ 12) (2 ^ 12) 0 bootstrapMem
  bugOn (page = bootstrapMem) "page == BOOTSTRAP_MEM && \"Not enough free memory to setup initial page table\""
  .ok (bs, page)

/-- The pages that `paging_setup` gets, `n` of them. -/
def pagingSetupPages (c : Image) : ℕ → BallocState → Exec (BallocState × List ℕ)
  | 0, bs => .ok (bs, [])
  | n + 1, bs => do
    let (bs, page) ← pagingSetupGetPage c bs
    let (bs, pages) ← pagingSetupPages c n bs
    .ok (bs, page :: pages)

/-- The bytes of some pages -/
def tableBytes (pages : List ℕ) : Set ℕ := {a | ∃ p ∈ pages, a ∈ Set.Ico p (p + 2 ^ 12)}

theorem tableBytes_nil : tableBytes [] = ∅ := by
  refine Set.eq_empty_of_forall_notMem fun a ha => ?_
  obtain ⟨p, hp, -⟩ := ha
  exact List.not_mem_nil hp

theorem tableBytes_cons (page : ℕ) (pages : List ℕ) :
    tableBytes (page :: pages) = Set.Ico page (page + 2 ^ 12) ∪ tableBytes pages := by
  ext a
  exact List.exists_mem_cons_iff ..

theorem pagingSetupGetPage_taken {page : ℕ} (h : Booted c M bs T) (hM : M ≤ 2 ^ 63)
    (hok : pagingSetupGetPage c bs = .ok (bs', page)) :
    ∃ T', Booted c M bs' T' ∧ Taken (freeSet bs T) (freeSet bs' T') (Set.Ico page (page + 2 ^ 12)) := by
  obtain ⟨⟨L, hs⟩, hv⟩ := h.trees
  have hwrap : NoWrap (bs.ranges (T .freeRanges)) (2 ^ 12) (2 ^ 12) 0 bootstrapMem := by
    intro r hr _ _ _
    have hle := (hv _).le r hr
    have hstop := h.below _ r hr
    have hb : max r.begin 0 + (2 ^ 12 - 1) < 2 ^ 64 := by omega
    have haddr := ballocAlign_le (k := 12) (by decide) hb
    exact ⟨hb, by omega⟩
  rw [pagingSetupGetPage] at hok
  rcases ballocAllocAligned_returns hs (hv _) (by decide) (by decide) hwrap with ⟨e, -⟩ | ⟨e, -⟩ |
    ⟨bs₁, addr, L', T', e, -, ha⟩
  · rw [e] at hok
    cases hok
  · rw [e, ok_bind] at hok
    dsimp only at hok
    rw [bugOn_true rfl] at hok
    cases hok
  · rw [e, ok_bind] at hok
    obtain ⟨_, -, hok⟩ := bind_eq_ok.mp hok
    obtain ⟨rfl, rfl⟩ := Prod.mk.inj (Except.ok.inj hok)
    exact ⟨_, h.alloc ha, ha.taken⟩

theorem pagingSetupPages_taken (hM : M ≤ 2 ^ 63) : ∀ {n : ℕ} {bs bs' : BallocState}
    {T : RangeTree → ColorTree ℕ} {pages : List ℕ}, Booted c M bs T →
    pagingSetupPages c n bs = .ok (bs', pages) →
    ∃ T', Booted c M bs' T' ∧ Taken (freeSet bs T) (freeSet bs' T') (tableBytes pages)
  | 0, bs, bs', T, pages, h, hok => by
      obtain ⟨rfl, rfl⟩ := Prod.mk.inj (Except.ok.inj hok)
      exact ⟨T, h, tableBytes_nil ▸ .none _⟩
  | n + 1, bs, bs', T, pages, h, hok => by
      rw [pagingSetupPages] at hok
      obtain ⟨⟨bs₁, page⟩, e₁, hok⟩ := bind_eq_ok.mp hok
      obtain ⟨⟨bs₂, pages₂⟩, e₂, hok⟩ := bind_eq_ok.mp hok
      obtain ⟨rfl, rfl⟩ := Prod.mk.inj (Except.ok.inj hok)
      obtain ⟨T₁, h₁, ht₁⟩ := pagingSetupGetPage_taken h hM e₁
      obtain ⟨T₂, h₂, ht₂⟩ := pagingSetupPages_taken hM h₁ e₂
      exact ⟨T₂, h₂, (tableBytes_cons page pages₂).symm ▸ ht₁.trans ht₂⟩

end FilesKernel.Balloc
