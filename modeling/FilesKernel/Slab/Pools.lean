import FilesKernel.LinkedList.Rings
import FilesKernel.Slab.Model

/-! Pools in memory.

    A pool is a block of pages whose descriptors say which cache it belongs to. From any address in it
    one comes back to its first page, and so to its metadata. -/

namespace FilesKernel.Slab
open CExec CWord LinkedList Buddy

/-! ### Addresses -/

/-- The zones are in the direct map. -/
def Mapped (s : PageState) : Prop := ∀ z ∈ s.zones, z.stop * pageSize ≤ maxPmemSize

/-- The address of page `p` in the direct map -/
def base (p : ℕ) : ℕ := p * pageSize + higherBase

/-- The metadata of the pool that begins with page `p` -/
def poolAt (l : CacheLayout) (p : ℕ) : ℕ := base p + l.metaOffs

/-- Object `k` of the pool that begins with page `p` -/
def objAt (l : CacheLayout) (p k : ℕ) : ℕ := base p + k * l.objSize

/-- The layouts that `mem_cache_layout_setup` makes. -/
structure CacheLayout.Sound (l : CacheLayout) : Prop where
  bits : l.Bits
  three : 3 ≤ l.objCount
  objSize : 0 < l.objSize
  apart : l.objSize * l.objCount ≤ l.metaOffs
  inside : l.metaOffs + metaBytes l.objCount = l.poolSize

section
variable {l : CacheLayout} {s : PageState} {p off k o d : ℕ}

theorem CacheLayout.Sound.metaOffs_lt (h : l.Sound) : l.metaOffs < l.poolSize := by
  have hin := h.inside
  rw [metaBytes_eq] at hin
  omega

theorem CacheLayout.Sound.obj_lt (h : l.Sound) (hk : k < l.objCount) :
    k * l.objSize + l.objSize ≤ l.metaOffs := by
  refine le_trans ?_ h.apart
  rw [← Nat.succ_mul, Nat.mul_comm]
  exact Nat.mul_le_mul_left _ hk

/-- The address in a block of `2 ^ o` pages from page `p` on does not wrap around. -/
structure InMap (p o : ℕ) : Prop where
  bound : (p + 2 ^ o) * pageSize ≤ maxPmemSize
  aligned : 2 ^ o ∣ p
  order : o ≤ maxOrder

theorem poolSize_eq (l : CacheLayout) : l.poolSize = 2 ^ l.poolOrder * pageSize := Nat.pow_add 2 _ _

theorem va_eq {x : ℕ} (hx : x < maxPmemSize) : va x = x + higherBase := by
  rw [maxPmemSize] at hx
  rw [va, higherBase, wrap_of_lt (by omega)]

theorem pa_eq {x : ℕ} (hx : x < maxPmemSize) : pa (x + higherBase) = x := by
  rw [maxPmemSize] at hx
  rw [pa, wsub_of_le (Nat.le_add_left _ _) (by rw [higherBase]; omega), Nat.add_sub_cancel]

theorem InMap.lt (h : InMap p o) (hoff : off < 2 ^ o * pageSize) :
    p * pageSize + off < maxPmemSize := by
  have hb := h.bound
  rw [Nat.add_mul] at hb
  omega

/-- The page that an address in the block points into. -/
theorem InMap.pa_div (h : InMap p o) (hoff : off < 2 ^ o * pageSize) :
    pa (base p + off) / pageSize = p + off / pageSize ∧ off / pageSize < 2 ^ o := by
  have hpa : pa (base p + off) = p * pageSize + off := by
    rw [base, Nat.add_right_comm, pa_eq (h.lt hoff)]
  refine ⟨?_, Nat.div_lt_of_lt_mul (by rwa [Nat.mul_comm])⟩
  rw [hpa, Nat.add_comm, Nat.add_mul_div_right _ _ (by decide), Nat.add_comm]

/-- Rounding down leads from an address in the block to its begin. -/
theorem InMap.alignDown (h : InMap p o) (hoff : off < 2 ^ o * pageSize) :
    alignDown (base p + off) (2 ^ (o + pageShift)) = .ok (base p) := by
  have hsize : 2 ^ (o + pageShift) = 2 ^ o * pageSize := Nat.pow_add 2 o pageShift
  have hpos : 0 < 2 ^ (o + pageShift) := Nat.two_pow_pos _
  have horder := h.order
  have hdvd : 2 ^ (o + pageShift) ∣ base p := by
    have hhigh : higherBase = 2 ^ 47 * 131071 := by decide
    have hle : o + pageShift ≤ 47 := by
      rw [maxOrder] at horder
      rw [pageShift]
      omega
    refine Nat.dvd_add ?_ ?_
    · rw [hsize]
      exact Nat.mul_dvd_mul_right h.aligned pageSize
    · rw [hhigh]
      exact Nat.dvd_mul_right_of_dvd (Nat.pow_dvd_pow 2 hle) _
  have hlt := h.lt hoff
  rw [maxPmemSize] at hlt
  have hbase : base p + off < 2 ^ 64 := by
    rw [base, higherBase]
    omega
  obtain ⟨m, hm⟩ := hdvd
  have hdiv : (base p + off) / 2 ^ (o + pageShift) = m := by
    rw [hm, Nat.mul_add_div hpos, Nat.div_eq_of_lt (by rwa [hsize]), Nat.add_zero]
  rw [Slab.alignDown, divide_eq hpos, ok_bind, hdiv, ← hm, wrap_of_lt (by omega)]

theorem base_inj {p q : ℕ} (h : base p = base q) : p = q := by
  have hpos : 0 < pageSize := by decide
  exact Nat.eq_of_mul_eq_mul_right hpos (Nat.add_right_cancel h)

end

/-! ### Descriptors -/

/-- The descriptor of page `p` has the bit `b` and the use `u`. -/
def Uses (s : SlabState) (p : ℕ) (b : Bool) (u : PageUse) : Prop :=
  ∀ d, Describes s.pages p d → s.pages.testBit d pageCacheBit = b ∧ s.use d = u

/-- The descriptors at `A` get the bit `b` and the use `u`, and nothing else changes. -/
structure Marked (s s' : SlabState) (A : Set ℕ) (b : Bool) (u : PageUse) : Prop where
  links : s'.links = s.links
  pools : s'.pools = s.pools
  caches : s'.caches = s.caches
  zones : s'.pages.zones = s.pages.zones
  holds : ∀ pages held, Holds pages s.pages held → Holds pages s'.pages held
  inside : ∀ a ∈ A, s'.pages.testBit a pageCacheBit = b ∧ s'.use a = u
  outside : ∀ a ∉ A, s'.pages.testBit a pageCacheBit = s.pages.testBit a pageCacheBit ∧
    s'.use a = s.use a

section
variable {s s' s'' : SlabState} {A B : Set ℕ} {b b' : Bool} {u u' : PageUse} {p d n : ℕ}

theorem Marked.none (s : SlabState) (b : Bool) (u : PageUse) : Marked s s ∅ b u :=
  ⟨rfl, rfl, rfl, rfl, fun _ _ h => h, fun _ h => absurd h (Set.notMem_empty _),
    fun _ _ => ⟨rfl, rfl⟩⟩

theorem Marked.trans (h : Marked s s' A b u) (h' : Marked s' s'' B b u) :
    Marked s s'' (A ∪ B) b u := by
  refine ⟨h'.links.trans h.links, h'.pools.trans h.pools, h'.caches.trans h.caches,
    h'.zones.trans h.zones, fun pages held hh => h'.holds _ _ (h.holds _ _ hh), fun a ha => ?_,
    fun a ha => ?_⟩
  · by_cases hb : a ∈ B
    · exact h'.inside a hb
    · rw [(h'.outside a hb).1, (h'.outside a hb).2]
      exact h.inside a (ha.resolve_right hb)
  · rw [Set.mem_union, not_or] at ha
    rw [(h'.outside a ha.2).1, (h'.outside a ha.2).2]
    exact h.outside a ha.1

theorem marked_claim (s : SlabState) (page cache : ℕ) :
    Marked s (s.claim page cache) {page} true (.cache (some cache)) := by
  refine ⟨rfl, rfl, rfl, rfl, fun _ _ h => h.setBit page (by decide), fun a ha => ?_, fun a ha => ?_⟩
  · rw [Set.mem_singleton_iff.mp ha]
    refine ⟨?_, Function.update_self ..⟩
    rw [PageState.testBit, SlabState.claim, PageState.setBit]
    dsimp only
    rw [Function.update_self, pageTestBit_setBit (by decide)]
  · have hne : a ≠ page := ha
    refine ⟨?_, Function.update_of_ne hne ..⟩
    rw [PageState.testBit, SlabState.claim, PageState.setBit]
    dsimp only
    rw [Function.update_of_ne hne]
    rfl

/-- Clearing the bit of a descriptor, and setting its use. -/
theorem marked_clear (s : SlabState) (page : ℕ) (u : PageUse) :
    Marked s { s with
      pages := s.pages.clearBit page pageCacheBit
      use := Function.update s.use page u } {page} false u := by
  refine ⟨rfl, rfl, rfl, rfl, fun _ _ h => h.clearBit page (by decide), fun a ha => ?_,
    fun a ha => ?_⟩
  · rw [Set.mem_singleton_iff.mp ha]
    refine ⟨?_, Function.update_self ..⟩
    rw [PageState.testBit, PageState.clearBit]
    dsimp only
    rw [Function.update_self, pageTestBit_clearBit (by decide)]
  · have hne : a ≠ page := ha
    refine ⟨?_, Function.update_of_ne hne ..⟩
    rw [PageState.testBit, PageState.clearBit]
    dsimp only
    rw [Function.update_of_ne hne]
    rfl

/-- The descriptors of `n` pages in a row -/
def descriptors (d n : ℕ) : Set ℕ := {a | ∃ i < n, a = d + sizeofPage * i}

theorem descriptors_succ (d n : ℕ) :
    descriptors d (n + 1) = descriptors d n ∪ {d + sizeofPage * n} := by
  ext a
  constructor
  · rintro ⟨i, hi, rfl⟩
    rcases Nat.lt_succ_iff_lt_or_eq.mp hi with hi | rfl
    · exact Or.inl ⟨i, hi, rfl⟩
    · exact Or.inr rfl
  · rintro (⟨i, hi, rfl⟩ | rfl)
    · exact ⟨i, Nat.lt_succ_of_lt hi, rfl⟩
    · exact ⟨n, Nat.lt_succ_self n, rfl⟩

theorem descriptors_zero (d : ℕ) : descriptors d 0 = ∅ :=
  Set.eq_empty_of_forall_notMem fun _ ⟨_, hi, _⟩ => Nat.not_lt_zero _ hi

theorem claimPages_marked (s : SlabState) (cache d : ℕ) : ∀ n,
    Marked s (claimPages cache d n s) (descriptors d n) true (.cache (some cache))
  | 0 => by
      rw [descriptors_zero]
      exact Marked.none s _ _
  | n + 1 => by
      rw [descriptors_succ]
      exact (claimPages_marked s cache d n).trans (marked_claim _ _ cache)

theorem disclaimPages_marked (s : SlabState) (d : ℕ) : ∀ n,
    Marked s (disclaimPages d n s) (descriptors d n) false (.cache none)
  | 0 => by
      rw [descriptors_zero]
      exact Marked.none s _ _
  | n + 1 => by
      rw [descriptors_succ]
      exact (disclaimPages_marked s d n).trans (marked_clear _ _ _)

theorem Marked.describes (h : Marked s s' A b u) : Describes s'.pages p d ↔ Describes s.pages p d := by
  rw [Describes, Describes, h.zones]

/-- Other pages are used as before. -/
theorem Uses.marked (hu : Uses s p b' u') (h : Marked s s' A b u)
    (hp : ∀ d, Describes s.pages p d → d ∉ A) : Uses s' p b' u' := fun d hd => by
  have hd' := h.describes.mp hd
  rw [(h.outside d (hp d hd')).1, (h.outside d (hp d hd')).2]
  exact hu d hd'

/-- The page allocator does not change what pages are used for. -/
theorem Uses.served (hu : Uses s p b u) {pages : PageState} (h : Served s.pages pages) :
    Uses { s with pages := pages } p b u := fun d hd => by
  have hd' : Describes s.pages p d := by
    rw [Describes, ← h.zones]
    exact hd
  have hbit : pages.testBit d pageCacheBit = s.pages.testBit d pageCacheBit :=
    (h.user d).testBit (by decide)
  rw [hbit]
  exact hu d hd'

end

end FilesKernel.Slab
