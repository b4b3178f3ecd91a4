import FilesKernel.Slab.Shrink

/-! What callers of the slab allocator own.

    A caller owns an object of a cache or a block of whole pages, each from its address on for as many
    bytes as it has. No two of these have a byte in common, and none is on the metadata of a pool. -/

namespace FilesKernel.Slab
open CExec CWord LinkedList Buddy

variable {pages : Set ℕ} {s s' : SlabState} {v v' : View} {c p i j : ℕ} {k k' : ℕ × Origin}

/-! ### Bytes of pages -/

/-- The addresses of a block of pages -/
def bytesOf (x : ℕ × ℕ) : Set ℕ := Set.Ico (base x.1) (base x.1 + 2 ^ x.2 * pageSize)

theorem mem_bytesOf {x : ℕ × ℕ} {a : ℕ} :
    a ∈ bytesOf x ↔ higherBase ≤ a ∧ (a - higherBase) / pageSize ∈ blockPages x := by
  have hpos : 0 < pageSize := by decide
  rw [bytesOf, blockPages, Set.mem_Ico, Set.mem_Ico, Nat.le_div_iff_mul_le hpos,
    Nat.div_lt_iff_lt_mul hpos, Nat.add_mul, base]
  omega

theorem bytesOf_disjoint {x y : ℕ × ℕ} (h : Disjoint (blockPages x) (blockPages y)) :
    Disjoint (bytesOf x) (bytesOf y) :=
  Set.disjoint_left.mpr fun _ hx hy =>
    Set.disjoint_left.mp h (mem_bytesOf.mp hx).2 (mem_bytesOf.mp hy).2

/-! ### Owned memory -/

/-- The allocator that a piece of memory comes from. -/
inductive Origin where
  | cache (c : ℕ)
  | order (n : ℕ)
  deriving DecidableEq, Repr

/-- The bytes of a piece of memory -/
def capacity (caches : ℕ → CacheLayout) : Origin → ℕ
  | .cache c => (caches c).objSize
  | .order n => 2 ^ (n + pageShift)

/-- The addresses of the piece at `k.1` -/
def rangeOf (caches : ℕ → CacheLayout) (k : ℕ × Origin) : Set ℕ :=
  Set.Ico k.1 (k.1 + capacity caches k.2)

def Obj.key (caches : ℕ → CacheLayout) (o : Obj) : ℕ × Origin := (o.addr caches, .cache o.cache)

def blockKey (x : ℕ × ℕ) : ℕ × Origin := (base x.1, .order x.2)

/-- What is handed out, by address and origin. -/
def owned (s : SlabState) (v : View) : Set (ℕ × Origin) :=
  Obj.key s.caches '' objects s v ∪ blockKey '' v.large

/-- The metadata of a pool: the `struct mem_pool` with its whole bitmap. -/
def metaRange (l : CacheLayout) (p : ℕ) : Set ℕ := Set.Ico (poolAt l p) (poolAt l p + metaBytes l.objCount)

/-- The objects of a pool are between its begin and its metadata. -/
theorem CacheLayout.Sound.rangeOf_subset {caches : ℕ → CacheLayout} {o : Obj}
    (h : (caches o.cache).Sound) (hk : o.slot < (caches o.cache).objCount) :
    rangeOf caches (o.key caches) ⊆ Set.Ico (base o.page) (poolAt (caches o.cache) o.page) := by
  have hobj := h.obj_lt hk
  refine Set.Ico_subset_Ico ?_ ?_
  · exact Nat.le_add_right _ _
  · rw [Obj.key, capacity, Obj.addr, objAt, poolAt]
    omega

namespace Mem

theorem pool_subset (hm : Mem pages s v) (hp : p ∈ v.pools c) :
    Set.Ico (base p) (poolAt (s.caches c) p) ⊆ bytesOf (p, (s.caches c).poolOrder) := by
  have hlt := (hm.layout hp).metaOffs_lt
  rw [poolSize_eq] at hlt
  refine Set.Ico_subset_Ico (Nat.le_refl _) ?_
  rw [poolAt]
  exact Nat.add_le_add_left hlt.le _

theorem meta_subset (hm : Mem pages s v) (hp : p ∈ v.pools c) :
    metaRange (s.caches c) p ⊆ bytesOf (p, (s.caches c).poolOrder) := by
  have hin := (hm.layout hp).inside
  rw [poolSize_eq] at hin
  refine Set.Ico_subset_Ico (Nat.le_add_right _ _) ?_
  rw [poolAt]
  dsimp only
  omega

theorem object_pool (hm : Mem pages s v) {o : Obj} (ho : o ∈ objects s v) :
    rangeOf s.caches (o.key s.caches) ⊆ Set.Ico (base o.page) (poolAt (s.caches o.cache) o.page) :=
  (hm.layout ho.1).rangeOf_subset ho.2.1

theorem rangeOf_block (caches : ℕ → CacheLayout) (x : ℕ × ℕ) :
    rangeOf caches (blockKey x) = bytesOf x := by
  rw [rangeOf, blockKey, capacity, bytesOf, Nat.pow_add]
  rfl

/-- Pieces of memory are in blocks that are held. -/
theorem holder (hm : Mem pages s v) (hk : k ∈ owned s v) :
    ∃ x ∈ v.held s.caches, rangeOf s.caches k ⊆ bytesOf x := by
  rcases hk with ⟨o, ho, rfl⟩ | ⟨x, hx, rfl⟩
  · exact ⟨_, held_pool ho.1, (hm.object_pool ho).trans (hm.pool_subset ho.1)⟩
  · exact ⟨x, Or.inr hx, (rangeOf_block s.caches x).subset⟩

theorem bytes_apart (hm : Mem pages s v) {x y : ℕ × ℕ} (hx : x ∈ v.held s.caches)
    (hy : y ∈ v.held s.caches) (hne : x ≠ y) : Disjoint (bytesOf x) (bytesOf y) :=
  bytesOf_disjoint (hm.holds.law.live_apart x hx y hy hne)

/-- Two objects of one pool. -/
theorem slots_apart {caches : ℕ → CacheLayout} (hne : i ≠ j) :
    Disjoint (rangeOf caches (Obj.key caches ⟨c, p, i⟩)) (rangeOf caches (Obj.key caches ⟨c, p, j⟩)) := by
  refine Set.disjoint_left.mpr fun a ha ha' => hne ?_
  obtain ⟨hle, hlt⟩ := Set.mem_Ico.mp ha
  obtain ⟨hle', hlt'⟩ := Set.mem_Ico.mp ha'
  simp only [Obj.key, Obj.addr, objAt, capacity] at hle hlt hle' hlt'
  rcases Nat.lt_trichotomy i j with h | h | h
  · have hmul := Nat.mul_le_mul_right (caches c).objSize h
    rw [Nat.succ_mul] at hmul
    omega
  · exact h
  · have hmul := Nat.mul_le_mul_right (caches c).objSize h
    rw [Nat.succ_mul] at hmul
    omega

/-- What is handed out has no byte in common. -/
theorem owned_apart (hm : Mem pages s v) (hk : k ∈ owned s v) (hk' : k' ∈ owned s v) (hne : k ≠ k') :
    Disjoint (rangeOf s.caches k) (rangeOf s.caches k') := by
  rcases hk with ⟨o, ho, rfl⟩ | ⟨x, hx, rfl⟩ <;> rcases hk' with ⟨o', ho', rfl⟩ | ⟨x', hx', rfl⟩
  · by_cases he : o.cache = o'.cache ∧ o.page = o'.page
    · obtain ⟨c, p, i⟩ := o
      obtain ⟨c', p', j⟩ := o'
      obtain ⟨rfl, rfl⟩ := he
      exact slots_apart fun hij => hne (by rw [hij])
    · refine (hm.bytes_apart (held_pool ho.1) (held_pool ho'.1) fun hx => he ?_).mono
        ((hm.object_pool ho).trans (hm.pool_subset ho.1))
        ((hm.object_pool ho').trans (hm.pool_subset ho'.1))
      have hq := first_mem (o.page, (s.caches o.cache).poolOrder)
      exact hm.pool_unique ho.1 ho'.1 hq (hx ▸ hq)
  · refine (hm.bytes_apart (held_pool ho.1) (Or.inr hx') ?_).mono
      ((hm.object_pool ho).trans (hm.pool_subset ho.1)) (rangeOf_block s.caches x').subset
    rintro rfl
    exact hm.not_large ho.1 hx'
  · refine (hm.bytes_apart (Or.inr hx) (held_pool ho'.1) ?_).mono (rangeOf_block s.caches x).subset
      ((hm.object_pool ho').trans (hm.pool_subset ho'.1))
    rintro rfl
    exact hm.not_large ho'.1 hx
  · rw [rangeOf_block, rangeOf_block]
    exact hm.bytes_apart (Or.inr hx) (Or.inr hx') fun h => hne (by rw [h])

/-- What is handed out is not on metadata. -/
theorem owned_metadata (hm : Mem pages s v) (hk : k ∈ owned s v) (hp : p ∈ v.pools c) :
    Disjoint (rangeOf s.caches k) (metaRange (s.caches c) p) := by
  rcases hk with ⟨o, ho, rfl⟩ | ⟨x, hx, rfl⟩
  · by_cases he : o.cache = c ∧ o.page = p
    · obtain ⟨rfl, rfl⟩ := he
      refine Set.disjoint_left.mpr fun a ha ha' => ?_
      have hlt := (Set.mem_Ico.mp (hm.object_pool ho ha)).2
      exact absurd (Set.mem_Ico.mp ha').1 (Nat.not_le_of_lt hlt)
    · refine (hm.bytes_apart (held_pool ho.1) (held_pool hp) fun hx => he ?_).mono
        ((hm.object_pool ho).trans (hm.pool_subset ho.1)) (hm.meta_subset hp)
      have hq := first_mem (o.page, (s.caches o.cache).poolOrder)
      exact hm.pool_unique ho.1 hp hq (hx ▸ hq)
  · refine (hm.bytes_apart (Or.inr hx) (held_pool hp) ?_).mono (rangeOf_block s.caches x).subset
      (hm.meta_subset hp)
    rintro rfl
    exact hm.not_large hp hx

/-- No piece of memory is empty. -/
theorem capacity_pos (hm : Mem pages s v) (hk : k ∈ owned s v) : 0 < capacity s.caches k.2 := by
  rcases hk with ⟨o, ho, rfl⟩ | ⟨x, hx, rfl⟩
  · exact (hm.layout ho.1).objSize
  · exact Nat.two_pow_pos _

/-- The address says which piece it is. -/
theorem owned_inj (hm : Mem pages s v) (hk : k ∈ owned s v) (hk' : k' ∈ owned s v)
    (he : k.1 = k'.1) : k = k' := by
  by_contra hne
  have hpos := hm.capacity_pos hk
  have hpos' := hm.capacity_pos hk'
  have hin : k.1 ∈ rangeOf s.caches k := Set.mem_Ico.mpr ⟨Nat.le_refl _, Nat.lt_add_of_pos_right hpos⟩
  have hin' : k.1 ∈ rangeOf s.caches k' := by
    rw [he]
    exact Set.mem_Ico.mpr ⟨Nat.le_refl _, Nat.lt_add_of_pos_right hpos'⟩
  exact Set.disjoint_left.mp (hm.owned_apart hk hk' hne) hin hin'

/-- No piece of memory wraps around. -/
theorem owned_lt (hm : Mem pages s v) (hk : k ∈ owned s v) :
    higherBase ≤ k.1 ∧ k.1 + capacity s.caches k.2 < 2 ^ 64 := by
  obtain ⟨x, hx, hsub⟩ := hm.holder hk
  have hpos := hm.capacity_pos hk
  obtain ⟨hle, hlt⟩ := (Set.Ico_subset_Ico_iff (Nat.lt_add_of_pos_right hpos)).mp hsub
  have hbound := (hm.inMap hx).bound
  rw [Nat.add_mul, maxPmemSize] at hbound
  rw [base] at hle hlt
  rw [higherBase] at hle hlt ⊢
  omega

theorem key_inj (hm : Mem pages s v) {o o' : Obj} (ho : o ∈ objects s v) (ho' : o' ∈ objects s v)
    (he : o.key s.caches = o'.key s.caches) : o = o' := by
  obtain ⟨c, p, i⟩ := o
  obtain ⟨c', p', j⟩ := o'
  have hi := hm.off_lt ho.1 ho.2.1
  have hj := hm.off_lt ho'.1 ho'.2.1
  rw [← poolSize_eq] at hi hj
  obtain ⟨rfl, rfl, hij⟩ := hm.addr_unique ho.1 ho'.1 hi hj (Prod.mk.inj he).1
  exact congrArg (Obj.mk c p) (Nat.eq_of_mul_eq_mul_right (hm.layout ho.1).objSize hij)

end Mem

/-! ### The start -/

/-- No cache is set up, and nothing is handed out. -/
def View.none : View := ⟨∅, fun _ => ∅, ∅⟩

theorem inv_start (hs : Ready s.pages) (h0 : ∀ x ∈ allFree s.pages, x.1 ≠ 0) (hmap : Mapped s.pages) :
    Inv (pagesOf (allFree s.pages)) s View.none := by
  have hheld : View.none.held s.caches = ∅ := by
    ext x
    exact iff_of_false (fun h => h.elim (fun ⟨_, hp, _⟩ => hp) id) id
  refine ⟨⟨?_, hmap, fun _ => nofun, fun _ _ => nofun, fun _ _ => nofun, fun _ => nofun⟩, fun _ => nofun⟩
  rw [hheld]
  exact Holds.of_ready hs h0

theorem owned_start : owned s View.none = ∅ := by
  refine Set.eq_empty_of_forall_notMem ?_
  rintro k (⟨o, ho, -⟩ | ⟨x, hx, -⟩)
  · exact ho.1
  · exact hx

/-- The pages of a caller of the page allocator, with no cache set up. -/
def blankSlabs (pages : PageState) : SlabState :=
  ⟨pages, fun _ => .cache none, fun _ => ⟨.null, .null⟩, fun _ => ⟨0, 0, 0, []⟩, fun _ => ⟨0, 0, 0, 0, 0⟩⟩

theorem blankSlabs_start {p o : ℕ} (hp : 2 ^ o ∣ p) (ho : o ≤ maxOrder) (h0 : p ≠ 0)
    (hend : (p + 2 ^ o) * pageSize ≤ maxPmemSize) : Ready (blankSlabs (oneBlock p o)).pages ∧
      (∀ x ∈ allFree (blankSlabs (oneBlock p o)).pages, x.1 ≠ 0) ∧
      Mapped (blankSlabs (oneBlock p o)).pages := by
  have hle : maxPmemSize ≤ 2 ^ 64 := by decide
  obtain ⟨hready, hfree⟩ := oneBlock_ready hp ho (hend.trans hle)
  have hpages : (blankSlabs (oneBlock p o)).pages = oneBlock p o := rfl
  rw [hpages]
  refine ⟨hready, fun x hx => ?_, fun z hz => ?_⟩
  · rw [hfree, Set.mem_singleton_iff] at hx
    rw [hx]
    exact h0
  · rw [List.mem_singleton.mp hz]
    exact hend

/-! ### Calls -/

theorem Gains.owned {o : Obj} (h : Gains pages s v c s' v' o) :
    Slab.owned s' v' = insert (o.key s.caches) (Slab.owned s v) ∧ o.key s.caches ∉ Slab.owned s v := by
  have hm := h.inv.mem
  have hnew : o ∈ Slab.objects s' v' := by
    rw [h.objects]
    exact Or.inl rfl
  constructor
  · rw [Slab.owned, h.objects, h.caches, h.large, Set.image_insert_eq, Set.insert_union]
    rfl
  · rintro (⟨o', ho', he⟩ | ⟨x, -, he⟩)
    · have hold : o' ∈ Slab.objects s' v' := by
        rw [h.objects]
        exact Or.inr ho'
      rw [← h.caches] at he
      exact h.fresh (hm.key_inj hold hnew he ▸ ho')
    · cases (Prod.mk.inj he).2

theorem Loses.owned {o : Obj} (h : Loses pages s v s' o) (hm : Mem pages s v) (ho : o ∈ Slab.objects s v) :
    Slab.owned s' v = {k ∈ Slab.owned s v | k ≠ o.key s.caches} := by
  ext k
  rw [Slab.owned, h.objects, h.caches]
  constructor
  · rintro (⟨o', ⟨ho', hne⟩, rfl⟩ | ⟨x, hx, rfl⟩)
    · exact ⟨Or.inl ⟨o', ho', rfl⟩, fun he => hne (hm.key_inj ho' ho he)⟩
    · exact ⟨Or.inr ⟨x, hx, rfl⟩, fun he => nomatch (Prod.mk.inj he).2⟩
  · rintro ⟨⟨o', ho', rfl⟩ | ⟨x, hx, rfl⟩, hne⟩
    · exact Or.inl ⟨o', ⟨ho', fun he => hne (by rw [he])⟩, rfl⟩
    · exact Or.inr ⟨x, hx, rfl⟩

theorem Shrinks.owned (h : Shrinks pages s v c s') :
    Slab.owned s' (v.shrunk s c) = Slab.owned s v := by
  rw [Slab.owned, h.objects, h.caches]
  rfl

end FilesKernel.Slab
