import FilesKernel.Slab.Realloc

/-! Runs of `mem_alloc`, `mem_free`, `mem_realloc` and `mem_alloc_shrink`.

    Callers note the size that they ask for and where the block comes from; they store bytes in live
    blocks only. After every run the live blocks lie apart and off the metadata, large enough, and an
    address alone leads back to the origin. When nothing is live, `mem_alloc_shrink` leaves the page
    allocator with all its pages. -/

namespace FilesKernel.Slab
open CExec CWord LinkedList Buddy

/-! ### Callers -/

/-- A live block with the size asked for. -/
structure MemBlock where
  addr : ℕ
  size : ℕ
  origin : Origin
  deriving DecidableEq

def MemBlock.key (b : MemBlock) : ℕ × Origin := (b.addr, b.origin)

structure MemClient where
  state : SlabState
  bytes : Bytes
  live : List MemBlock

/-- No block stands for the null pointer. -/
inductive MemOp where
  | alloc (size : ℕ)
  | free (b : Option MemBlock)
  | realloc (b : Option MemBlock) (size : ℕ)
  | shrink
  | store (addr : ℕ) (value : UInt8)

def ptrOf : Option MemBlock → ℕ
  | none => 0
  | some b => b.addr

def without (live : List MemBlock) : Option MemBlock → List MemBlock
  | none => live
  | some b => live.erase b

/-- The block at the address that `mem_realloc` of `b` returns: the old one, or a new one. -/
def MemBlock.after (ptr size : ℕ) : Option MemBlock → MemBlock
  | none => ⟨ptr, size, originOf size⟩
  | some b => ⟨ptr, size, if ptr = b.addr then b.origin else originOf size⟩

def MemOp.step (c : MemClient) : MemOp → Exec MemClient
  | .alloc size => do
    let (s, ptr) ← memAlloc c.state size
    if ptr = 0 then .ok { c with state := s }
    else .ok { c with state := s, live := ⟨ptr, size, originOf size⟩ :: c.live }
  | .free b => do
    let s ← memFree c.state (ptrOf b)
    .ok { c with state := s, live := without c.live b }
  | .realloc b size => do
    let (s, bytes, ptr) ← memRealloc c.state c.bytes (ptrOf b) size
    if ptr = 0 then .ok { c with state := s, bytes := bytes }
    else .ok ⟨s, bytes, .after ptr size b :: without c.live b⟩
  | .shrink => do
    let s ← memAllocShrink c.state
    .ok { c with state := s }
  | .store addr value => .ok { c with bytes := Function.update c.bytes addr value }

/-- The bytes of a block -/
def MemClient.range (c : MemClient) (b : MemBlock) : Set ℕ := rangeOf c.state.caches b.key

def MemOp.Legal (c : MemClient) : MemOp → Prop
  | .alloc _ => True
  | .free b => ∀ x ∈ b, x ∈ c.live
  | .realloc b _ => ∀ x ∈ b, x ∈ c.live
  | .shrink => True
  | .store addr _ => ∃ b ∈ c.live, addr ∈ c.range b

/-- The states that runs of legal calls lead to behind `mem_alloc_setup`. -/
def MemReach (s : SlabState) (bytes : Bytes) (c : MemClient) : Prop :=
  ∃ s', memAllocSetup s = .ok s' ∧ Reaches MemOp.step (fun c op => op.Legal c) ⟨s', bytes, []⟩ c

/-! ### The law -/

/-- The allocator in a state: `pools` are the pools of the caches by first page, and `pages` the pages
    that the page allocator has. -/
structure MemLaw (pages : Set ℕ) (pools : ℕ → Set ℕ) (c : MemClient) : Prop where
  held : BuddyLaw pages ⟨c.state.pages,
    {x | (∃ cache, x.1 ∈ pools cache ∧ x.2 = (c.state.caches cache).poolOrder) ∨
      ∃ b ∈ c.live, b.key = blockKey x}⟩
  lists : ∀ cache pool, (cache < memPools ∧ ∃ h, IsHead cache h ∧ OnList c.state h pool) ↔
    ∃ p ∈ pools cache, pool = poolAt (c.state.caches cache) p
  nonnull : ∀ b ∈ c.live, b.addr ≠ 0
  fits : ∀ b ∈ c.live, b.size ≤ capacity c.state.caches b.origin
  apart : c.live.Pairwise fun b b' => Disjoint (c.range b) (c.range b')
  metadata : ∀ b ∈ c.live, ∀ cache, ∀ p ∈ pools cache,
    Disjoint (c.range b) (metaRange (c.state.caches cache) p)
  routes : ∀ b ∈ c.live, memFree c.state b.addr = giveBack c.state b.key
  returns : ∀ op : MemOp, op.Legal c → ∃ c', op.step c = .ok c'
  back : c.live = [] → ∃ s, memAllocShrink c.state = .ok s ∧ AllBack pages s.pages

/-- What `mem_realloc` of `b` returns: the block as it is, null with nothing changed, or a new block
    with the bytes of the old one, which has been released. -/
inductive Realloced (c : MemClient) (b : MemBlock) (size : ℕ) : SlabState × Bytes × ℕ → Prop
  | same (hfits : size ≤ capacity c.state.caches b.origin) :
    Realloced c b size (c.state, c.bytes, b.addr)
  | null : Realloced c b size (c.state, c.bytes, 0)
  | moved {s₁ s₂ : SlabState} {bytes : Bytes} {ptr : ℕ} (hptr : ptr ≠ 0)
    (halloc : memAlloc c.state size = .ok (s₁, ptr)) (hfree : memFree s₁ b.addr = .ok s₂)
    (hfits : size ≤ capacity s₂.caches (originOf size))
    (hcopied : ∀ i < min (capacity c.state.caches b.origin) size,
      bytes (ptr + i) = c.bytes (b.addr + i))
    (hkept : ∀ b' ∈ c.live, b' ≠ b → ∀ a ∈ c.range b', bytes a = c.bytes a) :
    Realloced c b size (s₂, bytes, ptr)

variable {pages : Set ℕ} {s s' : SlabState} {v v' : View} {c c' : MemClient} {b : MemBlock}
  {bytes : Bytes} {ptr size : ℕ} {o : Origin}

/-! ### The invariant -/

/-- The state between two calls. -/
structure Serving (pages : Set ℕ) (c : MemClient) (v : View) : Prop where
  inv : Inv pages c.state v
  stocked : Stocked c.state v
  live : ∀ k, k ∈ owned c.state v ↔ ∃ b ∈ c.live, b.key = k
  starts : (c.live.map MemBlock.addr).Nodup
  fits : ∀ b ∈ c.live, b.size ≤ capacity c.state.caches b.origin

namespace Serving

theorem mem_owned (h : Serving pages c v) (hb : b ∈ c.live) : b.key ∈ owned c.state v :=
  (h.live _).mpr ⟨b, hb, rfl⟩

theorem nonnull (h : Serving pages c v) (hb : b ∈ c.live) : b.addr ≠ 0 := by
  have hle := (h.inv.mem.owned_lt (h.mem_owned hb)).1
  rw [MemBlock.key, higherBase] at hle
  dsimp only at hle
  omega

/-- Blocks by their addresses -/
theorem eq_of_addr (h : Serving pages c v) {b' : MemBlock} (hb : b ∈ c.live) (hb' : b' ∈ c.live)
    (he : b.addr = b'.addr) : b = b' := List.inj_on_of_nodup_map h.starts hb hb' he

theorem mem_erase (h : Serving pages c v) {x : MemBlock} : x ∈ c.live.erase b ↔ x ≠ b ∧ x ∈ c.live :=
  (List.Nodup.of_map _ h.starts).mem_erase_iff

theorem starts_erase (h : Serving pages c v) (b : MemBlock) :
    ((c.live.erase b).map MemBlock.addr).Nodup :=
  h.starts.sublist (List.erase_sublist.map _)

/-- The bytes do not matter. -/
theorem setBytes (h : Serving pages c v) (bytes : Bytes) : Serving pages { c with bytes := bytes } v :=
  ⟨h.inv, h.stocked, h.live, h.starts, h.fits⟩

/-- A block is handed out. -/
theorem add (h : Serving pages c v) (hob : Obtains pages c.state v s' v' (ptr, o))
    (hsize : size ≤ capacity c.state.caches o) (bytes : Bytes) :
    Serving pages ⟨s', bytes, ⟨ptr, size, o⟩ :: c.live⟩ v' := by
  have hkey : (⟨ptr, size, o⟩ : MemBlock).key = (ptr, o) := rfl
  have hnew : ptr ∉ c.live.map MemBlock.addr := by
    intro hmem
    obtain ⟨b, hb, he⟩ := List.mem_map.mp hmem
    have hold : b.key ∈ owned s' v' := hob.owned ▸ Or.inr (h.mem_owned hb)
    have hin : (ptr, o) ∈ owned s' v' := hob.owned ▸ Or.inl rfl
    exact hob.fresh (hob.inv.mem.owned_inj hold hin he ▸ h.mem_owned hb)
  refine ⟨hob.inv, h.stocked.keep hob.caches hob.ready, fun k => ?_, List.nodup_cons.mpr ⟨hnew, h.starts⟩,
    fun b hb => ?_⟩
  · rw [hob.owned, Set.mem_insert_iff, h.live, List.exists_mem_cons_iff, hkey]
    exact or_congr_left eq_comm
  · dsimp only
    rw [hob.caches]
    rcases List.mem_cons.mp hb with rfl | hb
    · exact hsize
    · exact h.fits b hb

/-- A live block is taken back. -/
theorem remove (h : Serving pages c v) (hb : b ∈ c.live)
    (hrel : Releases pages c.state v s' v' b.key) (bytes : Bytes) :
    Serving pages ⟨s', bytes, c.live.erase b⟩ v' := by
  refine ⟨hrel.inv, h.stocked.keep hrel.caches hrel.ready, fun k => ?_, h.starts_erase b, fun x hx => ?_⟩
  · rw [hrel.owned, Set.mem_sep_iff, h.live]
    constructor
    · rintro ⟨⟨x, hx, rfl⟩, hne⟩
      exact ⟨x, h.mem_erase.mpr ⟨fun e => hne (by rw [e]), hx⟩, rfl⟩
    · rintro ⟨x, hx, rfl⟩
      obtain ⟨hne, hx⟩ := h.mem_erase.mp hx
      exact ⟨⟨x, hx, rfl⟩, fun e => hne (h.eq_of_addr hx hb (Prod.mk.inj e).1)⟩
  · dsimp only
    rw [hrel.caches]
    exact h.fits x (h.mem_erase.mp hx).2

/-- A block has another size from now on. -/
theorem resize (h : Serving pages c v) (hb : b ∈ c.live)
    (hsize : size ≤ capacity c.state.caches b.origin) :
    Serving pages ⟨c.state, c.bytes, ⟨b.addr, size, b.origin⟩ :: c.live.erase b⟩ v := by
  refine ⟨h.inv, h.stocked, fun k => ?_, List.nodup_cons.mpr ⟨fun hmem => ?_, h.starts_erase b⟩,
    fun x hx => ?_⟩
  · rw [h.live, List.exists_mem_cons_iff]
    constructor
    · rintro ⟨x, hx, rfl⟩
      by_cases he : x = b
      · exact Or.inl (by rw [he]; rfl)
      · exact Or.inr ⟨x, h.mem_erase.mpr ⟨he, hx⟩, rfl⟩
    · rintro (he | ⟨x, hx, he⟩)
      · exact ⟨b, hb, he⟩
      · exact ⟨x, (h.mem_erase.mp hx).2, he⟩
  · obtain ⟨x, hx, he⟩ := List.mem_map.mp hmem
    obtain ⟨hne, hx⟩ := h.mem_erase.mp hx
    exact hne (h.eq_of_addr hx hb he)
  · rcases List.mem_cons.mp hx with rfl | hx
    · exact hsize
    · exact h.fits x (h.mem_erase.mp hx).2

/-! ### Steps -/

theorem alloc (h : Serving pages c v) (size : ℕ) :
    ∃ c' v', (MemOp.alloc size).step c = .ok c' ∧ Serving pages c' v' := by
  rcases memAlloc_spec h.inv h.stocked size with e | ⟨s', v', ptr, e, hob, hfits⟩
  · exact ⟨c, v, by rw [MemOp.step, e, ok_bind]; rfl, h⟩
  · have hnext := h.add hob hfits c.bytes
    have hptr : ptr ≠ 0 := hnext.nonnull List.mem_cons_self
    refine ⟨_, v', ?_, hnext⟩
    rw [MemOp.step, e, ok_bind]
    exact if_neg hptr

/-- `mem_realloc` of a live block. -/
theorem realloc (h : Serving pages c v) (hb : b ∈ c.live) (size : ℕ) : ∃ r v',
    memRealloc c.state c.bytes b.addr size = .ok r ∧ Realloced c b size r ∧
      ∃ c', (MemOp.realloc (some b) size).step c = .ok c' ∧ Serving pages c' v' := by
  obtain ⟨r, v', e, hr⟩ := memRealloc_spec h.inv h.stocked (h.mem_owned hb) c.bytes size
  have e' : memRealloc c.state c.bytes (ptrOf (some b)) size = .ok r := e
  refine ⟨r, v', e, ?_⟩
  rw [MemOp.step, e', ok_bind]
  cases hr with
  | same hsize =>
    refine ⟨.same hsize, _, if_neg (h.nonnull hb), ?_⟩
    have hafter : MemBlock.after b.addr size (some b) = ⟨b.addr, size, b.origin⟩ := by
      rw [MemBlock.after, if_pos rfl]
    exact hafter ▸ h.resize hb hsize
  | none hsize halloc => exact ⟨.null, c, if_pos rfl, h⟩
  | @moved s₁ s₂ v₁ _ bytes' ptr hsize halloc hob hfits hcopies hfree hrel =>
    have hnext := h.add hob hfits bytes'
    have hptr : ptr ≠ 0 := hnext.nonnull List.mem_cons_self
    have hne : ptr ≠ b.addr := fun he => by
      have hmem : b ∈ (⟨ptr, size, originOf size⟩ :: c.live : List MemBlock) := List.mem_cons_of_mem _ hb
      have hkey : (ptr, originOf size) = b.key :=
        congrArg MemBlock.key (hnext.eq_of_addr List.mem_cons_self hmem he)
      exact hob.fresh (hkey ▸ h.mem_owned hb)
    have hafter : MemBlock.after ptr size (some b) = ⟨ptr, size, originOf size⟩ := by
      rw [MemBlock.after, if_neg hne]
    have hcaches : s₂.caches = c.state.caches := hrel.caches.trans hob.caches
    have hnew : (ptr, originOf size) ∈ owned s₁ v₁ := hob.owned ▸ Or.inl rfl
    refine ⟨.moved hptr halloc hfree (hcaches ▸ hfits) (fun i hi => ?_) (fun b' hb' hbb a ha => ?_), _,
      if_neg hptr, ?_⟩
    · exact hcopies.copied i (lt_of_lt_of_le hi (Nat.min_le_left _ _))
    · refine hcopies.kept a ?_
      have hold : b'.key ∈ owned s₁ v₁ := hob.owned ▸ Or.inr (h.mem_owned hb')
      have hdis := hob.inv.mem.owned_apart hold hnew fun he => hob.fresh (he ▸ h.mem_owned hb')
      rw [hob.caches] at hdis
      by_contra hin
      rw [not_or, Nat.not_lt, Nat.not_le] at hin
      refine Set.disjoint_left.mp hdis ha (Set.mem_Ico.mpr ⟨hin.1, hin.2.trans_le ?_⟩)
      have hcap : capacity c.state.caches b.origin < size := hsize
      exact Nat.add_le_add_left (hcap.le.trans hfits) ptr
    · have hback := hnext.remove (List.mem_cons_of_mem _ hb) hrel bytes'
      rw [List.erase_cons_tail (by rw [beq_iff_eq]; exact fun he => hne (congrArg MemBlock.addr he))]
        at hback
      exact hafter ▸ hback

/-- A legal call returns, and leaves the state between two calls. -/
theorem step (h : Serving pages c v) {op : MemOp} (hop : op.Legal c) :
    ∃ c' v', op.step c = .ok c' ∧ Serving pages c' v' := by
  cases op with
  | alloc size => exact h.alloc size
  | free b =>
    cases b with
    | none => exact ⟨c, v, rfl, h⟩
    | some b =>
      have hb : b ∈ c.live := hop b rfl
      obtain ⟨s', v', e, hrel⟩ := memFree_spec h.inv (h.mem_owned hb)
      have e' : memFree c.state (ptrOf (some b)) = .ok s' := e
      exact ⟨_, v', by rw [MemOp.step, e', ok_bind]; rfl, h.remove hb hrel c.bytes⟩
  | realloc b size =>
    cases b with
    | none =>
      obtain ⟨c', v', e, h'⟩ := h.alloc size
      refine ⟨c', v', ?_, h'⟩
      rw [← e, MemOp.step, MemOp.step, ptrOf, memRealloc, if_pos rfl]
      cases memAlloc c.state size with
      | error _ => rfl
      | ok r => rfl
    | some b =>
      obtain ⟨-, v', -, -, c', e, h'⟩ := h.realloc (hop b rfl) size
      exact ⟨c', v', e, h'⟩
  | shrink =>
    obtain ⟨s', v', e, hs⟩ := memAllocShrink_spec h.inv h.stocked
    refine ⟨{ c with state := s' }, v', by rw [MemOp.step, e, ok_bind], hs.inv,
      h.stocked.keep hs.caches hs.ready, fun k => ?_, h.starts, fun b hb => ?_⟩
    · rw [hs.owned]
      exact h.live k
    · dsimp only
      rw [hs.caches]
      exact h.fits b hb
  | store addr value => exact ⟨_, v, rfl, h.setBytes _⟩

/-! ### What the invariant says -/

theorem mem_large_iff {x : ℕ × ℕ} : x ∈ v.large ↔ blockKey x ∈ owned s v := by
  constructor
  · exact fun hx => Or.inr ⟨x, hx, rfl⟩
  · rintro (⟨o, -, he⟩ | ⟨y, hy, he⟩)
    · cases (Prod.mk.inj he).2
    · exact blockKey_inj he ▸ hy

theorem law (h : Serving pages c v) : MemLaw pages v.pools c := by
  have hm := h.inv.mem
  have hheld : v.held c.state.caches =
      {x | (∃ cache, x.1 ∈ v.pools cache ∧ x.2 = (c.state.caches cache).poolOrder) ∨
        ∃ b ∈ c.live, b.key = blockKey x} := by
    ext x
    exact or_congr_right (mem_large_iff.trans (h.live _))
  refine ⟨hheld ▸ hm.holds.law, fun k pool => ?_, fun b hb => h.nonnull hb, h.fits, ?_,
    fun b hb cache p hp => hm.owned_metadata (h.mem_owned hb) hp,
    fun b hb => memFree_eq hm (h.mem_owned hb), fun op hop => ?_, fun hnil => ?_⟩
  · rw [← h.stocked.ready k]
    exact onList_pools h.inv
  · refine (List.Nodup.of_map _ h.starts).imp_of_mem fun hb hb' hne => ?_
    refine hm.owned_apart (h.mem_owned hb) (h.mem_owned hb') fun he => hne ?_
    exact h.eq_of_addr hb hb' (Prod.mk.inj he).1
  · obtain ⟨c', -, e, -⟩ := h.step hop
    exact ⟨c', e⟩
  · refine memAllocShrink_allBack h.inv h.stocked (Set.eq_empty_of_forall_notMem fun k hk => ?_)
    obtain ⟨b, hb, -⟩ := (h.live k).mp hk
    rw [hnil] at hb
    exact absurd hb List.not_mem_nil

/-! ### All runs -/

theorem start (hs : Ready s.pages) (h0 : ∀ x ∈ allFree s.pages, x.1 ≠ 0) (hmap : Mapped s.pages)
    (bytes : Bytes) : ∃ s' v', memAllocSetup s = .ok s' ∧
      Serving (pagesOf (allFree s.pages)) ⟨s', bytes, []⟩ v' := by
  obtain ⟨s', v', e, hinv, hst, howned⟩ := memAllocSetup_spec (inv_start hs h0 hmap) rfl
  refine ⟨s', v', e, hinv, hst, fun k => ?_, List.nodup_nil, fun _ => nofun⟩
  rw [howned, owned_start]
  exact iff_of_false (Set.notMem_empty k) fun ⟨_, hb, _⟩ => List.not_mem_nil hb

theorem reach (hs : Ready s.pages) (h0 : ∀ x ∈ allFree s.pages, x.1 ≠ 0) (hmap : Mapped s.pages)
    (hr : MemReach s bytes c) : ∃ v, Serving (pagesOf (allFree s.pages)) c v := by
  obtain ⟨s', v', e, hstart⟩ := start hs h0 hmap bytes
  obtain ⟨s'', e', hrun⟩ := hr
  obtain rfl := Except.ok.inj (e.symm.trans e')
  refine hrun.invariant (P := fun d => ∃ w, Serving (pagesOf (allFree s.pages)) d w) ⟨v', hstart⟩ ?_
  rintro d op d' ⟨w, hd⟩ hop e
  obtain ⟨d'', w', e', hd'⟩ := hd.step hop
  obtain rfl := Except.ok.inj (e'.symm.trans e)
  exact ⟨w', hd'⟩

end Serving

/-- Over free memory in the direct map `mem_alloc_setup` returns, and all runs keep the law. -/
theorem memLaw_of_run (hs : Ready s.pages) (h0 : ∀ x ∈ allFree s.pages, x.1 ≠ 0) (hmap : Mapped s.pages) :
    (∃ s', memAllocSetup s = .ok s') ∧ ∀ bytes c, MemReach s bytes c →
      ∃ pools, MemLaw (pagesOf (allFree s.pages)) pools c := by
  refine ⟨?_, fun bytes c hr => ?_⟩
  · obtain ⟨s', -, e, -⟩ := Serving.start hs h0 hmap fun _ => 0
    exact ⟨s', e⟩
  · obtain ⟨v, hc⟩ := Serving.reach hs h0 hmap hr
    exact ⟨v.pools, hc.law⟩

/-- The pages `8` to `15` are free. -/
def eightPages : SlabState := blankSlabs (oneBlock 8 3)

theorem eightPages_start : Ready eightPages.pages ∧ (∀ x ∈ allFree eightPages.pages, x.1 ≠ 0) ∧
    Mapped eightPages.pages := blankSlabs_start (by decide) (by decide) (by decide) (by decide)

/-- A block of 64 bytes from a cache, and one of four pages. -/
def twoBlocks : Exec (SlabState × ℕ × ℕ) := do
  let s ← memAllocSetup eightPages
  let (s, small) ← memAlloc s 64
  let (s, large) ← memAlloc s 8193
  .ok (s, small, large)

theorem twoBlocks_ok :
    (twoBlocks.toOption.map fun r => decide (r.2.1 ≠ 0 ∧ r.2.2 ≠ 0)) = some true := by decide +kernel

theorem twoBlocks_reach (bytes : Bytes) : ∃ c, MemReach eightPages bytes c ∧ c.live.length = 2 := by
  have hrun := twoBlocks_ok
  rw [twoBlocks] at hrun
  cases e₀ : memAllocSetup eightPages with
  | error _ =>
    rw [e₀] at hrun
    cases hrun
  | ok s₀ =>
    rw [e₀, ok_bind] at hrun
    cases e₁ : memAlloc s₀ 64 with
    | error _ =>
      rw [e₁] at hrun
      cases hrun
    | ok r₁ =>
      obtain ⟨s₁, small⟩ := r₁
      rw [e₁, ok_bind] at hrun
      dsimp only at hrun
      cases e₂ : memAlloc s₁ 8193 with
      | error _ =>
        rw [e₂] at hrun
        cases hrun
      | ok r₂ =>
        obtain ⟨s₂, large⟩ := r₂
        rw [e₂, ok_bind] at hrun
        obtain ⟨hsmall, hlarge⟩ := of_decide_eq_true (Option.some.inj hrun)
        have hr₁ : Reaches MemOp.step (fun c op => op.Legal c) ⟨s₀, bytes, []⟩
            ⟨s₁, bytes, [⟨small, 64, originOf 64⟩]⟩ := by
          refine .next (i := .alloc 64) .start trivial ?_
          rw [MemOp.step, e₁, ok_bind]
          exact if_neg hsmall
        refine ⟨_, ⟨s₀, e₀, hr₁.next (i := .alloc 8193) (u := ⟨s₂, bytes,
          [⟨large, 8193, originOf 8193⟩, ⟨small, 64, originOf 64⟩]⟩) trivial ?_⟩, rfl⟩
        rw [MemOp.step, e₂, ok_bind]
        exact if_neg hlarge

theorem twoBlocks_memLaw : ∃ c, MemReach eightPages (fun _ => 0) c ∧ c.live.length = 2 ∧
    ∃ pools, MemLaw (pagesOf (allFree eightPages.pages)) pools c := by
  obtain ⟨hs, h0, hmap⟩ := eightPages_start
  obtain ⟨c, hr, hlen⟩ := twoBlocks_reach fun _ => 0
  exact ⟨c, hr, hlen, (memLaw_of_run hs h0 hmap).2 _ c hr⟩

/-! ### Reallocation -/

/-- In every state of a run, `mem_realloc` of a live block keeps contents, or changes nothing. -/
theorem memRealloc_of_run (hs : Ready s.pages) (h0 : ∀ x ∈ allFree s.pages, x.1 ≠ 0)
    (hmap : Mapped s.pages) (hr : MemReach s bytes c) (hb : b ∈ c.live) (size : ℕ) :
    ∃ r, memRealloc c.state c.bytes b.addr size = .ok r ∧ Realloced c b size r := by
  obtain ⟨v, hc⟩ := Serving.reach hs h0 hmap hr
  obtain ⟨r, -, e, hr, -⟩ := hc.realloc hb size
  exact ⟨r, e, hr⟩

theorem twoBlocks_realloc : ∃ c, MemReach eightPages (fun _ => 0) c ∧ ∃ b ∈ c.live,
    ∃ r, memRealloc c.state c.bytes b.addr 100 = .ok r ∧ Realloced c b 100 r := by
  obtain ⟨hs, h0, hmap⟩ := eightPages_start
  obtain ⟨c, hr, hlen⟩ := twoBlocks_reach fun _ => 0
  obtain ⟨b, hb⟩ := List.exists_mem_of_length_pos (hlen ▸ Nat.two_pos)
  exact ⟨c, hr, b, hb, memRealloc_of_run hs h0 hmap hr hb 100⟩

end FilesKernel.Slab
