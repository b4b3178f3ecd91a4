import FilesKernel.Buddy.Alloc
import FilesKernel.Buddy.Free
import Mathlib.Data.Set.Image

/-! Runs of allocations and releases.

    Callers take blocks by descriptor or by address and give back live ones with the same order. What
    is read off memory is the set of the free blocks; together with the live ones they have the same
    pages throughout. -/

namespace FilesKernel.Buddy
open CExec LinkedList LinkRing Dyadic

/-! ### What memory says -/

/-- The blocks on the lists of a zone, as first page and order. -/
def freeBlocks (s : PageState) (z : Zone) : Set (ℕ × ℕ) :=
  {x | x.2 ≤ maxOrder ∧ z.Has x.1 ∧ ∃ L, OnRing s.heads (z.order x.2) L ∧ z.page x.1 ∈ L}

def allFree (s : PageState) : Set (ℕ × ℕ) := {x | ∃ z ∈ s.zones, x ∈ freeBlocks s z}

/-- The pages of a block -/
def blockPages (x : ℕ × ℕ) : Set ℕ := Set.Ico x.1 (x.1 + 2 ^ x.2)

def pagesOf (B : Set (ℕ × ℕ)) : Set ℕ := {p | ∃ x ∈ B, p ∈ blockPages x}

theorem pagesOf_empty : pagesOf ∅ = ∅ := by
  ext p
  simp [pagesOf]

/-- The block is aligned to its size, and lies in the zone. -/
structure BlockIn (z : Zone) (x : ℕ × ℕ) : Prop where
  aligned : 2 ^ x.2 ∣ x.1
  start : z.begin ≤ x.1
  stop : x.1 + 2 ^ x.2 ≤ z.stop

/-- The lists hold blocks that have nothing in common, and what is flagged FREE is in these blocks. -/
structure Ready (s : PageState) : Prop where
  zones : ZonesOk s.zones
  lists : ∀ z ∈ s.zones, ∀ o ≤ maxOrder, ∃ L, OnRing s.heads (z.order o) L ∧
    ∀ a ∈ L, ∃ p, a = z.page p ∧ BlockIn z (p, o) ∧ pageIsFree (s.flags a) = true ∧
      pageOrder (s.flags a) = o
  apart : ∀ x ∈ allFree s, ∀ y ∈ allFree s, x ≠ y → Disjoint (blockPages x) (blockPages y)
  clean : ∀ z ∈ s.zones, ∀ p, z.Has p → pageIsFree (s.flags (z.page p)) = true →
    p ∈ pagesOf (allFree s)

/-! ### Callers -/

structure Client where
  state : PageState
  live : Set (ℕ × ℕ)

inductive PageOp where
  | allocPage (order : ℕ)
  | alloc (order : ℕ)
  | freePage (page order : ℕ)
  | free (page order : ℕ)

/-- Callers note the first page and the order of what they get. -/
def PageOp.step (c : Client) : PageOp → Exec Client
  | .allocPage order => do
    let (s, page) ← pageAllocPage c.state order
    if page = 0 then .ok ⟨s, c.live⟩
    else do
      let addr ← pageAddr s page
      .ok ⟨s, insert (addr / pageSize, order) c.live⟩
  | .alloc order => do
    let (s, addr) ← pageAlloc c.state order
    if addr = 0 then .ok ⟨s, c.live⟩
    else .ok ⟨s, insert (addr / pageSize, order) c.live⟩
  | .freePage page order => do
    let desc ← addrPage c.state (page * pageSize)
    let s ← pageFreePage c.state desc order
    .ok ⟨s, {x ∈ c.live | x ≠ (page, order)}⟩
  | .free page order => do
    let s ← pageFree c.state (page * pageSize) order
    .ok ⟨s, {x ∈ c.live | x ≠ (page, order)}⟩

def PageOp.Legal (c : Client) : PageOp → Prop
  | .allocPage order => order ≤ maxOrder
  | .alloc order => order ≤ maxOrder
  | .freePage page order => (page, order) ∈ c.live
  | .free page order => (page, order) ∈ c.live

/-- The states that runs of legal calls lead to, from nothing being live. -/
def PageReach (s : PageState) : Client → Prop := Reaches PageOp.step (fun c op => op.Legal c) ⟨s, ∅⟩

/-- The allocator in a state: `pages` are the pages it has. -/
structure BuddyLaw (pages : Set ℕ) (c : Client) : Prop where
  inside : ∀ x ∈ c.live, ∃ z ∈ c.state.zones, BlockIn z x
  live_apart : ∀ x ∈ c.live, ∀ y ∈ c.live, x ≠ y → Disjoint (blockPages x) (blockPages y)
  free_apart : ∀ x ∈ c.live, ∀ y ∈ allFree c.state, Disjoint (blockPages x) (blockPages y)
  pages : pagesOf c.live ∪ pagesOf (allFree c.state) = pages
  returns : ∀ op : PageOp, op.Legal c → ∃ c', op.step c = .ok c'
  merges : ∀ x ∈ c.live, ∀ z ∈ c.state.zones, z.Has x.1 →
    MergesListed z (maxOrder - x.2) c.state x.1 x.2
  null : ∀ order ≤ maxOrder, ∀ s, pageAllocPage c.state order = .ok (s, 0) ∨
    pageAlloc c.state order = .ok (s, 0) → ∀ x ∈ allFree c.state, x.2 < order

variable {s : PageState} {K : Blocks} {z : Zone} {b : Block} {c : Client}

/-! ### Blocks by their first page -/

/-- First page and order of a block -/
def headOf (b : Block) : ℕ × ℕ := (b.start, b.order)

theorem headOf_inj {b c : Block} (h : headOf b = headOf c) : b = c := by
  obtain ⟨hs, ho⟩ := Prod.mk.inj h
  rw [← blockAt_eq b, ← blockAt_eq c, hs, ho]

theorem blockPages_headOf (b : Block) : blockPages (headOf b) = {p | p ∈ b} := by
  ext p
  rw [Set.mem_ofPred_eq, mem_iff, stop_eq]
  exact Set.mem_Ico

theorem pagesOf_image {F : Set Block} : pagesOf (headOf '' F) = cover F := by
  ext p
  constructor
  · rintro ⟨_, ⟨b, hb, rfl⟩, hp⟩
    rw [blockPages_headOf] at hp
    exact ⟨b, hb, hp⟩
  · rintro ⟨b, hb, hp⟩
    refine ⟨_, ⟨b, hb, rfl⟩, ?_⟩
    rw [blockPages_headOf]
    exact hp

theorem headOf_apart {F : Set Block} (hF : Apart F) {b c : Block} (hb : b ∈ F) (hc : c ∈ F)
    (hne : headOf b ≠ headOf c) : Disjoint (blockPages (headOf b)) (blockPages (headOf c)) := by
  rw [blockPages_headOf, blockPages_headOf, Set.disjoint_left]
  intro p hp hp'
  exact hne (congrArg headOf (hF b hb c hc p hp hp'))

theorem Zone.Contains.blockIn (h : z.Contains b) : BlockIn z (headOf b) :=
  ⟨dvd_start b, h.start, stop_eq b ▸ h.stop⟩

theorem BlockIn.contains {x : ℕ × ℕ} (h : BlockIn z x) :
    headOf (blockAt x.2 x.1) = x ∧ z.Contains (blockAt x.2 x.1) := by
  have hs : (blockAt x.2 x.1).start = x.1 := blockAt_start h.aligned
  refine ⟨Prod.ext hs rfl, ?_, ?_⟩
  · rw [hs]
    exact h.start
  · rw [stop_eq, hs]
    exact h.stop

/-- The lists show the free blocks. -/
theorem Laid.mem_freeBlocks (h : Laid s K) (hz : z ∈ s.zones) {x : ℕ × ℕ} :
    x ∈ freeBlocks s z ↔ ∃ b ∈ freeIn K z, headOf b = x := by
  constructor
  · rintro ⟨ho, hp, L, hr, hmem⟩
    obtain ⟨L', hr', hL'⟩ := h.lists z hz x.2 ho
    rw [hr.ring.unique hr'.ring, hL'] at hmem
    obtain ⟨b, hb, hbo, hbp, he⟩ := hmem
    exact ⟨b, ⟨hb, hbp⟩, Prod.ext (h.zones.page_inj hz hz hbp hp he).2 hbo⟩
  · rintro ⟨b, ⟨hb, hp⟩, rfl⟩
    have ho := h.order b (mem_used hb (by decide))
    obtain ⟨L, hr, hL⟩ := h.lists z hz b.order ho
    exact ⟨ho, hp, L, hr, (hL _).mpr ⟨b, hb, rfl, hp, rfl⟩⟩

theorem Laid.allFree_eq (h : Laid s K) : allFree s = headOf '' {b | K b = .free} := by
  ext x
  constructor
  · rintro ⟨z, hz, hx⟩
    obtain ⟨b, hb, rfl⟩ := (h.mem_freeBlocks hz).mp hx
    exact ⟨b, hb.1, rfl⟩
  · rintro ⟨b, hb, rfl⟩
    obtain ⟨z, hz, hp⟩ := h.zone (mem_used hb (by decide))
    exact ⟨z, hz, (h.mem_freeBlocks hz).mpr ⟨b, ⟨hb, hp⟩, rfl⟩⟩

/-! ### The invariant -/

/-- The state between two calls. -/
structure Settled (c : Client) (K : Blocks) : Prop where
  laid : Laid c.state K
  clean : Clean c.state K
  calm : ∀ b, K b ≠ .held
  callers : c.live = headOf '' {b | K b = .live}
  first : 0 ∉ cover K.used

/-- The blocks that the lists show. -/
noncomputable def shown (s : PageState) : Blocks := by
  classical exact fun b => if headOf b ∈ allFree s then .free else .none

theorem shown_free : shown s b = .free ↔ headOf b ∈ allFree s := by
  rw [shown]
  split_ifs with h <;> simp [h]

theorem shown_none : shown s b ≠ .none ↔ headOf b ∈ allFree s := by
  rw [shown]
  split_ifs with h <;> simp [h]

theorem shown_ne {k : Kind} (hk : k ≠ .free) (hk' : k ≠ .none) : shown s b ≠ k := by
  rw [shown]
  split_ifs
  · exact hk.symm
  · exact hk'.symm

theorem Ready.mem (h : Ready s) (hz : z ∈ s.zones) {x : ℕ × ℕ} (hx : x ∈ freeBlocks s z) :
    BlockIn z x ∧ pageIsFree (s.flags (z.page x.1)) = true ∧
      pageOrder (s.flags (z.page x.1)) = x.2 := by
  obtain ⟨ho, hp, L, hr, hmem⟩ := hx
  obtain ⟨L', hr', hL'⟩ := h.lists z hz x.2 ho
  rw [hr.ring.unique hr'.ring] at hmem
  obtain ⟨p, he, hin, hf⟩ := hL' _ hmem
  have hpos := Nat.two_pow_pos x.2
  have hstop : p + 2 ^ x.2 ≤ z.stop := hin.stop
  have hhas : z.Has p := ⟨hin.start, by omega⟩
  obtain ⟨-, rfl⟩ := h.zones.page_inj hz hz hp hhas he
  exact ⟨hin, hf⟩

theorem Ready.laid (h : Ready s) : Laid s (shown s) := by
  have hfree : ∀ b ∈ (shown s).used, ∃ z ∈ s.zones, headOf b ∈ freeBlocks s z ∧ z.Contains b :=
    fun b hb => by
      obtain ⟨z, hz, hx⟩ := shown_none.mp hb
      have hin := (h.mem hz hx).1
      have hc := hin.contains
      rw [headOf_inj hc.1] at hc
      exact ⟨z, hz, hx, hc.2⟩
  refine ⟨h.zones, fun b hb => ?_, fun b hb => ?_, fun b hb c hc p hpb hpc => ?_,
    fun z hz o ho => ?_, fun b hb z hz hp => ?_, fun b hb => ?_⟩
  · obtain ⟨z, -, hx, -⟩ := hfree b hb
    exact hx.1
  · obtain ⟨z, hz, -, hc⟩ := hfree b hb
    exact ⟨z, hz, hc⟩
  · by_contra hne
    have hdis := h.apart _ (shown_none.mp hb) _ (shown_none.mp hc) fun e => hne (headOf_inj e)
    rw [blockPages_headOf, blockPages_headOf, Set.disjoint_left] at hdis
    exact hdis hpb hpc
  · obtain ⟨L, hr, hL⟩ := h.lists z hz o ho
    refine ⟨L, hr, fun a => ⟨fun ha => ?_, ?_⟩⟩
    · obtain ⟨p, rfl, hin, -⟩ := hL a ha
      obtain ⟨hhead, hc⟩ := hin.contains
      have hs : (blockAt o p).start = p := blockAt_start hin.aligned
      have hp : z.Has p := hs ▸ hc.has (start_mem _)
      refine ⟨blockAt o p, shown_free.mpr ⟨z, hz, ?_⟩, rfl, by rwa [hs], by rw [hs]⟩
      rw [hhead]
      exact ⟨ho, hp, L, hr, ha⟩
    · rintro ⟨b, hb, rfl, hp, rfl⟩
      obtain ⟨z', hz', -, hp', L', hr', hmem⟩ := shown_free.mp hb
      obtain rfl := h.zones.eq_of_has hz' hz hp' hp
      rwa [hr.ring.unique hr'.ring]
  · obtain ⟨z', hz', hx⟩ := shown_free.mp hb
    obtain rfl := h.zones.eq_of_has hz' hz hx.2.1 hp
    exact (h.mem hz' hx).2
  · exact absurd hb (shown_ne (by decide) (by decide))

theorem Laid.pagesOf_eq (h : Laid s K) (hno : ∀ b, K b ≠ .held) :
    pagesOf (headOf '' {b | K b = .live}) ∪ pagesOf (allFree s) = cover K.used := by
  rw [h.allFree_eq, pagesOf_image, pagesOf_image]
  ext p
  constructor
  · rintro (⟨b, hb, hp⟩ | ⟨b, hb, hp⟩)
    · exact ⟨b, mem_used hb (by decide), hp⟩
    · exact ⟨b, mem_used hb (by decide), hp⟩
  · rintro ⟨b, hb, hp⟩
    cases hk : K b with
    | none => exact absurd hk hb
    | free => exact Or.inr ⟨b, hk, hp⟩
    | live => exact Or.inl ⟨b, hk, hp⟩
    | held => exact absurd hk (hno b)

theorem Ready.settled (h : Ready s) (h0 : ∀ x ∈ allFree s, x.1 ≠ 0) :
    Settled ⟨s, ∅⟩ (shown s) := by
  have hlaid := h.laid
  have hheld : ∀ b, shown s b ≠ .held := fun b => shown_ne (by decide) (by decide)
  have hlive : headOf '' {b | shown s b = .live} = ∅ := by
    have hno : {b | shown s b = .live} = ∅ := Set.eq_empty_of_forall_notMem fun b =>
      shown_ne (by decide) (by decide)
    rw [hno, Set.image_empty]
  have hcover : pagesOf (allFree s) = cover (shown s).used := by
    rw [← hlaid.pagesOf_eq hheld, hlive, pagesOf_empty, Set.empty_union]
  refine ⟨hlaid, fun z hz p hp hf => hcover ▸ h.clean z hz p hp hf, hheld, hlive.symm, ?_⟩
  rw [← hcover]
  rintro ⟨x, hx, hp⟩
  exact h0 x hx (Nat.le_zero.mp hp.1)

theorem Settled.block (h : Settled c K) {x : ℕ × ℕ} (hx : x ∈ c.live) :
    ∃ b, K b = .live ∧ headOf b = x := by
  rw [h.callers] at hx
  exact hx

/-! ### Steps -/

theorem Settled.gives {s' : PageState} {K' : Blocks} (h : Settled c K) (hg : Gives c.state K s' K' z b) :
    Settled ⟨s', insert (headOf b) c.live⟩ K' := by
  refine ⟨hg.laid, hg.keeps.clean h.clean, hg.calm, ?_, hg.keeps.cover ▸ h.first⟩
  have hset : {a | K' a = .live} = insert b {a | K a = .live} := by
    ext a
    rw [Set.mem_ofPred_eq, hg.live, Set.mem_insert_iff, Set.mem_ofPred_eq, or_comm]
  rw [hset, Set.image_insert_eq, ← h.callers]

theorem Settled.takes {s' : PageState} {K' : Blocks} (h : Settled c K) (ht : Takes c.state K s' K' b) :
    Settled ⟨s', {x ∈ c.live | x ≠ headOf b}⟩ K' := by
  refine ⟨ht.laid, ht.keeps.clean h.clean, ht.calm, ?_, ht.keeps.cover ▸ h.first⟩
  ext x
  constructor
  · rintro ⟨hx, hne⟩
    obtain ⟨a, ha, rfl⟩ := h.block hx
    exact ⟨a, (ht.live a).mpr ⟨ha, fun e => hne (e ▸ rfl)⟩, rfl⟩
  · rintro ⟨a, ha, rfl⟩
    obtain ⟨ha, hne⟩ := (ht.live a).mp ha
    exact ⟨h.callers ▸ ⟨a, ha, rfl⟩, fun e => hne (headOf_inj e)⟩

theorem Settled.start_ne (h : Settled c K) (hb : b ∈ K.used) : b.start ≠ 0 := fun e =>
  h.first ⟨b, hb, e ▸ start_mem b⟩

/-- A legal call returns, and leaves the state between two calls. -/
theorem Settled.step (h : Settled c K) {op : PageOp} (hop : op.Legal c) : ∃ c' K',
    op.step c = .ok c' ∧ Settled c' K' ∧ Keeps c.state K c'.state K' := by
  have hpos : 0 < pageSize := by decide
  cases op with
  | allocPage order =>
    rcases pageAllocPage_spec h.laid h.calm hop with ⟨e, -⟩ | ⟨s', K', z, b, e, rfl, hg⟩
    · refine ⟨c, K, ?_, h, Keeps.refl _ K⟩
      rw [PageOp.step, e, ok_bind]
      rfl
    · refine ⟨_, K', ?_, h.gives hg, hg.keeps⟩
      have hz : z ∈ s'.zones := hg.keeps.zones ▸ hg.zone
      simp only [PageOp.step, e, ok_bind, if_neg (z.page_pos b.start),
        pageAddr_eq hg.laid.zones hz hg.has, Nat.mul_div_cancel _ hpos]
      rfl
  | alloc order =>
    rcases pageAlloc_spec h.laid h.calm hop with ⟨e, -⟩ | ⟨s', K', z, b, e, rfl, hg⟩
    · refine ⟨c, K, ?_, h, Keeps.refl _ K⟩
      rw [PageOp.step, e, ok_bind]
      rfl
    · refine ⟨_, K', ?_, h.gives hg, hg.keeps⟩
      have hused : b ∈ K'.used := Laid.mem_used ((hg.live b).mpr (Or.inr rfl)) (by decide)
      have hne : b.start * pageSize ≠ 0 :=
        Nat.mul_ne_zero ((h.gives hg).start_ne hused) (Nat.ne_of_gt hpos)
      simp only [PageOp.step, e, ok_bind, if_neg hne, Nat.mul_div_cancel _ hpos]
      rfl
  | freePage page order =>
    obtain ⟨b, hb, he⟩ := h.block hop
    obtain ⟨rfl, rfl⟩ := Prod.mk.inj he
    obtain ⟨z, hz, hp⟩ := h.laid.zone (Laid.mem_used hb (by decide))
    obtain ⟨s', K', e, ht⟩ := pageFreePage_spec h.laid h.clean h.calm hb hz hp
    refine ⟨_, K', ?_, h.takes ht, ht.keeps⟩
    rw [PageOp.step, addrPage_eq h.laid.zones hz hp, ok_bind, e, ok_bind]
    rfl
  | free page order =>
    obtain ⟨b, hb, he⟩ := h.block hop
    obtain ⟨rfl, rfl⟩ := Prod.mk.inj he
    obtain ⟨s', K', e, ht⟩ := pageFree_spec h.laid h.clean h.calm hb
      (h.start_ne (Laid.mem_used hb (by decide)))
    refine ⟨_, K', ?_, h.takes ht, ht.keeps⟩
    rw [PageOp.step, e, ok_bind]
    rfl

theorem Settled.law (h : Settled c K) : BuddyLaw (cover K.used) c := by
  have hlive : ∀ x ∈ c.live, ∃ b, K b = .live ∧ headOf b = x := fun x hx => h.block hx
  have hfree : ∀ x ∈ allFree c.state, ∃ b, K b = .free ∧ headOf b = x := fun x hx => by
    rw [h.laid.allFree_eq] at hx
    exact hx
  refine ⟨fun x hx => ?_, fun x hx y hy hne => ?_, fun x hx y hy => ?_, ?_, fun op hop => ?_,
    fun x hx z hz hp => ?_, fun order ho s hnull x hx => ?_⟩
  · obtain ⟨b, hb, rfl⟩ := hlive x hx
    obtain ⟨z, hz, hin⟩ := h.laid.inside b (Laid.mem_used hb (by decide))
    exact ⟨z, hz, hin.blockIn⟩
  · obtain ⟨b, hb, rfl⟩ := hlive x hx
    obtain ⟨d, hd, rfl⟩ := hlive y hy
    exact headOf_apart h.laid.apart (Laid.mem_used hb (by decide)) (Laid.mem_used hd (by decide)) hne
  · obtain ⟨b, hb, rfl⟩ := hlive x hx
    obtain ⟨d, hd, rfl⟩ := hfree y hy
    refine headOf_apart h.laid.apart (Laid.mem_used hb (by decide)) (Laid.mem_used hd (by decide))
      fun e => ?_
    rw [headOf_inj e, hd] at hb
    cases hb
  · rw [h.callers, h.laid.pagesOf_eq h.calm]
  · obtain ⟨c', K', e, -⟩ := h.step hop
    exact ⟨c', e⟩
  · obtain ⟨b, hb, rfl⟩ := hlive x hx
    obtain ⟨s', K', -, -, -, -, -, hmerge⟩ := pageFreeZone_spec h.laid h.clean h.calm hb hz hp
    exact hmerge
  · have hnone : NoneLarge K order c.state.zones := by
      rcases hnull with e | e
      · rcases pageAllocPage_spec h.laid h.calm ho with ⟨-, hless⟩ | ⟨s', K', z, b, e', -, hg⟩
        · exact hless
        · exact absurd (Prod.mk.inj (Except.ok.inj (e'.symm.trans e))).2 (z.page_pos _)
      · rcases pageAlloc_spec h.laid h.calm ho with ⟨-, hless⟩ | ⟨s', K', z, b, e', -, hg⟩
        · exact hless
        · have hused : b ∈ K'.used := Laid.mem_used ((hg.live b).mpr (Or.inr rfl)) (by decide)
          exact absurd (Prod.mk.inj (Except.ok.inj (e'.symm.trans e))).2
            (Nat.mul_ne_zero ((h.gives hg).start_ne hused) (by decide))
    obtain ⟨b, hb, rfl⟩ := hfree x hx
    obtain ⟨z, hz, hp⟩ := h.laid.zone (Laid.mem_used hb (by decide))
    exact hnone z hz b hb hp

/-- Every run keeps the blocks and their pages. -/
theorem Settled.reach {c' : Client} (h : Settled c K)
    (hr : Reaches PageOp.step (fun c op => op.Legal c) c c') : ∃ K', Settled c' K' ∧
      Keeps c.state K c'.state K' := by
  refine hr.invariant (P := fun d => ∃ K', Settled d K' ∧ Keeps c.state K d.state K')
    ⟨K, h, Keeps.refl _ K⟩ ?_
  rintro d op d' ⟨K', hd, hk⟩ hop e
  obtain ⟨d'', K'', e', hd', hk'⟩ := hd.step hop
  obtain rfl := Except.ok.inj (e'.symm.trans e)
  exact ⟨K'', hd', hk.trans hk'⟩

/-! ### Zones of one block -/

/-- A zone that is one free block of order `o` at page `p`. -/
def oneBlock (p o : ℕ) : PageState :=
  let z : Zone := ⟨pageSize, p, p + 2 ^ o⟩
  { heads := fun a => if a = z.order o then ⟨z.page p, z.page p⟩
      else if a = z.page p then ⟨z.order o, z.order o⟩ else ⟨a, a⟩
    flags := fun a => if a = z.page p then pageSetFree (BitVec.ofNat 64 o) else 0#64
    zones := [z] }

theorem oneBlock_ready {p o : ℕ} (hp : 2 ^ o ∣ p) (ho : o ≤ maxOrder)
    (hend : (p + 2 ^ o) * pageSize ≤ 2 ^ 64) :
    Ready (oneBlock p o) ∧ allFree (oneBlock p o) = {(p, o)} := by
  obtain ⟨z, hz⟩ : ∃ z : Zone, z = ⟨pageSize, p, p + 2 ^ o⟩ := ⟨_, rfl⟩
  have hzones : (oneBlock p o).zones = [z] := by rw [hz]; rfl
  have hpos := Nat.two_pow_pos o
  have hmem : ∀ z' ∈ (oneBlock p o).zones, z' = z := fun z' hz' => by
    rw [hzones] at hz'
    exact List.mem_singleton.mp hz'
  have hzmem : z ∈ (oneBlock p o).zones := by
    rw [hzones]
    exact List.mem_singleton_self z
  have hhas : z.Has p := by
    rw [hz]
    exact ⟨Nat.le_refl p, Nat.lt_add_of_pos_right hpos⟩
  have hok : ZonesOk (oneBlock p o).zones := by
    have hsize : 2 ^ o ≤ 2 ^ 18 := Nat.pow_le_pow_right (by decide) ho
    refine ⟨fun z' hz' => ?_, fun z' hz' => ?_, fun z' hz' => ?_, fun z' hz' z'' hz'' hne => ?_⟩
    · rw [hmem z' hz', hz]
      exact Nat.lt_add_of_pos_right hpos
    · rw [hmem z' hz', hz]
      exact hend
    · rw [hmem z' hz', hz]
      simp only [Zone.bound, Zone.len, sizeofZone, sizeofPage, pageSize, Nat.add_sub_cancel_left]
      omega
    · exact absurd ((hmem z' hz').trans (hmem z'' hz'').symm) hne
  have hne : ∀ o' ≤ maxOrder, z.order o' ≠ z.page p := fun o' ho' =>
    hok.order_ne_page hzmem hzmem ho' hhas
  have hheads : ∀ a, (oneBlock p o).heads a = if a = z.order o then ⟨z.page p, z.page p⟩
      else if a = z.page p then ⟨z.order o, z.order o⟩ else ⟨a, a⟩ := fun a => by rw [hz]; rfl
  have hflags : ∀ a, (oneBlock p o).flags a =
      if a = z.page p then pageSetFree (BitVec.ofNat 64 o) else 0#64 := fun a => by rw [hz]; rfl
  have hfull : OnRing (oneBlock p o).heads (z.order o) [z.page p] := by
    refine ⟨⟨?_, ?_⟩, ?_⟩
    · simp [Link, hheads, (hne o ho).symm]
    · simp [hne o ho]
    · simp [z.order_pos, z.page_pos]
  have hempty : ∀ o' ≤ maxOrder, o' ≠ o → OnRing (oneBlock p o).heads (z.order o') [] := by
    intro o' ho' hoo
    have hno : z.order o' ≠ z.order o := fun e => hoo (hok.order_inj hzmem hzmem ho' ho e).2
    refine ⟨ring_nil.mpr ?_, by simp [z.order_pos]⟩
    simp [hheads, hno, hne o' ho']
  have hfree : allFree (oneBlock p o) = {(p, o)} := by
    ext x
    rw [Set.mem_singleton_iff]
    constructor
    · rintro ⟨z', hz', ho', hp', L, hr, hmemL⟩
      rw [hmem z' hz'] at hp' hr hmemL
      by_cases hxo : x.2 = o
      · rw [hxo] at hr
        rw [hr.ring.unique hfull.ring, List.mem_singleton] at hmemL
        exact Prod.ext (hok.page_inj hzmem hzmem hp' hhas hmemL).2 hxo
      · rw [hr.ring.unique (hempty x.2 ho' hxo).ring] at hmemL
        exact absurd hmemL List.not_mem_nil
    · rintro rfl
      exact ⟨z, hzmem, ho, hhas, _, hfull, List.mem_singleton_self _⟩
  refine ⟨⟨hok, fun z' hz' o' ho' => ?_, fun x hx y hy hxy => ?_, fun z' hz' p' hp' hf => ?_⟩, hfree⟩
  · rw [hmem z' hz']
    by_cases hoo : o' = o
    · subst hoo
      refine ⟨_, hfull, fun a ha => ⟨p, List.mem_singleton.mp ha, ⟨hp, ?_, ?_⟩, ?_, ?_⟩⟩
      · rw [hz]
      · rw [hz]
      · rw [hflags, if_pos (List.mem_singleton.mp ha), pageIsFree_setFree]
      · unfold maxOrder at ho
        rw [hflags, if_pos (List.mem_singleton.mp ha), pageOrder_setFree, pageOrder_eq,
          BitVec.toNat_ofNat]
        omega
    · exact ⟨[], hempty o' ho' hoo, fun a ha => absurd ha List.not_mem_nil⟩
  · rw [hfree, Set.mem_singleton_iff] at hx hy
    exact absurd (hx.trans hy.symm) hxy
  · rw [hflags] at hf
    split_ifs at hf with he
    · rw [(hok.page_inj hz' hzmem hp' hhas he).2, hfree]
      exact ⟨_, rfl, Set.mem_Ico.mpr ⟨Nat.le_refl p, Nat.lt_add_of_pos_right hpos⟩⟩
    · exact absurd hf (by decide)

/-! ### All runs -/

/-- Where page `0` is not free, all runs keep the law. -/
theorem buddyLaw_of_run (h : Ready s) (h0 : ∀ x ∈ allFree s, x.1 ≠ 0) (hr : PageReach s c) :
    BuddyLaw (pagesOf (allFree s)) c := by
  obtain ⟨K, hc, hk⟩ := (h.settled h0).reach hr
  have hpages : cover K.used = pagesOf (allFree s) := by
    rw [hk.cover, ← (h.settled h0).law.pages, pagesOf_empty, Set.empty_union]
  exact hpages ▸ hc.law

/-- One page of a block of two -/
theorem smallZone_buddyLaw : ∃ c, PageReach (oneBlock 2 1) c ∧ c.live.Nonempty ∧
    BuddyLaw (pagesOf {(2, 1)}) c := by
  obtain ⟨hready, hfree⟩ := oneBlock_ready (p := 2) (o := 1) (by decide) (by decide) (by decide)
  have h0 : ∀ x ∈ allFree (oneBlock 2 1), x.1 ≠ 0 := fun x hx => by
    rw [hfree, Set.mem_singleton_iff] at hx
    rw [hx]
    decide
  have haddr : (pageAlloc (oneBlock 2 1) 0).toOption.map Prod.snd = some 8192 := by decide +kernel
  cases e : pageAlloc (oneBlock 2 1) 0 with
  | error stop =>
    rw [e] at haddr
    cases haddr
  | ok r =>
    obtain ⟨s, addr⟩ := r
    rw [e] at haddr
    obtain rfl : addr = 8192 := Option.some.inj haddr
    have hstep : PageOp.step ⟨oneBlock 2 1, ∅⟩ (.alloc 0) = .ok ⟨s, insert (2, 0) ∅⟩ := by
      rw [PageOp.step, e, ok_bind]
      rfl
    have hlegal : PageOp.Legal ⟨oneBlock 2 1, ∅⟩ (.alloc 0) := Nat.zero_le _
    have hr : PageReach (oneBlock 2 1) ⟨s, insert (2, 0) ∅⟩ := .next .start hlegal hstep
    exact ⟨_, hr, ⟨(2, 0), Or.inl rfl⟩, hfree ▸ buddyLaw_of_run hready h0 hr⟩

/-- `page_alloc` hands out page `0` as the null address. -/
theorem firstPage_not_buddyLaw :
    Ready (oneBlock 0 0) ∧ ∃ c, PageReach (oneBlock 0 0) c ∧ ¬ BuddyLaw (pagesOf {(0, 0)}) c := by
  obtain ⟨hready, hfree⟩ := oneBlock_ready (p := 0) (o := 0) (by decide) (by decide) (by decide)
  refine ⟨hready, ⟨oneBlock 0 0, ∅⟩, .start, fun hlaw => ?_⟩
  have hnull : ∃ s, pageAlloc (oneBlock 0 0) 0 = .ok (s, 0) := by
    rcases pageAlloc_spec hready.laid (fun b => shown_ne (by decide) (by decide)) (Nat.zero_le _) with
      ⟨e, -⟩ | ⟨s', K', z, b, e, hbo, hg⟩
    · exact ⟨_, e⟩
    · have hz : z = ⟨pageSize, 0, 1⟩ := List.mem_singleton.mp hg.zone
      have hp := hg.has
      rw [hz] at hp
      have hb : b.start = 0 := Nat.lt_one_iff.mp hp.2
      rw [hb, Nat.zero_mul] at e
      exact ⟨_, e⟩
  obtain ⟨s, e⟩ := hnull
  have hlt := hlaw.null 0 (Nat.zero_le _) s (Or.inr e) (0, 0) (hfree ▸ rfl)
  exact absurd hlt (Nat.lt_irrefl 0)

end FilesKernel.Buddy
