import FilesKernel.Buddy.Handover

/-! The page descriptors after `page_alloc_setup`.

    The descriptors of a new zone are what was in the memory before: the `memset` in
    `__page_alloc_zone_setup` has the size `0`. Only the first descriptors of blocks are written, so the
    flags tell which blocks are free exactly when the memory had no FREE flag anywhere else. -/

namespace FilesKernel.Buddy
open CExec Balloc RbTree Spans Boot Dyadic

/-- A descriptor is flagged FREE exactly when its page is the first of a block on a list of the zone, and
    then it has the order of the list. -/
def FlagsTell (s : PageState) : Prop :=
  ∀ z ∈ s.zones, ∀ p, z.Has p →
    (pageIsFree (s.flags (z.page p)) = true ↔ ∃ o, (p, o) ∈ freeBlocks s z) ∧
    ∀ o, (p, o) ∈ freeBlocks s z → pageOrder (s.flags (z.page p)) = o

/-- No block begins at the page `p`. -/
def NoHead (R : List (Span ℕ)) (p : ℕ) : Prop := ∀ r ∈ R, ∀ x ∈ blocksOf r, x.start ≠ p

/-- In the memory that `balloc_alloc` has for the zones of the memory map, there is no FREE flag in the
    descriptor of a page where no block of the free ranges begins. -/
def Cleared (c : Image) (bs : BallocState) (flags : ℕ → Flags) : Prop :=
  ∀ U U' bs' zs, Repr (bs.tree .memoryMap).mem (bs.tree .memoryMap) U →
    zonesFor c (bs.ranges U) bs = .ok (bs', zs) →
    Repr (bs'.tree .freeRanges).mem (bs'.tree .freeRanges) U' →
    ∀ z ∈ zs, ∀ p, z.Has p → NoHead (bs'.ranges U') p → pageIsFree (flags (z.page p)) = false

variable {c : Image} {s₀ s s' : PageState} {bs bs' bs₀ : BallocState} {K : Blocks} {z : Zone} {p : ℕ}
  {D : List (Span ℕ)} {mem : BootMem} {info : ℕ}

/-- The flags in other descriptors are those that were there. -/
theorem Filled.flags_of_noHead (h : Filled s₀ D s K) (hz : z ∈ s.zones) (hp : z.Has p)
    (hno : NoHead D p) : s.flags (z.page p) = s₀.flags (z.page p) := by
  refine h.flags _ fun x hx z' hz' hp' he => ?_
  obtain ⟨r, hr, hxr⟩ := (h.free x).mp hx
  exact hno r hr x hxr (h.laid.zones.page_inj hz hz' hp hp' he).2.symm

/-- A block on a list begins where one of the ranges is cut. -/
theorem Filled.not_noHead (h : Filled s₀ D s K) (hz : z ∈ s.zones) {o : ℕ}
    (hx : (p, o) ∈ freeBlocks s z) : ¬ NoHead D p := by
  obtain ⟨b, ⟨hb, -⟩, he⟩ := (h.laid.mem_freeBlocks hz).mp hx
  obtain ⟨r, hr, hbr⟩ := (h.free b).mp hb
  exact fun hno => hno r hr b hbr (Prod.mk.inj he).1

theorem Filled.flagsTell_iff (h : Filled s₀ D s K) : FlagsTell s ↔
    ∀ z ∈ s.zones, ∀ p, z.Has p → NoHead D p → pageIsFree (s₀.flags (z.page p)) = false := by
  constructor
  · intro htell z hz p hp hno
    rw [← h.flags_of_noHead hz hp hno, Bool.eq_false_iff]
    intro hf
    obtain ⟨o, hx⟩ := (htell z hz p hp).1.mp hf
    exact h.not_noHead hz hx hno
  · intro hclear z hz p hp
    have hlisted : ∀ o, (p, o) ∈ freeBlocks s z → pageIsFree (s.flags (z.page p)) = true ∧
        pageOrder (s.flags (z.page p)) = o := fun o hx => by
      obtain ⟨b, ⟨hb, hpb⟩, he⟩ := (h.laid.mem_freeBlocks hz).mp hx
      obtain ⟨rfl, rfl⟩ := Prod.mk.inj he
      exact h.laid.marked b hb z hz hpb
    refine ⟨⟨fun hf => ?_, fun ⟨o, hx⟩ => (hlisted o hx).1⟩, fun o hx => (hlisted o hx).2⟩
    by_contra hnone
    have hno : NoHead D p := by
      rintro r hr x hx rfl
      exact hnone ⟨x.order, (h.laid.mem_freeBlocks hz).mpr
        ⟨x, ⟨(h.free x).mpr ⟨r, hr, hx⟩, hp⟩, rfl⟩⟩
    rw [h.flags_of_noHead hz hp hno, hclear z hz p hp hno] at hf
    cases hf

/-- After `page_alloc_setup`, the flags tell which blocks are free exactly when the memory for the
    descriptors was clear. -/
theorem flagsTell_iff_cleared (hroot : ∀ t, bs₀.root t = 0)
    (hentry : ∀ p, IsEntry mem info p →
      (mmapEntry mem p).addr + (mmapEntry mem p).length ≤ 2 ^ 63) (himage : c.bssPhysEnd ≤ 2 ^ 63)
    (hok : ballocSetup c bs₀ mem info = .ok bs) (hset : pageAllocSetup s c bs = .ok (bs', s')) :
    FlagsTell s' ↔ Cleared c bs s.flags := by
  obtain ⟨T, hb⟩ := ballocSetup_booted hroot (by decide) hentry himage hok
  obtain ⟨⟨L, hs⟩, -⟩ := hb.trees
  rcases pageAllocSetup_spec hb s with ⟨e, -, -, e'⟩ | ⟨bs'', T', s'', K, ez, e', hb', hfill⟩
  · rw [hset] at e'
    cases e'
  obtain ⟨rfl, rfl⟩ := Prod.mk.inj (Except.ok.inj (e'.symm.trans hset))
  obtain ⟨⟨L', hs'⟩, -⟩ := hb'.trees
  rw [hfill.flagsTell_iff]
  constructor
  · intro hclear U U' bs₁ zs hU hz hU'
    obtain rfl := (hs.trees .memoryMap).unique hU
    obtain ⟨rfl, rfl⟩ := Prod.mk.inj (Except.ok.inj (ez.symm.trans hz))
    obtain rfl := (hs'.trees .freeRanges).unique hU'
    exact hclear
  · intro hclear
    exact hclear _ _ _ _ (hs.trees .memoryMap) ez (hs'.trees .freeRanges)

theorem blankPages_flagsTell_iff : ∃ bs bs' s', ballocSetup bootImage bootState lowMem 0 = .ok bs ∧
    pageAllocSetup blankPages bootImage bs = .ok (bs', s') ∧
    (FlagsTell s' ↔ Cleared bootImage bs blankPages.flags) := by
  obtain ⟨bs, bs', T', s', K, hok, hset, -⟩ := low_filled (s := blankPages) (by decide +kernel)
  exact ⟨bs, bs', s', hok, hset,
    flagsTell_iff_cleared bootState_root (fun _ => low_below) (by decide) hok hset⟩

/-- Memory with a FREE flag at address `344`, where the descriptor of page `0` comes to lie -/
def dirtyPages : PageState :=
  ⟨fun a => ⟨a, a⟩, fun a => if a = 344 then pageFreeMask else 0#64, []⟩

/-- Page `0` is on no list, and its flag stays. -/
theorem dirtyPages_not_flagsTell : ∃ bs bs' s',
    ballocSetup bootImage bootState lowMem 0 = .ok bs ∧
    pageAllocSetup dirtyPages bootImage bs = .ok (bs', s') ∧ ¬ FlagsTell s' := by
  obtain ⟨bs, bs', T', s', K, hok, hset, hz, -, hfill⟩ := low_filled (s := dirtyPages) (by decide +kernel)
  refine ⟨bs, bs', s', hok, hset, fun htell => ?_⟩
  have hmem : (⟨0, 0, 5⟩ : Zone) ∈ s'.zones := by
    rw [hz]
    exact List.mem_singleton_self _
  have hno : NoHead (bs'.ranges (T' .freeRanges)) 0 := fun r _ x hx h0 => by
    have hstart := Carved.start hx
    have hpos := firstPage_pos r
    omega
  have hclear : pageIsFree (dirtyPages.flags 344) = false :=
    hfill.flagsTell_iff.mp htell _ hmem 0 (by decide) hno
  exact absurd hclear (by decide)

end FilesKernel.Buddy
