import FilesKernel.Buddy.Handover

/-! Free memory depends on what is live only.

    After `page_alloc_setup` no two free blocks could be merged, and all calls keep that. Then the free
    pages of a zone determine its free blocks; and these are the pages of the blocks without the live
    ones. -/

namespace FilesKernel.Buddy
open CExec Balloc Spans Boot
open Dyadic hiding cover

variable {c : Image} {s₀ s s' : PageState} {bs bs' bs₀ : BallocState} {K K' : Blocks} {z : Zone}
  {D : List (Span ℕ)} {mem : BootMem} {info : ℕ} {d d' : Client}

/-! ### The first state -/

/-- No two of the blocks that are handed over could be merged. -/
theorem Filled.noBuddies (h : Filled s₀ D s K) (hv : Valid D) (hM : Below (2 ^ 63) D) :
    NoBuddies s K := by
  rintro z - b ⟨hb, -⟩ hlt ⟨hb', -⟩
  obtain ⟨r, hr, hbr⟩ := (h.free b).mp hb
  obtain ⟨r', hr', hbr'⟩ := (h.free b.buddy).mp hb'
  have hbegin : ∀ x ∈ D, x.begin ≤ 2 ^ 63 := fun x hx => (hv.le x hx).trans (hM x hx)
  have hnext := buddy_adjacent b
  have hpos := start_lt_stop b
  have hpos' := start_lt_stop b.buddy
  rcases hv.eq_or_before hr hr' with rfl | hrr | hrr
  · exact (Carved.greatest hbr).not_buddies (Carved.greatest hbr') hlt
  · -- the pages of different ranges are not next to each other
    have := stop_lt_start hbr hbr' hrr (hbegin r' hr')
    omega
  · have := stop_lt_start hbr' hbr hrr (hbegin r hr)
    omega

/-- With all descriptors zero before, nothing but the heads of blocks is flagged. -/
theorem Filled.settled (h : Filled s₀ D s K)
    (hzero : ∀ z ∈ s.zones, ∀ p, z.Has p → s₀.flags (z.page p) = 0#64) : Settled ⟨s, ∅⟩ K := by
  have hno : ∀ b, K b ≠ .held ∧ K b ≠ .live := fun b => by
    rcases h.calm b with e | e <;> rw [e] <;> decide
  refine ⟨h.laid, fun z hz p hp hf => ?_, fun b => (hno b).1, ?_, fun h0 => ?_⟩
  · by_contra hout
    have hkeep : s.flags (z.page p) = s₀.flags (z.page p) :=
      h.flags _ fun x hx z' hz' hp' he => hout ⟨x, Laid.mem_used hx (by decide), by
        rw [(h.laid.zones.page_inj hz hz' hp hp' he).2]
        exact start_mem x⟩
    rw [hkeep, hzero z hz p hp] at hf
    exact absurd hf (by decide)
  · have hnone : {b | K b = .live} = ∅ := Set.eq_empty_of_forall_notMem fun b => (hno b).2
    rw [hnone, Set.image_empty]
  · obtain ⟨r, -, h0⟩ := h.cover.mp h0
    have hpos := firstPage_pos r
    rw [Set.mem_Ico] at h0
    omega

/-! ### Two runs -/

/-- The free pages of a zone are those of all blocks but the live ones. -/
theorem Settled.mem_cover_freeIn (h : Settled d K) (hz : z ∈ d.state.zones) {p : ℕ} :
    p ∈ Dyadic.cover (freeIn K z) ↔
      (z.Has p ∧ p ∈ Dyadic.cover K.used) ∧ p ∉ pagesOf d.live := by
  rw [h.callers, pagesOf_image]
  constructor
  · rintro ⟨b, ⟨hb, hpb⟩, hp⟩
    have hused := Laid.mem_used hb (by decide)
    refine ⟨⟨(h.laid.contains hused hz hpb (start_mem b)).has hp, b, hused, hp⟩, ?_⟩
    rintro ⟨b', hb', hp'⟩
    obtain rfl := h.laid.apart b hused b' (Laid.mem_used hb' (by decide)) p hp hp'
    rw [Set.mem_ofPred_eq, hb] at hb'
    cases hb'
  · rintro ⟨⟨hzp, b, hb, hp⟩, hno⟩
    cases hk : K b with
    | none => exact absurd hk hb
    | free => exact ⟨b, ⟨hk, (h.laid.contains hb hz hzp hp).has (start_mem b)⟩, hp⟩
    | live => exact absurd ⟨b, hk, hp⟩ hno
    | held => exact absurd hk (h.calm b)

/-- States with the same zones, the same pages in blocks and the same live blocks have the same free
    blocks, where no two of these could be merged. -/
theorem Settled.freeBlocks_eq (h : Settled d K) (h' : Settled d' K')
    (hzones : d'.state.zones = d.state.zones) (hcover : Dyadic.cover K'.used = Dyadic.cover K.used)
    (hr : NoBuddies d.state K) (hr' : NoBuddies d'.state K') (hlive : d.live = d'.live)
    (hz : z ∈ d.state.zones) : freeBlocks d.state z = freeBlocks d'.state z := by
  have hz' : z ∈ d'.state.zones := hzones ▸ hz
  have hused : ∀ b ∈ freeIn K z, b ∈ K.used := fun b hb => Laid.mem_used hb.1 (by decide)
  have hused' : ∀ b ∈ freeIn K' z, b ∈ K'.used := fun b hb => Laid.mem_used hb.1 (by decide)
  have hfree : freeIn K z = freeIn K' z := by
    refine eq_of_cover (M := maxOrder)
      (fun a ha b hb => h.laid.apart a (hused a ha) b (hused b hb))
      (fun a ha b hb => h'.laid.apart a (hused' a ha) b (hused' b hb)) (hr z hz) (hr' z hz')
      (fun b hb => h.laid.order b (hused b hb)) (fun b hb => h'.laid.order b (hused' b hb)) ?_
    ext p
    rw [h.mem_cover_freeIn hz, h'.mem_cover_freeIn hz', hcover, hlive]
  ext x
  rw [h.laid.mem_freeBlocks hz, h'.laid.mem_freeBlocks hz', hfree]

/-- The free blocks of `s` depend on what is live: two runs from there that end with the same live blocks
    end with the same free ones, and when nothing is live these are the first ones. -/
structure Unfragmented (s : PageState) : Prop where
  same : ∀ d d', PageReach s d → PageReach s d' → d.live = d'.live → ∀ z ∈ s.zones,
    freeBlocks d.state z = freeBlocks d'.state z
  back : ∀ d, PageReach s d → d.live = ∅ → ∀ z ∈ s.zones, freeBlocks d.state z = freeBlocks s z

theorem Settled.unfragmented (h : Settled ⟨s, ∅⟩ K) (hr : NoBuddies s K) : Unfragmented s := by
  have hsame : ∀ d d', PageReach s d → PageReach s d' → d.live = d'.live → ∀ z ∈ s.zones,
      freeBlocks d.state z = freeBlocks d'.state z := by
    intro d d' hd hd' hlive z hz
    obtain ⟨K₁, h₁, hk₁⟩ := h.reach hd
    obtain ⟨K₂, h₂, hk₂⟩ := h.reach hd'
    have hz₁ : z ∈ d.state.zones := hk₁.zones ▸ hz
    exact h₁.freeBlocks_eq h₂ (hk₂.zones.trans hk₁.zones.symm) (hk₂.cover.trans hk₁.cover.symm)
      (hk₁.reduced hr) (hk₂.reduced hr) hlive hz₁
  exact ⟨hsame, fun d hd hlive => hsame d ⟨s, ∅⟩ hd .start hlive⟩

/-- No order of calls after `page_alloc_setup` breaks up free memory, where all descriptors were zero
    before. -/
theorem pageAllocSetup_unfragmented (hroot : ∀ t, bs₀.root t = 0)
    (hentry : ∀ p, IsEntry mem info p →
      (mmapEntry mem p).addr + (mmapEntry mem p).length ≤ 2 ^ 63) (himage : c.bssPhysEnd ≤ 2 ^ 63)
    (hok : ballocSetup c bs₀ mem info = .ok bs) (hset : pageAllocSetup s c bs = .ok (bs', s'))
    (hzero : ∀ z ∈ s'.zones, ∀ p, z.Has p → s.flags (z.page p) = 0#64) : Unfragmented s' := by
  obtain ⟨T, hb⟩ := ballocSetup_booted hroot (by decide) hentry himage hok
  rcases pageAllocSetup_spec hb s with ⟨e, -, -, e'⟩ | ⟨bs'', T', s'', K, -, e', hb', hfill⟩
  · rw [hset] at e'
    cases e'
  obtain ⟨rfl, rfl⟩ := Prod.mk.inj (Except.ok.inj (e'.symm.trans hset))
  obtain ⟨-, hv⟩ := hb'.trees
  exact (hfill.settled hzero).unfragmented (hfill.noBuddies (hv _) (hb'.below _))

theorem blankPages_unfragmented : ∃ bs bs' s', ballocSetup bootImage bootState lowMem 0 = .ok bs ∧
    pageAllocSetup blankPages bootImage bs = .ok (bs', s') ∧ Unfragmented s' := by
  obtain ⟨bs, bs', T', s', K, hok, hset, -⟩ := low_filled (s := blankPages) (by decide +kernel)
  exact ⟨bs, bs', s', hok, hset, pageAllocSetup_unfragmented bootState_root (fun _ => low_below)
    (by decide) hok hset fun _ _ _ _ => rfl⟩

end FilesKernel.Buddy
