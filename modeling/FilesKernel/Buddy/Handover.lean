import FilesKernel.Buddy.Runs
import FilesKernel.Buddy.Setup

/-! The free blocks after `page_alloc_setup`.

    The second loop cuts the whole pages of every free range into blocks. A free range lies in one range
    of the memory map and so in one zone; and as ranges do not touch, no block of one continues a block
    of another. -/

namespace FilesKernel.Buddy
open CExec CWord LinkedList Balloc RbTree RedBlack Spans Boot
open Dyadic hiding cover

/-! ### One range -/

/-- The first page that is handed over of a range: page `0` never is. -/
def firstPage (r : Span ℕ) : ℕ := if pageUp r.begin ≠ 0 then pageUp r.begin else 1

/-- The blocks that a range is cut into -/
def blocksOf (r : Span ℕ) : Set Block := Carved (firstPage r) (r.stop / pageSize)

variable {c : Image} {s₀ s : PageState} {bs : BallocState} {T : RangeTree → ColorTree ℕ} {K : Blocks}
  {D : List (Span ℕ)} {r r' : Span ℕ} {p : ℕ}

theorem pageUp_le_firstPage (r : Span ℕ) : pageUp r.begin ≤ firstPage r := by
  unfold firstPage
  split_ifs <;> omega

theorem firstPage_pos (r : Span ℕ) : 0 < firstPage r := by
  unfold firstPage
  split_ifs <;> omega

/-- The pages of the blocks of a range are its whole pages but page `0`. -/
theorem cover_blocksOf (r : Span ℕ) :
    Dyadic.cover (blocksOf r) = Set.Ico (firstPage r) (r.stop / pageSize) :=
  cover_carved _ (Nat.le_refl _)

theorem mem_pages_iff (hr : r.begin ≤ 2 ^ 63) : p ∈ Set.Ico (firstPage r) (r.stop / pageSize) ↔
    (r.begin ≤ p * pageSize ∧ (p + 1) * pageSize ≤ r.stop) ∧ p ≠ 0 := by
  have hup := pageUp_eq hr
  rw [Set.mem_Ico, firstPage]
  unfold pageSize at *
  split_ifs <;> omega

/-- Blocks of different ranges are not next to each other. -/
theorem stop_lt_start {x y : Block} (hx : x ∈ blocksOf r) (hy : y ∈ blocksOf r')
    (h : r.stop < r'.begin) (h' : r'.begin ≤ 2 ^ 63) : x.stop < y.start := by
  have hlt := stop_lt_pageUp h h'
  have hfirst := pageUp_le_firstPage r'
  have hstop := (Carved.greatest hx).stop
  have hstart := Carved.start hy
  omega

/-! ### The loop -/

/-- The blocks of the ranges `D` have been put on the lists. -/
structure Filled (s₀ : PageState) (D : List (Span ℕ)) (s : PageState) (K : Blocks) : Prop where
  laid : Laid s K
  zones : s.zones = s₀.zones
  calm : ∀ x, K x = .free ∨ K x = .none
  free : ∀ x, K x = .free ↔ ∃ r ∈ D, x ∈ blocksOf r
  flags : ∀ a, (∀ x, K x = .free → ∀ z ∈ s.zones, z.Has x.start → a ≠ z.page x.start) →
    s.flags a = s₀.flags a

theorem Filled.cover (h : Filled s₀ D s K) :
    p ∈ Dyadic.cover K.used ↔ ∃ r ∈ D, p ∈ Set.Ico (firstPage r) (r.stop / pageSize) := by
  constructor
  · rintro ⟨x, hx, hp⟩
    obtain ⟨r, hr, hxr⟩ := (h.free x).mp ((h.calm x).resolve_right hx)
    exact ⟨r, hr, cover_blocksOf r ▸ ⟨x, hxr, hp⟩⟩
  · rintro ⟨r, hr, hp⟩
    rw [← cover_blocksOf] at hp
    obtain ⟨x, hx, hp⟩ := hp
    exact ⟨x, Laid.mem_used ((h.free x).mpr ⟨r, hr, hx⟩) (by decide), hp⟩

/-- A range with no page to hand over is passed over. -/
theorem Filled.skip (h : Filled s₀ D s K) (hr : r.stop / pageSize ≤ firstPage r) :
    Filled s₀ (D ++ [r]) s K := by
  refine ⟨h.laid, h.zones, h.calm, fun x => ?_, h.flags⟩
  rw [h.free]
  constructor
  · rintro ⟨d, hd, hx⟩
    exact ⟨d, List.mem_append_left _ hd, hx⟩
  · rintro ⟨d, hd, hx⟩
    rcases List.mem_append.mp hd with hd | hd
    · exact ⟨d, hd, hx⟩
    · rw [List.mem_singleton.mp hd, blocksOf, carved_of_le hr] at hx
      exact absurd hx (Set.notMem_empty x)

/-- One call of `__page_alloc_zone_free`, of a range in one zone and behind the others. -/
theorem pageAllocZoneFree_spec (h : Filled s₀ D s K) (hD : ∀ d ∈ D, d.stop < r.begin)
    (hr : r.begin ≤ 2 ^ 63) (hr' : r.stop ≤ 2 ^ 63) (hz : firstPage r < r.stop / pageSize →
      ∃ z ∈ s.zones, z.begin ≤ firstPage r ∧ r.stop / pageSize ≤ z.stop) :
    ∃ s' K', pageAllocZoneFree s r.begin r.stop = .ok s' ∧ Filled s₀ (D ++ [r]) s' K' := by
  rw [pageAllocZoneFree, ← firstPage]
  rcases Nat.lt_or_ge (firstPage r) (r.stop / pageSize) with hlt | hge
  · obtain ⟨z, hz, hbegin, hstop⟩ := hz hlt
    have hfind := pageAllocZoneFind_eq h.laid.zones hz ⟨hbegin, hlt.trans_le hstop⟩
    have hsize : r.stop / pageSize - firstPage r < maxSteps := by
      unfold maxSteps pageSize
      omega
    obtain ⟨s', K', e, hadd⟩ := pageCarveLoop_spec hsize hlt.le h.laid hz hbegin hstop
      fun q hq _ hmem => by
        obtain ⟨d, hd, hq'⟩ := h.cover.mp hmem
        have hlt' := stop_lt_pageUp (hD d hd) hr
        have hle := pageUp_le_firstPage r
        have := hq'.2
        omega
    refine ⟨s', K', ?_, hadd.laid, hadd.zones.trans h.zones, hadd.calm h.calm, fun x => ?_,
      fun a ha => ?_⟩
    · rw [if_neg (Nat.not_le_of_lt hlt), hfind]
      dsimp only
      rw [bugOn_false (by omega), ok_bind, bugOn_false (by omega), ok_bind]
      exact e
    · rw [hadd.free, h.free]
      constructor
      · rintro (⟨d, hd, hx⟩ | hx)
        · exact ⟨d, List.mem_append_left _ hd, hx⟩
        · exact ⟨r, List.mem_append_right _ (List.mem_singleton_self r), hx⟩
      · rintro ⟨d, hd, hx⟩
        rcases List.mem_append.mp hd with hd | hd
        · exact Or.inl ⟨d, hd, hx⟩
        · rw [List.mem_singleton.mp hd] at hx
          exact Or.inr hx
    · have hold : s.flags a = s₀.flags a := h.flags a fun x hx z' hz' hp =>
        ha x ((hadd.free x).mpr (Or.inl hx)) z' (hadd.zones ▸ hz') hp
      refine (hadd.flags a fun x hx => ?_).trans hold
      have hstart := Carved.start hx
      have hend := (Carved.greatest hx).stop
      have hpos := start_lt_stop x
      exact ha x ((hadd.free x).mpr (Or.inr hx)) z (hadd.zones ▸ hz) ⟨by omega, by omega⟩
  · exact ⟨s, K, if_pos hge, h.skip hge⟩

/-- The loop over the nodes `Y` of `free_ranges`. -/
theorem pageFillLoop_spec {U : ColorTree ℕ} (ht : Repr (bs.tree .freeRanges).mem (bs.tree .freeRanges) U)
    (hv : Valid (bs.ranges U)) (hM : Below (2 ^ 63) (bs.ranges U))
    (hz : ∀ r ∈ bs.ranges U, firstPage r < r.stop / pageSize →
      ∃ z ∈ s₀.zones, z.begin ≤ firstPage r ∧ r.stop / pageSize ≤ z.stop) :
    ∀ {fuel : ℕ} {X Y : List ℕ} {s : PageState} {K : Blocks}, U.inorder = X ++ Y → Y.length < fuel →
    Filled s₀ (X.map bs.range) s K →
    ∃ s' K', loop (pageFillBody bs) fuel (s, Y.headD 0) = .ok s' ∧ Filled s₀ (bs.ranges U) s' K'
  | 0, _, _, _, _, _, hfuel, _ => absurd hfuel (Nat.not_lt_zero _)
  | fuel + 1, X, [], s, K, hU, _, h => by
      refine ⟨s, K, ?_, ?_⟩
      · rw [loop, List.headD_nil, pageFillBody, if_pos rfl, ok_bind]
      · rw [List.append_nil] at hU
        rw [BallocState.ranges, hU]
        exact h
  | fuel + 1, X, a :: Y, s, K, hU, hfuel, h => by
      have hmem : a ∈ U.inorder := by
        rw [hU]
        exact List.mem_append_right _ List.mem_cons_self
      have hra : bs.range a ∈ bs.ranges U := List.mem_map_of_mem hmem
      have hcut := hv
      rw [BallocState.ranges, hU, List.map_append, List.map_cons] at hcut
      have hD : ∀ d ∈ X.map bs.range, d.stop < (bs.range a).begin := fun d hd =>
        (valid_append.mp hcut).2.2 d hd _ List.mem_cons_self
      have hstop := hM _ hra
      obtain ⟨s', K', e, h'⟩ := pageAllocZoneFree_spec h hD ((hv.le _ hra).trans hstop) hstop
        (h.zones ▸ hz _ hra)
      have hbody : pageFillBody bs (s, a) = .ok (.inl (s', Y.headD 0)) := by
        rw [pageFillBody, if_neg (ht.isNode a hmem).ne, e, ok_bind, rbNext_at ht hU, ok_bind]
      have hX : (X ++ [a]).map bs.range = X.map bs.range ++ [bs.range a] := List.map_append
      have hU' : U.inorder = (X ++ [a]) ++ Y := by
        rw [hU, List.append_assoc, List.singleton_append]
      rw [loop, List.headD_cons, hbody, ok_bind]
      exact pageFillLoop_spec ht hv hM hz hU' (Nat.lt_of_succ_lt_succ hfuel) (hX ▸ h')

/-! ### Both loops -/

/-- A free range lies in the zone of a range of the memory map. -/
theorem SettingUp.zone_of_free {U : ColorTree ℕ} {f : ℕ → Span ℕ}
    (h : SettingUp c s₀ U f (U.inorder.map f) bs T s) (hr : r ∈ bs.ranges (T .freeRanges))
    (hlt : firstPage r < r.stop / pageSize) :
    ∃ z ∈ s.zones, z.begin ≤ firstPage r ∧ r.stop / pageSize ≤ z.stop := by
  obtain ⟨-, hv⟩ := h.booted.trees
  have hstop := h.booted.below _ r hr
  have hle := (hv _).le r hr
  have hup := pageUp_eq (hle.trans hstop)
  have hfirst := pageUp_le_firstPage r
  have hne : r.begin < r.stop := by
    unfold pageSize at *
    omega
  have hsub : Set.Ico r.begin r.stop ⊆ Spans.cover (bs.ranges (T .memoryMap)) := fun x hx =>
    h.booted.sub ⟨r, hr, hx.1, hx.2⟩
  obtain ⟨m, hm, hmb, hms⟩ := (hv _).within_one hne hsub
  have hm63 := h.booted.below _ m hm
  have hup' := pageUp_eq (a := m.begin) (by omega)
  have hranges : bs.ranges (T .memoryMap) = U.inorder.map f := by
    rw [BallocState.ranges, h.tree]
    exact List.map_congr_left h.ranges
  have hmlt : pageUp m.begin < m.stop / pageSize := by
    unfold pageSize at *
    omega
  obtain ⟨z, hz, hb, he⟩ := h.all m (hranges ▸ hm) hmlt
  refine ⟨z, hz, ?_, ?_⟩
  · rw [hb]
    unfold pageSize at *
    omega
  · rw [he]
    exact Nat.div_le_div_right hms

/-- `page_alloc_setup` fails where an allocation of the bootstrap allocator does, and else puts the
    whole pages of what is left of `free_ranges` on the lists. -/
theorem pageAllocSetup_spec (h : Booted c (2 ^ 63) bs T) (s₀ : PageState) :
    (∃ e, NoMemory e ∧ zonesFor c (bs.ranges (T .memoryMap)) bs = .error e ∧
      pageAllocSetup s₀ c bs = .error e) ∨
    ∃ bs' T' s' K, zonesFor c (bs.ranges (T .memoryMap)) bs = .ok (bs', s'.zones) ∧
      pageAllocSetup s₀ c bs = .ok (bs', s') ∧ Booted c (2 ^ 63) bs' T' ∧
      Filled { s₀ with zones := s'.zones } (bs'.ranges (T' .freeRanges)) s' K := by
  obtain ⟨⟨L, hs⟩, hv⟩ := h.trees
  have ht := hs.trees .memoryMap
  have hfirst : rbLeftmost (bs.tree .memoryMap) bs.memoryMap =
      .ok ((T .memoryMap).inorder.headD 0) := rbLeftmost_at ht
  have hlen : (T .memoryMap).inorder.length < maxSteps := by
    have := ht.length_lt
    omega
  rw [pageAllocSetup, hfirst]
  rcases pageSetupLoop_spec (hv .memoryMap) (h.below .memoryMap) (List.nil_append _).symm hlen
    (SettingUp.start h) with ⟨e, he, ez, el⟩ | ⟨bs', T', s₁, zs, ez, el, hzs, h₁⟩
  · exact Or.inl ⟨e, he, ez, by rw [ok_bind, el, error_bind]⟩
  · right
    obtain ⟨⟨L', hs'⟩, hv'⟩ := h₁.booted.trees
    have ht' := hs'.trees .freeRanges
    have hfirst' : rbLeftmost (bs'.tree .freeRanges) bs'.freeRanges =
        .ok ((T' .freeRanges).inorder.headD 0) := rbLeftmost_at ht'
    have hlen' : (T' .freeRanges).inorder.length < maxSteps := by
      have := ht'.length_lt
      omega
    have hstart : Filled s₁ [] s₁ noBlocks := by
      refine ⟨h₁.laid, rfl, fun x => Or.inr rfl, fun x => ⟨nofun, ?_⟩, fun _ _ => rfl⟩
      rintro ⟨r, hr, -⟩
      exact absurd hr List.not_mem_nil
    obtain ⟨s', K, e, hfill⟩ := pageFillLoop_spec ht' (hv' _) (h₁.booted.below _)
      (fun r hr => h₁.zone_of_free hr) (List.nil_append _).symm hlen' hstart
    refine ⟨bs', T', s', K, ?_, ?_, h₁.booted, hfill.laid, rfl, hfill.calm, hfill.free,
      fun a ha => ?_⟩
    · rw [hfill.zones, hzs]
      exact ez
    · rw [ok_bind, el, ok_bind]
      dsimp only
      rw [hfirst', ok_bind, e, ok_bind]
    · rw [hfill.flags a ha, h₁.flags]

/-! ### What is handed over -/

/-- The whole pages in some ranges -/
def wholePages (R : List (Span ℕ)) : Set ℕ :=
  {p | ∃ r ∈ R, r.begin ≤ p * pageSize ∧ (p + 1) * pageSize ≤ r.stop}

/-- A block in a range, the largest that begins where it does and fits into the rest of the range. -/
structure LargestIn (r : Span ℕ) (x : ℕ × ℕ) : Prop where
  start : r.begin ≤ x.1 * pageSize
  stop : (x.1 + 2 ^ x.2) * pageSize ≤ r.stop
  aligned : 2 ^ x.2 ∣ x.1
  order : x.2 ≤ maxOrder
  most : ∀ k ≤ maxOrder, 2 ^ k ∣ x.1 → (x.1 + 2 ^ k) * pageSize ≤ r.stop → k ≤ x.2

/-- Free memory is handed over to the lists of the zones. -/
structure HandedOver (bs : BallocState) (s : PageState) : Prop where
  lists : ∀ z ∈ s.zones, ∀ o ≤ maxOrder, ∃ L, OnRing s.heads (z.order o) L ∧
    ∀ a ∈ L, ∃ p, a = z.page p ∧ BlockIn z (p, o)
  apart : ∀ x ∈ allFree s, ∀ y ∈ allFree s, x ≠ y → Disjoint (blockPages x) (blockPages y)
  blocks : ∃ U, Repr (bs.tree .freeRanges).mem (bs.tree .freeRanges) U ∧
    pagesOf (allFree s) = wholePages (bs.ranges U) \ {0} ∧
    ∀ x ∈ allFree s, ∃ r ∈ bs.ranges U, LargestIn r x

theorem largestIn_of_mem {x : Block} (hr : r.begin ≤ 2 ^ 63) (hx : x ∈ blocksOf r) :
    LargestIn r (headOf x) := by
  have hg := Carved.greatest hx
  have hstart := Carved.start hx
  have hstop := hg.stop
  have hpos := start_lt_stop x
  have hfirst := (mem_pages_iff hr).mp (Set.mem_Ico.mpr ⟨hstart, by omega⟩)
  have hfits : ∀ q, q * pageSize ≤ r.stop ↔ q ≤ r.stop / pageSize := fun q =>
    (Nat.le_div_iff_mul_le (by decide)).symm
  refine ⟨hfirst.1.1, ?_, dvd_start x, hg.order, fun k hk hdvd hfit => ?_⟩
  · rw [hfits]
    exact stop_eq x ▸ hstop
  · exact hg.most k hk hdvd ((hfits _).mp hfit)

theorem Filled.handedOver (h : Filled s₀ (bs.ranges (T .freeRanges)) s K)
    (hb : Booted c (2 ^ 63) bs T) : HandedOver bs s := by
  obtain ⟨⟨L, hs⟩, hv⟩ := hb.trees
  have hbegin : ∀ r ∈ bs.ranges (T .freeRanges), r.begin ≤ 2 ^ 63 := fun r hr =>
    ((hv _).le r hr).trans (hb.below _ r hr)
  have hheld : ∀ b, K b ≠ .held ∧ K b ≠ .live := fun b => by
    rcases h.calm b with e | e <;> rw [e] <;> decide
  have hall : allFree s = headOf '' {b | K b = .free} := h.laid.allFree_eq
  refine ⟨fun z hz o ho => ?_, fun x hx y hy hne => ?_, T .freeRanges, hs.trees .freeRanges, ?_,
    fun x hx => ?_⟩
  · obtain ⟨L, hr, hmem⟩ := h.laid.lists z hz o ho
    refine ⟨L, hr, fun a ha => ?_⟩
    obtain ⟨b, hb, rfl, hp, rfl⟩ := (hmem a).mp ha
    have hused := Laid.mem_used hb (by decide)
    exact ⟨b.start, rfl, (h.laid.contains hused hz hp (start_mem b)).blockIn⟩
  · rw [hall] at hx hy
    obtain ⟨b, hb, rfl⟩ := hx
    obtain ⟨d, hd, rfl⟩ := hy
    exact headOf_apart h.laid.apart (Laid.mem_used hb (by decide)) (Laid.mem_used hd (by decide)) hne
  · have hpages := h.laid.pagesOf_eq fun b => (hheld b).1
    have hnone : {b | K b = .live} = ∅ := Set.eq_empty_of_forall_notMem fun b => (hheld b).2
    rw [hnone, Set.image_empty, pagesOf_empty, Set.empty_union] at hpages
    rw [hpages]
    ext p
    rw [h.cover, Set.mem_sdiff, Set.mem_singleton_iff]
    constructor
    · rintro ⟨r, hr, hp⟩
      have hp' := (mem_pages_iff (hbegin r hr)).mp hp
      exact ⟨⟨r, hr, hp'.1⟩, hp'.2⟩
    · rintro ⟨⟨r, hr, hp⟩, h0⟩
      exact ⟨r, hr, (mem_pages_iff (hbegin r hr)).mpr ⟨hp, h0⟩⟩
  · rw [hall] at hx
    obtain ⟨b, hb, rfl⟩ := hx
    obtain ⟨r, hr, hbr⟩ := (h.free b).mp hb
    exact ⟨r, hr, largestIn_of_mem (hbegin r hr) hbr⟩

variable {mem : BootMem} {info : ℕ} {bs₀ : BallocState}

/-- From what `balloc_setup` leaves, `page_alloc_setup` hands free memory over, whenever the memory for
    the zones is there. -/
theorem pageAllocSetup_handsOver (hroot : ∀ t, bs₀.root t = 0)
    (hentry : ∀ p, IsEntry mem info p →
      (mmapEntry mem p).addr + (mmapEntry mem p).length ≤ 2 ^ 63) (himage : c.bssPhysEnd ≤ 2 ^ 63)
    (hok : ballocSetup c bs₀ mem info = .ok bs) (s : PageState) :
    (∃ e, NoMemory e ∧ pageAllocSetup s c bs = .error e) ∨
    ∃ bs' s', pageAllocSetup s c bs = .ok (bs', s') ∧ HandedOver bs' s' := by
  obtain ⟨T, hb⟩ := ballocSetup_booted hroot (by decide) hentry himage hok
  rcases pageAllocSetup_spec hb s with ⟨e, he, -, e'⟩ | ⟨bs', T', s', K, -, e', hb', hfill⟩
  · exact Or.inl ⟨e, he, e'⟩
  · exact Or.inr ⟨bs', s', e', hfill.handedOver hb'⟩

/-! ### A map from address `0` on -/

/-- A free entry `[0, 20480)`, a reserved one `[6144, 7168)` in it, and a module at `[5120, 5136)`. -/
def lowMem : BootMem := fun a => if a = 261 then 0 else if a = 269 then 80 else bootMem a

theorem low_entries {p : ℕ} (h : IsEntry lowMem 0 p) : p = 256 ∨ p = 280 := by
  have h' : EntryFrom lowMem 304 256 p := h
  cases h' with
  | here _ => exact Or.inl rfl
  | next _ h' =>
    have e₁ : entryNext lowMem 256 = 280 := by decide +kernel
    rw [e₁] at h'
    cases h' with
    | here _ => exact Or.inr rfl
    | next _ h' =>
      have e₂ : entryNext lowMem 280 = 304 := by decide +kernel
      rw [e₂] at h'
      cases h' with
      | here hlt => exact absurd hlt (by decide)
      | next hlt _ => exact absurd hlt (by decide)

theorem low_below {p : ℕ} (h : IsEntry lowMem 0 p) :
    (mmapEntry lowMem p).addr + (mmapEntry lowMem p).length ≤ 2 ^ 63 := by
  rcases low_entries h with rfl | rfl <;> decide +kernel

theorem bootState_root (t : RangeTree) : bootState.root t = 0 := by cases t <;> rfl

def blankPages : PageState := ⟨fun a => ⟨a, a⟩, fun _ => 0#64, []⟩

def lowSetup (s : PageState) : Exec (BallocState × PageState) := do
  let bs ← ballocSetup bootImage bootState lowMem 0
  pageAllocSetup s bootImage bs

/-- The one zone has the pages `0` to `4`, and its memory begins at `0`. -/
theorem low_filled (h : ((lowSetup s).toOption.map fun r => r.2.zones) = some [⟨0, 0, 5⟩]) :
    ∃ bs bs' T' s' K, ballocSetup bootImage bootState lowMem 0 = .ok bs ∧
      pageAllocSetup s bootImage bs = .ok (bs', s') ∧ s'.zones = [⟨0, 0, 5⟩] ∧
      Booted bootImage (2 ^ 63) bs' T' ∧
      Filled { s with zones := s'.zones } (bs'.ranges (T' .freeRanges)) s' K := by
  rw [lowSetup] at h
  cases hok : ballocSetup bootImage bootState lowMem 0 with
  | error e =>
    rw [hok] at h
    cases h
  | ok bs =>
    rw [hok, ok_bind] at h
    obtain ⟨T, hb⟩ := ballocSetup_booted bootState_root (by decide) (fun _ => low_below) (by decide) hok
    rcases pageAllocSetup_spec hb s with ⟨e, -, -, e'⟩ | ⟨bs', T', s', K, -, e', hb', hfill⟩
    · rw [e'] at h
      cases h
    · rw [e'] at h
      exact ⟨bs, bs', T', s', K, rfl, e', Option.some.inj h, hb', hfill⟩

theorem lowMem_handsOver : ∃ bs bs' s', ballocSetup bootImage bootState lowMem 0 = .ok bs ∧
    pageAllocSetup blankPages bootImage bs = .ok (bs', s') ∧ HandedOver bs' s' := by
  obtain ⟨bs, bs', T', s', K, hok, hset, -⟩ := low_filled (s := blankPages) (by decide +kernel)
  rcases pageAllocSetup_handsOver bootState_root (fun _ => low_below) (by decide) hok blankPages with
    ⟨e, -, e'⟩ | ⟨bs'', s'', e', hover⟩
  · rw [hset] at e'
    cases e'
  · exact ⟨bs, bs'', s'', hok, e', hover⟩

end FilesKernel.Buddy
