import FilesKernel.Buddy.Moves

/-! Handing out a block.

    The first list that is not empty gives a block that is large enough. It is cut in two again and
    again; the upper half goes on its list each time, and the lower half is handed out at the end. -/

namespace FilesKernel.Buddy
open CExec CWord LinkedList LinkRing Dyadic

variable {s : PageState} {K : Blocks} {z : Zone} {b : Block} {order : ℕ}

/-- The lists from `current` up to the one that the search ends at are empty. -/
theorem pageFindOrder_spec (h : Laid s K) (hz : z ∈ s.zones) : ∀ (n current : ℕ),
    current ≤ maxOrder + 1 → maxOrder + 1 < n + current → ∃ o, pageFindOrder s z n current = .ok o ∧
      current ≤ o ∧ (∀ b, K b = .free → z.Has b.start → current ≤ b.order → o ≤ b.order) ∧
      (o ≤ maxOrder → ∃ p L, OnRing s.heads (z.order o) (p :: L) ∧ Listed K z o p)
  | 0, current, hle, hn => absurd hn (by omega)
  | n + 1, current, hle, hn => by
      by_cases hmax : current ≤ maxOrder
      · obtain ⟨L, hr, hL⟩ := h.lists z hz current hmax
        have hempty := listEmpty_spec hr
        cases L with
        | nil =>
          obtain ⟨o, e, hco, hleast, hfound⟩ := pageFindOrder_spec h hz n (current + 1)
            (by omega) (by omega)
          refine ⟨o, ?_, by omega, fun b hb hp hcur => ?_, hfound⟩
          · rw [pageFindOrder, hempty, ok_bind, if_pos ⟨by simp, hmax⟩, e]
          · refine hleast b hb hp (Nat.lt_of_le_of_ne hcur fun he => ?_)
            exact List.not_mem_nil ((hL _).mpr ⟨b, hb, he.symm, hp, rfl⟩)
        | cons p L =>
          refine ⟨current, ?_, Nat.le_refl _, fun b _ _ hcur => hcur, fun _ => ⟨p, L, hr, ?_⟩⟩
          · rw [pageFindOrder, hempty, ok_bind, if_neg (by simp)]
          · exact (hL p).mp List.mem_cons_self
      · refine ⟨current, ?_, Nat.le_refl _, fun b _ _ hcur => hcur, fun ho => absurd ho hmax⟩
        rw [pageFindOrder, listEmpty, load_eq (z.order_pos current), ok_bind, ok_bind,
          if_neg fun hc => hmax hc.2]

/-- The block in hand is cut down to `order`. -/
theorem pageSplit_spec : ∀ (current : ℕ) {s : PageState} {K : Blocks} {b : Block}, Laid s K →
    K b = .held → b.order = current → order ≤ current → z ∈ s.zones → z.Has b.start →
    pageIsFree (s.flags (z.page b.start)) = false → ∃ s' K' c,
      pageSplit z b.start order current s = .ok s' ∧ Laid s' K' ∧ Keeps s K s' K' ∧
      K' c = .held ∧ c.order = order ∧ c.start = b.start ∧
      pageIsFree (s'.flags (z.page b.start)) = false ∧
      (∀ a, K' a = .live ↔ K a = .live) ∧ ((∀ a, K a = .held → a = b) → ∀ a, K' a = .held → a = c)
  | 0, s, K, b, h, hb, hbo, hle, hz, hp, hf => by
      obtain rfl : order = 0 := Nat.le_zero.mp hle
      refine ⟨s, K, b, by rw [pageSplit, if_pos rfl], h, Keeps.refl s K, hb, hbo, rfl, hf,
        fun a => Iff.rfl, id⟩
  | current + 1, s, K, b, h, hb, hbo, hle, hz, hp, hf => by
      by_cases heq : current + 1 = order
      · refine ⟨s, K, b, by rw [pageSplit, if_pos heq], h, Keeps.refl s K, hb, hbo.trans heq, rfl, hf,
          fun a => Iff.rfl, id⟩
      -- the halves
      obtain ⟨c, rfl, hc, hco⟩ : ∃ c : Block, c.parent = b ∧ c.start = b.start ∧ c.order = current :=
        ⟨b.lower, parent_lower (by omega), lower_start (by omega), by rw [Block.lower, hbo]; rfl⟩
      have hin := h.contains (Laid.mem_used hb (by decide)) hz hp (start_mem _)
      have hpu : z.Has c.buddy.start := hin.has (mem_half (Or.inr rfl) (start_mem _))
      have hidx : c.parent.start ^^^ 2 ^ current = c.buddy.start := by rw [buddy_start, hc, hco]
      have hne : z.page c.parent.start ≠ z.page c.buddy.start := fun he => by
        have hs := (h.zones.page_inj hz hz hp hpu he).2
        rw [← hc] at hs
        exact not_mem_buddy (start_mem c) (hs ▸ start_mem c.buddy)
      have hlive := fun a => Laid.split_of_ne (k := .live) hb h.apart (by rintro ⟨⟩) (by rintro ⟨⟩) a
      have hfree := fun a => Laid.split_of_ne (k := .free) hb h.apart (by rintro ⟨⟩) (by rintro ⟨⟩) a
      have hheld : K.split c c.buddy = .held := by rw [Blocks.split_apply, if_pos rfl]
      have hlow : K.split c c = .held := by
        rw [Blocks.split_apply, if_neg (buddy_ne c).symm, if_pos rfl]
      have hsplit := h.split hb
      have hkeep : Keeps s K s (K.split c) := by
        refine Keeps.of_flags rfl (fun _ => id) ?_ fun a => (hfree a).mp
        rw [Blocks.used_split, cover_split (Laid.mem_used hb (by decide))]
      -- the upper half goes on its list
      obtain ⟨m, em, hput⟩ := hsplit.putFree links_listAdd hheld hz hpu
      have horder : c.buddy.order = current := hco
      rw [horder] at em hput
      have hkeep' : Keeps s K (PageState.mark { s with heads := m } (z.page c.buddy.start) current)
          ((K.split c).set c.buddy .free) := by
        refine hkeep.trans (Keeps.mark hsplit hheld hz hpu current rfl rfl fun _ _ => ?_)
        rw [buddy_buddy, hlow]
        decide
      have hlow' : (K.split c).set c.buddy .free c = .held := by
        rw [Blocks.set_of_ne (buddy_ne c).symm, hlow]
      obtain ⟨s', K', d, e, h', hk', hd, hdo, hds, hdf, hdl, hdh⟩ := pageSplit_spec current
        hput hlow' hco (by omega) hz (hc ▸ hp) (by rw [hc, mark_flags_of_ne hne]; exact hf)
      refine ⟨s', K', d, ?_, h', hkeep'.trans hk', hd, hdo, hds.trans hc, hc ▸ hdf, fun a => ?_,
        fun huniq => hdh fun a ha => ?_⟩
      · have ho : current ≤ maxOrder := by
          have := h.order _ (Laid.mem_used hb (by decide))
          omega
        rw [pageSplit, if_neg heq, hidx, Zone.pageAt_eq hpu, ok_bind, em, ok_bind, setOrder_eq ho,
          ok_bind, mark_eq, ← hc]
        exact e
      · rw [hdl, ← hlive a]
        by_cases hab : a = c.buddy
        · rw [hab, Blocks.set_self, hheld]
          exact ⟨by rintro ⟨⟩, by rintro ⟨⟩⟩
        · rw [Blocks.set_of_ne hab]
      · by_cases hab : a = c.buddy
        · rw [hab, Blocks.set_self] at ha
          cases ha
        · rw [Blocks.set_of_ne hab, Blocks.split_apply, if_neg hab] at ha
          split_ifs at ha with h₁ h₂
          · exact h₁
          · exact absurd (huniq a ha) h₂

/-- `__page_alloc_zone` gives a block of the order, unless no free block of the zone is as large. -/
theorem pageAllocZone_spec (h : Laid s K) (hno : ∀ a, K a ≠ .held) (hz : z ∈ s.zones)
    (ho : order ≤ maxOrder) :
    (pageAllocZone s z order = .ok (s, 0) ∧ ∀ b, K b = .free → z.Has b.start → b.order < order) ∨
    ∃ s' K' b, pageAllocZone s z order = .ok (s', z.page b.start) ∧ Laid s' K' ∧ Keeps s K s' K' ∧
      z.Has b.start ∧ b.order = order ∧ (∀ a, K' a = .live ↔ K a = .live ∨ a = b) ∧
      (∀ a, K' a ≠ .held) ∧ K b ≠ .live := by
  obtain ⟨o, e, hle, hleast, hfound⟩ := pageFindOrder_spec h hz (maxOrder + 2) order (by omega)
    (by omega)
  by_cases hmax : o > maxOrder
  · left
    refine ⟨by rw [pageAllocZone, e, ok_bind, if_pos hmax], fun b hb hp => ?_⟩
    by_contra hlt
    have := hleast b hb hp (by omega)
    have := h.order b (Laid.mem_used hb (by decide))
    omega
  right
  obtain ⟨p, L, hr, b, hb, rfl, hp, rfl⟩ := hfound (by omega)
  have hused : b ∈ K.used := Laid.mem_used hb (by decide)
  obtain ⟨m, em, hm⟩ := h.takeOff hb hz hp
  have hheld : K.set b .held b = .held := Blocks.set_self K b .held
  have hbusy := hm.setBusy hheld hz hp
  have hkeep : Keeps s K (PageState.setBusy { s with heads := m } (z.page b.start))
      (K.set b .held) := by
    refine Keeps.of_flags rfl (fun a ha => ?_) ?_ fun a ha => ?_
    · by_cases hap : a = z.page b.start
      · simp only [PageState.setBusy, hap, Function.update_self, pageIsFree_setBusy] at ha
        cases ha
      · simpa only [PageState.setBusy, Function.update_of_ne hap] using ha
    · rw [Blocks.used_set hused (by decide)]
    · by_cases hab : a = b
      · rw [hab, hb]
      · rwa [Blocks.set_of_ne hab] at ha
  obtain ⟨s', K', c, es, h', hk', hc, hco, hcs, hcf, hlive, huniq⟩ := pageSplit_spec _
    hbusy hheld rfl hle hz hp (by simp [PageState.setBusy])
  have hzs : z ∈ s'.zones := by rw [hk'.zones]; exact hz
  have hcp : z.Has c.start := hcs ▸ hp
  have hgive := h'.give hc hzs hcp (hcs ▸ hcf)
  have hkeep' : Keeps s' K' s' (K'.set c .live) := by
    refine Keeps.of_flags rfl (fun _ => id) ?_ fun a ha => ?_
    · rw [Blocks.used_set (Laid.mem_used hc (by decide)) (by decide)]
    · exact (Laid.set_free_iff (by rw [hc]; decide) (by decide) a).mp ha
  refine ⟨s', K'.set c .live, c, ?_, hgive, (hkeep.trans hk').trans hkeep', hcp, hco, fun a => ?_,
    fun a ha => ?_, fun hcl => ?_⟩
  · have hempty := listEmpty_spec hr
    have hfirst := listFirst_spec hr
    rw [List.headD_cons] at hfirst
    rw [pageAllocZone, e, ok_bind, if_neg hmax, hempty, ok_bind, bugOn_false (by simp), ok_bind,
      hfirst, ok_bind]
    simp only [h.zones.idx_page hz hp, PageState.setBusy, em, ok_bind]
    rw [PageState.setBusy] at es
    simp only at es
    rw [es, ok_bind, hcs]
  · by_cases hac : a = c
    · rw [hac, Blocks.set_self]
      exact ⟨fun _ => Or.inr rfl, fun _ => rfl⟩
    · rw [Blocks.set_of_ne hac, hlive, or_iff_left hac]
      by_cases hab : a = b
      · rw [hab, Blocks.set_self, hb]
        exact ⟨by rintro ⟨⟩, by rintro ⟨⟩⟩
      · rw [Blocks.set_of_ne hab]
  · by_cases hac : a = c
    · rw [hac, Blocks.set_self] at ha
      cases ha
    · rw [Blocks.set_of_ne hac] at ha
      refine hac (huniq (fun d hd => ?_) a ha)
      by_contra hdb
      rw [Blocks.set_of_ne hdb] at hd
      exact hno d hd
  · have hcb : c ≠ b := fun hcb => by
      rw [hcb, hb] at hcl
      cases hcl
    have hheldc : K.set b .held c = K c := Blocks.set_of_ne hcb
    rw [← hheldc, ← hlive, hc] at hcl
    cases hcl

/-- A block `b` of `z` is handed out, and nothing else becomes live. -/
structure Gives (s : PageState) (K : Blocks) (s' : PageState) (K' : Blocks) (z : Zone) (b : Block) :
    Prop where
  laid : Laid s' K'
  keeps : Keeps s K s' K'
  zone : z ∈ s.zones
  has : z.Has b.start
  live : ∀ a, K' a = .live ↔ K a = .live ∨ a = b
  calm : ∀ a, K' a ≠ .held
  fresh : K b ≠ .live

/-- No free block of these zones is as large as `order`. -/
def NoneLarge (K : Blocks) (order : ℕ) (zs : List Zone) : Prop :=
  ∀ z ∈ zs, ∀ b, K b = .free → z.Has b.start → b.order < order

/-- The loop over the zones. -/
theorem pageAllocFrom_spec (h : Laid s K) (hno : ∀ a, K a ≠ .held) (ho : order ≤ maxOrder) :
    ∀ (zs : List Zone), zs ⊆ s.zones →
    (pageAllocFrom order zs s = .ok (s, none) ∧ NoneLarge K order zs) ∨
    ∃ s' K' z b, pageAllocFrom order zs s = .ok (s', some (z, z.page b.start)) ∧ b.order = order ∧
      Gives s K s' K' z b
  | [], _ => Or.inl ⟨rfl, fun z hz => absurd hz List.not_mem_nil⟩
  | z :: zs, hsub => by
      have hz := hsub List.mem_cons_self
      rcases pageAllocZone_spec h hno hz ho with ⟨e, hless⟩ |
        ⟨s', K', b, e, h', hk, hp, hbo, hl, hn, hnl⟩
      · have hstep : pageAllocFrom order (z :: zs) s = pageAllocFrom order zs s := by
          rw [pageAllocFrom, e, ok_bind]
          exact if_neg fun hne => hne rfl
        rcases pageAllocFrom_spec h hno ho zs fun a ha => hsub (List.mem_cons_of_mem z ha) with
          ⟨e', hless'⟩ | hgives
        · refine Or.inl ⟨hstep.trans e', fun z' hz' => ?_⟩
          rcases List.mem_cons.mp hz' with rfl | hz'
          · exact hless
          · exact hless' z' hz'
        · exact Or.inr (hstep ▸ hgives)
      · refine Or.inr ⟨s', K', z, b, ?_, hbo, h', hk, hz, hp, hl, hn, hnl⟩
        rw [pageAllocFrom, e, ok_bind]
        exact if_pos (z.page_pos _)

theorem pageAllocPage_spec (h : Laid s K) (hno : ∀ a, K a ≠ .held) (ho : order ≤ maxOrder) :
    (pageAllocPage s order = .ok (s, 0) ∧ NoneLarge K order s.zones) ∨
    ∃ s' K' z b, pageAllocPage s order = .ok (s', z.page b.start) ∧ b.order = order ∧
      Gives s K s' K' z b := by
  rcases pageAllocFrom_spec h hno ho _ (List.Subset.refl s.zones) with
    ⟨e, hless⟩ | ⟨s', K', z, b, e, hbo, hg⟩
  · exact Or.inl ⟨by rw [pageAllocPage, if_neg (by omega), e, ok_bind], hless⟩
  · exact Or.inr ⟨s', K', z, b, by rw [pageAllocPage, if_neg (by omega), e, ok_bind], hbo, hg⟩

theorem pageAlloc_spec (h : Laid s K) (hno : ∀ a, K a ≠ .held) (ho : order ≤ maxOrder) :
    (pageAlloc s order = .ok (s, 0) ∧ NoneLarge K order s.zones) ∨
    ∃ s' K' z b, pageAlloc s order = .ok (s', b.start * pageSize) ∧ b.order = order ∧
      Gives s K s' K' z b := by
  rcases pageAllocFrom_spec h hno ho _ (List.Subset.refl s.zones) with
    ⟨e, hless⟩ | ⟨s', K', z, b, e, hbo, hg⟩
  · exact Or.inl ⟨by rw [pageAlloc, if_neg (by omega), e, ok_bind], hless⟩
  · refine Or.inr ⟨s', K', z, b, ?_, hbo, hg⟩
    rw [pageAlloc, if_neg (by omega), e, ok_bind]
    simp only [h.zones.idx_page hg.zone hg.has, wrap_of_lt (h.zones.has_lt hg.zone hg.has)]

end FilesKernel.Buddy
