import FilesKernel.Buddy.Moves

/-! Taking back a block.

    As long as the buddy of the block in hand is free, the two are put together. The flags at the buddy's
    first page tell: that page is the first one of some block, or outside all blocks, so what it is
    flagged with is not left over from earlier times. -/

namespace FilesKernel.Buddy
open CExec CWord LinkedList LinkRing Dyadic

variable {s : PageState} {K : Blocks} {z : Zone} {b : Block}

/-- Every buddy that `pageMerge` unlinks is on the list of its order. -/
def MergesListed (z : Zone) : ℕ → PageState → ℕ → ℕ → Prop
  | 0, _, _, _ => True
  | n + 1, s, idx, order =>
    let bidx := idx ^^^ 2 ^ order
    let buddy := z.page bidx
    z.Has bidx → pageIsFree (s.flags buddy) = true → pageOrder (s.flags buddy) = order →
      (∃ L, OnRing s.heads (z.order order) L ∧ buddy ∈ L) ∧
      ∀ m, listDel s.heads buddy = .ok m →
        MergesListed z n { s with heads := m } (if bidx < idx then bidx else idx) (order + 1)

/-- The flags at the first page of the buddy say whether it is free. -/
theorem Laid.probe (h : Laid s K) (hc : Clean s K) (huniq : ∀ a, K a = .held → a = b)
    (hb : b ∈ K.used) (hz : z ∈ s.zones) (hp : z.Has b.buddy.start) :
    (pageIsFree (s.flags (z.page b.buddy.start)) = true ∧
      pageOrder (s.flags (z.page b.buddy.start)) = b.order) ↔ K b.buddy = .free := by
  constructor
  · rintro ⟨hf, ho⟩
    obtain ⟨c, hcu, hpc⟩ := hc z hz _ hp hf
    obtain ⟨-, hcs⟩ := start_of_mem_buddy h.apart hb hcu hpc
    cases hk : K c with
    | none => exact absurd hk hcu
    | free =>
      rw [← hcs, (h.marked c hk z hz (hcs ▸ hp)).2] at ho
      rw [← eq_of_mem (c := b.buddy) ho hpc (start_mem _), hk]
    | live =>
      rw [← hcs, h.taken c hk z hz (hcs ▸ hp)] at hf
      cases hf
    | held =>
      rw [huniq c hk] at hpc
      exact absurd (start_mem b.buddy) (not_mem_buddy hpc)
  · intro hk
    exact h.marked _ hk z hz hp

/-- Where the loop ends, the block in hand has no free buddy in the zone. -/
theorem pageMerge_spec : ∀ (n : ℕ) {s : PageState} {K : Blocks} {b : Block}, Laid s K → Clean s K →
    K b = .held → (∀ a, K a = .held → a = b) → b.order + n = maxOrder → z ∈ s.zones →
    z.Has b.start → ∃ s' K' c,
      pageMerge z n s (z.page b.start) b.start b.order = .ok (s', z.page c.start, c.order) ∧
      Laid s' K' ∧ Keeps s K s' K' ∧ K' c = .held ∧ (∀ a, K' a = .held → a = c) ∧ z.Has c.start ∧
      (c.order < maxOrder → z.Has c.buddy.start → K' c.buddy ≠ .free) ∧
      (∀ a, K' a = .live ↔ K a = .live) ∧ MergesListed z n s b.start b.order
  | 0, s, K, b, h, _, hb, huniq, hn, _, hp => by
      refine ⟨s, K, b, by rw [pageMerge], h, Keeps.refl s K, hb, huniq, hp, fun hlt => ?_,
        fun a => Iff.rfl, trivial⟩
      omega
  | n + 1, s, K, b, h, hc, hb, huniq, hn, hz, hp => by
      have hused : b ∈ K.used := Laid.mem_used hb (by decide)
      have hidx : b.start ^^^ 2 ^ b.order = b.buddy.start := (buddy_start b).symm
      rw [pageMerge, hidx, MergesListed, hidx]
      by_cases hpb : z.Has b.buddy.start
      swap
      · have hout : b.buddy.start < z.begin ∨ b.buddy.start ≥ z.stop := by
          unfold Zone.Has at hpb
          omega
        exact ⟨s, K, b, if_pos hout, h, Keeps.refl s K, hb, huniq, hp, fun _ hp' => absurd hp' hpb,
          fun a => Iff.rfl, fun hp' => absurd hp' hpb⟩
      have hin : ¬ (b.buddy.start < z.begin ∨ b.buddy.start ≥ z.stop) := by
        unfold Zone.Has at hpb
        omega
      have hprobe := h.probe hc huniq hused hz hpb
      by_cases hfree : K b.buddy = .free
      swap
      · have hstop := mt hprobe.mp hfree
        refine ⟨s, K, b, ?_, h, Keeps.refl s K, hb, huniq, hp, fun _ _ => hfree, fun a => Iff.rfl,
          fun _ hf ho => absurd ⟨hf, ho⟩ hstop⟩
        rw [if_neg hin, Zone.pageAt_eq hpb, ok_bind, if_pos (by tauto)]
      -- the buddy comes off its list
      obtain ⟨hf, ho⟩ := hprobe.mpr hfree
      obtain ⟨m, em, hm⟩ := h.takeOff hfree hz hpb
      obtain ⟨L, hr, hL⟩ := h.lists z hz b.order (h.order b hused)
      have hlisted : z.page b.buddy.start ∈ L := (hL _).mpr ⟨_, hfree, rfl, hpb, rfl⟩
      have hset := Blocks.used_set (Laid.mem_used hfree (by decide)) (k := .held) (by decide)
      have hb' : K.set b.buddy .held b = .held := by rw [Blocks.set_of_ne (buddy_ne b).symm, hb]
      have hu' : K.set b.buddy .held b.buddy = .held := Blocks.set_self K _ .held
      have hjoin := hm.join hb' hu' (by omega) hz hp hpb
      have hheld : (K.set b.buddy .held).join b b.parent = .held := by
        rw [Blocks.join_apply, if_pos rfl]
      have hlive := fun a => Laid.join_of_ne (k := .live) hb' hu' hm.apart nofun nofun a
      have hkeep : Keeps s K { s with heads := m } ((K.set b.buddy .held).join b) := by
        refine Keeps.of_flags rfl (fun _ => id) ?_ fun a ha => ?_
        · rw [Blocks.used_join, cover_join (Laid.mem_used hb' (by decide))
            (Laid.mem_used hu' (by decide)), hset]
        · have ha' := (Laid.join_of_ne (k := .free) hb' hu' hm.apart nofun nofun a).mp ha
          by_cases hab : a = b.buddy
          · rw [hab, hfree]
          · rwa [Blocks.set_of_ne hab] at ha'
      have hparent : (if b.buddy.start < b.start then b.buddy.start else b.start) = b.parent.start :=
        (parent_start b).symm
      have hpp : z.Has b.parent.start := by
        rw [← hparent]
        split_ifs
        · exact hpb
        · exact hp
      have huniq' : ∀ a, (K.set b.buddy .held).join b a = .held → a = b.parent := by
        intro a ha
        rw [Blocks.join_apply] at ha
        split_ifs at ha with h₁ h₂ h₃
        · exact h₁
        · rw [Blocks.set_of_ne h₂] at ha
          exact absurd (huniq a ha) h₃
      obtain ⟨s', K', c, e, h', hk', hc', hu, hpc, hstop, hl', hmerge⟩ := pageMerge_spec n hjoin
        (hkeep.clean hc) hheld huniq' (by rw [← hn]; exact Nat.succ_add_eq_add_succ _ _) hz hpp
      refine ⟨s', K', c, ?_, h', hkeep.trans hk', hc', hu, hpc, hstop, fun a => ?_,
        fun _ _ _ => ⟨⟨L, hr, hlisted⟩, fun m' em' => ?_⟩⟩
      · rw [if_neg hin, Zone.pageAt_eq hpb, ok_bind, if_neg (by rw [hf, ho]; simp), em, ok_bind, ← e,
          ← hparent]
        split_ifs <;> rfl
      · rw [hl', hlive]
        by_cases hab : a = b.buddy
        · rw [hab, Blocks.set_self, hfree]
          exact ⟨nofun, nofun⟩
        · rw [Blocks.set_of_ne hab]
      · obtain rfl := Except.ok.inj (em.symm.trans em')
        rw [hparent]
        exact hmerge

/-- `__page_free_zone` takes back a live block. -/
theorem pageFreeZone_spec (h : Laid s K) (hc : Clean s K) (hno : ∀ a, K a ≠ .held) (hb : K b = .live)
    (hz : z ∈ s.zones) (hp : z.Has b.start) : ∃ s' K',
      pageFreeZone s z (z.page b.start) b.order = .ok s' ∧ Laid s' K' ∧ Keeps s K s' K' ∧
      (∀ a, K' a = .live ↔ K a = .live ∧ a ≠ b) ∧ (∀ a, K' a ≠ .held) ∧
      MergesListed z (maxOrder - b.order) s b.start b.order := by
  have hused : b ∈ K.used := Laid.mem_used hb (by decide)
  have hheld : K.set b .held b = .held := Blocks.set_self K b .held
  have hkeep : Keeps s K s (K.set b .held) := by
    refine Keeps.of_flags rfl (fun _ => id) (by rw [Blocks.used_set hused (by decide)]) fun a ha => ?_
    exact (Laid.set_free_iff (by rw [hb]; decide) (by decide) a).mp ha
  have huniq : ∀ a, K.set b .held a = .held → a = b := fun a ha => by
    by_contra hab
    rw [Blocks.set_of_ne hab] at ha
    exact hno a ha
  obtain ⟨s₁, K₁, c, e, h₁, hk₁, hc₁, hu₁, hpc, hstop, hl₁, hmerge⟩ := pageMerge_spec
    (maxOrder - b.order) (h.hold hb) (hkeep.clean hc) hheld huniq
    (Nat.add_sub_cancel' (h.order b hused)) hz hp
  have hz₁ : z ∈ s₁.zones := by rw [hk₁.zones]; exact hz
  obtain ⟨m, em, hput⟩ := h₁.putFree links_listAdd hc₁ hz₁ hpc
  refine ⟨_, K₁.set c .free, ?_, hput, (hkeep.trans hk₁).trans
    (Keeps.mark h₁ hc₁ hz₁ hpc c.order rfl rfl hstop), fun a => ?_, fun a ha => ?_, hmerge⟩
  · have halign : b.start % 2 ^ b.order = 0 := Nat.mod_eq_zero_of_dvd (dvd_start b)
    rw [pageFreeZone, h.zones.idx_page hz hp]
    simp only []
    rw [bugOn_false (by omega), ok_bind, e, ok_bind]
    simp only [em, ok_bind, setOrder_eq (h₁.order c (Laid.mem_used hc₁ (by decide)))]
    exact congrArg Except.ok (mark_eq { s₁ with heads := m } _ _)
  · have hcl : K₁ c ≠ .live := by rw [hc₁]; decide
    by_cases hac : a = c
    · subst hac
      rw [Blocks.set_self]
      refine ⟨nofun, fun ha => absurd ((hl₁ a).mpr ?_) hcl⟩
      rw [Blocks.set_of_ne ha.2]
      exact ha.1
    · rw [Blocks.set_of_ne hac, hl₁]
      by_cases hab : a = b
      · rw [hab, Blocks.set_self]
        exact ⟨nofun, fun ha => absurd rfl ha.2⟩
      · rw [Blocks.set_of_ne hab]
        exact ⟨fun ha => ⟨ha, hab⟩, fun ha => ha.1⟩
  · by_cases hac : a = c
    · rw [hac, Blocks.set_self] at ha
      cases ha
    · rw [Blocks.set_of_ne hac] at ha
      exact hac (hu₁ a ha)

/-- A live block `b` comes back. -/
structure Takes (s : PageState) (K : Blocks) (s' : PageState) (K' : Blocks) (b : Block) : Prop where
  laid : Laid s' K'
  keeps : Keeps s K s' K'
  live : ∀ a, K' a = .live ↔ K a = .live ∧ a ≠ b
  calm : ∀ a, K' a ≠ .held

theorem pageFree_spec (h : Laid s K) (hc : Clean s K) (hno : ∀ a, K a ≠ .held) (hb : K b = .live)
    (h0 : b.start ≠ 0) : ∃ s' K', pageFree s (b.start * pageSize) b.order = .ok s' ∧
      Takes s K s' K' b := by
  obtain ⟨z, hz, hp⟩ := h.zone (Laid.mem_used hb (by decide))
  obtain ⟨s', K', e, h', hk, hl, hn, -⟩ := pageFreeZone_spec h hc hno hb hz hp
  have hpos : 0 < pageSize := by decide
  have hne : b.start * pageSize ≠ 0 := Nat.mul_ne_zero h0 (Nat.ne_of_gt hpos)
  refine ⟨s', K', ?_, h', hk, hl, hn⟩
  rw [pageFree, if_neg hne, Nat.mul_div_cancel _ hpos, pageAllocZoneFind_eq h.zones hz hp]
  simp only [Zone.pageAt_eq hp, ok_bind, e]

theorem pageFreePage_spec (h : Laid s K) (hc : Clean s K) (hno : ∀ a, K a ≠ .held)
    (hb : K b = .live) (hz : z ∈ s.zones) (hp : z.Has b.start) : ∃ s' K',
      pageFreePage s (z.page b.start) b.order = .ok s' ∧ Takes s K s' K' b := by
  obtain ⟨s', K', e, h', hk, hl, hn, -⟩ := pageFreeZone_spec h hc hno hb hz hp
  refine ⟨s', K', ?_, h', hk, hl, hn⟩
  rw [pageFreePage, if_neg (z.page_pos _), pageZone_eq h.zones hz hp, ok_bind, e]

end FilesKernel.Buddy
