import FilesKernel.Buddy.Blocks

/-! What the allocator does to blocks: it takes them off lists and puts them on, cuts held blocks in
    two and puts held buddies together. Memory goes on to lay out the blocks, with the same pages. -/

namespace FilesKernel.Buddy
open CExec LinkedList LinkRing Dyadic

/-- `page_set_order` and `page_set_free` -/
def PageState.mark (s : PageState) (page order : ℕ) : PageState :=
  { s with flags := Function.update s.flags page (pageSetFree (pageWithOrder (s.flags page) order)) }

theorem setOrder_eq {s : PageState} {page o : ℕ} (ho : o ≤ maxOrder) : s.setOrder page o =
    .ok { s with flags := Function.update s.flags page (pageWithOrder (s.flags page) o) } := by
  unfold maxOrder at ho
  rw [PageState.setOrder, bugOn_false (by omega), ok_bind]

theorem mark_eq (s : PageState) (page o : ℕ) :
    PageState.setFree { s with
      flags := Function.update s.flags page (pageWithOrder (s.flags page) o) } page =
      s.mark page o := by
  simp only [PageState.setFree, PageState.mark, Function.update_self, Function.update_idem]

theorem mark_flags_of_ne {s : PageState} {page a o : ℕ} (h : a ≠ page) :
    (s.mark page o).flags a = s.flags a := Function.update_of_ne h _ _

/-- `link` puts an entry somewhere into a list. -/
def Links (link : Heads ℕ → ℕ → ℕ → Exec (Heads ℕ)) : Prop :=
  ∀ (m : Heads ℕ) (h new : ℕ) (L : List ℕ), OnRing m h L → new ∉ h :: L → new ≠ 0 →
    ∃ m' L', link m new h = .ok m' ∧ OnRing m' h L' ∧ (∀ a, a ∈ L' ↔ a = new ∨ a ∈ L) ∧
      ∀ b, b ∉ h :: L → b ≠ new → m' b = m b

theorem links_listAdd : Links listAdd := fun _ _ new L hr hnew hne => by
  obtain ⟨m', e, hr', hf⟩ := listAdd_spec hr hnew hne
  exact ⟨m', new :: L, e, hr', fun a => List.mem_cons, hf⟩

theorem links_listAddTail : Links listAddTail := fun _ _ new L hr hnew hne => by
  obtain ⟨m', e, hr', hf⟩ := listAddTail_spec hr hnew hne
  exact ⟨m', L ++ [new], e, hr', fun a => by rw [List.mem_append, List.mem_singleton, or_comm], hf⟩

variable {s : PageState} {K K' : Blocks} {z : Zone} {b c : Block} {k : Kind}

theorem Zone.contains_iff : z.Contains b ↔ ∀ p ∈ b, z.Has p := by
  refine ⟨fun h p hp => h.has hp, fun h => ⟨(h _ (start_mem b)).1, ?_⟩⟩
  have hlt := start_lt_stop b
  have hlast := (h (b.stop - 1) (mem_iff.mpr (by omega))).2
  omega

namespace Laid

/-! ### Other uses -/

/-- Free blocks are what they were, and so are the live ones, but for some that were held. -/
theorem rekind (h : Laid s K) (horder : ∀ b ∈ K'.used, b.order ≤ maxOrder)
    (hinside : ∀ b ∈ K'.used, ∃ z ∈ s.zones, z.Contains b) (hapart : Apart K'.used)
    (hfree : ∀ b, K' b = .free ↔ K b = .free)
    (hlive : ∀ b, K' b = .live → ∀ z ∈ s.zones, z.Has b.start →
      pageIsFree (s.flags (z.page b.start)) = false) : Laid s K' := by
  refine ⟨h.zones, horder, hinside, hapart, fun z hz o ho => ?_, fun b hb => ?_, hlive⟩
  · obtain ⟨L, hr, hL⟩ := h.lists z hz o ho
    exact ⟨L, hr, fun a => by simp only [hL, Listed, hfree]⟩
  · exact h.marked b ((hfree b).mp hb)

theorem set_free_iff (hb : K b ≠ .free) (hk : k ≠ .free) (a : Block) :
    K.set b k a = .free ↔ K a = .free := by
  by_cases hab : a = b
  · rw [hab, Blocks.set_self]
    exact ⟨fun e => absurd e hk, fun e => absurd e hb⟩
  · rw [Blocks.set_of_ne hab]

theorem rekind_set (h : Laid s K) (hb : b ∈ K.used) (hbf : K b ≠ .free) (hk : k ≠ .none)
    (hkf : k ≠ .free) (hlive : k = .live → ∀ z ∈ s.zones, z.Has b.start →
      pageIsFree (s.flags (z.page b.start)) = false) : Laid s (K.set b k) := by
  have hused := Blocks.used_set hb hk
  refine h.rekind (hused ▸ h.order) (hused ▸ h.inside) (hused ▸ h.apart) (set_free_iff hbf hkf)
    fun a ha => ?_
  by_cases hab : a = b
  · subst hab
    rw [Blocks.set_self] at ha
    exact hlive ha
  · rw [Blocks.set_of_ne hab] at ha
    exact h.taken a ha

/-- A held block goes to the caller. -/
theorem give (h : Laid s K) (hb : K b = .held) (hz : z ∈ s.zones) (hp : z.Has b.start)
    (hf : pageIsFree (s.flags (z.page b.start)) = false) : Laid s (K.set b .live) := by
  refine h.rekind_set (mem_used hb (by decide)) (by rw [hb]; decide) (by decide) (by decide) ?_
  intro _ z' hz' hp'
  rw [h.zones.eq_of_has hz' hz hp' hp]
  exact hf

/-- A live block comes back from the caller. -/
theorem hold (h : Laid s K) (hb : K b = .live) : Laid s (K.set b .held) :=
  h.rekind_set (mem_used hb (by decide)) (by rw [hb]; decide) (by decide) (by decide) nofun

/-! ### Halves -/

theorem not_used_half (h : Apart K.used) (hc : c.parent ∈ K.used) (hb : b = c ∨ b = c.buddy) :
    b ∉ K.used := by
  intro hused
  have heq := h b hused _ hc b.start (start_mem b) (mem_half hb (start_mem b))
  have horder : c.parent.order = c.order + 1 := rfl
  rcases hb with rfl | rfl
  · rw [← heq] at horder
    omega
  · rw [← heq] at horder
    exact absurd horder (Nat.ne_of_lt (Nat.lt_succ_self c.order))

theorem split_of_ne (hc : K c.parent = .held) (h : Apart K.used) (hk : k ≠ .held) (hk' : k ≠ .none)
    (a : Block) : K.split c a = k ↔ K a = k := by
  have hnot : ∀ b, b = c ∨ b = c.buddy → K b ≠ k := fun b hb e =>
    not_used_half h (mem_used hc (by decide)) hb (mem_used e hk')
  rw [Blocks.split_apply]
  split_ifs with h₁ h₂ h₃
  · exact ⟨fun e => absurd e.symm hk, fun e => absurd e (hnot a (Or.inr h₁))⟩
  · exact ⟨fun e => absurd e.symm hk, fun e => absurd e (hnot a (Or.inl h₂))⟩
  · rw [h₃, hc]
    exact ⟨fun e => absurd e.symm hk', fun e => absurd e.symm hk⟩
  · exact Iff.rfl

theorem split (h : Laid s K) (hc : K c.parent = .held) : Laid s (K.split c) := by
  have hused : c.parent ∈ K.used := mem_used hc (by decide)
  have hcases : ∀ b ∈ (K.split c).used, (b = c ∨ b = c.buddy) ∨ b ∈ K.used := fun b hb => by
    rw [Blocks.used_split, mem_split] at hb
    exact hb.imp_right And.right
  refine h.rekind (fun b hb => ?_) (fun b hb => ?_) ?_ (split_of_ne hc h.apart nofun nofun)
    fun b hb => h.taken b ((split_of_ne (k := .live) hc h.apart nofun nofun b).mp hb)
  · rcases hcases b hb with hb | hb
    · have horder : b.order + 1 = c.parent.order := by rcases hb with rfl | rfl <;> rfl
      have := h.order _ hused
      omega
    · exact h.order b hb
  · rcases hcases b hb with hb | hb
    · obtain ⟨z, hz, hin⟩ := h.inside _ hused
      exact ⟨z, hz, Zone.contains_iff.mpr fun p hp => hin.has (mem_half hb hp)⟩
    · exact h.inside b hb
  · rw [Blocks.used_split]
    exact h.apart.split hused

theorem join_of_ne (hc : K c = .held) (hc' : K c.buddy = .held) (h : Apart K.used) (hk : k ≠ .held)
    (hk' : k ≠ .none) (a : Block) : K.join c a = k ↔ K a = k := by
  have hparent : K c.parent ≠ k := fun e =>
    not_used_half h (mem_used e hk') (Or.inl rfl) (mem_used hc (by decide))
  rw [Blocks.join_apply]
  split_ifs with h₁ h₂ h₃
  · exact ⟨fun e => absurd e.symm hk, fun e => absurd (h₁ ▸ e) hparent⟩
  · rw [h₂, hc']
    exact ⟨fun e => absurd e.symm hk', fun e => absurd e.symm hk⟩
  · rw [h₃, hc]
    exact ⟨fun e => absurd e.symm hk', fun e => absurd e.symm hk⟩
  · exact Iff.rfl

theorem join (h : Laid s K) (hc : K c = .held) (hc' : K c.buddy = .held) (ho : c.order < maxOrder)
    (hz : z ∈ s.zones) (hp : z.Has c.start) (hp' : z.Has c.buddy.start) : Laid s (K.join c) := by
  have hused : c ∈ K.used := mem_used hc (by decide)
  have hused' : c.buddy ∈ K.used := mem_used hc' (by decide)
  have hcases : ∀ b ∈ (K.join c).used, b = c.parent ∨ b ∈ K.used := fun b hb => by
    rw [Blocks.used_join] at hb
    exact hb.imp_right fun hb => hb.2.2
  refine h.rekind (fun b hb => ?_) (fun b hb => ?_) ?_ (join_of_ne hc hc' h.apart nofun nofun)
    fun b hb => h.taken b ((join_of_ne (k := .live) hc hc' h.apart nofun nofun b).mp hb)
  · rcases hcases b hb with rfl | hb
    · exact ho
    · exact h.order b hb
  · rcases hcases b hb with rfl | hb
    · refine ⟨z, hz, Zone.contains_iff.mpr fun p hpp => ?_⟩
      rcases mem_parent.mp hpp with hpp | hpp
      · exact (h.contains hused hz hp (start_mem c)).has hpp
      · exact (h.contains hused' hz hp' (start_mem _)).has hpp
    · exact h.inside b hb
  · rw [Blocks.used_join]
    exact h.apart.join hused hused'

/-! ### On and off the lists -/

/-- `list_del` of the head of a free block. -/
theorem takeOff (h : Laid s K) (hb : K b = .free) (hz : z ∈ s.zones) (hp : z.Has b.start) :
    ∃ m, listDel s.heads (z.page b.start) = .ok m ∧ Laid { s with heads := m } (K.set b .held) := by
  have hused : b ∈ K.used := mem_used hb (by decide)
  have hset := Blocks.used_set hused (k := .held) (by decide)
  obtain ⟨L, hr, hL⟩ := h.lists z hz b.order (h.order b hused)
  obtain ⟨A, B, rfl⟩ := List.append_of_mem ((hL _).mpr ⟨b, hb, rfl, hp, rfl⟩)
  obtain ⟨m, e, hr', hf⟩ := listDel_spec hr
  have hnd := hr.ring.nodup
  rw [List.nodup_cons, List.nodup_middle, List.nodup_cons] at hnd
  have hmem : ∀ a, a ∈ A ++ B ↔ Listed (K.set b .held) z b.order a := fun a => by
    rw [h.listed_set_held hz hused hp, ← hL]
    constructor
    · intro ha
      refine ⟨?_, fun e => hnd.2.1 (e ▸ ha)⟩
      rw [List.mem_append, List.mem_cons]
      rcases List.mem_append.mp ha with ha | ha
      · exact Or.inl ha
      · exact Or.inr (Or.inr ha)
    · rintro ⟨ha, hne⟩
      rw [List.mem_append, List.mem_cons] at ha
      exact List.mem_append.mpr (ha.imp_right fun ha => ha.resolve_left hne)
  refine ⟨m, e, h.zones, hset ▸ h.order, hset ▸ h.inside, hset ▸ h.apart, ?_, fun a ha => ?_,
    fun a ha => ?_⟩
  · exact h.lists_set hz hused hp hL hr' hmem fun a ha _ => hf a ha
  · refine h.marked a ?_
    by_cases hab : a = b
    · rw [hab, hb]
    · rwa [Blocks.set_of_ne hab] at ha
  · refine h.taken a ?_
    by_cases hab : a = b
    · rw [hab, Blocks.set_self] at ha
      cases ha
    · rwa [Blocks.set_of_ne hab] at ha

/-- The head of a held block goes on its list, flagged FREE. -/
theorem putFree {link : Heads ℕ → ℕ → ℕ → Exec (Heads ℕ)} (hlink : Links link) (h : Laid s K)
    (hb : K b = .held) (hz : z ∈ s.zones) (hp : z.Has b.start) : ∃ m,
      link s.heads (z.page b.start) (z.order b.order) = .ok m ∧
      Laid (PageState.mark { s with heads := m } (z.page b.start) b.order) (K.set b .free) := by
  have hused : b ∈ K.used := mem_used hb (by decide)
  have hset := Blocks.used_set hused (k := .free) (by decide)
  obtain ⟨L, hr, hL⟩ := h.lists z hz b.order (h.order b hused)
  have hnew : z.page b.start ∉ z.order b.order :: L := by
    intro hmem
    rcases List.mem_cons.mp hmem with he | hmem
    · exact h.zones.order_ne_page hz hz (h.order b hused) hp he.symm
    · obtain ⟨c, hk, -, hc, he⟩ := (hL _).mp hmem
      have hcb := (h.eq_of_page hz hz (mem_used hk (by decide)) hused hc hp he).2
      rw [hcb, hb] at hk
      cases hk
  obtain ⟨m, L', e, hr', hL', hf⟩ := hlink _ _ _ _ hr hnew (z.page_pos _)
  have hmem : ∀ a, a ∈ L' ↔ Listed (K.set b .free) z b.order a := fun a => by
    rw [listed_set_free z hp, hL', hL]
  have hne : ∀ a ≠ b, a ∈ K.used → ∀ z' ∈ s.zones, z'.Has a.start →
      z'.page a.start ≠ z.page b.start := fun a hab ha z' hz' hp' he =>
    hab (h.eq_of_page hz' hz ha hused hp' hp he).2
  refine ⟨m, e, h.zones, hset ▸ h.order, hset ▸ h.inside, hset ▸ h.apart, ?_,
    fun a ha z' hz' hp' => ?_, fun a ha z' hz' hp' => ?_⟩
  · exact h.lists_set hz hused hp hL hr' hmem hf
  · by_cases hab : a = b
    · subst hab
      obtain rfl := h.zones.eq_of_has hz' hz hp' hp
      have ho := h.order a hused
      unfold maxOrder at ho
      simp only [PageState.mark, Function.update_self, pageIsFree_setFree, pageOrder_setFree,
        true_and]
      exact pageOrder_withOrder _ (by omega)
    · rw [Blocks.set_of_ne hab] at ha
      simp only [PageState.mark, Function.update_of_ne (hne a hab (mem_used ha (by decide)) z' hz' hp')]
      exact h.marked a ha z' hz' hp'
  · by_cases hab : a = b
    · rw [hab, Blocks.set_self] at ha
      cases ha
    · rw [Blocks.set_of_ne hab] at ha
      simp only [PageState.mark, Function.update_of_ne (hne a hab (mem_used ha (by decide)) z' hz' hp')]
      exact h.taken a ha z' hz' hp'

/-- The flags at the head of a held block are of no account. -/
theorem setBusy (h : Laid s K) (hb : K b = .held) (hz : z ∈ s.zones) (hp : z.Has b.start) :
    Laid (s.setBusy (z.page b.start)) K := by
  have hne : ∀ a, K a = .free ∨ K a = .live → ∀ z' ∈ s.zones, z'.Has a.start →
      z'.page a.start ≠ z.page b.start := fun a ha z' hz' hp' he => by
    have hused : a ∈ K.used := by rcases ha with ha | ha <;> exact mem_used ha (by decide)
    have hab := (h.eq_of_page hz' hz hused (mem_used hb (by decide)) hp' hp he).2
    rw [hab, hb] at ha
    rcases ha with ha | ha <;> cases ha
  refine ⟨h.zones, h.order, h.inside, h.apart, h.lists, fun a ha z' hz' hp' => ?_,
    fun a ha z' hz' hp' => ?_⟩
  · simp only [PageState.setBusy, Function.update_of_ne (hne a (Or.inl ha) z' hz' hp')]
    exact h.marked a ha z' hz' hp'
  · simp only [PageState.setBusy, Function.update_of_ne (hne a (Or.inr ha) z' hz' hp')]
    exact h.taken a ha z' hz' hp'

end Laid

/-! ### What stays -/

/-- The free blocks in a zone -/
def freeIn (K : Blocks) (z : Zone) : Set Block := {b | K b = .free ∧ z.Has b.start}

/-- No free block could be merged with another. -/
def NoBuddies (s : PageState) (K : Blocks) : Prop := ∀ z ∈ s.zones, Reduced maxOrder (freeIn K z)

/-- The zones and the pages of the blocks stay the same; flags outside the blocks stay clear, and free
    blocks merged. -/
structure Keeps (s : PageState) (K : Blocks) (s' : PageState) (K' : Blocks) : Prop where
  zones : s'.zones = s.zones
  cover : cover K'.used = cover K.used
  clean : Clean s K → Clean s' K'
  reduced : NoBuddies s K → NoBuddies s' K'

namespace Keeps
variable {s' s'' : PageState} {K'' : Blocks} {p o : ℕ}

theorem refl (s : PageState) (K : Blocks) : Keeps s K s K := ⟨rfl, rfl, id, id⟩

theorem trans (h : Keeps s K s' K') (h' : Keeps s' K' s'' K'') : Keeps s K s'' K'' :=
  ⟨h'.zones.trans h.zones, h'.cover.trans h.cover, h'.clean ∘ h.clean, h'.reduced ∘ h.reduced⟩

/-- No page is flagged, and no block becomes free. -/
theorem of_flags (hz : s'.zones = s.zones)
    (hflags : ∀ a, pageIsFree (s'.flags a) = true → pageIsFree (s.flags a) = true)
    (hcover : Dyadic.cover K'.used = Dyadic.cover K.used) (hfree : ∀ b, K' b = .free → K b = .free) :
    Keeps s K s' K' := by
  refine ⟨hz, hcover, fun hc z hzs p hp hf => ?_, fun hr z hzs b hb ho hb' => ?_⟩
  · rw [hcover]
    exact hc z (hz ▸ hzs) p hp (hflags _ hf)
  · exact hr z (hz ▸ hzs) b ⟨hfree b hb.1, hb.2⟩ ho ⟨hfree _ hb'.1, hb'.2⟩

/-- The head of a block that was held is flagged, and the block becomes free. -/
theorem mark (h : Laid s K) (hb : K b = .held) (hz : z ∈ s.zones) (hp : z.Has b.start) (o : ℕ)
    (hm : s'.zones = s.zones) (hflags : s'.flags = (s.mark (z.page b.start) o).flags)
    (hstop : b.order < maxOrder → z.Has b.buddy.start → K b.buddy ≠ .free) :
    Keeps s K s' (K.set b .free) := by
  have hset := Blocks.used_set (Laid.mem_used hb (by decide)) (k := .free) (by decide)
  refine ⟨hm, by rw [hset], fun hc z' hz' p hp' hf => ?_, fun hr z' hz' a ha ho ha' => ?_⟩
  · rw [hset]
    by_cases he : z'.page p = z.page b.start
    · obtain ⟨-, rfl⟩ := h.zones.page_inj (hm ▸ hz') hz hp' hp he
      exact ⟨b, Laid.mem_used hb (by decide), start_mem b⟩
    · rw [hflags, mark_flags_of_ne he] at hf
      exact hc z' (hm ▸ hz') p hp' hf
  · obtain ⟨hak, hap⟩ := ha
    obtain ⟨hak', hap'⟩ := ha'
    by_cases hab : a = b
    · subst hab
      obtain rfl := h.zones.eq_of_has (hm ▸ hz') hz hap hp
      rw [Blocks.set_of_ne (buddy_ne a)] at hak'
      exact hstop ho hap' hak'
    · rw [Blocks.set_of_ne hab] at hak
      by_cases hab' : a.buddy = b
      · have hba : b.buddy = a := by rw [← hab', buddy_buddy]
        rw [hab'] at hap'
        obtain rfl := h.zones.eq_of_has (hm ▸ hz') hz hap' hp
        have horder : b.order = a.order := by rw [← hab']; rfl
        exact hstop (horder ▸ ho) (hba ▸ hap) (hba ▸ hak)
      · rw [Blocks.set_of_ne hab'] at hak'
        exact hr z' (hm ▸ hz') a ⟨hak, hap⟩ ho ⟨hak', hap'⟩

end Keeps

end FilesKernel.Buddy
