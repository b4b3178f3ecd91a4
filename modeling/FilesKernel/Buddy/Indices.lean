import FilesKernel.Buddy.Runs

/-! Which entries of a zone are accessed.

    `__page_alloc_zone` and `__page_free_zone` here stop with a fault where they take the address of an
    entry outside `zone->order` or `zone->pages`. The search for a list that is not empty looks at a list
    before it compares its index, so without a suitable block it comes to `order[MAX_ORDER + 1]`. -/

namespace FilesKernel.Buddy
open CExec CWord LinkedList LinkRing Dyadic

/-! ### The code with checked indices -/

/-- `&zone->order[i]`, which has to be in the array -/
def Zone.orderAt (z : Zone) (i : ℕ) : Exec ℕ :=
  if i ≤ maxOrder then .ok (z.order i) else .error .fault

/-- A descriptor, which has to be in the array -/
def Zone.descAt (z : Zone) (page : ℕ) : Exec ℕ :=
  if z.pages ≤ page ∧ (page - z.pages) % sizeofPage = 0 ∧
      (page - z.pages) / sizeofPage < z.stop - z.begin then .ok page
  else .error .fault

variable (s : PageState)

/-- The first loop of `__page_alloc_zone`. -/
def pageFindOrderIn (z : Zone) : ℕ → ℕ → Exec ℕ
  | 0, _ => .error .fuel
  | n + 1, current => do
    let head ← z.orderAt current
    let empty ← listEmpty s.heads head
    if empty ∧ current ≤ maxOrder then pageFindOrderIn z n (current + 1) else .ok current

/-- The second loop of `__page_alloc_zone`. -/
def pageSplitIn (z : Zone) (idx order : ℕ) : ℕ → PageState → Exec PageState
  | 0, s => if order = 0 then .ok s else .error .fault
  | current + 1, s =>
    if current + 1 = order then .ok s
    else do
      let buddy ← z.pageAt (idx ^^^ 2 ^ current)
      let head ← z.orderAt current
      let m ← listAdd s.heads buddy head
      let s ← PageState.setOrder { s with heads := m } buddy current
      pageSplitIn z idx order current (s.setFree buddy)

/-- `__page_alloc_zone` -/
def pageAllocZoneIn (z : Zone) (order : ℕ) : Exec (PageState × ℕ) := do
  let current ← pageFindOrderIn s z (maxOrder + 2) order
  if current > maxOrder then .ok (s, 0)
  else do
    let head ← z.orderAt current
    let empty ← listEmpty s.heads head
    bugOn (empty = true) "list_empty(&zone->order[current])"
    let page ← listFirst s.heads head
    let page ← z.descAt page
    let idx := z.idx page
    let s := s.setBusy page
    let m ← listDel s.heads page
    let s ← pageSplitIn z idx order current { s with heads := m }
    .ok (s, page)

/-- `__page_free_zone`; the loop takes its descriptors by `pageAt`. -/
def pageFreeZoneIn (z : Zone) (page order : ℕ) : Exec PageState := do
  let page ← z.descAt page
  let idx := z.idx page
  bugOn (idx % 2 ^ order ≠ 0) "idx & ((1ull << order) - 1)"
  let (s, page, order) ← pageMerge z (maxOrder - order) s page idx order
  let head ← z.orderAt order
  let m ← listAdd s.heads page head
  let s ← PageState.setOrder { s with heads := m } page order
  .ok (s.setFree page)

/-- No index is out of bounds when the zone is asked for a block of the order, nor when one of the
    live blocks comes back. -/
structure InBounds (c : Client) (z : Zone) (order : ℕ) : Prop where
  alloc : ∃ r, pageAllocZoneIn c.state z order = .ok r
  free : ∀ x ∈ c.live, z.Has x.1 → ∃ s, pageFreeZoneIn c.state z (z.page x.1) x.2 = .ok s

variable {s : PageState} {K : Blocks} {z : Zone} {b : Block} {c : Client} {order : ℕ}

/-! ### Allocation -/

theorem Zone.orderAt_eq {i : ℕ} (h : i ≤ maxOrder) : z.orderAt i = .ok (z.order i) := if_pos h

theorem Zone.descAt_page {p : ℕ} (hp : z.Has p) : z.descAt (z.page p) = .ok (z.page p) := by
  have hsub : z.page p - z.pages = sizeofPage * (p - z.begin) := Nat.add_sub_cancel_left _ _
  obtain ⟨hb, hs⟩ := hp
  refine if_pos ⟨Nat.le_add_right _ _, ?_, ?_⟩
  · rw [hsub, Nat.mul_mod_right]
  · rw [hsub, Nat.mul_div_cancel_left _ (by decide)]
    omega

/-- The search goes out of bounds when it does not end at a list. -/
theorem pageFindOrderIn_eq : ∀ (n current o : ℕ), pageFindOrder s z n current = .ok o →
    pageFindOrderIn s z n current = if o ≤ maxOrder then .ok o else .error .fault
  | 0, _, _, h => by cases h
  | n + 1, current, o, h => by
      rw [pageFindOrder] at h
      obtain ⟨empty, hempty, h⟩ := bind_eq_ok.mp h
      rw [pageFindOrderIn]
      by_cases hmax : current ≤ maxOrder
      · rw [Zone.orderAt_eq hmax, ok_bind, hempty, ok_bind]
        split_ifs at h ⊢ with hgo ho
        · rw [pageFindOrderIn_eq n _ _ h, if_pos ho]
        · rw [pageFindOrderIn_eq n _ _ h, if_neg ho]
        · exact h
        · obtain rfl := Except.ok.inj h
          contradiction
      · rw [if_neg fun hc => hmax hc.2] at h
        obtain rfl := Except.ok.inj h
        rw [Zone.orderAt, if_neg hmax, if_neg hmax]
        rfl

/-- Cutting down a block stays in bounds. -/
theorem pageSplitIn_eq (z : Zone) (idx order : ℕ) : ∀ (current : ℕ) (s : PageState),
    current ≤ maxOrder → pageSplitIn z idx order current s = pageSplit z idx order current s
  | 0, s, _ => rfl
  | current + 1, s, h => by
      have hcur : current ≤ maxOrder := Nat.le_of_succ_le h
      rw [pageSplitIn, pageSplit]
      split_ifs
      · rfl
      · refine bind_congr_ok rfl fun buddy _ => ?_
        rw [Zone.orderAt_eq hcur, ok_bind]
        refine bind_congr_ok rfl fun m _ => bind_congr_ok rfl fun s _ => ?_
        exact pageSplitIn_eq z idx order current _ hcur

/-- Allocation stays in bounds exactly when the zone has a block to give. -/
theorem pageAllocZoneIn_iff (h : Laid s K) (hno : ∀ a, K a ≠ .held) (hz : z ∈ s.zones)
    (ho : order ≤ maxOrder) : (∃ r, pageAllocZoneIn s z order = .ok r) ↔
      ∃ b, K b = .free ∧ z.Has b.start ∧ order ≤ b.order := by
  obtain ⟨o, e, hle, hleast, hfound⟩ := pageFindOrder_spec h hz (maxOrder + 2) order (by omega)
    (by omega)
  have eIn := pageFindOrderIn_eq _ _ _ e
  constructor
  · rintro ⟨r, hr⟩
    by_cases hmax : o ≤ maxOrder
    · obtain ⟨p, L, -, b, hb, hbo, hp, -⟩ := hfound hmax
      exact ⟨b, hb, hp, hbo.symm ▸ hle⟩
    · rw [pageAllocZoneIn, eIn, if_neg hmax, error_bind] at hr
      cases hr
  · rintro ⟨d, hd, hdp, hdo⟩
    have hmax : o ≤ maxOrder :=
      (hleast d hd hdp hdo).trans (h.order d (Laid.mem_used hd (by decide)))
    obtain ⟨p, L, hr, b, hb, -, hp, rfl⟩ := hfound hmax
    have hfirst := listFirst_spec hr
    rw [List.headD_cons] at hfirst
    have heq : pageAllocZoneIn s z order = pageAllocZone s z order := by
      rw [pageAllocZoneIn, pageAllocZone, eIn, if_pos hmax, e, ok_bind, ok_bind,
        if_neg (Nat.not_lt_of_le hmax), if_neg (Nat.not_lt_of_le hmax), Zone.orderAt_eq hmax, ok_bind]
      refine bind_congr_ok rfl fun empty _ => bind_congr_ok rfl fun _ _ => ?_
      rw [hfirst, ok_bind, ok_bind, Zone.descAt_page hp, ok_bind]
      refine bind_congr_ok rfl fun m _ => ?_
      rw [pageSplitIn_eq z _ order o _ hmax]
    rw [heq]
    rcases pageAllocZone_spec h hno hz ho with ⟨e', -⟩ | ⟨s', K', b', e', -⟩
    · exact ⟨_, e'⟩
    · exact ⟨_, e'⟩

/-! ### Release -/

theorem pageMerge_order : ∀ (n : ℕ) {s s' : PageState} {page idx order page' order' : ℕ},
    pageMerge z n s page idx order = .ok (s', page', order') → order' ≤ order + n
  | 0, s, s', page, idx, order, page', order', h => by
      cases h
      exact Nat.le_refl _
  | n + 1, s, s', page, idx, order, page', order', h => by
      have hstop : (Except.ok (s, page, order) : Exec (PageState × ℕ × ℕ)) = .ok (s', page', order') →
          order' ≤ order + (n + 1) := fun he => by
        cases he
        exact Nat.le_add_right _ _
      rw [pageMerge] at h
      by_cases hout : idx ^^^ 2 ^ order < z.begin ∨ idx ^^^ 2 ^ order ≥ z.stop
      · rw [if_pos hout] at h
        exact hstop h
      rw [if_neg hout] at h
      obtain ⟨buddy, -, h⟩ := bind_eq_ok.mp h
      by_cases hbusy : ¬ pageIsFree (s.flags buddy) ∨ pageOrder (s.flags buddy) ≠ order
      · rw [if_pos hbusy] at h
        exact hstop h
      rw [if_neg hbusy] at h
      obtain ⟨m, -, h⟩ := bind_eq_ok.mp h
      have hle : order' ≤ order + 1 + n := by
        by_cases hlow : idx ^^^ 2 ^ order < idx
        · rw [if_pos hlow] at h
          exact pageMerge_order n h
        · rw [if_neg hlow] at h
          exact pageMerge_order n h
      omega

/-- Taking back a live block stays in bounds. -/
theorem pageFreeZoneIn_spec (h : Laid s K) (hc : Clean s K) (hno : ∀ a, K a ≠ .held)
    (hb : K b = .live) (hz : z ∈ s.zones) (hp : z.Has b.start) :
    ∃ s', pageFreeZoneIn s z (z.page b.start) b.order = .ok s' := by
  have hbo := h.order b (Laid.mem_used hb (by decide))
  obtain ⟨s', K', e, -⟩ := pageFreeZone_spec h hc hno hb hz hp
  refine ⟨s', ?_⟩
  rw [← e, pageFreeZoneIn, pageFreeZone, Zone.descAt_page hp, ok_bind]
  refine bind_congr_ok rfl fun _ _ => bind_congr_ok rfl ?_
  rintro ⟨s₁, page, o⟩ hmerge
  have ho : o ≤ maxOrder := by
    have := pageMerge_order _ hmerge
    omega
  dsimp only
  rw [Zone.orderAt_eq ho, ok_bind]

/-! ### All runs -/

/-- In every state that is reached, a zone is accessed in bounds exactly when it has a block of the
    order or of a larger one. -/
theorem inBounds_iff (h : Ready s) (h0 : ∀ x ∈ allFree s, x.1 ≠ 0) (hr : PageReach s c)
    (hz : z ∈ c.state.zones) (ho : order ≤ maxOrder) :
    InBounds c z order ↔ ∃ x ∈ freeBlocks c.state z, order ≤ x.2 := by
  obtain ⟨K, hc, -⟩ := (h.settled h0).reach hr
  have hiff := pageAllocZoneIn_iff hc.laid hc.calm hz ho
  constructor
  · rintro ⟨halloc, -⟩
    obtain ⟨b, hb, hp, hbo⟩ := hiff.mp halloc
    exact ⟨headOf b, (hc.laid.mem_freeBlocks hz).mpr ⟨b, ⟨hb, hp⟩, rfl⟩, hbo⟩
  · rintro ⟨x, hx, hxo⟩
    obtain ⟨b, ⟨hb, hp⟩, rfl⟩ := (hc.laid.mem_freeBlocks hz).mp hx
    refine ⟨hiff.mpr ⟨b, hb, hp, hxo⟩, fun y hy hyp => ?_⟩
    obtain ⟨d, hd, rfl⟩ := hc.block hy
    exact pageFreeZoneIn_spec hc.laid hc.clean hc.calm hd hz hyp

/-- A block of two pages is enough for one page. -/
theorem twoPages_inBounds : InBounds ⟨oneBlock 2 1, ∅⟩ ⟨pageSize, 2, 4⟩ 0 := by
  obtain ⟨hready, hfree⟩ := oneBlock_ready (p := 2) (o := 1) (by decide) (by decide) (by decide)
  have hz : (⟨pageSize, 2, 4⟩ : Zone) ∈ (oneBlock 2 1).zones := List.mem_singleton_self _
  refine (inBounds_iff hready (fun x hx => ?_) .start hz (Nat.zero_le _)).mpr ⟨(2, 1), ?_, Nat.zero_le _⟩
  · rw [hfree, Set.mem_singleton_iff] at hx
    rw [hx]
    decide
  · have hmem : (2, 1) ∈ allFree (oneBlock 2 1) := by
      rw [hfree]
      exact Set.mem_singleton _
    obtain ⟨z, hz', hx⟩ := hmem
    rwa [List.mem_singleton.mp hz'] at hx

/-- A block of two pages is not enough for four pages. -/
theorem fourPages_not_inBounds : Ready (oneBlock 2 1) ∧
    PageReach (oneBlock 2 1) ⟨oneBlock 2 1, ∅⟩ ∧ ¬ InBounds ⟨oneBlock 2 1, ∅⟩ ⟨pageSize, 2, 4⟩ 2 := by
  obtain ⟨hready, hfree⟩ := oneBlock_ready (p := 2) (o := 1) (by decide) (by decide) (by decide)
  have hz : (⟨pageSize, 2, 4⟩ : Zone) ∈ (oneBlock 2 1).zones := List.mem_singleton_self _
  refine ⟨hready, .start, fun hin => ?_⟩
  obtain ⟨b, hb, -, hbo⟩ := (pageAllocZoneIn_iff hready.laid
    (fun b => shown_ne (by decide) (by decide)) hz (by decide)).mp hin.alloc
  have hmem := shown_free.mp hb
  rw [hfree, Set.mem_singleton_iff] at hmem
  have ho : b.order = 1 := congrArg Prod.snd hmem
  omega

end FilesKernel.Buddy
