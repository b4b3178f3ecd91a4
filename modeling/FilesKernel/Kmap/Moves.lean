import FilesKernel.Kmap.Layout

/-! Moving a range between the lists and the hand.

    Only three things happen to list heads: a free range is taken off its list, a held range is put
    on the list of its size, and a held range becomes live. -/

namespace FilesKernel.Kmap
open CExec LinkedList LinkRing Tiling

variable {s : KmapState} {l A B : List Range} {R : ℕ → List Ref} {x : Range}

theorem range_ne_zero (i : ℕ) : (Ref.range i) ≠ 0 := by intro e; cases e

/-- A free range is taken off its list. -/
theorem Laid.takeOff (h : Laid s (A ++ x :: B)) (hk : x.kind = .free) : ∃ m,
    listDel s.lists (.range x.start) = .ok m ∧
      Laid { s with lists := m } (A ++ as .held x :: B) := by
  obtain ⟨R, h⟩ := h
  have hx : x ∈ A ++ x :: B := by simp
  have ho := bucket_lt x.len
  have hmem := (h.free _ ho _).mpr ⟨x, hx, hk, rfl, rfl⟩
  obtain ⟨P, Q, hR⟩ := List.append_of_mem hmem
  have hring := h.rings _ ho
  rw [hR] at hring
  obtain ⟨m, e, hm, f⟩ := listDel_spec hring
  rw [← hR] at f
  have hnot : Ref.range x.start ∉ P ++ Q := by
    have hnd := hring.ring.nodup
    rw [← List.cons_append, List.nodup_middle, List.nodup_cons] at hnd
    exact fun hp => hnd.1 (List.mem_cons_of_mem _ hp)
  have hother : ∀ z ∈ A ++ B, Ref.range z.start ≠ .range x.start := fun z hz e => by
    have hzx := h.tiles.eq_of_start (mem_around hz) hx (Ref.range.inj e)
    have hlen := (h.mem hx).1
    rcases List.mem_append.mp hz with hz | hz
    · have := h.tiles.before z hz
      rw [hzx, Tile.stop] at this; omega
    · have := h.tiles.behind z hz
      rw [hzx, Tile.stop] at this; omega
  refine ⟨m, e, Function.update R (bucket x.len) (P ++ Q), (tiles_as _).mpr h.tiles,
    fun z hz hzk => ?_, fun o hlt => ?_, fun o hlt a => ?_, fun z hz hzk => ?_⟩
  · rcases mem_middle.mp hz with rfl | hz
    · exact absurd rfl hzk
    · exact h.tags z (mem_around hz) hzk
  · rcases eq_or_ne o (bucket x.len) with rfl | hne
    · rwa [Function.update_self]
    · rw [Function.update_of_ne hne]
      exact (h.rings o hlt).congr fun a ha => f a (h.rings_apart ho hlt hne ha)
  · rcases eq_or_ne o (bucket x.len) with rfl | hne
    · rw [Function.update_self]
      have hiff : a ∈ P ++ Q ↔ a ∈ R (bucket x.len) ∧ a ≠ .range x.start := by
        rw [hR]
        simp only [List.mem_append, List.mem_cons] at hnot ⊢
        constructor
        · intro ha
          exact ⟨by tauto, fun e => hnot (e ▸ ha)⟩
        · rintro ⟨ha, hne⟩; tauto
      rw [hiff, h.free _ hlt a]
      constructor
      · rintro ⟨⟨z, hz, hzk, hb, rfl⟩, hne⟩
        refine ⟨z, mem_middle.mpr (Or.inr ?_), hzk, hb, rfl⟩
        have hzx : z ≠ x := fun e => hne (by rw [e])
        simp only [List.mem_append, List.mem_cons] at hz ⊢; tauto
      · rintro ⟨z, hz, hzk, hb, rfl⟩
        rcases mem_middle.mp hz with rfl | hz
        · cases hzk
        · exact ⟨⟨z, mem_around hz, hzk, hb, rfl⟩, hother z hz⟩
    · rw [Function.update_of_ne hne, h.free o hlt a]
      constructor
      · rintro ⟨z, hz, hzk, hb, rfl⟩
        have hzx : z ≠ x := fun e => hne (by rw [← hb, e])
        refine ⟨z, mem_middle.mpr (Or.inr ?_), hzk, hb, rfl⟩
        simp only [List.mem_append, List.mem_cons] at hz ⊢; tauto
      · rintro ⟨z, hz, hzk, hb, rfl⟩
        rcases mem_middle.mp hz with rfl | hz
        · cases hzk
        · exact ⟨z, mem_around hz, hzk, hb, rfl⟩
  · rcases mem_middle.mp hz with rfl | hz
    · cases hzk
    · have hzf : z.kind ≠ .free := by rw [hzk]; decide
      have hz' := f _ (h.not_on_ring (mem_around hz) hzf ho)
      exact (congrArg ListHead.next hz').trans (h.live z (mem_around hz) hzk)

/-- Writing the length into the first and the last descriptor of a range. -/
theorem Layout.tag (h : Layout s (A ++ x :: B) R) : ∃ s', s.tag x.start x.len = .ok s' ∧
    s'.lists = s.lists ∧ s'.pages x.start = x.len ∧ s'.pages (x.stop - 1) = x.len ∧
    ∀ z ∈ A ++ B, s'.pages z.start = s.pages z.start ∧
      s'.pages (z.stop - 1) = s.pages (z.stop - 1) := by
  have hx : x ∈ A ++ x :: B := by simp
  obtain ⟨hlen, hstop⟩ := h.mem hx
  have h₁ := h.start_lt hx
  have h₂ : x.start + x.len - 1 < kmapPages := by rw [Tile.stop] at hstop; omega
  let pages := Function.update (Function.update s.pages x.start x.len) (x.start + x.len - 1) x.len
  refine ⟨{ s with pages := pages }, ?_, rfl, ?_, ?_, fun z hz => ?_⟩
  · rw [KmapState.tag, KmapState.setPages, if_pos h₁, ok_bind, KmapState.setPages, if_pos h₂]
  · show pages x.start = x.len
    by_cases he : x.start = x.start + x.len - 1
    · simp only [pages, ← he, Function.update_self]
    · simp only [pages, Function.update_of_ne he, Function.update_self]
  · exact Function.update_self ..
  · have hzlen := (h.mem (mem_around hz)).1
    have hout : z.stop ≤ x.start ∨ x.stop ≤ z.start := by
      rcases List.mem_append.mp hz with hz | hz
      · exact Or.inl (h.tiles.before z hz)
      · exact Or.inr (h.tiles.behind z hz)
    rw [Tile.stop, Tile.stop] at hout
    rw [Tile.stop]
    have hother : ∀ i, i ≠ x.start → i ≠ x.start + x.len - 1 → pages i = s.pages i := fun i h₁ h₂ => by
      simp only [pages, Function.update_of_ne h₂, Function.update_of_ne h₁]
    exact ⟨hother _ (by omega) (by omega), hother _ (by omega) (by omega)⟩

/-- The tags of a tiling in which one range has been tagged anew. -/
theorem Layout.tags_as {s' : KmapState} {k : RangeKind} (h : Layout s (A ++ x :: B) R)
    (h₁ : s'.pages x.start = x.len) (h₂ : s'.pages (x.stop - 1) = x.len)
    (hrest : ∀ z ∈ A ++ B, s'.pages z.start = s.pages z.start ∧
      s'.pages (z.stop - 1) = s.pages (z.stop - 1)) :
    ∀ z ∈ A ++ as k x :: B, z.kind ≠ .held →
      s'.pages z.start = z.len ∧ s'.pages (z.stop - 1) = z.len := by
  intro z hz hzk
  rcases mem_middle.mp hz with rfl | hz
  · exact ⟨h₁, h₂⟩
  · rw [(hrest z hz).1, (hrest z hz).2]
    exact h.tags z (mem_around hz) hzk

/-- A held range is put on the list of its size. -/
theorem Laid.putFree (h : Laid s (A ++ x :: B)) (hk : x.kind = .held) : ∃ s' m,
    s.tag x.start x.len = .ok s' ∧
      listAdd s'.lists (.range x.start) (.head (bucket x.len)) = .ok m ∧
      Laid { s' with lists := m } (A ++ as .free x :: B) := by
  obtain ⟨R, h⟩ := h
  have hx : x ∈ A ++ x :: B := by simp
  have ho := bucket_lt x.len
  have hkf : x.kind ≠ .free := by rw [hk]; decide
  obtain ⟨s', e, hlists, h₁, h₂, hrest⟩ := h.tag
  have hnew := h.not_on_ring hx hkf ho
  obtain ⟨m, e', hm, f⟩ := listAdd_spec (h.rings _ ho) hnew (range_ne_zero _)
  rw [← hlists] at e'
  have hadd : ∀ z : Range, z.kind ≠ .held → (z ∈ A ++ x :: B ↔ z ∈ A ++ B) := fun z hz => by
    have hzx : z ≠ x := fun e => hz (e ▸ hk)
    simp only [List.mem_append, List.mem_cons]; tauto
  refine ⟨s', m, e, e', Function.update R (bucket x.len) (.range x.start :: R (bucket x.len)),
    (tiles_as _).mpr h.tiles, h.tags_as h₁ h₂ hrest, fun o hlt => ?_, fun o hlt a => ?_,
    fun z hz hzk => ?_⟩
  · rcases eq_or_ne o (bucket x.len) with rfl | hne
    · rwa [Function.update_self]
    · rw [Function.update_of_ne hne]
      refine (h.rings o hlt).congr fun a ha => f a (h.rings_apart ho hlt hne ha) fun e => ?_
      exact h.not_on_ring hx hkf hlt (e ▸ ha)
  · have hfree : ∀ z : Range, z.kind = .free → z.kind ≠ .held := fun z e => by rw [e]; decide
    have hold : a ∈ R o ↔ ∃ z ∈ A ++ B, z.kind = .free ∧ bucket z.len = o ∧ a = .range z.start := by
      rw [h.free o hlt a]
      constructor
      · rintro ⟨z, hz, hzk, hb⟩
        exact ⟨z, (hadd z (hfree z hzk)).mp hz, hzk, hb⟩
      · rintro ⟨z, hz, hzk, hb⟩
        exact ⟨z, (hadd z (hfree z hzk)).mpr hz, hzk, hb⟩
    have hnew : a ∈ Function.update R (bucket x.len) (.range x.start :: R (bucket x.len)) o ↔
        (o = bucket x.len ∧ a = .range x.start) ∨ a ∈ R o := by
      rcases eq_or_ne o (bucket x.len) with rfl | hne
      · rw [Function.update_self, List.mem_cons]; simp
      · rw [Function.update_of_ne hne]; simp [hne]
    rw [hnew, hold]
    constructor
    · rintro (⟨rfl, rfl⟩ | ⟨z, hz, hzk⟩)
      · exact ⟨as .free x, mem_middle.mpr (Or.inl rfl), rfl, rfl, rfl⟩
      · exact ⟨z, mem_middle.mpr (Or.inr hz), hzk⟩
    · rintro ⟨z, hz, hzk, hb, rfl⟩
      rcases mem_middle.mp hz with rfl | hz
      · exact Or.inl ⟨hb.symm, rfl⟩
      · exact Or.inr ⟨z, hz, hzk, hb, rfl⟩
  · rcases mem_middle.mp hz with rfl | hz
    · cases hzk
    · have hzf : z.kind ≠ .free := by rw [hzk]; decide
      have hne : Ref.range z.start ≠ .range x.start := fun e => by
        have := h.tiles.eq_of_start (mem_around hz) hx (Ref.range.inj e)
        rw [this, hk] at hzk; cases hzk
      have hz' := f _ (h.not_on_ring (mem_around hz) hzf ho) hne
      exact (congrArg ListHead.next hz').trans (h.live z (mem_around hz) hzk)

/-- A held range becomes live. -/
theorem Laid.makeLive (h : Laid s (A ++ x :: B)) (hk : x.kind = .held) : ∃ m s',
    listInit s.lists (.range x.start) = .ok m ∧
      KmapState.tag { s with lists := m } x.start x.len = .ok s' ∧
      Laid s' (A ++ as .live x :: B) := by
  obtain ⟨R, h⟩ := h
  have hx : x ∈ A ++ x :: B := by simp
  have hkf : x.kind ≠ .free := by rw [hk]; decide
  obtain ⟨m, e, hm, f⟩ := listInit_spec s.lists (range_ne_zero x.start)
  have hlive : ∀ z ∈ A ++ B, z.kind = .live → (m (.range z.start)).next = .range z.start := by
    intro z hz hzk
    have hne : Ref.range z.start ≠ .range x.start := fun e => by
      have := h.tiles.eq_of_start (mem_around hz) hx (Ref.range.inj e)
      rw [this, hk] at hzk; cases hzk
    rw [f _ hne]
    exact h.live z (mem_around hz) hzk
  have hrings : ∀ o < kmapOrders, OnRing m (.head o) (R o) := fun o ho =>
    (h.rings o ho).congr fun a ha => f a fun e => h.not_on_ring hx hkf ho (e ▸ ha)
  have hself : (m (.range x.start)).next = .range x.start := hm.ring.next_eq_head.mpr rfl
  -- the new list heads with the old tags, the range still in hand
  have h' : Layout { s with lists := m } (A ++ x :: B) R := by
    refine ⟨h.tiles, h.tags, hrings, h.free, fun z hz hzk => ?_⟩
    rcases List.mem_append.mp hz with hz | hz
    · exact hlive z (List.mem_append_left B hz) hzk
    · rcases List.mem_cons.mp hz with rfl | hz
      · rw [hk] at hzk; cases hzk
      · exact hlive z (List.mem_append_right A hz) hzk
  obtain ⟨s', e', hlists, h₁, h₂, hrest⟩ := h'.tag
  have hlists' : s'.lists = m := hlists
  refine ⟨m, s', e, e', R, (tiles_as _).mpr h.tiles, h'.tags_as h₁ h₂ hrest, ?_, fun o ho a => ?_,
    fun z hz hzk => ?_⟩
  · rw [hlists']; exact hrings
  · rw [h.free o ho a]
    constructor
    · rintro ⟨z, hz, hzk, hz'⟩
      have hzx : z ≠ x := fun e => hkf (e ▸ hzk)
      refine ⟨z, mem_middle.mpr (Or.inr ?_), hzk, hz'⟩
      simp only [List.mem_append, List.mem_cons] at hz ⊢; tauto
    · rintro ⟨z, hz, hzk, hz'⟩
      rcases mem_middle.mp hz with rfl | hz
      · cases hzk
      · exact ⟨z, mem_around hz, hzk, hz'⟩
  · rw [hlists']
    rcases mem_middle.mp hz with rfl | hz
    · exact hself
    · exact hlive z hz hzk

end FilesKernel.Kmap
