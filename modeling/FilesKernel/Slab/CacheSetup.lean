import FilesKernel.Slab.Owned

/-! A cache is set up.

    `mem_cache_setup` computes the layout and makes the three lists empty. The other caches keep their
    pools and their lists. -/

namespace FilesKernel.Slab
open CExec CWord LinkedList Buddy

variable {pages : Set ℕ} {s s' : SlabState} {v : View} {c c' p size align : ℕ} {l : CacheLayout}

/-- The cache `c` is set up, without pools. -/
def View.addCache (v : View) (c : ℕ) : View := { v with ready := insert c v.ready }

/-- The numbers of the layout of a cache -/
structure CacheLayout.For (l : CacheLayout) (size align : ℕ) : Prop where
  sound : l.Sound
  objSize : l.objSize = objSizeOf size align
  poolOrder : l.poolOrder = poolOrderOf size align

theorem memCacheLayoutSetup_for (hs : 0 < size) (ha : 0 < align) (hno : NoOverflow size align) :
    ∃ l, memCacheLayoutSetup size align = .ok l ∧ l.For size align := by
  obtain ⟨l, e, hslots⟩ := memCacheLayoutSetup_slots hs ha hno
  obtain ⟨l₁, e₁, hobj, horder, -, hinside, hgreatest⟩ := memCacheLayoutSetup_eq hs ha hno
  obtain rfl := Except.ok.inj (e.symm.trans e₁)
  have hfit : l.objSize * l.objCount + metaBytes l.objCount ≤ l.poolSize := hgreatest.1
  have hthree : l.Holds 3 := by
    rw [CacheLayout.Holds, CacheLayout.poolSize, hobj, horder]
    exact three_fit (Nat.pow_le_pow_right (by decide) (Nat.le_add_left _ _)) minSizeOf_lt
  exact ⟨l, e, ⟨hslots.bits, hgreatest.2 hthree, hslots.objSize, by omega, hinside⟩, hobj, horder⟩

/-- The lists of a cache are made empty, and those of others stay. -/
theorem initLists_spec (m : Heads Node) (c : ℕ) : ∃ m₁ m₂ m₃, listInit m (.freePools c) = .ok m₁ ∧
    listInit m₁ (.partialPools c) = .ok m₂ ∧ listInit m₂ (.busyPools c) = .ok m₃ ∧
    (∀ h, IsHead c h → OnRing m₃ h []) ∧ ∀ x, ¬ IsHead c x → m₃ x = m x := by
  obtain ⟨m₁, e₁, hr₁, hf₁⟩ := listInit_spec m (h := Node.freePools c) (Node.ne_zero nofun)
  obtain ⟨m₂, e₂, hr₂, hf₂⟩ := listInit_spec m₁ (h := Node.partialPools c) (Node.ne_zero nofun)
  obtain ⟨m₃, e₃, hr₃, hf₃⟩ := listInit_spec m₂ (h := Node.busyPools c) (Node.ne_zero nofun)
  refine ⟨m₁, m₂, m₃, e₁, e₂, e₃, fun h hh => ?_, fun x hx => ?_⟩
  · rcases hh with rfl | rfl | rfl
    · refine hr₁.congr fun x hx => ?_
      rw [List.mem_singleton] at hx
      have hne : x ≠ .busyPools c := hx ▸ nofun
      have hne' : x ≠ .partialPools c := hx ▸ nofun
      rw [hf₃ x hne, hf₂ x hne']
    · refine hr₂.congr fun x hx => ?_
      rw [List.mem_singleton] at hx
      have hne : x ≠ .busyPools c := hx ▸ nofun
      rw [hf₃ x hne]
    · exact hr₃
  · rw [hf₃ x fun e => hx (Or.inr (Or.inr e)), hf₂ x fun e => hx (Or.inr (Or.inl e)),
      hf₁ x fun e => hx (Or.inl e)]

theorem memCacheSetup_spec (h : Inv pages s v) (hc : c ∉ v.ready) (hs : 0 < size) (ha : 0 < align)
    (hno : NoOverflow size align) : ∃ s' l, memCacheSetup s c size align = .ok s' ∧
      l.For size align ∧ s'.caches = Function.update s.caches c l ∧ Inv pages s' (v.addCache c) ∧
      owned s' (v.addCache c) = owned s v ∧ s'.pages = s.pages := by
  have hm := h.mem
  obtain ⟨l, e, hl⟩ := memCacheLayoutSetup_for hs ha hno
  obtain ⟨m₁, m₂, m₃, e₁, e₂, e₃, hnew, hold⟩ := initLists_spec s.links c
  obtain ⟨s', hs'⟩ : ∃ s' : SlabState, s' =
    { s with links := m₃, caches := Function.update s.caches c l } := ⟨_, rfl⟩
  have hcaches : ∀ c' p, p ∈ v.pools c' → s'.caches c' = s.caches c' := fun c' p hp => by
    have hne : c' ≠ c := fun e => hc (e ▸ hm.ready c' p hp)
    rw [hs']
    exact Function.update_of_ne hne ..
  have hpoolOf : ∀ c' p, p ∈ v.pools c' → s'.poolOf c' p = s.poolOf c' p := fun c' p hp => by
    rw [SlabState.poolOf, hcaches c' p hp, hs']
    rfl
  have hheld : (v.addCache c).held s'.caches = v.held s.caches := by
    ext x
    refine or_congr_left (exists_congr fun c' => and_congr_right fun hp => ?_)
    rw [hcaches c' _ hp]
  have hhome : ∀ c' p, p ∈ v.pools c' → home s' c' p = home s c' p := fun c' p hp => by
    rw [home, home, hcaches c' p hp, hpoolOf c' p hp]
  have hpages : s'.pages = s.pages := by rw [hs']
  have hobjects : objects s' (v.addCache c) = objects s v := by
    ext o
    refine and_congr_right fun hp => ?_
    rw [hcaches _ _ hp, hpoolOf _ _ hp]
  have huse : ∀ {p b u}, Uses s p b u → Uses s' p b u := fun hu => by
    rw [hs']
    exact hu
  refine ⟨s', l, ?_, hl, by rw [hs'], ⟨⟨?_, ?_, fun c' hc' => ?_, fun c' p hp => ?_, fun c' p hp => ?_,
    fun x hx => huse (hm.large x hx)⟩, fun c' hc' g hg => ?_⟩, ?_, hpages⟩
  · rw [memCacheSetup, e, ok_bind, e₁, ok_bind, e₂, ok_bind, e₃, ok_bind, hs']
  · rw [hheld, hpages]
    exact hm.holds
  · rw [hpages]
    exact hm.mapped
  · by_cases hcc : c' = c
    · rw [hs', hcc]
      dsimp only
      rw [Function.update_self]
      exact hl.sound
    · rw [hs']
      dsimp only
      rw [Function.update_of_ne hcc]
      exact hm.sound c' (hc'.resolve_left hcc)
  · exact Or.inr (hm.ready c' p hp)
  · exact (hm.pools c' p hp).keep (hcaches c' p hp) (hpoolOf c' p hp) (by rw [hpages])
      fun q _ {b u} hu => huse hu
  · have hlinks : s'.links = m₃ := by rw [hs']
    by_cases hcc : c' = c
    · subst hcc
      refine listed_iff.mpr ⟨[], hlinks ▸ hnew g hg, fun a => ?_⟩
      refine iff_of_false List.not_mem_nil ?_
      rintro ⟨p, hp, -⟩
      exact hc (hm.ready c' p hp)
    · obtain ⟨L, hr, hL⟩ := listed_iff.mp (h.lists c' (hc'.resolve_left hcc) g hg)
      refine listed_iff.mpr ⟨L, ?_, fun a => ?_⟩
      · rw [hlinks]
        refine hr.congr fun x hx => hold x fun hx' => ?_
        rcases List.mem_cons.mp hx with rfl | hx
        · exact hcc (hg.cache hx')
        · obtain ⟨a, -, rfl⟩ := List.mem_map.mp hx
          exact hx'.ne_pool a rfl
      · rw [hL]
        refine exists_congr fun p => and_congr_right fun hp => ?_
        rw [hcaches c' p hp, hhome c' p hp]
  · rw [owned, hobjects]
    refine congrArg (· ∪ _) (Set.image_congr fun o ho => ?_)
    rw [Obj.key, Obj.key, Obj.addr, Obj.addr, hcaches _ _ ho.1]

end FilesKernel.Slab
