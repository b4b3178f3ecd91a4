import FilesKernel.Slab.Growth

/-! Pools go back.

    A pool is destroyed when none of its objects is in use: its descriptors are cleared, and the page
    allocator gets the block. `mem_cache_shrink` takes the free pools off their list all at once and
    destroys them one by one. -/

namespace FilesKernel.Slab
open CExec CWord LinkedList Buddy

variable {pages : Set ℕ} {s s' : SlabState} {v : View} {c c' p p' q d : ℕ} {h g : Node}

/-! ### One pool -/

theorem mem_removePool :
    p' ∈ (v.removePool c p).pools c' ↔ p' ∈ v.pools c' ∧ ¬ (c' = c ∧ p' = p) := by
  rw [View.removePool]
  dsimp only
  by_cases hc : c' = c
  · subst hc
    rw [Function.update_self, Set.mem_sep_iff]
    exact and_congr_right fun _ => not_congr (and_iff_right rfl).symm
  · rw [Function.update_of_ne hc]
    exact (and_iff_left fun h => hc h.1).symm

/-- The pages of a pool and those of a block that is handed out whole are different. -/
theorem Mem.not_large (hm : Mem pages s v) (hp : p ∈ v.pools c) {o : ℕ} : (p, o) ∉ v.large := by
  intro hx
  have hq := first_mem (p, (s.caches c).poolOrder)
  obtain ⟨e, he⟩ := hm.described (Mem.held_pool hp) hq
  have hbit := (hm.uses hp hq e he).1
  rw [(hm.large _ hx e he).1] at hbit
  cases hbit

theorem held_removePool (hm : Mem pages s v) (hp : p ∈ v.pools c) :
    (v.removePool c p).held s.caches = {x ∈ v.held s.caches | x ≠ (p, (s.caches c).poolOrder)} := by
  ext x
  constructor
  · rintro (⟨c', hx, ho⟩ | hx)
    · obtain ⟨hx, hne⟩ := mem_removePool.mp hx
      refine ⟨Or.inl ⟨c', hx, ho⟩, ?_⟩
      rintro rfl
      exact hne ⟨(hm.pool_unique hp hx (first_mem (p, _)) (first_mem (p, _))).1.symm, rfl⟩
    · refine ⟨Or.inr hx, ?_⟩
      rintro rfl
      exact hm.not_large hp hx
  · rintro ⟨⟨c', hx, ho⟩ | hx, hne⟩
    · refine Or.inl ⟨c', mem_removePool.mpr ⟨hx, ?_⟩, ho⟩
      rintro ⟨rfl, hxp⟩
      exact hne (Prod.ext hxp ho)
    · exact Or.inr hx

/-- A pool has been destroyed. -/
structure Destroyed (pages : Set ℕ) (s : SlabState) (v : View) (s' : SlabState) : Prop where
  mem : Mem pages s' v
  caches : s'.caches = s.caches
  links : s'.links = s.links
  pools : s'.pools = s.pools

theorem memPoolDestroy_spec (hm : Mem pages s v) (hp : p ∈ v.pools c)
    (hfree : (s.poolOf c p).free = (s.caches c).objCount) :
    ∃ s', memPoolDestroy s c (poolAt (s.caches c) p) = .ok s' ∧
      Destroyed pages s (v.removePool c p) s' := by
  have hok := hm.pools c p hp
  have hz := hm.holds.zonesOk
  have hrow := describes_from hm.holds (Mem.held_pool hp) hok.page
  have hat : s.pools (poolAt (s.caches c) p) = s.poolOf c p := rfl
  obtain ⟨d, hd⟩ : ∃ d, d = (s.poolOf c p).page := ⟨_, rfl⟩
  rw [← hd] at hrow
  have hmark := disclaimPages_marked s d (2 ^ (s.caches c).poolOrder)
  obtain ⟨s₁, hs₁⟩ : ∃ s₁, s₁ = disclaimPages d (2 ^ (s.caches c).poolOrder) s := ⟨_, rfl⟩
  rw [← hs₁] at hmark
  have hdesc : Describes s₁.pages (p, (s.caches c).poolOrder).1 d :=
    hmark.describes.mpr (hd ▸ hok.page)
  obtain ⟨t, et, hserved, hholds⟩ := pageFreePage_holds (hmark.holds _ _ hm.holds)
    (Mem.held_pool hp) hdesc
  have hother : ∀ {y q b u}, y ∈ v.held s.caches → y ≠ (p, (s.caches c).poolOrder) →
      q ∈ blockPages y → Uses s q b u → Uses { s₁ with pages := t } q b u := by
    intro y q b u hy hne hq hu
    have hdis := hm.holds.law.live_apart _ (Mem.held_pool hp) y hy (Ne.symm hne)
    exact (hu.other hz hrow hmark (Set.Subset.refl _) hdis hq).served hserved
  have hzones : t.zones = s.pages.zones := hserved.zones.trans hmark.zones
  have hcaches : s₁.caches = s.caches := hmark.caches
  have hpoolOf : ∀ c' p', SlabState.poolOf { s₁ with pages := t } c' p' = s.poolOf c' p' :=
    fun c' p' => by
      rw [SlabState.poolOf, SlabState.poolOf, hmark.caches, hmark.pools]
  refine ⟨{ s₁ with pages := t }, ?_, ⟨⟨?_, ?_, ?_, fun c' p' hp' => ?_, fun c' p' hp' => ?_,
    fun x hx => ?_⟩, hcaches, hmark.links, hmark.pools⟩⟩
  · rw [memPoolDestroy, hat]
    dsimp only
    rw [bugOn_false (not_not.mpr hfree), ok_bind, ← hd, ← hs₁, et, ok_bind]
  · rw [hcaches, held_removePool hm hp]
    exact hholds
  · intro z hz
    exact hm.mapped z (hzones ▸ hz)
  · intro c' hc'
    dsimp only
    rw [hcaches]
    exact hm.sound c' hc'
  · exact hm.ready c' p' (mem_removePool.mp hp').1
  · obtain ⟨hpool, hne⟩ := mem_removePool.mp hp'
    refine (hm.pools c' p' hpool).keep (by dsimp only; rw [hcaches]) (hpoolOf c' p') hzones
      fun q hq {b u} hu => hother (Mem.held_pool hpool) (fun he => hne ?_) hq hu
    have hpp : p' = p := (Prod.mk.inj he).1
    have hfirst := first_mem (p', (s.caches c').poolOrder)
    exact ⟨(hm.pool_unique hpool hp hfirst (hpp ▸ first_mem (p, _))).1, hpp⟩
  · refine hother (Or.inr hx) ?_ (first_mem x) (hm.large x hx)
    rintro rfl
    exact hm.not_large hp hx

/-! ### All free pools -/

/-- The pools of `c` without those at `Y` -/
def View.drop (v : View) (l : CacheLayout) (c : ℕ) (Y : List ℕ) : View :=
  { v with pools := Function.update v.pools c {p ∈ v.pools c | poolAt l p ∉ Y} }

theorem mem_drop {l : CacheLayout} {Y : List ℕ} :
    p' ∈ (v.drop l c Y).pools c' ↔ p' ∈ v.pools c' ∧ ¬ (c' = c ∧ poolAt l p' ∈ Y) := by
  rw [View.drop]
  dsimp only
  by_cases hc : c' = c
  · subst hc
    rw [Function.update_self, Set.mem_sep_iff]
    exact and_congr_right fun _ => not_congr (and_iff_right rfl).symm
  · rw [Function.update_of_ne hc]
    exact (and_iff_left fun h => hc h.1).symm

theorem poolAt_layout_inj {l : CacheLayout} (h : poolAt l p = poolAt l q) : p = q :=
  base_inj (Nat.add_right_cancel h)

theorem View.ext_pools {w : View} (hr : w.ready = v.ready) (hl : w.large = v.large)
    (hp : ∀ c p, p ∈ w.pools c ↔ p ∈ v.pools c) : w = v := by
  obtain ⟨r, P, L⟩ := v
  obtain ⟨r', P', L'⟩ := w
  obtain rfl : r' = r := hr
  obtain rfl : L' = L := hl
  obtain rfl : P' = P := funext fun c => Set.ext fun p => hp c p
  rfl

theorem drop_nil (v : View) (l : CacheLayout) (c : ℕ) : v.drop l c [] = v :=
  View.ext_pools rfl rfl fun c' p' => by
    rw [mem_drop]
    exact and_iff_left fun h => List.not_mem_nil h.2

theorem drop_cons (v : View) (l : CacheLayout) (c p : ℕ) (Y : List ℕ) :
    (v.removePool c p).drop l c Y = v.drop l c (poolAt l p :: Y) :=
  View.ext_pools rfl rfl fun c' p' => by
    rw [mem_drop, mem_removePool, mem_drop, List.mem_cons, and_assoc]
    refine and_congr_right fun _ => ?_
    rw [← not_or, ← and_or_left]
    exact not_congr (and_congr_right fun _ =>
      or_congr_left ⟨fun e => by rw [e], fun e => poolAt_layout_inj e⟩)

theorem Node.ne_zero {n : Node} (h : n ≠ .null) : n ≠ 0 := h

/-- A loop that destroys the pools of a list with head `h`: `Y` are those that are left on it. -/
theorem destroyLoop_spec (body : SlabState × Node → Exec ((SlabState × Node) ⊕ SlabState)) (h : Node)
    {m : Heads Node} {l : CacheLayout} (hround : ∀ s ptr, body (s, ptr) =
      if ptr = h then .ok (.inr s) else do
        let pool ← poolEntry ptr
        let n ← load s.links ptr
        let s ← memPoolDestroy s c pool
        .ok (.inl (s, n.next)))
    (hhead : ∀ a, Node.pool a ≠ h) : ∀ {fuel : ℕ} {X Y : List ℕ} {s : SlabState} {v : View},
    OnRing m h ((X ++ Y).map .pool) → Y.length < fuel → Mem pages s v →
    s.links = m → s.caches c = l → Y.Nodup → (∀ a ∈ Y, ∃ p ∈ v.pools c, a = poolAt l p ∧
      (s.poolOf c p).free = l.objCount) →
    ∃ s', loop body fuel (s, (Y.map .pool).headD h) = .ok s' ∧ Destroyed pages s (v.drop l c Y) s'
  | 0, _, _, _, _, _, hfuel, _, _, _, _, _ => absurd hfuel (Nat.not_lt_zero _)
  | fuel + 1, X, [], s, v, _, _, hm, _, _, _, _ => by
      refine ⟨s, ?_, ?_⟩
      · rw [loop, List.map_nil, List.headD_nil, hround, if_pos rfl, ok_bind]
      · rw [drop_nil]
        exact ⟨hm, rfl, rfl, rfl⟩
  | fuel + 1, X, a :: Y, s, v, hr, hfuel, hm, hlinks, hl, hnd, hY => by
      obtain ⟨p, hp, rfl, hfree⟩ := hY a List.mem_cons_self
      rw [← hl] at hfree
      obtain ⟨s₁, e, hdes⟩ := memPoolDestroy_spec hm hp hfree
      have hne : Node.pool (poolAt l p) ≠ 0 := Node.ne_zero (by rintro ⟨⟩)
      have hnext : (m (.pool (poolAt l p))).next = (Y.map .pool).headD h := by
        rw [List.map_append, List.map_cons] at hr
        exact hr.ring.member.2
      have hbody : body (s, .pool (poolAt l p)) =
          .ok (.inl (s₁, (Y.map .pool).headD h)) := by
        rw [hl] at e
        rw [hround, if_neg (hhead _), poolEntry, ok_bind, hlinks,
          load_eq hne, ok_bind, e, ok_bind, hnext]
      have hcons := List.nodup_cons.mp hnd
      have hl₁ : s₁.caches c = l := by rw [hdes.caches, hl]
      have hr' : OnRing m h (((X ++ [poolAt l p]) ++ Y).map .pool) := by
        rw [List.append_assoc, List.singleton_append]
        exact hr
      obtain ⟨s', e', hdes'⟩ := destroyLoop_spec body h hround hhead hr'
        (Nat.lt_of_succ_lt_succ hfuel) hdes.mem (hdes.links.trans hlinks) hl₁ hcons.2 fun b hb => by
          obtain ⟨q, hq, rfl, hqf⟩ := hY b (List.mem_cons_of_mem _ hb)
          refine ⟨q, mem_removePool.mpr ⟨hq, ?_⟩, rfl, ?_⟩
          · rintro ⟨-, rfl⟩
            exact hcons.1 hb
          · rw [SlabState.poolOf, hdes.caches, hdes.pools]
            exact hqf
      refine ⟨s', ?_, ?_, hdes'.caches.trans hdes.caches, hdes'.links.trans hdes.links,
        hdes'.pools.trans hdes.pools⟩
      · rw [loop, List.map_cons, List.headD_cons, hbody, ok_bind]
        exact e'
      · rw [← drop_cons]
        exact hdes'.mem

/-- The pools of a list have different addresses below the end of memory. -/
theorem Members.length_lt {L : List ℕ} (hL : Members s v c h L) (hm : Mem pages s v) (hnd : L.Nodup) :
    L.length < maxSteps := by
  have hlen := length_lt_maxSteps hnd fun a ha => by
    obtain ⟨p, hp, rfl, -⟩ := (hL a).mp ha
    refine ⟨?_, hm.poolAt_lt hp⟩
    rw [poolAt, base, higherBase]
    omega
  omega

/-! ### The call -/

/-- The pools without the free ones of `c` -/
def View.shrunk (v : View) (s : SlabState) (c : ℕ) : View :=
  { v with pools := Function.update v.pools c {p ∈ v.pools c | home s c p ≠ .freePools c} }

theorem cache_of_home (h : home s c' p' = .freePools c) : c' = c := by
  have hh : IsHead c' (home s c' p') := isHead_homeOf c' _ _
  rw [h] at hh
  exact hh.cache (Or.inl rfl)

theorem mem_shrunk :
    p' ∈ (v.shrunk s c).pools c' ↔ p' ∈ v.pools c' ∧ home s c' p' ≠ .freePools c := by
  rw [View.shrunk]
  dsimp only
  by_cases hc : c' = c
  · subst hc
    rw [Function.update_self]
    exact Iff.rfl
  · rw [Function.update_of_ne hc]
    exact (and_iff_left fun h => hc (cache_of_home h)).symm

theorem drop_eq_shrunk {L : List ℕ} (hL : Members s v c (.freePools c) L) :
    v.drop (s.caches c) c L = v.shrunk s c :=
  View.ext_pools rfl rfl fun c' p' => by
    rw [mem_drop, mem_shrunk]
    refine and_congr_right fun hp' => not_congr ⟨?_, fun h => ?_⟩
    · rintro ⟨rfl, h⟩
      obtain ⟨q, -, he, hq⟩ := (hL _).mp h
      rwa [poolAt_layout_inj he]
    · obtain rfl := cache_of_home h
      exact ⟨rfl, (hL _).mpr ⟨p', hp', rfl, h⟩⟩

/-- What a call of `mem_cache_shrink` does: the pools with no object in use go back. -/
structure Shrinks (pages : Set ℕ) (s : SlabState) (v : View) (c : ℕ) (s' : SlabState) : Prop where
  inv : Inv pages s' (v.shrunk s c)
  objects : objects s' (v.shrunk s c) = objects s v
  caches : s'.caches = s.caches

theorem IsHead.ne_freeSlabs (hh : IsHead c h) : h ≠ .freeSlabs := by
  rcases hh with rfl | rfl | rfl <;> exact nofun

theorem not_objects_of_free (hm : Mem pages s v) {o : Obj} (ho : o ∈ objects s v) :
    home s o.cache o.page ≠ .freePools o.cache := by
  intro hfree
  obtain ⟨hp, hk, hbusy⟩ := ho
  have hcount := home_free_iff.mp hfree
  rw [(hm.pools _ _ hp).counts.free] at hcount
  have hsub : freeSlots (s.caches o.cache) (s.poolOf o.cache o.page) ⊆
      Finset.range (s.caches o.cache).objCount := Finset.filter_subset _ _
  have hall := Finset.eq_of_subset_of_card_le hsub (by rw [hcount, Finset.card_range])
  exact hbusy (hall ▸ Finset.mem_range.mpr hk)

theorem memCacheShrink_spec (h : Inv pages s v) (hc : c ∈ v.ready) :
    ∃ s', memCacheShrink s c = .ok s' ∧ Shrinks pages s v c s' := by
  have hm := h.mem
  have hhead : IsHead c (.freePools c) := Or.inl rfl
  obtain ⟨L, hr, hL⟩ := listed_iff.mp (h.lists c hc _ hhead)
  have hnoSlabs : ∀ {c' g} {M : List ℕ}, IsHead c' g → ∀ x ∈ g :: M.map Node.pool, x ≠ .freeSlabs := by
    intro c' g M hg x hx
    rcases List.mem_cons.mp hx with rfl | hx
    · exact hg.ne_freeSlabs
    · obtain ⟨a, -, rfl⟩ := List.mem_map.mp hx
      rintro ⟨⟩
  -- all free pools go to the list on the stack
  obtain ⟨m₁, e₁, hr₁, hf₁⟩ := listInit_spec s.links (h := Node.freeSlabs)
    (Node.ne_zero (by rintro ⟨⟩))
  have hr' : OnRing m₁ (.freePools c) (L.map .pool) := hr.congr fun x hx =>
    hf₁ x (hnoSlabs hhead x hx)
  have hdis : List.Disjoint (.freePools c :: L.map Node.pool) [Node.freeSlabs] := fun x hx hx' =>
    hnoSlabs hhead x hx (List.mem_singleton.mp hx')
  obtain ⟨m₂, e₂, hr₂, hnil, hf₂⟩ := listSplice_spec hr' hr₁ hdis
  rw [List.append_nil] at hr₂
  have hnd : L.Nodup := List.Nodup.of_map _ (List.nodup_cons.mp hr.ring.nodup).2
  obtain ⟨s', e, hdes⟩ := destroyLoop_spec (X := []) (l := s.caches c) (shrinkBody c)
    .freeSlabs (fun _ _ => rfl) (fun _ => by rintro ⟨⟩) hr₂ (hL.length_lt hm hnd)
    (hm.setLinks m₂) rfl rfl hnd fun a ha => by
      obtain ⟨p, hp, he, hhome⟩ := (hL a).mp ha
      exact ⟨p, hp, he, home_free_iff.mp hhome⟩
  have hmem := hdes.mem
  rw [drop_eq_shrunk hL] at hmem
  have hcaches : s'.caches = s.caches := hdes.caches
  have hpools : s'.pools = s.pools := hdes.pools
  have hlinks : s'.links = m₂ := hdes.links
  have hhome : ∀ c' p', home s' c' p' = home s c' p' := fun c' p' => by
    rw [home, home, SlabState.poolOf, SlabState.poolOf, hcaches, hpools]
  refine ⟨s', ?_, ⟨hmem, fun c' hc' g hg => ?_⟩, ?_, hcaches⟩
  · have hnext : (m₂ .freeSlabs).next = (L.map .pool).headD .freeSlabs := hr₂.ring.next_head
    rw [memCacheShrink, e₁, ok_bind, e₂, ok_bind, load_eq (hr₂.nonnull _ List.mem_cons_self), ok_bind,
      hnext, e]
  · by_cases hgf : g = .freePools c
    · subst hgf
      refine listed_iff.mpr ⟨[], by rwa [hlinks], fun b => ?_⟩
      refine iff_of_false List.not_mem_nil ?_
      rintro ⟨p', hp', -, he⟩
      exact (mem_shrunk.mp hp').2 ((hhome c' p').symm.trans he)
    · obtain ⟨M, hM, hmemM⟩ := listed_iff.mp (h.lists c' hc' g hg)
      refine listed_iff.mpr ⟨M, ?_, fun b => ?_⟩
      · rw [hlinks]
        refine hM.congr fun x hx => ?_
        have hx₁ := hnoSlabs hg x hx
        rw [hf₂ x (fun hx' => hmemM.disjoint hL hm hg hhead hgf hx hx')
          (fun hx' => hx₁ (List.mem_singleton.mp hx')), hf₁ x hx₁]
      · rw [hmemM, hcaches]
        refine exists_congr fun p' => ?_
        rw [mem_shrunk, hhome, and_assoc]
        refine and_congr_right fun _ => ⟨fun hb => ⟨hb.2 ▸ hgf, hb⟩, fun hb => hb.2⟩
  · ext o
    constructor
    · rintro ⟨hp, hk, hbusy⟩
      rw [SlabState.poolOf, hcaches, hpools] at hbusy
      rw [hcaches] at hk
      exact ⟨(mem_shrunk.mp hp).1, hk, hbusy⟩
    · intro ho
      have hne := not_objects_of_free hm ho
      obtain ⟨hp, hk, hbusy⟩ := ho
      refine ⟨mem_shrunk.mpr ⟨hp, fun he => hne ?_⟩, ?_, ?_⟩
      · exact he.trans (by rw [cache_of_home he])
      · rwa [hcaches]
      · rwa [SlabState.poolOf, hcaches, hpools]

end FilesKernel.Slab
