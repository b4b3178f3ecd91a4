import FilesKernel.Slab.Invariant

/-! Pools move between the lists of their cache.

    A pool belongs on the list that its counter of free objects says. An operation changes the counter of
    one pool, and puts this pool on another list exactly when it belongs there. With three objects at
    least, no counter says two lists at once. -/

namespace FilesKernel.Slab
open CExec CWord LinkedList Buddy

variable {pages : Set ℕ} {s s' : SlabState} {v : View} {c c' p p' k : ℕ} {h g : Node} {m : MemPool}

/-! ### The place of a pool -/

/-- The list that the pool belongs on. -/
def home (s : SlabState) (c p : ℕ) : Node := homeOf c (s.caches c) (s.poolOf c p).free

/-- `L` are the pools of `c` that belong on the list `h`. -/
def Members (s : SlabState) (v : View) (c : ℕ) (h : Node) (L : List ℕ) : Prop :=
  ∀ a, a ∈ L ↔ ∃ p ∈ v.pools c, a = poolAt (s.caches c) p ∧ home s c p = h

theorem listed_iff : Listed s v c h ↔
    ∃ L : List ℕ, OnRing s.links h (L.map .pool) ∧ Members s v c h L := by
  refine exists_congr fun L => and_congr_right fun _ => forall_congr' fun a => ?_
  refine iff_congr Iff.rfl (exists_congr fun p => and_congr_right fun _ => ?_)
  exact and_congr_right fun ha => by rw [ha]; rfl

theorem home_setPool (hm : Mem pages s v) (hp : p ∈ v.pools c) (hp' : p' ∈ v.pools c') :
    home (s.setPool (poolAt (s.caches c) p) m) c' p' =
      if c' = c ∧ p' = p then homeOf c (s.caches c) m.free else home s c' p' := by
  have hof := poolOf_setPool hm hp hp' m
  have hhome : home (s.setPool (poolAt (s.caches c) p) m) c' p' =
      homeOf c' (s.caches c') ((s.setPool (poolAt (s.caches c) p) m).poolOf c' p').free := rfl
  rw [hhome, hof]
  by_cases he : c' = c ∧ p' = p
  · rw [if_pos he, if_pos he, he.1]
  · rw [if_neg he, if_neg he]
    rfl

/-- Two lists have no pool in common. -/
theorem Members.disjoint {L K : List ℕ} (hL : Members s v c h L) (hK : Members s v c' g K)
    (hm : Mem pages s v) (hh : IsHead c h) (hg : IsHead c' g) (hne : h ≠ g) :
    List.Disjoint (h :: L.map .pool) (g :: K.map .pool) := by
  intro x hx hx'
  rcases List.mem_cons.mp hx with rfl | hx <;> rcases List.mem_cons.mp hx' with hxg | hx'
  · exact hne hxg
  · obtain ⟨a, -, ha⟩ := List.mem_map.mp hx'
    exact hh.ne_pool a ha.symm
  · obtain ⟨a, -, ha⟩ := List.mem_map.mp hx
    exact hg.ne_pool a (hxg.symm.trans ha.symm)
  · obtain ⟨a, ha, rfl⟩ := List.mem_map.mp hx
    obtain ⟨b, hb, hab⟩ := List.mem_map.mp hx'
    obtain rfl := Node.pool.inj hab
    obtain ⟨p, hp, hpa, hhome⟩ := (hL _).mp ha
    obtain ⟨p', hp', hpb, hhome'⟩ := (hK _).mp hb
    obtain ⟨rfl, rfl⟩ := hm.poolAt_inj hp hp' (hpa.symm.trans hpb)
    exact hne (hhome.symm.trans hhome')

/-! ### One pool -/

/-- The pool stays where it is. -/
theorem Lists.stay (hl : Lists s v) (hm : Mem pages s v) (hp : p ∈ v.pools c)
    (hhome : homeOf c (s.caches c) m.free = home s c p) :
    Lists (s.setPool (poolAt (s.caches c) p) m) v := by
  intro c' hc' h hh
  obtain ⟨L, hr, hL⟩ := listed_iff.mp (hl c' hc' h hh)
  refine listed_iff.mpr ⟨L, hr, fun a => (hL a).trans (exists_congr fun p' => ?_)⟩
  refine and_congr_right fun hp' => and_congr_right fun _ => ?_
  rw [home_setPool hm hp hp']
  by_cases he : c' = c ∧ p' = p
  · rw [if_pos he, hhome, he.1, he.2]
  · rw [if_neg he]

/-- The pool moves to the list where it belongs now. -/
theorem Lists.relink (hl : Lists s v) (hm : Mem pages s v) (hp : p ∈ v.pools c)
    (hhome : homeOf c (s.caches c) m.free = h) (hne : home s c p ≠ h) : ∃ links,
      relink (s.setPool (poolAt (s.caches c) p) m) (poolAt (s.caches c) p) h =
        .ok { s.setPool (poolAt (s.caches c) p) m with links := links } ∧
      Lists { s.setPool (poolAt (s.caches c) p) m with links := links } v := by
  obtain ⟨a, ha⟩ : ∃ a, a = poolAt (s.caches c) p := ⟨_, rfl⟩
  have hc := hm.ready c p hp
  have hh : IsHead c h := hhome ▸ isHead_homeOf c _ _
  have hh₀ : IsHead c (home s c p) := isHead_homeOf c _ _
  obtain ⟨L, hr, hL⟩ := listed_iff.mp (hl c hc _ hh₀)
  obtain ⟨K, hk, hK⟩ := listed_iff.mp (hl c hc h hh)
  have hdis := hL.disjoint hK hm hh₀ hh hne
  have haL : a ∈ L := (hL a).mpr ⟨p, hp, ha, rfl⟩
  obtain ⟨A, B, rfl⟩ := List.append_of_mem haL
  have hnd : a ∉ A ++ B := by
    have hnd := (List.nodup_cons.mp hr.ring.nodup).2
    have hnd := List.Nodup.of_map _ hnd
    exact (List.nodup_cons.mp (List.nodup_middle.mp hnd)).1
  have hmap : (A ++ a :: B).map Node.pool = A.map .pool ++ .pool a :: B.map .pool := by
    rw [List.map_append, List.map_cons]
  have hother : ∀ g c', IsHead c' g → g ≠ home s c p → g ≠ h → ∀ {M : List ℕ}, Members s v c' g M →
      ∀ x ∈ g :: M.map .pool, x ∉ home s c p :: (A ++ a :: B).map .pool ∧ x ∉ h :: K.map .pool :=
    fun g c' hg hg₀ hg₁ M hM x hx => ⟨fun hx' => hM.disjoint hL hm hg hh₀ hg₀ hx hx',
      fun hx' => hM.disjoint hK hm hg hh hg₁ hx hx'⟩
  rw [hmap] at hr hdis hother
  obtain ⟨m₁, m₂, e₁, e₂, hr₂, hk₂, hf⟩ := listMove_spec hr hk hdis
  rw [← ha]
  refine ⟨m₂, ?_, fun c' hc' g hg => ?_⟩
  · have hlinks : (s.setPool a m).links = s.links := rfl
    rw [Slab.relink, hlinks, e₁, ok_bind, e₂, ok_bind]
  -- which list is it: the one the pool leaves, the one it enters, or another one
  have hnew : ∀ p' ∈ v.pools c', home (s.setPool a m) c' p' =
      if c' = c ∧ p' = p then h else home s c' p' := fun p' hp' => by
    rw [ha, home_setPool hm hp hp', hhome]
  have hmembers : ∀ M : List ℕ, (∀ b, b ∈ M ↔ ∃ p' ∈ v.pools c', b = poolAt (s.caches c') p' ∧
      (if c' = c ∧ p' = p then h else home s c' p') = g) →
      Members { s.setPool a m with links := m₂ } v c' g M := fun M hM b => by
    rw [hM]
    refine exists_congr fun p' => and_congr_right fun hp' => and_congr_right fun _ => ?_
    rw [← hnew p' hp']
    rfl
  by_cases hg₀ : g = home s c p
  · subst hg₀
    obtain rfl := hg.cache hh₀
    refine listed_iff.mpr ⟨A ++ B, by rwa [List.map_append], hmembers _ fun b => ?_⟩
    constructor
    · intro hb
      have hb' : b ∈ A ++ a :: B := by
        rw [List.mem_append, List.mem_cons]
        rcases List.mem_append.mp hb with hb | hb
        · exact Or.inl hb
        · exact Or.inr (Or.inr hb)
      obtain ⟨p', hp', rfl, he⟩ := (hL b).mp hb'
      refine ⟨p', hp', rfl, ?_⟩
      rw [if_neg, he]
      rintro ⟨-, rfl⟩
      exact hnd (ha ▸ hb)
    · rintro ⟨p', hp', rfl, he⟩
      have hpp : p' ≠ p := fun e => by
        rw [if_pos ⟨rfl, e⟩] at he
        exact hne he.symm
      rw [if_neg fun e => hpp e.2] at he
      have hb := (hL _).mpr ⟨p', hp', rfl, he⟩
      have hba : poolAt (s.caches c') p' ≠ a := fun e => hpp (hm.poolAt_inj hp' hp (e.trans ha)).2
      rw [List.mem_append, List.mem_cons] at hb
      exact List.mem_append.mpr (hb.imp_right fun hb => hb.resolve_left hba)
  by_cases hg₁ : g = h
  · subst hg₁
    obtain rfl := hg.cache hh
    refine listed_iff.mpr ⟨a :: K, hk₂, hmembers _ fun b => ?_⟩
    rw [List.mem_cons]
    constructor
    · rintro (rfl | hb)
      · exact ⟨p, hp, ha, if_pos ⟨rfl, rfl⟩⟩
      · obtain ⟨p', hp', rfl, he⟩ := (hK b).mp hb
        refine ⟨p', hp', rfl, ?_⟩
        split_ifs
        · rfl
        · exact he
    · rintro ⟨p', hp', rfl, he⟩
      by_cases hpp : p' = p
      · exact Or.inl (by rw [hpp, ha])
      · rw [if_neg fun e => hpp e.2] at he
        exact Or.inr ((hK _).mpr ⟨p', hp', rfl, he⟩)
  · obtain ⟨M, hM, hmem⟩ := listed_iff.mp (hl c' hc' g hg)
    refine listed_iff.mpr ⟨M, hM.congr fun x hx => ?_, hmembers _ fun b => ?_⟩
    · obtain ⟨hx₀, hx₁⟩ := hother g c' hg hg₀ hg₁ hmem x hx
      exact hf x hx₀ hx₁
    · rw [hmem]
      refine exists_congr fun p' => and_congr_right fun _ => and_congr_right fun _ => ?_
      by_cases he : c' = c ∧ p' = p
      · rw [if_pos he, he.1, he.2]
        exact ⟨fun e => absurd e.symm hg₀, fun e => absurd e.symm hg₁⟩
      · rw [if_neg he]

/-! ### The lists as callers see them -/

/-- The pool is on the list `h`. -/
def OnList (s : SlabState) (h : Node) (pool : ℕ) : Prop := ∃ L, OnRing s.links h L ∧ .pool pool ∈ L

theorem onList_iff (h : Inv pages s v) (hp : p ∈ v.pools c) (hc' : c' ∈ v.ready) (hg : IsHead c' g) :
    OnList s g (poolAt (s.caches c) p) ↔ home s c p = g := by
  obtain ⟨L, hr, hL⟩ := listed_iff.mp (h.lists c' hc' g hg)
  constructor
  · rintro ⟨L', hr', hmem⟩
    rw [hr'.ring.unique hr.ring] at hmem
    obtain ⟨a, ha, he⟩ := List.mem_map.mp hmem
    obtain rfl := Node.pool.inj he
    obtain ⟨p', hp', hpp, hhome⟩ := (hL _).mp ha
    obtain ⟨rfl, rfl⟩ := h.mem.poolAt_inj hp hp' hpp
    exact hhome
  · rintro rfl
    obtain rfl : c = c' := IsHead.cache (isHead_homeOf c _ _) hg
    exact ⟨_, hr, List.mem_map_of_mem ((hL _).mpr ⟨p, hp, rfl, rfl⟩)⟩

theorem home_free_iff : home s c p = .freePools c ↔ (s.poolOf c p).free = (s.caches c).objCount := by
  rw [home, homeOf]
  split_ifs with h₁ h₂
  · exact iff_of_true rfl h₁
  · exact iff_of_false (by rintro ⟨⟩) h₁
  · exact iff_of_false (by rintro ⟨⟩) h₁

theorem home_busy_iff (hpos : 0 < (s.caches c).objCount) :
    home s c p = .busyPools c ↔ (s.poolOf c p).free = 0 := by
  rw [home, homeOf]
  split_ifs with h₁ h₂
  · exact iff_of_false (by rintro ⟨⟩) (by omega)
  · exact iff_of_true rfl h₂
  · exact iff_of_false (by rintro ⟨⟩) h₂

theorem home_partial_iff : home s c p = .partialPools c ↔
    (s.poolOf c p).free ≠ (s.caches c).objCount ∧ (s.poolOf c p).free ≠ 0 := by
  rw [home, homeOf]
  split_ifs with h₁ h₂
  · exact iff_of_false (by rintro ⟨⟩) fun h => h.1 h₁
  · exact iff_of_false (by rintro ⟨⟩) fun h => h.2 h₂
  · exact iff_of_true rfl ⟨h₁, h₂⟩

/-- What is on the lists of a cache are its pools. -/
theorem onList_pools (h : Inv pages s v) {a : ℕ} :
    (c ∈ v.ready ∧ ∃ g, IsHead c g ∧ OnList s g a) ↔ ∃ p ∈ v.pools c, a = poolAt (s.caches c) p := by
  constructor
  · rintro ⟨hc, g, hg, L, hr, hmem⟩
    obtain ⟨L', hr', hL'⟩ := listed_iff.mp (h.lists c hc g hg)
    rw [hr.ring.unique hr'.ring] at hmem
    obtain ⟨a', ha', he⟩ := List.mem_map.mp hmem
    obtain rfl := Node.pool.inj he
    obtain ⟨p, hp, hpa, -⟩ := (hL' _).mp ha'
    exact ⟨p, hp, hpa⟩
  · rintro ⟨p, hp, rfl⟩
    have hc := h.mem.ready c p hp
    have hg : IsHead c (home s c p) := isHead_homeOf c _ _
    exact ⟨hc, _, hg, (onList_iff h hp hc hg).mpr rfl⟩

end FilesKernel.Slab
