import FilesKernel.Balloc.Bootstrap
import FilesKernel.Buddy.Carve

/-! The zones after the first loop of `page_alloc_setup`.

    Every range of `memory_map` with a whole page in it becomes a zone, and `balloc_alloc` gives the
    memory for its descriptors. The ranges neither overlap nor touch, and what is handed out leaves
    `free_ranges`: so the zones have no page in common, and no memory. -/

namespace FilesKernel.Buddy
open CExec CWord LinkedList Balloc RbTree RedBlack Spans

/-! ### Memory for the zones -/

/-- The zone of a range of `memory_map`, if it has one, in the memory that `balloc_alloc` gives. -/
def zoneFor (c : Image) (bs : BallocState) (r : Span ℕ) : Exec (BallocState × List Zone) :=
  if pageUp r.begin ≥ r.stop / pageSize then .ok (bs, [])
  else do
    let size := wrap (sizeofZone + sizeofPage * (r.stop / pageSize - pageUp r.begin))
    let (bs, addr) ← ballocAlloc c bs size 0 (2 ^ 64 - 1)
    bugOn (addr = 2 ^ 64 - 1) "pa(zone) == UINTPTR_MAX"
    .ok (bs, [⟨addr, pageUp r.begin, r.stop / pageSize⟩])

/-- The zones of some ranges, one after the other -/
def zonesFor (c : Image) : List (Span ℕ) → BallocState → Exec (BallocState × List Zone)
  | [], bs => .ok (bs, [])
  | r :: R, bs => do
    let (bs, zs) ← zoneFor c bs r
    let (bs, zs') ← zonesFor c R bs
    .ok (bs, zs ++ zs')

/-- How an allocation of the bootstrap allocator fails: it needs a node and finds none, or there is
    no range that is large enough. -/
def NoMemory (e : Stop) : Prop := e = noNode ∨ e = .bug "pa(zone) == UINTPTR_MAX"

/-- `z` has the whole pages of `r`. -/
def Zone.Of (z : Zone) (r : Span ℕ) : Prop :=
  z.begin = pageUp r.begin ∧ z.stop = r.stop / pageSize

theorem pageUp_eq {a : ℕ} (ha : a ≤ 2 ^ 63) : pageUp a = (a + (pageSize - 1)) / pageSize := by
  unfold pageUp pageSize
  rw [wrap_of_lt (by omega)]

/-- Between two ranges there is a page of neither. -/
theorem stop_lt_pageUp {r r' : Span ℕ} (h : r.stop < r'.begin) (h' : r'.begin ≤ 2 ^ 63) :
    r.stop / pageSize < pageUp r'.begin := by
  rw [pageUp_eq h']
  unfold pageSize
  omega

/-! ### One more zone -/

/-- No page is in a block. -/
def noBlocks : Blocks := fun _ => .none

theorem not_listed_noBlocks {z : Zone} {o a : ℕ} : ¬ Listed noBlocks z o a := by
  rintro ⟨b, hb, -⟩
  cases hb

theorem Zone.order_ne {z : Zone} {o o' : ℕ} (h : o ≠ o') : z.order o ≠ z.order o' := by
  unfold Zone.order
  omega

theorem pageInitOrders_spec (z : Zone) (m : Heads ℕ) : ∀ n : ℕ, ∃ m', pageInitOrders z n m = .ok m' ∧
    (∀ o < n, OnRing m' (z.order o) []) ∧ ∀ a, (∀ o < n, a ≠ z.order o) → m' a = m a
  | 0 => ⟨m, rfl, fun _ ho => absurd ho (Nat.not_lt_zero _), fun _ _ => rfl⟩
  | n + 1 => by
      obtain ⟨m₁, e₁, hr₁, hf₁⟩ := pageInitOrders_spec z m n
      obtain ⟨m₂, e₂, hr₂, hf₂⟩ := listInit_spec m₁ (z.order_pos n)
      refine ⟨m₂, ?_, fun o ho => ?_, fun a ha => ?_⟩
      · rw [pageInitOrders, e₁, ok_bind, e₂]
      · rcases Nat.lt_succ_iff_lt_or_eq.mp ho with ho | rfl
        · refine (hr₁ o ho).congr fun a ha => ?_
          rw [List.mem_singleton.mp ha]
          exact hf₂ _ (Zone.order_ne (Nat.ne_of_lt ho))
        · exact hr₂
      · rw [hf₂ a (ha n (Nat.lt_succ_self n)), hf₁ a fun o ho => ha o (Nat.lt_succ_of_lt ho)]

theorem ZonesOk.concat {zs : List Zone} {z : Zone} (h : ZonesOk zs) (hne : z.begin < z.stop)
    (hpages : z.stop * pageSize ≤ 2 ^ 64) (hbound : z.bound ≤ 2 ^ 64)
    (hapart : ∀ z' ∈ zs, (z'.stop ≤ z.begin ∨ z.stop ≤ z'.begin) ∧
      (z'.bound ≤ z.addr ∨ z.bound ≤ z'.addr)) : ZonesOk (zs ++ [z]) := by
  have hcases : ∀ z' ∈ zs ++ [z], z' ∈ zs ∨ z' = z := fun z' hz' =>
    (List.mem_append.mp hz').imp_right List.mem_singleton.mp
  refine ⟨fun z' hz' => ?_, fun z' hz' => ?_, fun z' hz' => ?_, fun z₁ h₁ z₂ h₂ hne' => ?_⟩
  · rcases hcases z' hz' with hz' | rfl
    · exact h.nonempty z' hz'
    · exact hne
  · rcases hcases z' hz' with hz' | rfl
    · exact h.pages z' hz'
    · exact hpages
  · rcases hcases z' hz' with hz' | rfl
    · exact h.bound z' hz'
    · exact hbound
  · rcases hcases z₁ h₁ with hz₁ | rfl <;> rcases hcases z₂ h₂ with hz₂ | rfl
    · exact h.apart z₁ hz₁ z₂ hz₂ hne'
    · exact hapart z₁ hz₁
    · exact ⟨(hapart z₂ hz₂).1.symm, (hapart z₂ hz₂).2.symm⟩
    · exact absurd rfl hne'

/-- A zone comes in, with empty lists. -/
theorem Laid.addZone {s : PageState} {z : Zone} (h : Laid s noBlocks) (hzs : ZonesOk (s.zones ++ [z]))
    (hnew : z ∉ s.zones) : ∃ m, pageInitOrders z (maxOrder + 1) s.heads = .ok m ∧
      Laid { s with heads := m, zones := s.zones ++ [z] } noBlocks := by
  obtain ⟨m, e, hr, hf⟩ := pageInitOrders_spec z s.heads (maxOrder + 1)
  refine ⟨m, e, hzs, fun b hb => absurd rfl hb, fun b hb => absurd rfl hb, fun b hb => absurd rfl hb,
    fun z' hz' o ho => ⟨[], ?_, fun a => ?_⟩, fun b hb => ?_, fun b hb => ?_⟩
  · rcases List.mem_append.mp hz' with hold | hlast
    · obtain ⟨L, hL, hmem⟩ := h.lists z' hold o ho
      have hnil : L = [] := List.eq_nil_iff_forall_not_mem.mpr fun a ha =>
        not_listed_noBlocks ((hmem a).mp ha)
      subst hnil
      refine hL.congr fun a ha => ?_
      rw [List.mem_singleton.mp ha]
      refine hf _ fun o' ho' he => hnew ?_
      have hin : z ∈ s.zones ++ [z] := List.mem_append_right _ (List.mem_singleton_self z)
      rw [← (hzs.order_inj hz' hin ho (Nat.le_of_lt_succ ho') he).1]
      exact hold
    · rw [List.mem_singleton.mp hlast]
      exact hr o (Nat.lt_succ_of_le ho)
  · exact ⟨fun ha => absurd ha List.not_mem_nil, fun ha => absurd ha not_listed_noBlocks⟩
  · cases hb
  · cases hb

/-! ### The loop -/

section
variable {c : Image} {s₀ s : PageState} {bs : BallocState} {T : RangeTree → ColorTree ℕ}
  {U : ColorTree ℕ} {f : ℕ → Span ℕ} {D : List (Span ℕ)} {r : Span ℕ}

/-- The state of the loop behind the ranges `D` of `memory_map`: the tree is `U` all the time, with the
    ranges `f`. -/
structure SettingUp (c : Image) (s₀ : PageState) (U : ColorTree ℕ) (f : ℕ → Span ℕ) (D : List (Span ℕ))
    (bs : BallocState) (T : RangeTree → ColorTree ℕ) (s : PageState) : Prop where
  booted : Booted c (2 ^ 63) bs T
  tree : T .memoryMap = U
  ranges : ∀ a ∈ U.inorder, bs.range a = f a
  laid : Laid s noBlocks
  flags : s.flags = s₀.flags
  apart : ∀ z ∈ s.zones, Disjoint (Set.Ico z.addr z.bound) (freeSet bs T)
  zones : ∀ z ∈ s.zones, ∃ r ∈ D, z.Of r
  all : ∀ r ∈ D, pageUp r.begin < r.stop / pageSize → ∃ z ∈ s.zones, z.Of r

theorem SettingUp.start (h : Booted c (2 ^ 63) bs T) :
    SettingUp c s₀ (T .memoryMap) bs.range [] bs T { s₀ with zones := [] } := by
  have hno : ∀ z : Zone, z ∉ ([] : List Zone) := fun _ => List.not_mem_nil
  have hlaid : Laid { s₀ with zones := [] } noBlocks :=
    ⟨⟨fun z hz => absurd hz (hno z), fun z hz => absurd hz (hno z), fun z hz => absurd hz (hno z),
        fun z hz => absurd hz (hno z)⟩, fun b hb => absurd rfl hb, fun b hb => absurd rfl hb,
      fun b hb => absurd rfl hb, fun z hz => absurd hz (hno z), nofun, nofun⟩
  exact ⟨h, rfl, fun _ _ => rfl, hlaid, rfl, fun z hz => absurd hz (hno z),
    fun z hz => absurd hz (hno z), fun r hr => absurd hr List.not_mem_nil⟩

/-- Pieces of memory with nothing in common lie one behind the other. -/
theorem bound_le_of_disjoint {a b a' b' : ℕ} (h : Disjoint (Set.Ico a b) (Set.Ico a' b'))
    (hab : a < b) (hab' : a' < b') : b ≤ a' ∨ b' ≤ a := by
  by_contra hno
  rw [not_or, Nat.not_le, Nat.not_le] at hno
  have hin : max a a' ∈ Set.Ico a b := Set.mem_Ico.mpr (by omega)
  exact Set.disjoint_left.mp h hin (Set.mem_Ico.mpr (by omega))

/-- A range with no whole page is passed over. -/
theorem SettingUp.skip (h : SettingUp c s₀ U f D bs T s) (hr : r.stop / pageSize ≤ pageUp r.begin) :
    SettingUp c s₀ U f (D ++ [r]) bs T s := by
  refine ⟨h.booted, h.tree, h.ranges, h.laid, h.flags, h.apart, fun z hz => ?_, fun r' hr' hlt => ?_⟩
  · obtain ⟨r', hr', hof⟩ := h.zones z hz
    exact ⟨r', List.mem_append_left _ hr', hof⟩
  · rcases List.mem_append.mp hr' with hr' | hr'
    · exact h.all r' hr' hlt
    · rw [List.mem_singleton.mp hr'] at hlt
      exact absurd hlt (Nat.not_lt_of_le hr)

/-- The zone of a range comes in. -/
theorem SettingUp.add {size addr : ℕ} {bs' : BallocState} {L' : List ℕ} {T' : ColorTree ℕ}
    (h : SettingUp c s₀ U f D bs T s) (hD : ∀ d ∈ D, d.stop < r.begin) (hle : r.begin ≤ r.stop)
    (hstop : r.stop ≤ 2 ^ 63) (hr : pageUp r.begin < r.stop / pageSize)
    (hsize : size = sizeofZone + sizeofPage * (r.stop / pageSize - pageUp r.begin))
    (ha : Allocated c bs T size bs' addr L' T') : ∃ m,
      pageInitOrders ⟨addr, pageUp r.begin, r.stop / pageSize⟩ (maxOrder + 1) s.heads = .ok m ∧
      SettingUp c s₀ U f (D ++ [r]) bs' (Function.update T .freeRanges T')
        { s with heads := m, zones := s.zones ++ [⟨addr, pageUp r.begin, r.stop / pageSize⟩] } := by
  obtain ⟨z, hz⟩ : ∃ z : Zone, z = ⟨addr, pageUp r.begin, r.stop / pageSize⟩ := ⟨_, rfl⟩
  have hbegin : z.begin = pageUp r.begin := by rw [hz]
  have hend : z.stop = r.stop / pageSize := by rw [hz]
  have haddr : z.addr = addr := by rw [hz]
  have hbound : z.bound = addr + size := by rw [hsize, Zone.bound, Zone.len, haddr, hbegin, hend]
  have hpos : 0 < size := by
    rw [hsize]
    unfold sizeofZone
    omega
  obtain ⟨g, hg, -, hgs⟩ := ha.inside
  have hg63 := h.booted.below .freeRanges g hg
  have hbefore : ∀ z' ∈ s.zones, z'.stop < z.begin := fun z' hz' => by
    obtain ⟨d, hd, -, hd'⟩ := h.zones z' hz'
    rw [hd', hbegin]
    exact stop_lt_pageUp (hD d hd) (hle.trans hstop)
  have hok : ZonesOk (s.zones ++ [z]) := by
    refine h.laid.zones.concat (by omega) ?_ (by omega) fun z' hz' => ⟨Or.inl (hbefore z' hz').le, ?_⟩
    · rw [hend]
      have := Nat.div_mul_le_self r.stop pageSize
      omega
    · rw [haddr, hbound]
      have hb' : z'.addr < z'.bound := by
        unfold Zone.bound sizeofZone
        omega
      exact bound_le_of_disjoint ((h.apart z' hz').mono_right ha.subset) hb' (by omega)
  have hnew : z ∉ s.zones := fun hmem => by
    have := hbefore z hmem
    omega
  obtain ⟨m, em, hlaid⟩ := h.laid.addZone hok hnew
  rw [hz] at em
  refine ⟨m, em, h.booted.alloc ha, ?_, fun a hmem => ?_, ?_, h.flags, fun z' hz' => ?_,
    fun z' hz' => ?_, fun r' hr' hlt => ?_⟩
  · rw [update_freeRanges, h.tree]
  · rw [ha.others .memoryMap (by rintro ⟨⟩) a (by rwa [h.tree]), h.ranges a hmem]
  · rw [← hz]
    exact hlaid
  · rw [ha.freeSet_eq]
    dsimp only at hz'
    rw [← hz] at hz'
    rcases List.mem_append.mp hz' with hz' | hz'
    · exact (h.apart z' hz').mono_right Set.sdiff_subset
    · rw [List.mem_singleton.mp hz', haddr, hbound]
      exact Set.disjoint_left.mpr fun x hx hx' => hx'.2 hx
  · dsimp only at hz'
    rcases List.mem_append.mp hz' with hz' | hz'
    · obtain ⟨d, hd, hof⟩ := h.zones z' hz'
      exact ⟨d, List.mem_append_left _ hd, hof⟩
    · rw [List.mem_singleton.mp hz']
      exact ⟨r, List.mem_append_right _ (List.mem_singleton_self r), rfl, rfl⟩
  · rcases List.mem_append.mp hr' with hr' | hr'
    · obtain ⟨z', hz', hof⟩ := h.all r' hr' hlt
      exact ⟨z', List.mem_append_left _ hz', hof⟩
    · rw [List.mem_singleton.mp hr']
      exact ⟨_, List.mem_append_right _ (List.mem_singleton_self _), rfl, rfl⟩

/-- One call of `__page_alloc_zone_setup`: it fails where the allocation fails. -/
theorem pageAllocZoneSetup_spec (h : SettingUp c s₀ U f D bs T s) (hD : ∀ d ∈ D, d.stop < r.begin)
    (hle : r.begin ≤ r.stop) (hstop : r.stop ≤ 2 ^ 63) :
    (∃ e, NoMemory e ∧ zoneFor c bs r = .error e ∧
      pageAllocZoneSetup s c bs r.begin r.stop = .error e) ∨
    ∃ bs' T' s' zs, zoneFor c bs r = .ok (bs', zs) ∧
      pageAllocZoneSetup s c bs r.begin r.stop = .ok (bs', s') ∧ s'.zones = s.zones ++ zs ∧
      SettingUp c s₀ U f (D ++ [r]) bs' T' s' := by
  rw [zoneFor, pageAllocZoneSetup]
  dsimp only
  rcases Nat.lt_or_ge (pageUp r.begin) (r.stop / pageSize) with hr | hr
  · obtain ⟨size, hsize⟩ : ∃ size,
        size = sizeofZone + sizeofPage * (r.stop / pageSize - pageUp r.begin) := ⟨_, rfl⟩
    have hlarge : 32 < size ∧ size ≤ 2 ^ 62 := by
      rw [hsize]
      unfold sizeofZone sizeofPage pageSize
      omega
    have hwrap : wrap size = size := wrap_of_lt (by omega)
    obtain ⟨⟨L, hs⟩, hv⟩ := h.booted.trees
    rw [if_neg (Nat.not_le_of_lt hr), if_neg (Nat.not_le_of_lt hr), ← hsize, hwrap]
    rcases ballocAlloc_returns hs (hv _) (h.booted.below _) hlarge.1 hlarge.2 with e | e |
      ⟨bs', addr, L', T', e, ha⟩
    · exact Or.inl ⟨noNode, Or.inl rfl, by rw [e, error_bind], by rw [e, error_bind]⟩
    · refine Or.inl ⟨_, Or.inr rfl, ?_, ?_⟩
      · rw [e, ok_bind, bugOn_true rfl, error_bind]
      · rw [e, ok_bind, bugOn_true rfl, error_bind]
    · obtain ⟨g, hg, -, hgs⟩ := ha.inside
      have hg63 := h.booted.below .freeRanges g hg
      obtain ⟨m, em, hadd⟩ := h.add hD hle hstop hr hsize ha
      have hne : ¬ addr = 2 ^ 64 - 1 := by omega
      refine Or.inr ⟨bs', _, _, _, ?_, ?_, rfl, hadd⟩
      · rw [e, ok_bind, bugOn_false hne, ok_bind]
      · rw [e, ok_bind, bugOn_false hne, ok_bind, em, ok_bind]
  · refine Or.inr ⟨bs, T, s, [], ?_, ?_, ?_, h.skip hr⟩
    · rw [if_pos hr]
    · rw [if_pos hr]
    · rw [List.append_nil]

/-- The loop over the nodes `Y` of `memory_map`. -/
theorem pageSetupLoop_spec (hv : Valid (U.inorder.map f)) (hM : Below (2 ^ 63) (U.inorder.map f)) :
    ∀ {fuel : ℕ} {X Y : List ℕ} {bs : BallocState} {T : RangeTree → ColorTree ℕ} {s : PageState},
    U.inorder = X ++ Y → Y.length < fuel → SettingUp c s₀ U f (X.map f) bs T s →
    (∃ e, NoMemory e ∧ zonesFor c (Y.map f) bs = .error e ∧
      loop (pageSetupBody c) fuel ((bs, s), Y.headD 0) = .error e) ∨
    ∃ bs' T' s' zs, zonesFor c (Y.map f) bs = .ok (bs', zs) ∧
      loop (pageSetupBody c) fuel ((bs, s), Y.headD 0) = .ok (bs', s') ∧ s'.zones = s.zones ++ zs ∧
      SettingUp c s₀ U f (U.inorder.map f) bs' T' s'
  | 0, _, _, _, _, _, _, hfuel, _ => absurd hfuel (Nat.not_lt_zero _)
  | fuel + 1, X, [], bs, T, s, hU, _, h => by
      refine Or.inr ⟨bs, T, s, [], rfl, ?_, (List.append_nil _).symm, ?_⟩
      · rw [loop, List.headD_nil, pageSetupBody, if_pos rfl, ok_bind]
      · rw [List.append_nil] at hU
        rw [hU]
        exact h
  | fuel + 1, X, a :: Y, bs, T, s, hU, hfuel, h => by
      have hmem : a ∈ U.inorder := by
        rw [hU]
        exact List.mem_append_right _ List.mem_cons_self
      obtain ⟨⟨L, hs⟩, -⟩ := h.booted.trees
      have ha0 : a ≠ 0 := ((hs.trees .memoryMap).isNode a (by rwa [h.tree])).ne
      have hcut := hv
      rw [hU, List.map_append, List.map_cons] at hcut
      have hD : ∀ d ∈ X.map f, d.stop < (f a).begin := fun d hd =>
        (valid_append.mp hcut).2.2 d hd _ List.mem_cons_self
      have hfa : f a ∈ U.inorder.map f := List.mem_map_of_mem hmem
      have hstep := pageAllocZoneSetup_spec h hD (hv.le _ hfa) (hM _ hfa)
      have hbody : pageSetupBody c ((bs, s), a) = (do
          let p ← pageAllocZoneSetup s c bs (f a).begin (f a).stop
          let next ← rbNext (p.1.tree .memoryMap) a
          .ok (.inl (p, next))) := by
        rw [pageSetupBody, if_neg ha0, h.ranges a hmem]
      rw [loop, List.headD_cons, hbody, List.map_cons, zonesFor]
      rcases hstep with ⟨e, he, ez, ep⟩ | ⟨bs', T', s', zs, ez, ep, hzs, h'⟩
      · exact Or.inl ⟨e, he, by rw [ez, error_bind], by rw [ep, error_bind, error_bind]⟩
      · obtain ⟨⟨L', hs'⟩, -⟩ := h'.booted.trees
        have hnext : rbNext (bs'.tree .memoryMap) a = .ok (Y.headD 0) :=
          rbNext_at (hs'.trees .memoryMap) (by rw [h'.tree, hU])
        rw [ez, ep]
        simp only [ok_bind, hnext]
        have hX : (X ++ [a]).map f = X.map f ++ [f a] := List.map_append
        have hU' : U.inorder = (X ++ [a]) ++ Y := by
          rw [hU, List.append_assoc, List.singleton_append]
        rcases pageSetupLoop_spec hv hM hU' (Nat.lt_of_succ_lt_succ hfuel) (hX ▸ h') with
          ⟨e, he, ez', el⟩ | ⟨bs'', T'', s'', zs', ez', el, hzs', h''⟩
        · exact Or.inl ⟨e, he, by rw [ez', error_bind], el⟩
        · refine Or.inr ⟨bs'', T'', s'', zs ++ zs', by rw [ez', ok_bind], el, ?_, h''⟩
          rw [hzs', hzs, List.append_assoc]

end

end FilesKernel.Buddy
