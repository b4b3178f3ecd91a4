import FilesKernel.Kmap.Moves

/-! Freeing and allocating ranges.

    Between calls nothing is held and no two free ranges are neighbours. Freeing takes free
    neighbours off their lists and puts the joined range on its own; allocating takes a free range
    off its list, makes its front live and frees the rest. -/

namespace FilesKernel.Kmap
open CExec LinkedList LinkRing Tiling

variable {s : KmapState} {l A B : List Range} {R : ℕ → List Ref} {x : Range} {p o : ℕ}

/-- Not both free. -/
def NoFreePair (x y : Range) : Prop := ¬ (x.kind = .free ∧ y.kind = .free)

structure Settled (l : List Range) : Prop where
  kinds : ∀ z ∈ l, z.kind ≠ .held
  apart : l.IsChain NoFreePair

/-- Two held ranges next to each other can be joined. -/
theorem Laid.join {y : Range} (h : Laid s (A ++ x :: y :: B)) (hx : x.kind = .held)
    (hy : y.kind = .held) : Laid s (A ++ ⟨x.start, x.len + y.len, .held⟩ :: B) := by
  refine Laid.regroup (X := [x, y]) (Y := [⟨x.start, x.len + y.len, .held⟩]) h ?_ ?_ ?_
  · rintro a b ⟨rfl, hxl, hys, hyl, rfl⟩
    refine ⟨rfl, Nat.add_pos_left hxl _, ?_⟩
    rw [Tile.stop] at hys
    simp only [Tiles, Tile.stop]
    omega
  · intro z hz
    simp only [List.mem_cons, List.not_mem_nil, or_false] at hz
    rcases hz with rfl | rfl
    · exact hx
    · exact hy
  · intro z hz
    rw [List.mem_singleton.mp hz]

/-- A held range can be cut in two. -/
theorem Laid.cut (h : Laid s (A ++ x :: B)) (hx : x.kind = .held) (hp : 0 < p) (hlt : p < x.len) :
    Laid s (A ++ ⟨x.start, p, .held⟩ :: ⟨x.start + p, x.len - p, .held⟩ :: B) := by
  refine Laid.regroup (X := [x]) (Y := [⟨x.start, p, .held⟩, ⟨x.start + p, x.len - p, .held⟩]) h
    ?_ ?_ ?_
  · rintro a b ⟨rfl, -, rfl⟩
    refine ⟨rfl, hp, rfl, Nat.sub_pos_of_lt hlt, ?_⟩
    simp only [Tiles, Tile.stop]
    omega
  · intro z hz
    rw [List.mem_singleton.mp hz, hx]
  · intro z hz
    simp only [List.mem_cons, List.not_mem_nil, or_false] at hz
    rcases hz with rfl | rfl <;> rfl

/-! ### Freeing -/

theorem kmapJoinPrev_spec (h : Laid s (A ++ x :: B)) (hx : x.kind = .held)
    (hA : ∀ z ∈ A, z.kind ≠ .held) : ∃ s' A' x', kmapJoinPrev s x.start x.len =
      .ok (s', x'.start, x'.len) ∧ Laid s' (A' ++ x' :: B) ∧ x'.kind = .held ∧
      ((A' = A ∧ ∀ z ∈ A.getLast?, z.kind ≠ .free) ∨ ∃ q, A = A' ++ [q] ∧ q.kind = .free) := by
  obtain ⟨R, hl⟩ := id h
  rcases List.eq_nil_or_concat A with rfl | ⟨A, q, rfl⟩
  · have hstart : x.start = 0 := hl.tiles.1
    refine ⟨s, [], x, ?_, h, hx, Or.inl ⟨rfl, fun z hz => by cases hz⟩⟩
    rw [kmapJoinPrev, hstart, if_neg (Nat.lt_irrefl 0)]
  · rw [List.concat_eq_append] at *
    have hq : q ∈ A ++ [q] ++ x :: B := by simp
    have hqk : q.kind ≠ .held := hA q (by simp)
    have hstop : q.stop = x.start := by
      obtain ⟨m, -, -, -, hm⟩ := tiles_append.mp (tiles_middle.mp hl.tiles).1
      exact hm
    have hqlen := (hl.mem hq).1
    have hback : s.getPages (x.start - 1) = .ok q.len := by
      have hxlt := hl.start_lt (x := x) (by simp)
      rw [KmapState.getPages, if_pos (by omega), ← hstop, (hl.tags q hq hqk).2]
    have hle : q.len ≤ x.start := by rw [← hstop, Tile.stop]; omega
    have hprev : x.start - q.len = q.start := by rw [← hstop, Tile.stop]; omega
    have hpos : x.start > 0 := by omega
    rw [kmapJoinPrev, if_pos hpos, hback, ok_bind, if_pos hle]
    simp only [hprev, hl.listEmpty hq hqk, ok_bind]
    cases hkind : q.kind with
    | held => exact absurd hkind hqk
    | live =>
      refine ⟨s, A ++ [q], x, rfl, h, hx, Or.inl ⟨rfl, fun z hz => ?_⟩⟩
      rw [List.getLast?_concat] at hz
      obtain rfl := Option.some.inj hz
      rw [hkind]; decide
    | free =>
      have h' : Laid s (A ++ q :: (x :: B)) := by rwa [List.append_assoc] at h
      obtain ⟨m, e, h₁⟩ := h'.takeOff hkind
      have hmore : KmapState.getPages { s with lists := m } q.start = .ok q.len :=
        hl.getPages hq hqk
      refine ⟨_, A, ⟨q.start, q.len + x.len, .held⟩, ?_, h₁.join rfl hx, rfl,
        Or.inr ⟨q, rfl, hkind⟩⟩
      simp only [reduceCtorEq, decide_false, Bool.not_false, if_pos, e, ok_bind, hmore,
        Nat.add_comm x.len]

theorem kmapJoinNext_spec (h : Laid s (A ++ x :: B)) (hx : x.kind = .held)
    (hB : ∀ z ∈ B, z.kind ≠ .held) : ∃ s' B' n, kmapJoinNext s x.start x.len = .ok (s', n) ∧
      Laid s' (A ++ ⟨x.start, n, .held⟩ :: B') ∧
      ((B' = B ∧ ∀ z ∈ B.head?, z.kind ≠ .free) ∨ ∃ q, B = q :: B' ∧ q.kind = .free) := by
  obtain ⟨R, hl⟩ := id h
  have hxk : (⟨x.start, x.len, .held⟩ : Range) = x := by rw [← hx]
  cases B with
  | nil =>
    have hstop : x.stop = kmapPages := (tiles_middle.mp hl.tiles).2.2
    refine ⟨s, [], x.len, ?_, by rwa [hxk], Or.inl ⟨rfl, fun z hz => by cases hz⟩⟩
    rw [kmapJoinNext, if_neg]
    rw [← Tile.stop, hstop]
    exact Nat.lt_irrefl _
  | cons q B =>
    have hq : q ∈ A ++ x :: q :: B := by simp
    have hqk : q.kind ≠ .held := hB q List.mem_cons_self
    have hstart : q.start = x.start + x.len := (tiles_middle.mp hl.tiles).2.2.1
    have hlt : x.start + x.len < kmapPages := by rw [← hstart]; exact hl.start_lt hq
    rw [kmapJoinNext, if_pos hlt]
    simp only [← hstart, hl.listEmpty hq hqk, ok_bind]
    cases hkind : q.kind with
    | held => exact absurd hkind hqk
    | live =>
      refine ⟨s, q :: B, x.len, rfl, by rwa [hxk], Or.inl ⟨rfl, fun z hz => ?_⟩⟩
      obtain rfl := Option.some.inj hz
      rw [hkind]; decide
    | free =>
      have h' : Laid s ((A ++ [x]) ++ q :: B) := by rwa [List.append_assoc]
      obtain ⟨m, e, h₁⟩ := h'.takeOff hkind
      rw [List.append_assoc] at h₁
      have hmore : KmapState.getPages { s with lists := m } q.start = .ok q.len :=
        hl.getPages hq hqk
      refine ⟨_, B, x.len + q.len, ?_, h₁.join hx rfl, Or.inr ⟨q, rfl, hkind⟩⟩
      simp only [reduceCtorEq, decide_false, Bool.not_false, if_pos, e, ok_bind, hmore]

/-- `kmap_free_range` of a range in hand: it becomes free, joined with its free neighbours. -/
theorem kmapFreeRange_spec (h : Laid s (A ++ x :: B)) (hx : x.kind = .held) (hA : Settled A)
    (hB : Settled B) : ∃ s' l', kmapFreeRange s x.start x.len = .ok s' ∧ Laid s' l' ∧ Settled l' ∧
      ∀ z : Range, z.kind = .live → (z ∈ l' ↔ z ∈ A ++ B) := by
  obtain ⟨s₁, A', x', e₁, h₁, hx', hA'⟩ := kmapJoinPrev_spec h hx hA.kinds
  obtain ⟨s₂, B', n, e₂, h₂, hB'⟩ := kmapJoinNext_spec h₁ hx' hB.kinds
  obtain ⟨s₃, m, e₃, e₄, h₄⟩ := h₂.putFree rfl
  have hn : 0 < n := by
    obtain ⟨R, h₂⟩ := h₂
    exact (h₂.mem (x := ⟨x'.start, n, .held⟩) (by simp)).1
  have hlast : Settled A' ∧ (∀ z ∈ A'.getLast?, z.kind ≠ .free) ∧
      ∀ z : Range, z.kind = .live → (z ∈ A' ↔ z ∈ A) := by
    rcases hA' with ⟨rfl, hlast⟩ | ⟨q, rfl, hq⟩
    · exact ⟨hA, hlast, fun _ _ => Iff.rfl⟩
    · obtain ⟨hc, -, hcq⟩ := List.isChain_append.mp hA.apart
      refine ⟨⟨fun z hz => hA.kinds z (List.mem_append_left _ hz), hc⟩, fun z hz hf => ?_,
        fun z hz => ?_⟩
      · exact hcq z hz q rfl ⟨hf, hq⟩
      · have hzq : z ≠ q := fun e => by rw [e, hq] at hz; cases hz
        simp [hzq]
  have hfirst : Settled B' ∧ (∀ z ∈ B'.head?, z.kind ≠ .free) ∧
      ∀ z : Range, z.kind = .live → (z ∈ B' ↔ z ∈ B) := by
    rcases hB' with ⟨rfl, hfirst⟩ | ⟨q, rfl, hq⟩
    · exact ⟨hB, hfirst, fun _ _ => Iff.rfl⟩
    · obtain ⟨hcq, hc⟩ := List.isChain_cons.mp hB.apart
      refine ⟨⟨fun z hz => hB.kinds z (List.mem_cons_of_mem q hz), hc⟩, fun z hz hf => ?_,
        fun z hz => ?_⟩
      · exact hcq z hz ⟨hq, hf⟩
      · have hzq : z ≠ q := fun e => by rw [e, hq] at hz; cases hz
        simp [hzq]
  refine ⟨_, _, ?_, h₄, ⟨fun z hz => ?_, ?_⟩, fun z hz => ?_⟩
  · simp only [kmapFreeRange, e₁, ok_bind, e₂, e₃, kmapHeadBelow_order hn, e₄]
  · rcases mem_middle.mp hz with rfl | hz
    · intro e; cases e
    · rcases List.mem_append.mp hz with hz | hz
      · exact hlast.1.kinds z hz
      · exact hfirst.1.kinds z hz
  · refine List.isChain_append.mpr ⟨hlast.1.apart, List.isChain_cons.mpr ⟨fun z hz hp => ?_,
      hfirst.1.apart⟩, fun z hz y _ hp => hlast.2.1 z hz hp.1⟩
    exact hfirst.2.1 z hz hp.2
  · rw [mem_middle, List.mem_append, List.mem_append, hlast.2.2 z hz, hfirst.2.2 z hz]
    have hne : z ≠ as .free ⟨x'.start, n, .held⟩ := fun e => by rw [e] at hz; cases hz
    simp [hne]

/-! ### Searching -/

/-- What a search may return: a free range that is long enough. -/
def Found (l : List Range) (p i : ℕ) : Prop := ∃ z ∈ l, z.kind = .free ∧ z.start = i ∧ p ≤ z.len

/-- No free range with a size for list `o` is long enough. -/
def Lacking (l : List Range) (p o : ℕ) : Prop :=
  ∀ z ∈ l, z.kind = .free → bucket z.len = o → z.len < p

theorem Layout.ring_length (h : Layout s l R) (ho : o < kmapOrders) :
    (R o).length < maxSteps := by
  have hsub : R o ⊆ (List.range kmapPages).map Ref.range := fun a ha => by
    obtain ⟨x, hx, -, -, rfl⟩ := (h.free o ho a).mp ha
    exact List.mem_map_of_mem (List.mem_range.mpr (h.start_lt hx))
  have hlen := ((List.nodup_cons.mp (h.rings o ho).ring.nodup).2.subperm hsub).length_le
  rw [List.length_map, List.length_range] at hlen
  have hmax : kmapPages < maxSteps := by unfold maxSteps; decide
  omega

theorem kmapFindFree_spec (h : Layout s l R) (ho : o < kmapOrders) (p : ℕ) : ∃ r,
    kmapFindFree s (.head o) p = .ok r ∧ (∀ i, r = some i → Found l p i) ∧
      (r = none → Lacking l p o) := by
  have hring := h.rings o ho
  have hhead : (Ref.head o) ≠ 0 := by intro e; cases e
  let I (n : ℕ) (ptr : Ref) : Prop := ∃ P Q, n = Q.length ∧ R o = P ++ Q ∧ ptr = Q.headD (.head o) ∧
    ∀ z ∈ l, z.kind = .free → Ref.range z.start ∈ P → z.len < p
  have hbody : ∀ n ptr, I n ptr →
      (∃ ptr', kmapFindBody s (.head o) p ptr = .ok (.inl ptr') ∧ ∃ n' < n, I n' ptr') ∨
        ∃ r, kmapFindBody s (.head o) p ptr = .ok (.inr r) ∧ ((∀ i, r = some i → Found l p i) ∧
          (r = none → Lacking l p o)) := by
    rintro n ptr ⟨P, Q, rfl, hPQ, rfl, hP⟩
    cases Q with
    | nil =>
      refine Or.inr ⟨none, if_pos rfl, fun i hi => (by cases hi), fun _ z hz hk hb => ?_⟩
      refine hP z hz hk ?_
      rw [List.append_nil] at hPQ
      rw [← hPQ, h.free o ho]
      exact ⟨z, hz, hk, hb, rfl⟩
    | cons a Q =>
      have ha : a ∈ R o := by rw [hPQ]; simp
      obtain ⟨z, hz, hk, hb, rfl⟩ := (h.free o ho a).mp ha
      have hzk : z.kind ≠ .held := by rw [hk]; decide
      rw [List.headD_cons, kmapFindBody, if_neg (by intro e; cases e), h.getPages hz hzk, ok_bind]
      by_cases hp : z.len ≥ p
      · refine Or.inr ⟨some z.start, if_pos hp, fun i hi => ?_, fun hn => by cases hn⟩
        exact ⟨z, hz, hk, Option.some.inj hi, hp⟩
      · refine Or.inl ⟨Q.headD (.head o), ?_, Q.length, Nat.lt_succ_self _, P ++ [.range z.start], Q,
          rfl, by rw [hPQ]; simp, rfl, fun y hy hyk hmem => ?_⟩
        · have hring' := hring.ring
          rw [hPQ] at hring'
          rw [if_neg hp, load_eq (range_ne_zero _), ok_bind, ← hring'.member.2]
        · rcases List.mem_append.mp hmem with hmem | hmem
          · exact hP y hy hyk hmem
          · have e := Ref.range.inj (List.mem_singleton.mp hmem)
            rw [h.tiles.eq_of_start hy hz e]
            exact Nat.lt_of_not_le hp
  have hstart : I (R o).length (s.lists (.head o)).next :=
    ⟨[], R o, rfl, rfl, hring.ring.next_head, fun _ _ _ hm => by cases hm⟩
  obtain ⟨r, e, hr⟩ := loop_spec hbody (h.ring_length ho) hstart
  refine ⟨r, ?_, hr⟩
  rw [kmapFindFree, load_eq hhead, ok_bind, e]

theorem kmapFindFrom_spec (h : Layout s l R) (p : ℕ) : ∀ {n : ℕ}, n ≤ kmapOrders → ∃ r,
    kmapFindFrom s p n = .ok r ∧ (∀ i, r = some i → Found l p i) ∧
      (r = none → ∀ o, kmapOrders - n ≤ o → o < kmapOrders → Lacking l p o)
  | 0, _ => ⟨none, rfl, fun i hi => (by cases hi), fun _ o h₁ h₂ => by omega⟩
  | n + 1, hn => by
      obtain ⟨r, e, hsome, hnone⟩ := kmapFindFree_spec h (o := kmapOrders - (n + 1))
        (by rw [kmapOrders] at *; omega) p
      cases r with
      | some i =>
        refine ⟨some i, ?_, hsome, fun hr => by cases hr⟩
        rw [kmapFindFrom, e, ok_bind]
        rfl
      | none =>
        obtain ⟨r, e', hsome', hnone'⟩ := kmapFindFrom_spec h p (n := n) (by omega)
        refine ⟨r, ?_, hsome', fun hr o h₁ h₂ => ?_⟩
        · rw [kmapFindFrom, e, ok_bind]
          exact e'
        · rcases Nat.eq_or_lt_of_le h₁ with rfl | h₁
          · exact hnone rfl
          · exact hnone' hr o (by omega) h₂

/-- The choice is a free range that is long enough; for fewer than `2 ^ 16` pages there is a choice
    when there is such a range. -/
theorem kmapChoose_spec (h : Layout s l R) (hp : 0 < p) : ∃ r, kmapChoose s p = .ok r ∧
    (∀ i, r = some i → Found l p i) ∧
    (r = none → p < 2 ^ 16 → ∀ z ∈ l, z.kind = .free → z.len < p) := by
  obtain ⟨r, e, hsome, hnone⟩ := kmapFindFrom_spec h p (n := kmapOrders - kmapOrder p) (by omega)
  have hle := (kmapOrderFrom_spec (n := kmapOrders) (o := 0) p).2.1
  rw [← kmapOrder] at hle
  rw [kmapChoose, e, ok_bind]
  split
  · rename_i hsmall
    have hrest : ∀ o, kmapOrder p ≤ o → o < kmapOrders → Lacking l p o := fun o h₁ h₂ =>
      hnone (Option.isNone_iff_eq_none.mp hsmall.1) o (by omega) h₂
    have hsearched : ∀ z ∈ l, p < 2 ^ 16 → ¬ z.len < p → kmapOrder p ≤ bucket z.len ∨
        bucket z.len + 1 = kmapOrder p ∧ p < 2 ^ kmapOrder p := fun z _ hlt hz =>
      bucket_searched hp hlt (Nat.le_of_not_lt hz)
    generalize kmapOrder p = k at hsmall hle hrest hsearched
    cases k with
    | zero =>
      have := hsmall.2
      rw [Nat.pow_zero] at this; omega
    | succ k =>
      have hk : k < kmapOrders := by omega
      obtain ⟨r', e', hsome', hnone'⟩ := kmapFindFree_spec h hk p
      refine ⟨r', ?_, hsome', fun hr hlt z hz hfree => ?_⟩
      · rw [kmapHeadBelow, if_pos hk, ok_bind, e']
      · by_contra hlen
        rcases hsearched z hz hlt hlen with hb | ⟨hb, -⟩
        · exact hlen (hrest _ hb (bucket_lt z.len) z hz hfree rfl)
        · exact hlen (hnone' hr z hz hfree (Nat.succ.inj hb))
  · rename_i hno
    refine ⟨r, rfl, hsome, fun hr hlt z hz hfree => ?_⟩
    by_contra hlen
    rcases bucket_searched hp hlt (Nat.le_of_not_lt hlen) with hb | ⟨-, hexact⟩
    · exact hlen (hnone hr _ (by omega) (bucket_lt z.len) z hz hfree rfl)
    · exact hno ⟨by rw [hr]; rfl, hexact⟩

/-- From `2 ^ 16` pages on nothing is searched. -/
theorem kmapChoose_large (s : KmapState) (hp : 2 ^ 16 ≤ p) : kmapChoose s p = .ok none := by
  rw [kmapChoose, kmapOrder_large hp, Nat.sub_self, kmapFindFrom, ok_bind]
  exact if_neg fun h => Nat.not_lt.mpr hp h.2

/-! ### Allocating -/

theorem Settled.middle (hl : Settled (A ++ x :: B)) : Settled A ∧ Settled B := by
  obtain ⟨hA, hB, -⟩ := List.isChain_append.mp hl.apart
  exact ⟨⟨fun z hz => hl.kinds z (by simp [hz]), hA⟩,
    ⟨fun z hz => hl.kinds z (by simp [hz]), (List.isChain_cons.mp hB).2⟩⟩

/-- A live range between settled ones. -/
theorem Settled.live_middle (hA : Settled A) (hB : Settled B) (hx : x.kind = .live) :
    Settled (A ++ x :: B) := by
  refine ⟨fun z hz => ?_, List.isChain_append.mpr ⟨hA.apart, List.isChain_cons.mpr
    ⟨fun z _ hp => ?_, hB.apart⟩, fun y _ z hz hp => ?_⟩⟩
  · rcases List.mem_append.mp hz with hz | hz
    · exact hA.kinds z hz
    · rcases List.mem_cons.mp hz with rfl | hz
      · rw [hx]; decide
      · exact hB.kinds z hz
  · rw [hx] at hp; cases hp.1
  · obtain rfl := Option.some.inj hz
    rw [hx] at hp; cases hp.2

theorem kmapAllocRange_none (h : kmapChoose s p = .ok none) :
    kmapAllocRange s p = .ok (s, none) := by
  rw [kmapAllocRange, h]
  rfl

/-- `kmap_alloc_range` fails and changes nothing, or makes a range of the wanted length live. -/
theorem kmapAllocRange_spec (h : Laid s l) (hl : Settled l) (hp : 0 < p) :
    (kmapAllocRange s p = .ok (s, none) ∧
      (p < 2 ^ 16 → ∀ z ∈ l, z.kind = .free → z.len < p)) ∨
    ∃ s' i l', kmapAllocRange s p = .ok (s', some i) ∧ Laid s' l' ∧ Settled l' ∧
      (∀ z : Range, z.kind = .live → (z ∈ l' ↔ z = ⟨i, p, .live⟩ ∨ z ∈ l)) ∧
      (∀ z ∈ l, z.kind = .live → z.start ≠ i) ∧ Found l p i := by
  obtain ⟨R, hR⟩ := id h
  obtain ⟨r, e, hsome, hnone⟩ := kmapChoose_spec hR hp
  cases r with
  | none => exact Or.inl ⟨kmapAllocRange_none e, hnone rfl⟩
  | some i =>
    right
    have hfound := hsome i rfl
    obtain ⟨x, hx, hk, rfl, hlen⟩ := id hfound
    have hxk : x.kind ≠ .held := by rw [hk]; decide
    have hget := hR.getPages hx hxk
    have hfresh : ∀ z ∈ l, z.kind = .live → z.start ≠ x.start := fun z hz hzk e => by
      rw [hR.tiles.eq_of_start hz hx e, hk] at hzk; cases hzk
    obtain ⟨A, B, rfl⟩ := List.append_of_mem hx
    obtain ⟨hA, hB⟩ := hl.middle
    obtain ⟨m, e₁, h₁⟩ := h.takeOff hk
    have hmem : ∀ z : Range, z.kind = .live → (z ∈ A ++ x :: B ↔ z ∈ A ++ B) := fun z hz => by
      have hzx : z ≠ x := fun e => by rw [e, hk] at hz; cases hz
      simp only [List.mem_append, List.mem_cons]; tauto
    rcases Nat.eq_or_lt_of_le hlen with rfl | hlt
    · -- the whole range
      obtain ⟨m', s', e₂, e₃, h₂⟩ := h₁.makeLive rfl
      refine ⟨s', x.start, _, ?_, h₂, hA.live_middle hB rfl, fun z hz => ?_, hfresh, hfound⟩
      · simp only [kmapAllocRange, e, ok_bind, hget, e₁]
        simp only [as_start, as_len] at e₂ e₃
        simp only [e₂, ok_bind, e₃, gt_iff_lt, Nat.lt_irrefl, if_false]
      · rw [mem_middle, hmem z hz]
        rfl
    · -- the front of it; the rest is freed
      have h₂ := h₁.cut rfl hp hlt
      obtain ⟨m', s', e₂, e₃, h₃⟩ := h₂.makeLive rfl
      have h₄ : Laid s' ((A ++ [⟨x.start, p, .live⟩]) ++ ⟨x.start + p, x.len - p, .held⟩ :: B) := by
        rw [List.append_assoc]; exact h₃
      have hAl : Settled (A ++ [⟨x.start, p, .live⟩]) :=
        hA.live_middle ⟨fun _ hz => (by cases hz), List.IsChain.nil⟩ rfl
      obtain ⟨s'', l', e₄, h₅, hl', hlive⟩ := kmapFreeRange_spec h₄ rfl hAl hB
      refine ⟨s'', x.start, l', ?_, h₅, hl', fun z hz => ?_, hfresh, hfound⟩
      · simp only [kmapAllocRange, e, ok_bind, hget, e₁]
        simp only [as_start] at e₂ e₃ e₄
        simp only [e₂, ok_bind, e₃, gt_iff_lt, if_pos hlt, e₄]
      · rw [hlive z hz, hmem z hz]
        simp only [List.mem_append, List.mem_cons, List.not_mem_nil, or_false]
        tauto

end FilesKernel.Kmap
