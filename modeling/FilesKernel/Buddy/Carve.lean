import FilesKernel.Buddy.Moves

/-! Carving a range of pages into free blocks.

    From its first page on, a range is cut into blocks that are as large as their alignment and the
    rest of the range allow. -/

namespace FilesKernel.Buddy
open CExec CWord LinkedList LinkRing Dyadic

variable {s : PageState} {K : Blocks} {z : Zone} {b e p : ℕ}

/-! ### Where a range is cut -/

theorem dvd_of_and_eq_zero {k : ℕ} (hp : 2 ^ k ∣ p) (h : p &&& 2 ^ k = 0) : 2 ^ (k + 1) ∣ p := by
  obtain ⟨i, rfl⟩ := hp
  have hbit : (2 ^ k * i).testBit k = false := by
    rw [Nat.and_two_pow] at h
    cases hb : (2 ^ k * i).testBit k with
    | false => rfl
    | true =>
      rw [hb] at h
      have := Nat.two_pow_pos k
      simp at h
  rw [Nat.testBit_eq_decide_div_mod_eq, Nat.mul_div_cancel_left _ (Nat.two_pow_pos k),
    decide_eq_false_iff_not] at hbit
  rw [Nat.pow_succ]
  exact Nat.mul_dvd_mul_left _ (by omega)

theorem not_dvd_of_and_ne_zero {k : ℕ} (h : p &&& 2 ^ k ≠ 0) {j : ℕ} (hj : k < j) : ¬ 2 ^ j ∣ p := by
  rintro ⟨i, rfl⟩
  refine h ?_
  have hbit : (2 ^ j * i).testBit k = false := by
    rw [Nat.mul_comm, Nat.testBit_mul_two_pow]
    simp [Nat.not_le_of_lt hj]
  rw [Nat.and_two_pow, hbit]
  simp

/-- The order that is chosen at `p`. -/
theorem pageCarveOrder_spec : ∀ (n order : ℕ), 2 ^ order ∣ p → p + 2 ^ order ≤ e →
    2 ^ pageCarveOrder p e n order ∣ p ∧ p + 2 ^ pageCarveOrder p e n order ≤ e ∧
      pageCarveOrder p e n order ≤ n + order ∧
      ∀ k ≤ n + order, 2 ^ k ∣ p → p + 2 ^ k ≤ e → k ≤ pageCarveOrder p e n order
  | 0, order, hdvd, hfit => ⟨hdvd, hfit, by rw [pageCarveOrder]; omega, fun k hk _ _ => by
      rw [pageCarveOrder]
      omega⟩
  | n + 1, order, hdvd, hfit => by
      rw [pageCarveOrder]
      split_ifs with hbit hend
      · refine ⟨hdvd, hfit, by omega, fun k _ hk _ => ?_⟩
        by_contra hlt
        exact not_dvd_of_and_ne_zero hbit (Nat.lt_of_not_le hlt) hk
      · refine ⟨hdvd, hfit, by omega, fun k _ _ hk => ?_⟩
        by_contra hlt
        have := Nat.pow_le_pow_right (n := 2) (by decide) (Nat.lt_of_not_le hlt)
        omega
      · obtain ⟨h₁, h₂, h₃, h₄⟩ := pageCarveOrder_spec n (order + 1)
          (dvd_of_and_eq_zero hdvd (by omega)) (by omega)
        exact ⟨h₁, h₂, by omega, fun k hk => h₄ k (by omega)⟩

/-- The block that is cut off at `p`. -/
def carveAt (e p : ℕ) : Block := blockAt (pageCarveOrder p e maxOrder 0) p

theorem carveAt_start (hp : p < e) : (carveAt e p).start = p :=
  blockAt_start (pageCarveOrder_spec maxOrder 0 (Nat.one_dvd p) hp).1

theorem carveAt_stop (hp : p < e) :
    (carveAt e p).stop = p + 2 ^ pageCarveOrder p e maxOrder 0 := by
  rw [stop_eq, carveAt_start hp]
  rfl

theorem carveAt_greatest (hp : p < e) : Greatest maxOrder e (carveAt e p) := by
  obtain ⟨-, h₂, h₃, h₄⟩ := pageCarveOrder_spec maxOrder 0 (Nat.one_dvd p) hp
  refine ⟨h₃, by rwa [carveAt_stop hp], fun k hk hdvd hfit => ?_⟩
  rw [carveAt_start hp] at hdvd hfit
  exact h₄ k hk hdvd hfit

/-- The places where `[b, e)` is cut. -/
inductive CutAt (b e : ℕ) : ℕ → Prop
  | first : CutAt b e b
  | next {p : ℕ} : CutAt b e p → p < e → CutAt b e (carveAt e p).stop

/-- The blocks that `[b, e)` is cut into. -/
def Carved (b e : ℕ) : Set Block := {x | ∃ p < e, CutAt b e p ∧ carveAt e p = x}

theorem CutAt.le (h : CutAt b e p) : b ≤ p := by
  induction h with
  | first => exact Nat.le_refl b
  | @next q _ hq ih =>
    have := start_lt_stop (carveAt e q)
    rw [carveAt_start hq] at this
    omega

theorem Carved.greatest {x : Block} (hx : x ∈ Carved b e) : Greatest maxOrder e x := by
  obtain ⟨p, hp, -, rfl⟩ := hx
  exact carveAt_greatest hp

theorem Carved.start {x : Block} (hx : x ∈ Carved b e) : b ≤ x.start := by
  obtain ⟨p, hp, hcut, rfl⟩ := hx
  rw [carveAt_start hp]
  exact hcut.le

theorem CutAt.cut {q : ℕ} (h : CutAt p e q) (hp : p < e) : q = p ∨ CutAt (carveAt e p).stop e q := by
  induction h with
  | first => exact Or.inl rfl
  | @next r _ hr ih =>
    rcases ih with rfl | ih
    · exact Or.inr .first
    · exact Or.inr (ih.next hr)

theorem CutAt.of_cut {q : ℕ} (h : CutAt (carveAt e p).stop e q) (hp : p < e) : CutAt p e q := by
  induction h with
  | first => exact .next .first hp
  | next _ hr ih => exact ih.next hr

/-- The first block is cut off, and the rest is cut in the same way. -/
theorem carved_of_lt (hp : p < e) : Carved p e = {carveAt e p} ∪ Carved (carveAt e p).stop e := by
  ext x
  constructor
  · rintro ⟨q, hq, hcut, rfl⟩
    rcases hcut.cut hp with rfl | hcut
    · exact Or.inl rfl
    · exact Or.inr ⟨q, hq, hcut, rfl⟩
  · rintro (rfl | ⟨q, hq, hcut, rfl⟩)
    · exact ⟨p, hp, .first, rfl⟩
    · exact ⟨q, hq, hcut.of_cut hp, rfl⟩

theorem carved_of_le (hp : e ≤ p) : Carved p e = ∅ := by
  refine Set.eq_empty_of_forall_notMem ?_
  rintro x ⟨q, hq, hcut, -⟩
  exact absurd (hp.trans hcut.le) (Nat.not_le_of_lt hq)

theorem mem_carveAt (hp : p < e) {q : ℕ} : q ∈ carveAt e p ↔ p ≤ q ∧ q < (carveAt e p).stop := by
  rw [mem_iff, carveAt_start hp]

/-- The blocks have all pages of the range, and no others. -/
theorem cover_carved : ∀ (n : ℕ) {p : ℕ}, e - p ≤ n → cover (Carved p e) = Set.Ico p e
  | 0, p, hn => by
      have hp : e ≤ p := by omega
      rw [carved_of_le hp, Set.Ico_eq_empty (Nat.not_lt_of_le hp)]
      ext q
      simp [cover]
  | n + 1, p, hn => by
      rcases Nat.lt_or_ge p e with hp | hp
      · have hlt := start_lt_stop (carveAt e p)
        have hle := (carveAt_greatest hp).stop
        rw [carveAt_start hp] at hlt
        have hrest := cover_carved n (p := (carveAt e p).stop) (by omega)
        rw [carved_of_lt hp, ← Set.Ico_union_Ico_eq_Ico hlt.le hle, ← hrest]
        ext q
        constructor
        · rintro ⟨x, rfl | hx, hq⟩
          · exact Or.inl (Set.mem_Ico.mpr ((mem_carveAt hp).mp hq))
          · exact Or.inr ⟨x, hx, hq⟩
        · rintro (hq | ⟨x, hx, hq⟩)
          · exact ⟨_, Or.inl rfl, (mem_carveAt hp).mpr (Set.mem_Ico.mp hq)⟩
          · exact ⟨x, Or.inr hx, hq⟩
      · exact cover_carved n (by omega)

/-! ### The loop -/

/-- A block of pages that lie in no other comes into hand. -/
theorem Laid.claim {x : Block} (h : Laid s K) (hz : z ∈ s.zones) (hin : z.Contains x)
    (ho : x.order ≤ maxOrder) (hnew : ∀ q ∈ x, q ∉ cover K.used) : Laid s (K.set x .held) := by
  have hx : K x = .none := by
    by_contra hne
    exact hnew _ (start_mem x) ⟨x, hne, start_mem x⟩
  have hcases : ∀ y ∈ (K.set x .held).used, y = x ∨ y ∈ K.used := fun y hy => by
    by_cases hyx : y = x
    · exact Or.inl hyx
    · rw [Blocks.mem_used, Blocks.set_of_ne hyx] at hy
      exact Or.inr hy
  refine h.rekind (fun y hy => ?_) (fun y hy => ?_) (fun y hy w hw q hqy hqw => ?_)
    (set_free_iff (by rw [hx]; decide) (by decide)) fun y hy => ?_
  · rcases hcases y hy with rfl | hy
    · exact ho
    · exact h.order y hy
  · rcases hcases y hy with rfl | hy
    · exact ⟨z, hz, hin⟩
    · exact h.inside y hy
  · rcases hcases y hy with hyx | hyK <;> rcases hcases w hw with hwx | hwK
    · rw [hyx, hwx]
    · exact absurd ⟨w, hwK, hqw⟩ (hnew q (hyx ▸ hqy))
    · exact absurd ⟨y, hyK, hqy⟩ (hnew q (hwx ▸ hqw))
    · exact h.apart y hyK w hwK q hqy hqw
  · refine h.taken y ?_
    by_cases hyx : y = x
    · rw [hyx, Blocks.set_self] at hy
      cases hy
    · rwa [Blocks.set_of_ne hyx] at hy

/-- What the blocks `B` of the zone `z` have become from `s` and `K` to `s'` and `K'`: free ones. -/
structure Adds (s : PageState) (K : Blocks) (z : Zone) (B : Set Block) (s' : PageState)
    (K' : Blocks) : Prop where
  laid : Laid s' K'
  zones : s'.zones = s.zones
  free : ∀ x, K' x = .free ↔ K x = .free ∨ x ∈ B
  calm : (∀ x, K x = .free ∨ K x = .none) → ∀ x, K' x = .free ∨ K' x = .none
  cover : cover K'.used = cover K.used ∪ cover B
  flags : ∀ a, (∀ x ∈ B, a ≠ z.page x.start) → s'.flags a = s.flags a

theorem Adds.refl (h : Laid s K) : Adds s K z ∅ s K := by
  refine ⟨h, rfl, fun x => by simp, id, ?_, fun _ _ => rfl⟩
  ext p
  simp [Dyadic.cover]

/-- One block is added. -/
theorem Laid.addBlock {x : Block} (h : Laid s K) (hz : z ∈ s.zones) (hin : z.Contains x)
    (ho : x.order ≤ maxOrder) (hnew : ∀ q ∈ x, q ∉ Dyadic.cover K.used) : ∃ m,
      listAddTail s.heads (z.page x.start) (z.order x.order) = .ok m ∧
      Adds s K z {x} (PageState.mark { s with heads := m } (z.page x.start) x.order)
        (K.set x .free) := by
  have hclaim := h.claim hz hin ho hnew
  obtain ⟨m, em, hput⟩ := hclaim.putFree links_listAddTail (Blocks.set_self K x .held) hz
    (hin.has (start_mem x))
  have hset : (K.set x .held).set x .free = K.set x .free := by
    simp only [Blocks.set, Function.update_idem]
  rw [hset] at hput
  refine ⟨m, em, hput, rfl, fun y => ?_, fun hK y => ?_, ?_, fun a ha => ?_⟩
  · by_cases hyx : y = x
    · rw [hyx, Blocks.set_self]
      exact ⟨fun _ => Or.inr rfl, fun _ => rfl⟩
    · rw [Blocks.set_of_ne hyx]
      exact ⟨Or.inl, fun hy => hy.resolve_right hyx⟩
  · by_cases hyx : y = x
    · rw [hyx, Blocks.set_self]
      exact Or.inl rfl
    · rw [Blocks.set_of_ne hyx]
      exact hK y
  · ext q
    constructor
    · rintro ⟨y, hy, hq⟩
      by_cases hyx : y = x
      · exact Or.inr ⟨x, rfl, hyx ▸ hq⟩
      · rw [Blocks.mem_used, Blocks.set_of_ne hyx] at hy
        exact Or.inl ⟨y, hy, hq⟩
    · rintro (⟨y, hy, hq⟩ | ⟨y, rfl, hq⟩)
      · refine ⟨y, ?_, hq⟩
        by_cases hyx : y = x
        · rw [hyx]
          exact Laid.mem_used (Blocks.set_self K x .free) (by decide)
        · rw [Blocks.mem_used, Blocks.set_of_ne hyx]
          exact hy
      · exact ⟨y, Laid.mem_used (Blocks.set_self K y .free) (by decide), hq⟩
  · exact mark_flags_of_ne (ha x rfl)

theorem Adds.union {B C : Set Block} {s' s'' : PageState} {K' K'' : Blocks} (h : Adds s K z B s' K')
    (h' : Adds s' K' z C s'' K'') : Adds s K z (B ∪ C) s'' K'' := by
  refine ⟨h'.laid, h'.zones.trans h.zones, fun x => ?_, fun hK => h'.calm (h.calm hK), ?_,
    fun a ha => ?_⟩
  · rw [h'.free, h.free, or_assoc]
    rfl
  · rw [h'.cover, h.cover]
    ext q
    simp only [Set.mem_union]
    constructor
    · rintro ((hq | ⟨x, hx, hq⟩) | ⟨x, hx, hq⟩)
      · exact Or.inl hq
      · exact Or.inr ⟨x, Or.inl hx, hq⟩
      · exact Or.inr ⟨x, Or.inr hx, hq⟩
    · rintro (hq | ⟨x, hx | hx, hq⟩)
      · exact Or.inl (Or.inl hq)
      · exact Or.inl (Or.inr ⟨x, hx, hq⟩)
      · exact Or.inr ⟨x, hx, hq⟩
  · rw [h'.flags a fun x hx => ha x (Or.inr hx), h.flags a fun x hx => ha x (Or.inl hx)]

/-- The loop adds the blocks of `[p, e)`, where no page of these is in a block yet. -/
theorem pageCarveLoop_spec : ∀ {fuel : ℕ} {s : PageState} {K : Blocks} {p : ℕ}, e - p < fuel →
    p ≤ e → Laid s K → z ∈ s.zones → z.begin ≤ p → e ≤ z.stop →
    (∀ q, p ≤ q → q < e → q ∉ Dyadic.cover K.used) →
    ∃ s' K', loop (pageCarveBody z e) fuel (s, p) = .ok s' ∧ Adds s K z (Carved p e) s' K'
  | 0, _, _, _, hfuel, _, _, _, _, _, _ => absurd hfuel (Nat.not_lt_zero _)
  | fuel + 1, s, K, p, hfuel, hpe, h, hz, hbegin, hstop, hnew => by
      rcases Nat.eq_or_lt_of_le hpe with rfl | hp
      · refine ⟨s, K, ?_, ?_⟩
        · rw [loop, pageCarveBody, if_pos rfl, ok_bind]
        · rw [carved_of_le (Nat.le_refl p)]
          exact Adds.refl h
      · have hg := carveAt_greatest hp
        have hstart := carveAt_start hp
        have hlt := start_lt_stop (carveAt e p)
        have hin : z.Contains (carveAt e p) := ⟨by omega, hg.stop.trans hstop⟩
        obtain ⟨m, em, hadd⟩ := h.addBlock hz hin hg.order fun q hq => by
          have hq' := (mem_carveAt hp).mp hq
          have hle := hg.stop
          exact hnew q hq'.1 (by omega)
        rw [hstart] at em hadd hlt
        have horder : (carveAt e p).order = pageCarveOrder p e maxOrder 0 := rfl
        have hround : pageCarveBody z e (s, p) = .ok (.inl
            (PageState.mark { s with heads := m } (z.page p) (carveAt e p).order,
              (carveAt e p).stop)) := by
          rw [pageCarveBody, if_neg (Nat.ne_of_lt hp)]
          dsimp only
          rw [Zone.pageAt_eq ⟨hbegin, by omega⟩, ok_bind, ← horder, em, ok_bind,
            setOrder_eq hg.order, ok_bind, mark_eq, carveAt_stop hp, horder]
        have hfuel' : e - (carveAt e p).stop < fuel := by omega
        obtain ⟨s', K', e', hrest⟩ := pageCarveLoop_spec hfuel' hg.stop hadd.laid (hadd.zones ▸ hz)
          (by omega) hstop fun q hq hqe => by
            rw [hadd.cover]
            rintro (hq' | ⟨x, rfl, hq'⟩)
            · exact hnew q (by omega) hqe hq'
            · exact absurd ((mem_carveAt hp).mp hq').2 (Nat.not_lt_of_le hq)
        refine ⟨s', K', ?_, ?_⟩
        · rw [loop, hround, ok_bind]
          exact e'
        · rw [carved_of_lt hp]
          exact hadd.union hrest

end FilesKernel.Buddy
