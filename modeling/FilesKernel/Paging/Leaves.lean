import FilesKernel.Paging.Slots

/-! The leaves that `__pt_map_pages` makes.

    It is called for a range inside one table, with both ends included, in which nothing is mapped.
    Each iteration handles the part of the range below one entry: it makes a leaf of it, or goes into
    the table below, which it may have to create. So each address gets a leaf of the highest level at
    which its slot lies in the range as a whole, below the tables that exist already. -/

namespace FilesKernel.Paging
open CExec CWord Radix

variable {page : ℕ → ℕ} {s s' s'' : PtState} {mem : ℕ → ℕ → ℕ}
  {n p c start last mid phys flags i limit k a : ℕ}

/-- The present entry where the walk from a table `p` of level `n` ends. -/
def leafOf (mem : ℕ → ℕ → ℕ) (n p a : ℕ) : Option (ℕ × ℕ) :=
  (lookup ptShape mem (index a) n p).filter fun r => r.2.testBit presentBit

/-- The level of the table where it ends. -/
def stopLevel (mem : ℕ → ℕ → ℕ) (n p a : ℕ) : ℕ :=
  ((lookup ptShape mem (index a) n p).map Prod.fst).getD 0

/-- One leaf of level `n` can map the slot of `a`, which is in the range as a whole. -/
def Whole (flags start last phys n a : ℕ) : Prop :=
  Leafy flags n ∧ phys % slot n = start % slot n ∧ start ≤ a / slot n * slot n ∧ slotEnd a n ≤ last

instance : Decidable (Whole flags start last phys n a) := inferInstanceAs (Decidable (_ ∧ _))

/-- The level of the leaf for `a`, where there are no tables below level `n` yet. -/
def leafLevel (flags start last phys a : ℕ) : ℕ → ℕ
  | 0 => 0
  | n + 1 => if Whole flags start last phys (n + 1) a then n + 1
    else leafLevel flags start last phys a n

/-- The leaf of level `n` for `a`. -/
def leafEntry (flags start phys n a : ℕ) : ℕ :=
  wrap (phys + (a / slot n * slot n - start)) ||| flags ||| largeOf n flags

/-- What is found for `a` afterwards, if the walk ended at level `n` before. -/
def madeLeaf (flags start last phys n a : ℕ) : Option (ℕ × ℕ) :=
  if flags.testBit presentBit then
    some (leafLevel flags start last phys a n,
      leafEntry flags start phys (leafLevel flags start last phys a n) a)
  else none

/-! ### Walks -/

theorem child_one (e : ℕ) : ptShape.child 1 e = none := if_neg fun h => h.2 rfl

theorem child_absent {e : ℕ} (he : e.testBit presentBit = false) : ptShape.child n e = none :=
  if_neg fun h => by rw [he] at h; cases h.1

theorem leafOf_congr {mem' : ℕ → ℕ → ℕ} {n' p' : ℕ}
    (h : lookup ptShape mem' (index a) n' p' = lookup ptShape mem (index a) n p) :
    leafOf mem' n' p' a = leafOf mem n p a := by rw [leafOf, leafOf, h]

theorem stopLevel_congr {mem' : ℕ → ℕ → ℕ} {n' p' : ℕ}
    (h : lookup ptShape mem' (index a) n' p' = lookup ptShape mem (index a) n p) :
    stopLevel mem' n' p' a = stopLevel mem n p a := by rw [stopLevel, stopLevel, h]

/-- The walk ends at an entry that points to no table. -/
theorem lookup_end (h : ptShape.child (n + 1) (mem p (index a (n + 1))) = none) :
    lookup ptShape mem (index a) (n + 1) p = some (n + 1, mem p (index a (n + 1))) := by
  rw [lookup, h]

theorem stopLevel_end (h : ptShape.child (n + 1) (mem p (index a (n + 1))) = none) :
    stopLevel mem (n + 1) p a = n + 1 := by rw [stopLevel, lookup_end h]; rfl

theorem leafOf_end (h : ptShape.child (n + 1) (mem p (index a (n + 1))) = none) :
    leafOf mem (n + 1) p a = if (mem p (index a (n + 1))).testBit presentBit then
      some (n + 1, mem p (index a (n + 1))) else none := by
  rw [leafOf, lookup_end h]
  rfl

theorem stopLevel_le : stopLevel mem n p a ≤ n := by
  rw [stopLevel]
  cases h : lookup ptShape mem (index a) n p with
  | none => exact Nat.zero_le _
  | some r => exact lookup_level h

theorem leafOf_absent (he : (mem p (index a (n + 1))).testBit presentBit = false) :
    leafOf mem (n + 1) p a = none := by
  rw [leafOf_end (child_absent he), he]
  rfl

/-! ### Cutting the range -/

/-- A cut at a slot of level `n` goes through no slot of a lower level. -/
theorem slotEnd_le_cut (hk : k ≤ n) (hcut : (mid + 1) % slot n = 0) (ha : a ≤ mid) :
    slotEnd a k ≤ mid := by
  have hpos := slot_pos k
  have hmul := Nat.div_mul_cancel (Nat.dvd_of_mod_eq_zero (mod_slot_zero hk hcut))
  have hlt : a / slot k < (mid + 1) / slot k := by
    refine Nat.div_lt_of_lt_mul ?_
    rw [Nat.mul_comm, hmul]
    omega
  have hle : (a / slot k + 1) * slot k ≤ (mid + 1) / slot k * slot k :=
    Nat.mul_le_mul_right _ hlt
  rw [slotEnd]
  omega

theorem cut_le_slot (hk : k ≤ n) (hcut : (mid + 1) % slot n = 0) (ha : mid < a) :
    mid + 1 ≤ a / slot k * slot k := by
  have hmul := Nat.div_mul_cancel (Nat.dvd_of_mod_eq_zero (mod_slot_zero hk hcut))
  rw [← hmul]
  exact Nat.mul_le_mul_right _ (Nat.div_le_div_right ha)

theorem whole_left (hk : k ≤ n) (hcut : (mid + 1) % slot n = 0) (ha : a ≤ mid) (hlt : mid < last) :
    Whole flags start mid phys k a ↔ Whole flags start last phys k a := by
  have hend := slotEnd_le_cut hk hcut ha
  exact ⟨fun h => ⟨h.1, h.2.1, h.2.2.1, hend.trans hlt.le⟩, fun h => ⟨h.1, h.2.1, h.2.2.1, hend⟩⟩

theorem whole_right (hn : n ≤ 4) (hk : k ≤ n) (hcut : (mid + 1) % slot n = 0) (ha : mid < a)
    (hle : start ≤ mid) : Whole flags (mid + 1) last (wrap (phys + (mid + 1 - start))) k a ↔
      Whole flags start last phys k a := by
  have hbegin := cut_le_slot hk hcut ha
  have hphys := phys_mod phys (hk.trans hn) (Nat.le_succ_of_le hle)
  exact ⟨fun h => ⟨h.1, hphys.mp h.2.1, (Nat.le_succ_of_le hle).trans hbegin, h.2.2.2⟩,
    fun h => ⟨h.1, hphys.mpr h.2.1, hbegin, h.2.2.2⟩⟩

theorem leafLevel_congr {start' last' phys' : ℕ} (h : ∀ k ≤ n,
    Whole flags start' last' phys' k a ↔ Whole flags start last phys k a) :
    leafLevel flags start' last' phys' a n = leafLevel flags start last phys a n := by
  induction n with
  | zero => rfl
  | succ n ih =>
    rw [leafLevel, leafLevel, ih fun k hk => h k (Nat.le_succ_of_le hk)]
    simp only [h (n + 1) le_rfl]

theorem leafLevel_le (flags start last phys a : ℕ) : ∀ n, leafLevel flags start last phys a n ≤ n
  | 0 => Nat.le_refl _
  | n + 1 => by
      rw [leafLevel]
      split
      · exact Nat.le_refl _
      · exact Nat.le_succ_of_le (leafLevel_le flags start last phys a n)

theorem madeLeaf_left (hk : k ≤ n) (hcut : (mid + 1) % slot n = 0) (ha : a ≤ mid) (hlt : mid < last) :
    madeLeaf flags start mid phys k a = madeLeaf flags start last phys k a := by
  rw [madeLeaf, madeLeaf, leafLevel_congr fun j hj => whole_left (hj.trans hk) hcut ha hlt]

theorem madeLeaf_right (hn : n ≤ 4) (hk : k ≤ n) (hcut : (mid + 1) % slot n = 0) (ha : mid < a)
    (hle : start ≤ mid) : madeLeaf flags (mid + 1) last (wrap (phys + (mid + 1 - start))) k a =
      madeLeaf flags start last phys k a := by
  have hlevel : leafLevel flags (mid + 1) last (wrap (phys + (mid + 1 - start))) a k =
      leafLevel flags start last phys a k :=
    leafLevel_congr fun j hj => whole_right hn (hj.trans hk) hcut ha hle
  have hentry : ∀ j ≤ k, leafEntry flags (mid + 1) (wrap (phys + (mid + 1 - start))) j a =
      leafEntry flags start phys j a := fun j hj => by
    have hbegin := cut_le_slot (hj.trans hk) hcut ha
    have hsum : wrap (wrap (phys + (mid + 1 - start)) + (a / slot j * slot j - (mid + 1))) =
        wrap (phys + (a / slot j * slot j - start)) := by
      rw [wrap_eq, wrap_eq, wrap_eq, Nat.mod_add_mod]
      congr 1
      omega
    rw [leafEntry, leafEntry, hsum]
  rw [madeLeaf, madeLeaf, hlevel, hentry _ (leafLevel_le _ _ _ _ _ _)]

/-! ### What a call does -/

/-- The pages taken from the pool. -/
def pagesFrom (page : ℕ → ℕ) (i j : ℕ) : Set ℕ := {r | ∃ k, i ≤ k ∧ k < j ∧ page k = r}

theorem pagesFrom_mono {i i' j j' : ℕ} (hi : i' ≤ i) (hj : j ≤ j') :
    pagesFrom page i j ⊆ pagesFrom page i' j' := fun _ ⟨k, hk, hk', e⟩ =>
  ⟨k, hi.trans hk, Nat.lt_of_lt_of_le hk' hj, e⟩

/-- Up to the call `limit`, the pool yields pages that can be tables, and are not used as tables
    below `p` yet. -/
structure Fresh (page : ℕ → ℕ) (limit : ℕ) (s : PtState) (n p : ℕ) : Prop where
  ok : ∀ k, s.taken ≤ k → k < limit → page k ≠ 0 ∧ 2 ^ 12 ∣ page k ∧ page k < 2 ^ 52
  distinct : ∀ j k, s.taken ≤ j → s.taken ≤ k → j < limit → k < limit → page j = page k → j = k
  out : ∀ k, s.taken ≤ k → k < limit → page k ∉ tables ptShape s.mem n p

theorem Fresh.extends (hf : Fresh page limit s n p) (htaken : s.taken ≤ s'.taken)
    (h : Extends ptShape s.mem s'.mem n p (pagesFrom page s.taken s'.taken)) :
    Fresh page limit s' n p where
  ok k hk := hf.ok k (htaken.trans hk)
  distinct j k hj hk := hf.distinct j k (htaken.trans hj) (htaken.trans hk)
  out k hk hlt hm := by
    rcases h.tables hm with hm | ⟨j, hj, hj', e⟩
    · exact hf.out k (htaken.trans hk) hlt hm
    · have := hf.distinct j k hj (htaken.trans hk) (by omega) hlt e
      omega

/-- The arguments of `__pt_map_pages` at level `n`. -/
structure Window (n start last phys : ℕ) : Prop where
  level : 1 ≤ n ∧ n ≤ 4
  dvdStart : 2 ^ 12 ∣ start
  dvdLast : 2 ^ 12 ∣ last + 1
  le : start ≤ last
  lt : last < 2 ^ 64
  same : start / slot (n + 1) = last / slot (n + 1)
  dvdPhys : 2 ^ 12 ∣ phys
  ltPhys : phys < 2 ^ 64

/-- A table entry that leaves writing and user access to the levels below. -/
def Permits (e : ℕ) : Prop := e.testBit 1 ∧ e.testBit 2

/-- The range is mapped, and the rest of the table as before. -/
structure Placed (page : ℕ → ℕ) (flags : ℕ) (s s' : PtState) (n p start last phys : ℕ) : Prop where
  taken : s.taken ≤ s'.taken
  used : s'.taken ≤ s.taken + newTables flags start last phys n
  count : (∀ a, start ≤ a → a ≤ last → stopLevel s.mem n p a = n) →
    s'.taken = s.taken + newTables flags start last phys n
  grows : Extends ptShape s.mem s'.mem n p (pagesFrom page s.taken s'.taken)
  permits : Every ptShape s.mem Permits n p → Every ptShape s'.mem Permits n p
  others : ∀ a, a / slot (n + 1) = start / slot (n + 1) →
    (∀ b, start ≤ b → b ≤ last → index b n ≠ index a n) →
    lookup ptShape s'.mem (index a) n p = lookup ptShape s.mem (index a) n p
  leaf : ∀ a, a / slot (n + 1) = start / slot (n + 1) → leafOf s'.mem n p a =
    if start ≤ a ∧ a ≤ last then madeLeaf flags start last phys (stopLevel s.mem n p a) a
    else leafOf s.mem n p a
  paths : flags.testBit largeBit = false → ∀ a, start ≤ a → a ≤ last →
    ∃ t, Path ptShape s'.mem (index a) n p t

/-- The addresses between two of the same slot. -/
theorem div_between {a b x : ℕ} (h : a / k = b / k) (ha : a ≤ x) (hb : x ≤ b) : x / k = a / k :=
  Nat.le_antisymm (h ▸ Nat.div_le_div_right hb) (Nat.div_le_div_right ha)

/-- The range from `start` to `mid` is followed by another one. -/
theorem Placed.trans (hn : n ≤ 4) (h : Placed page flags s s' n p start mid phys)
    (h' : Placed page flags s' s'' n p (mid + 1) last (wrap (phys + (mid + 1 - start))))
    (hle : start ≤ mid) (hlt : mid < last) (hcut : (mid + 1) % slot n = 0)
    (hsame : start / slot (n + 1) = last / slot (n + 1)) :
    Placed page flags s s'' n p start last phys := by
  have hadd := newTables_add flags phys hle hlt hn hcut
  have hin : ∀ {a}, start ≤ a → a ≤ last → a / slot (n + 1) = start / slot (n + 1) :=
    div_between hsame
  have hmid : (mid + 1) / slot (n + 1) = start / slot (n + 1) := hin (by omega) (by omega)
  -- behind the cut, the first call has changed no walk
  have hbehind : ∀ a, a / slot (n + 1) = start / slot (n + 1) → mid < a →
      lookup ptShape s'.mem (index a) n p = lookup ptShape s.mem (index a) n p := fun a ha hma =>
    h.others a ha fun b hb hbm hidx => by
      have hdiv := (index_eq_iff ((hin hb (by omega)).trans ha.symm)).mp hidx
      have hend := slotEnd_le_cut (Nat.le_refl n) hcut hbm
      have := le_slotEnd hdiv.symm
      omega
  refine ⟨h.taken.trans h'.taken, ?_, fun hall => ?_,
    (h.grows.mono (pagesFrom_mono (Nat.le_refl _) h'.taken)).trans
      (h'.grows.mono (pagesFrom_mono h.taken (Nat.le_refl _))), fun hp => h'.permits (h.permits hp),
    fun a ha hidx => ?_, fun a ha => ?_, fun hl a ha ha' => ?_⟩
  · have h₁ := h.used
    have h₂ := h'.used
    omega
  · have h₁ := h.count fun a ha ha' => hall a ha (by omega)
    have h₂ := h'.count fun a ha ha' => by
      rw [stopLevel_congr (hbehind a (hin (by omega) ha') ha)]
      exact hall a (by omega) ha'
    omega
  · rw [h'.others a (ha.trans hmid.symm) fun b hb => hidx b (by omega),
      h.others a ha fun b hb hb' => hidx b hb (by omega)]
  · rw [h'.leaf a (ha.trans hmid.symm), h.leaf a ha]
    by_cases hma : a ≤ mid
    · rw [if_neg fun hc => absurd hc.1 (by omega)]
      by_cases hstart : start ≤ a
      · rw [if_pos ⟨hstart, hma⟩, if_pos ⟨hstart, by omega⟩, madeLeaf_left stopLevel_le hcut hma hlt]
      · rw [if_neg fun hc => hstart hc.1, if_neg fun hc => hstart hc.1]
    · by_cases hlast : a ≤ last
      · rw [if_pos ⟨by omega, hlast⟩, if_pos ⟨by omega, hlast⟩,
          stopLevel_congr (hbehind a ha (by omega)),
          madeLeaf_right hn stopLevel_le hcut (by omega) hle]
      · rw [if_neg fun hc => hlast hc.2, if_neg fun hc => hma hc.2, if_neg fun hc => hlast hc.2]
  · by_cases hma : a ≤ mid
    · obtain ⟨t, ht⟩ := h.paths hl a ha hma
      exact ⟨t, h'.grows.paths _ (index_lt a) t ht⟩
    · exact h'.paths hl a (by omega) ha'

/-! ### One entry -/

/-- The range lies below one entry, which points to a table. -/
theorem Placed.lift (htree : IsTree ptShape s.mem (n + 1) p) (hf : Fresh page limit s (n + 1) p)
    (hroom : s.taken + newTables flags start last phys n ≤ limit) (hle : start ≤ last)
    (hc : ptShape.child (n + 1) (s.mem p (index start (n + 1))) = some c)
    (hsame : start / slot (n + 1) = last / slot (n + 1))
    (h : Placed page flags s s' n c start last phys) :
    Placed page flags s s' (n + 1) p start last phys := by
  have hF : ∀ r ∈ pagesFrom page s.taken s'.taken, r ∉ tables ptShape s.mem (n + 1) p := by
    rintro r ⟨k, hk, hk', rfl⟩
    have := h.used
    exact hf.out k hk (by omega)
  obtain ⟨hgrows, hlookup⟩ := Extends.lift htree (index_lt start (n + 1)) hc h.grows hF
  have hp : s'.mem p = s.mem p := h.grows.frame p (htree.1 _ (index_lt _ _) c hc).2
    fun hm => hF p hm (mem_tables n p)
  -- the walks below the entry
  have hbefore : ∀ a, index a (n + 1) = index start (n + 1) →
      lookup ptShape s.mem (index a) (n + 1) p = lookup ptShape s.mem (index a) n c := fun a hidx =>
    lookup_child (by rw [hidx]; exact hc)
  have hafter : ∀ a, index a (n + 1) = index start (n + 1) →
      lookup ptShape s'.mem (index a) (n + 1) p = lookup ptShape s'.mem (index a) n c := fun a hidx => by
    rw [hlookup _ (index_lt a), if_pos hidx]
  have hin : ∀ {a}, start ≤ a → a ≤ last → a / slot (n + 1) = start / slot (n + 1) :=
    div_between hsame
  have hindex : ∀ {a}, start ≤ a → a ≤ last → index a (n + 1) = index start (n + 1) := fun ha ha' => by
    rw [index, index, hin ha ha']
  refine ⟨h.taken, h.used.trans (Nat.add_le_add_left (newTables_le_succ _ _ _ _ _) _), fun hall => ?_,
    hgrows, fun hpermits => ?_, fun a ha hidx => ?_, fun a ha => ?_, fun hl a ha ha' => ?_⟩
  · have hstop := hall start (Nat.le_refl _) hle
    rw [stopLevel_congr (hbefore start rfl)] at hstop
    have : stopLevel s.mem n c start ≤ n := stopLevel_le
    omega
  · exact hpermits.lift htree (index_lt start (n + 1)) hc h.grows hF
      (h.permits (hpermits _ (index_lt start (n + 1)) c hc).2)
  · rw [hlookup _ (index_lt a), if_neg fun e => hidx start (Nat.le_refl _) hle e.symm]
  · have hiff := index_eq_iff ha
    by_cases hidx : index a (n + 1) = index start (n + 1)
    · rw [leafOf_congr (hafter a hidx), leafOf_congr (hbefore a hidx), stopLevel_congr (hbefore a hidx),
        h.leaf a (hiff.mp hidx)]
    · rw [if_neg fun hr => hidx (hindex hr.1 hr.2)]
      exact leafOf_congr (by rw [hlookup _ (index_lt a), if_neg hidx])
  · obtain ⟨t, ht⟩ := h.paths hl a ha ha'
    cases n with
    | zero => exact ht.elim
    | succ n => exact ⟨t, c, by rw [hp, hindex ha ha']; exact hc, ht⟩

/-- In the slot that the range fills, the leaf is one of this level. -/
theorem whole_of_same (hsame : start / slot n = last / slot n) (ha : start ≤ a) (ha' : a ≤ last) :
    Whole flags start last phys n a ↔ Leafy flags n ∧ phys % slot n = start % slot n ∧
      start % slot n = 0 ∧ last = slotEnd start n := by
  have hdiv : a / slot n = start / slot n := div_between hsame ha ha'
  have hle := le_slotEnd hsame.symm
  have hmul := Nat.div_add_mod start (slot n)
  rw [Nat.mul_comm] at hmul
  rw [Whole, slotEnd, hdiv, ← slotEnd]
  refine and_congr_right fun _ => and_congr_right fun _ =>
    ⟨fun h => ⟨?_, by omega⟩, fun h => ⟨?_, by omega⟩⟩
  · omega
  · omega

/-- The entry becomes a leaf. -/
theorem placed_leaf (hs : Window n start last phys) (htree : IsTree ptShape s.mem n p)
    (habsent : (s.mem p (index start n)).testBit presentBit = false) (hleafy : Leafy flags n)
    (hsame : start / slot n = last / slot n) (haligned : start % slot n = 0 ∧ phys % slot n = 0)
    (hend : last = slotEnd start n) : Placed page flags s
      { s with mem := store s.mem p (index start n) (phys ||| flags ||| largeOf n flags) }
      n p start last phys := by
  obtain ⟨n, rfl⟩ : ∃ k, n = k + 1 := ⟨n - 1, by have := hs.level.1; omega⟩
  have hchild : ptShape.child (n + 1) (phys ||| flags ||| largeOf (n + 1) flags) = none :=
    leaf_child hleafy
  have hnew : newTables flags start last phys (n + 1) = 0 :=
    newTables_whole hs.level.2 hleafy haligned.2 haligned.1 hend
  have hindex : ∀ {a}, start ≤ a → a ≤ last → index a (n + 1) = index start (n + 1) := fun ha ha' => by
    rw [index, index, div_between hsame ha ha']
  refine ⟨Nat.le_refl _, Nat.le_add_right _ _, fun _ => by rw [hnew]; rfl,
    Extends.store htree (child_absent habsent) hchild, fun hp => hp.store htree hchild,
    fun a ha hidx => ?_, fun a ha => ?_, fun hl a ha ha' => ?_⟩
  · rw [lookup_store htree hchild (index_lt a), if_neg fun e => hidx start (Nat.le_refl _) hs.le e.symm]
  · have hiff := index_eq_iff ha
    have hlookup := lookup_store (i := index start (n + 1)) htree hchild (index_lt a)
    by_cases hidx : index a (n + 1) = index start (n + 1)
    · have hdiv := hiff.mp hidx
      have hmul := Nat.div_add_mod start (slot (n + 1))
      have hmul' := Nat.div_add_mod a (slot (n + 1))
      rw [hdiv] at hmul'
      have hrange : start ≤ a ∧ a ≤ last := ⟨by omega, hend ▸ le_slotEnd hdiv⟩
      have hstop : stopLevel s.mem (n + 1) p a = n + 1 :=
        stopLevel_end (child_absent (by rw [hidx]; exact habsent))
      have hlevel : leafLevel flags start last phys a (n + 1) = n + 1 :=
        if_pos ((whole_of_same hsame hrange.1 hrange.2).mpr
          ⟨hleafy, haligned.2.trans haligned.1.symm, haligned.1, hend⟩)
      have hentry : leafEntry flags start phys (n + 1) a =
          phys ||| flags ||| largeOf (n + 1) flags := by
        rw [leafEntry, hdiv, Nat.mul_comm, show slot (n + 1) * (start / slot (n + 1)) - start = 0 by
          omega, Nat.add_zero, wrap_of_lt hs.ltPhys]
      rw [if_pos hidx] at hlookup
      rw [if_pos hrange, hstop, madeLeaf, hlevel, hentry, leafOf, hlookup]
      simp only [Option.filter, leaf_present hs.dvdPhys]
    · rw [if_neg hidx] at hlookup
      rw [if_neg fun hr => hidx (hindex hr.1 hr.2)]
      exact leafOf_congr hlookup
  · rcases hleafy.2 with hlarge | hone
    · rw [and_large_ne_zero.mp (largeOf_ne_zero.mp hlarge).2] at hl
      cases hl
    · obtain rfl : n = 0 := Nat.succ.inj hone
      exact ⟨p, rfl⟩

/-- The entry gets a new table, below which the range is mapped. -/
theorem placed_attach {e : ℕ} (hf : Fresh page limit s (n + 2) p)
    (hroom : s.taken + newTables flags start last phys (n + 2) ≤ limit)
    (htree : IsTree ptShape s.mem (n + 2) p)
    (habsent : (s.mem p (index start (n + 2))).testBit presentBit = false)
    (he : ptShape.child (n + 2) e = some (page s.taken)) (hpermits : Permits e) (hle : start ≤ last)
    (hsame : start / slot (n + 2) = last / slot (n + 2))
    (hnot : ¬ (Leafy flags (n + 2) ∧ phys % slot (n + 2) = start % slot (n + 2) ∧
      start % slot (n + 2) = 0 ∧ last = slotEnd start (n + 2))) {s₁ : PtState}
    (hs₁ : s₁ = ⟨store (Function.update s.mem (page s.taken) fun _ => 0) p (index start (n + 2)) e,
      s.taken + 1⟩) :
    (IsTree ptShape s₁.mem (n + 2) p ∧ Fresh page limit s₁ (n + 2) p ∧
      ptShape.child (n + 2) (s₁.mem p (index start (n + 2))) = some (page s.taken) ∧
      (∀ a, leafOf s₁.mem (n + 1) (page s.taken) a = none)) ∧
    ∀ s', Placed page flags s₁ s' (n + 1) (page s.taken) start last phys →
      Placed page flags s s' (n + 2) p start last phys := by
  have hnew := newTables_descend hle hsame hnot
  have hout := hf.out s.taken (Nat.le_refl _) (by omega)
  have hempty : ∀ j, ptShape.child (n + 1) ((fun _ => 0 : ℕ → ℕ) j) = none := fun _ =>
    child_absent (Nat.zero_testBit _)
  have htaken : s₁.taken = s.taken + 1 := by rw [hs₁]
  have hgrows : Extends ptShape s.mem s₁.mem (n + 2) p (pagesFrom page s.taken (s.taken + 1)) := by
    rw [hs₁]
    exact Extends.attach htree (child_absent habsent) he hempty hout
      ⟨s.taken, Nat.le_refl _, Nat.lt_succ_self _, rfl⟩
  have hentry : s₁.mem p (index start (n + 2)) = e := by rw [hs₁]; exact store_self
  have hpage : ∀ j, s₁.mem (page s.taken) j = 0 := fun j => by
    have hne : page s.taken ≠ p := fun e' => hout (by rw [e']; exact mem_tables (n + 1) p)
    rw [hs₁]
    simp only [store_table hne, Function.update_self]
  have hchild : ptShape.child (n + 2) (s₁.mem p (index start (n + 2))) = some (page s.taken) := by
    rw [hentry, he]
  have hfresh : Fresh page limit s₁ (n + 2) p := hf.extends (by omega) (htaken ▸ hgrows)
  have habsent₁ : ∀ j, (s₁.mem (page s.taken) j).testBit presentBit = false := fun j => by
    rw [hpage]
    exact Nat.zero_testBit _
  refine ⟨⟨hgrows.tree, hfresh, hchild, fun a => leafOf_absent (habsent₁ _)⟩, fun s' h => ?_⟩
  have hused := h.used
  have hlift := h.lift hgrows.tree hfresh (by omega) hle hchild hsame
  have hlookup : ∀ a, lookup ptShape s₁.mem (index a) (n + 2) p =
      if index a (n + 2) = index start (n + 2) then some (n + 1, 0)
      else lookup ptShape s.mem (index a) (n + 2) p := fun a => by
    rw [hs₁]
    exact lookup_attach htree he hempty hout (index_lt a)
  have hle₁ := hlift.taken
  refine ⟨by omega, by omega, fun _ => ?_, (hgrows.mono (pagesFrom_mono (Nat.le_refl _) (by omega))).trans
    (hlift.grows.mono (pagesFrom_mono (by omega) (Nat.le_refl _))), fun hall => hlift.permits ?_,
    fun a ha hidx => ?_, fun a ha => ?_, hlift.paths⟩
  · have hcount := h.count fun a _ _ => stopLevel_end (child_absent (habsent₁ _))
    omega
  · rw [hs₁]
    exact hall.attach htree he hpermits hempty hout
  · rw [hlift.others a ha hidx, hlookup, if_neg fun e => hidx start (Nat.le_refl _) hle e.symm]
  · rw [hlift.leaf a ha]
    have hiff := index_eq_iff ha
    by_cases hidx : index a (n + 2) = index start (n + 2)
    · have hold : (s.mem p (index a (n + 2))).testBit presentBit = false := by rw [hidx, habsent]
      have hstop : stopLevel s₁.mem (n + 2) p a = n + 1 := by
        rw [stopLevel, hlookup, if_pos hidx]
        rfl
      by_cases hr : start ≤ a ∧ a ≤ last
      · have hwhole : leafLevel flags start last phys a (n + 2) =
            leafLevel flags start last phys a (n + 1) :=
          if_neg fun hw => hnot ((whole_of_same hsame hr.1 hr.2).mp hw)
        rw [if_pos hr, if_pos hr, hstop, stopLevel_end (child_absent hold), madeLeaf, madeLeaf, hwhole]
      · rw [if_neg hr, if_neg hr, leafOf_absent hold, leafOf, hlookup, if_pos hidx]
        simp
    · have hr : ¬ (start ≤ a ∧ a ≤ last) := fun hr =>
        hidx (hiff.mpr (div_between hsame hr.1 hr.2))
      rw [if_neg hr, if_neg hr]
      exact leafOf_congr (by rw [hlookup, if_neg hidx])

/-! ### The loop -/

/-- The part of the range below the first entry. -/
structure Piece (n start last mid : ℕ) : Prop where
  le : start ≤ mid
  inside : mid ≤ last
  same : mid / slot n = start / slot n
  dvd : 2 ^ 12 ∣ mid + 1
  ends : mid < last → mid = slotEnd start n

theorem slotEnd_succ (start n : ℕ) : slotEnd start n + 1 = (start / slot n + 1) * slot n := by
  have : 0 < (start / slot n + 1) * slot n := Nat.mul_pos (Nat.succ_pos _) (slot_pos n)
  rw [slotEnd]
  omega

theorem Window.piece (hs : Window n start last phys) :
    Piece n start last (if slotEnd start n < last then slotEnd start n else last) := by
  obtain ⟨hle, hsame, -⟩ := slotEnd_spec start n
  split
  · rename_i hlt
    refine ⟨hle, Nat.le_of_lt hlt, hsame, ?_, fun _ => rfl⟩
    rw [slotEnd_succ]
    exact Dvd.dvd.mul_left (slot_dvd hs.level.1) _
  · rename_i hge
    exact ⟨hs.le, Nat.le_refl _, div_between hsame.symm hs.le (Nat.not_lt.mp hge), hs.dvdLast,
      fun hlt => absurd hlt (Nat.lt_irrefl _)⟩

theorem get_eq (hi : i < ptEntries) : s.get p i = .ok (s.mem p i) := if_pos hi

theorem set_eq (hi : i < ptEntries) (e : ℕ) :
    s.set p i e = .ok { s with mem := store s.mem p i e } := if_pos hi

/-- The recursive call keeps to its specification. -/
def Places (page : ℕ → ℕ) (flags n : ℕ) (sub : PtState → ℕ → ℕ → ℕ → ℕ → Exec PtState) : Prop :=
  ∀ s p start last phys limit, Window n start last phys → IsTree ptShape s.mem n p →
    Fresh page limit s n p → s.taken + newTables flags start last phys n ≤ limit →
    (∀ a, start ≤ a → a ≤ last → leafOf s.mem n p a = none) →
    ∃ s', sub s p start last phys = .ok s' ∧ Placed page flags s s' n p start last phys

variable {sub : PtState → ℕ → ℕ → ℕ → ℕ → Exec PtState}

/-- The entry points to a table. -/
theorem placed_below (hsub : Places page flags n sub) (hs : Window (n + 1) start last phys)
    (hp : Piece (n + 1) start last mid) (htree : IsTree ptShape s.mem (n + 1) p)
    (hf : Fresh page limit s (n + 1) p) (hroom : s.taken + newTables flags start mid phys n ≤ limit)
    (hc : ptShape.child (n + 1) (s.mem p (index start (n + 1))) = some c)
    (hnone : ∀ a, start ≤ a → a ≤ mid → leafOf s.mem n c a = none) :
    ∃ s', sub s c start mid phys = .ok s' ∧ Placed page flags s s' n c start mid phys := by
  have hn : 1 ≤ n := by
    rcases Nat.eq_zero_or_pos n with rfl | hn
    · rw [child_one] at hc
      cases hc
    · exact hn
  have hspan : Window n start mid phys := by
    have hle := hp.inside
    have hlt := hs.lt
    exact ⟨⟨hn, by have := hs.level.2; omega⟩, hs.dvdStart, hp.dvd, hp.le, by omega, hp.same.symm,
      hs.dvdPhys, hs.ltPhys⟩
  have hfresh : Fresh page limit s n c := ⟨hf.ok, hf.distinct, fun k hk hlt hm =>
    hf.out k hk hlt (tables_child (index_lt start (n + 1)) hc hm)⟩
  exact hsub s c start mid phys limit hspan (htree.1 _ (index_lt _ _) c hc).1 hfresh hroom hnone

/-- An iteration maps the part of the range below its entry. -/
theorem mapEntry_spec (hsub : Places page flags n sub) (hs : Window (n + 1) start last phys)
    (htree : IsTree ptShape s.mem (n + 1) p) (hf : Fresh page limit s (n + 1) p)
    (hroom : ∀ mid, Piece (n + 1) start last mid →
      s.taken + newTables flags start mid phys (n + 1) ≤ limit)
    (hnone : ∀ a, start ≤ a → a ≤ last → leafOf s.mem (n + 1) p a = none) :
    ∃ mid s', Piece (n + 1) start last mid ∧
      mapEntry sub (some page) flags (n + 1) (slot (n + 1)) last p s (index start (n + 1)) start phys =
        .ok (s', mid - start + 1) ∧ Placed page flags s s' (n + 1) p start mid phys := by
  have hpiece := hs.piece
  have hstart : start < 2 ^ 64 := Nat.lt_of_le_of_lt hs.le hs.lt
  obtain ⟨-, -, hlen⟩ := slotEnd_spec start (n + 1)
  simp only [mapEntry, entryEnd_eq hs.level.2 hstart]
  rw [show (if n + 1 = 3 ∨ n + 1 = 2 then flags &&& PTE_LARGE else 0) =
    largeOf (n + 1) flags from rfl]
  generalize (if slotEnd start (n + 1) < last then slotEnd start (n + 1) else last) = mid at hpiece
  have hmidEnd : mid ≤ slotEnd start (n + 1) := le_slotEnd hpiece.same
  have htomap : wrap (wsub mid start + 1) = mid - start + 1 := by
    have hwhole := slot_mul (n := n + 1) (by have := hs.level.2; omega)
    have hslot : slot (n + 1) < 2 ^ 64 := by
      have := hs.level
      rw [slot]
      exact Nat.pow_lt_pow_right (by omega) (by omega)
    have := hpiece.inside
    have := hs.lt
    rw [wsub_of_le hpiece.le (by omega), wrap_of_lt (by omega)]
  have hroom' := hroom mid hpiece
  have hbelow := newTables_le_succ flags start mid phys n
  have hnone' : ∀ a, start ≤ a → a ≤ mid → leafOf s.mem (n + 1) p a = none := fun a ha ha' =>
    hnone a ha (ha'.trans hpiece.inside)
  have hindex : ∀ a, start ≤ a → a ≤ mid → index a (n + 1) = index start (n + 1) := fun a ha ha' => by
    rw [index, index, div_between hpiece.same.symm ha ha']
  refine ⟨mid, ?_⟩
  rw [htomap, get_eq (index_lt _ _), ok_bind]
  suffices h : ∃ s', _ = Except.ok (s', mid - start + 1) ∧
      Placed page flags s s' (n + 1) p start mid phys by
    obtain ⟨s', hok, hplaced⟩ := h
    exact ⟨s', hpiece, hok, hplaced⟩
  cases hpresent : (s.mem p (index start (n + 1))).testBit presentBit with
  | true =>
    have hchild : ptShape.child (n + 1) (s.mem p (index start (n + 1))) =
        some (s.mem p (index start (n + 1)) &&& PTE_PHYS_MASK) := by
      cases hc : ptShape.child (n + 1) (s.mem p (index start (n + 1))) with
      | none =>
        have hstays := hnone' start (Nat.le_refl _) hpiece.le
        rw [leafOf_end hc, if_pos hpresent] at hstays
        cases hstays
      | some c =>
        simp only [ptShape] at hc
        split at hc
        · exact hc.symm
        · cases hc
    have hlevel : n + 1 ≠ 1 := fun e => by
      rw [e, child_one] at hchild
      cases hchild
    obtain ⟨s', hok, hplaced⟩ := placed_below hsub hs hpiece htree hf (by omega) hchild
      fun a ha ha' => by
        rw [← hnone' a ha ha']
        exact (leafOf_congr (lookup_child (by rw [hindex a ha ha']; exact hchild))).symm
    refine ⟨s', ?_, hplaced.lift htree hf (by omega) hpiece.le hchild hpiece.same.symm⟩
    rw [if_neg (by simp), bugOn_false hlevel, ok_bind, hok, ok_bind]
  | false =>
    rw [if_pos (by simp)]
    have hleafIff : (n + 1 ≠ 4 ∧ mid - start + 1 = slot (n + 1) ∧
        (start % slot (n + 1) = 0 ∧ phys % slot (n + 1) = 0) ∧
        (largeOf (n + 1) flags ≠ 0 ∨ n + 1 = 1)) ↔
        Leafy flags (n + 1) ∧ phys % slot (n + 1) = start % slot (n + 1) ∧
        start % slot (n + 1) = 0 ∧ mid = slotEnd start (n + 1) := by
      have hle := hpiece.le
      rw [Leafy]
      constructor
      · rintro ⟨h₁, h₂, ⟨h₃, h₄⟩, h₅⟩
        exact ⟨⟨h₁, h₅⟩, h₄.trans h₃.symm, h₃, by omega⟩
      · rintro ⟨⟨h₁, h₅⟩, h₂, h₃, h₄⟩
        exact ⟨h₁, by omega, ⟨h₃, h₂.trans h₃⟩, h₅⟩
    by_cases hleaf : Leafy flags (n + 1) ∧ phys % slot (n + 1) = start % slot (n + 1) ∧
        start % slot (n + 1) = 0 ∧ mid = slotEnd start (n + 1)
    · obtain ⟨hleafy, hphys, haligned, hend⟩ := hleaf
      have hs' : Window (n + 1) start mid phys := by
        have := hs.lt
        have := hpiece.inside
        refine ⟨hs.level, hs.dvdStart, hpiece.dvd, hpiece.le, by omega, ?_, hs.dvdPhys, hs.ltPhys⟩
        exact (div_between hs.same hpiece.le hpiece.inside).symm
      refine ⟨_, ?_, placed_leaf hs' htree hpresent hleafy hpiece.same.symm
        ⟨haligned, hphys.trans haligned⟩ hend⟩
      rw [if_pos (hleafIff.mpr ⟨hleafy, hphys, haligned, hend⟩), set_eq (index_lt _ _), ok_bind]
    · obtain ⟨n, rfl⟩ : ∃ k, n = k + 1 := by
        rcases Nat.eq_zero_or_pos n with rfl | hn
        · -- the slots of level 1 are pages
          have h₁ := Nat.mod_eq_zero_of_dvd hs.dvdStart
          have h₂ := Nat.mod_eq_zero_of_dvd hs.dvdPhys
          have h₃ := hpiece.dvd
          have h₄ := hpiece.le
          rw [Nat.zero_add] at hlen hmidEnd hleaf
          rw [slot_one] at hlen hleaf
          have h₅ := (slotEnd_spec start 1).1
          exact absurd ⟨⟨by omega, Or.inr rfl⟩, h₂.trans h₁.symm, h₁, by omega⟩ hleaf
        · exact ⟨n - 1, by omega⟩
      have hdescend : newTables flags start mid phys (n + 1 + 1) =
          newTables flags start mid phys (n + 1) + 1 :=
        newTables_descend hpiece.le hpiece.same.symm hleaf
      have hpage := hf.ok s.taken (Nat.le_refl _) (by omega)
      obtain ⟨hchild, hmask⟩ := table_child (n := n + 2) (by omega) hpage.2.1 hpage.2.2
      have hpermits : Permits (page s.taken ||| (PTE_PRESENT ||| PTE_WRITE ||| PTE_USER)) := by
        refine ⟨?_, ?_⟩ <;>
        · rw [Nat.testBit_or]
          exact Bool.or_eq_true_iff.mpr (Or.inr (by decide))
      obtain ⟨⟨htree', hf', hentry, hnone''⟩, hback⟩ := placed_attach hf hroom' htree hpresent hchild
        hpermits hpiece.le hpiece.same.symm hleaf rfl
      obtain ⟨s', hok, hplaced⟩ := placed_below hsub hs hpiece htree' hf' (by simp only; omega) hentry
        fun a _ _ => hnone'' a
      refine ⟨s', ?_, hback s' hplaced⟩
      rw [if_neg fun h => hleaf (hleafIff.mp h), bugOn_false (by omega), ok_bind, poolGetPage, ok_bind]
      simp only
      rw [bugOn_false hpage.1, ok_bind, set_eq (index_lt _ _), ok_bind, hmask, hok, ok_bind]

/-- The loop maps the range. -/
theorem mapEntries_spec (hsub : Places page flags n sub) :
    ∀ {k : ℕ} {s : PtState} {start phys : ℕ}, Window (n + 1) start last phys →
    IsTree ptShape s.mem (n + 1) p → Fresh page limit s (n + 1) p →
    s.taken + newTables flags start last phys (n + 1) ≤ limit →
    (∀ a, start ≤ a → a ≤ last → leafOf s.mem (n + 1) p a = none) →
    start / slot (n + 1) + k + 1 = last / slot (n + 1) + 1 →
    ∃ s', mapEntries sub (some page) flags (n + 1) (slot (n + 1)) last p (k + 1) s
      (index start (n + 1)) start phys = .ok s' ∧ Placed page flags s s' (n + 1) p start last phys := by
  intro k
  induction k with
  | zero =>
    intro s start phys hs htree hf hroom hnone hk
    have hwhole : ∀ mid, Piece (n + 1) start last mid → mid = last := fun mid hp => by
      by_contra hne
      have hlt : mid < last := Nat.lt_of_le_of_ne hp.inside hne
      have := le_slotEnd (a := start) (n := n + 1) (b := last) (by omega)
      rw [← hp.ends hlt] at this
      omega
    obtain ⟨mid, s', hpiece, hok, hplaced⟩ := mapEntry_spec hsub hs htree hf
      (fun mid hp => by rw [hwhole mid hp]; exact hroom) hnone
    refine ⟨s', ?_, hwhole mid hpiece ▸ hplaced⟩
    rw [mapEntries, hok, ok_bind]
    rfl
  | succ k ih =>
    intro s start phys hs htree hf hroom hnone hk
    have hn := hs.level.2
    have hlt64 := hs.lt
    -- the first piece ends at a slot
    have hcut : ∀ mid, Piece (n + 1) start last mid → mid < last ∧ (mid + 1) % slot (n + 1) = 0 ∧
        (mid + 1) / slot (n + 1) = start / slot (n + 1) + 1 := fun mid hp => by
      have hlt : mid < last := by
        refine Nat.lt_of_le_of_ne hp.inside fun e => ?_
        have := hp.same
        rw [e] at this
        omega
      rw [hp.ends hlt, slotEnd_succ, Nat.mul_mod_left, Nat.mul_div_cancel _ (slot_pos _)]
      exact ⟨hp.ends hlt ▸ hlt, rfl, rfl⟩
    have hadd : ∀ mid, Piece (n + 1) start last mid → newTables flags start last phys (n + 1) =
        newTables flags start mid phys (n + 1) +
          newTables flags (mid + 1) last (wrap (phys + (mid + 1 - start))) (n + 1) := fun mid hp =>
      newTables_add flags phys hp.le (hcut mid hp).1 hn (hcut mid hp).2.1
    obtain ⟨mid, s', hpiece, hok, hplaced⟩ := mapEntry_spec hsub hs htree hf
      (fun mid hp => by have := hadd mid hp; omega) hnone
    obtain ⟨hlt, hcut, hnext⟩ := hcut mid hpiece
    have hsum := hadd mid hpiece
    have hused := hplaced.used
    have hle := hpiece.le
    have hin : ∀ {a}, start ≤ a → a ≤ last → a / slot (n + 2) = start / slot (n + 2) :=
      div_between hs.same
    have hmid := hin (Nat.le_succ_of_le hle) hlt
    have hphys : wrap (phys + (mid + 1 - start)) < 2 ^ 64 := by
      rw [wrap_eq]
      exact Nat.mod_lt _ (Nat.two_pow_pos 64)
    have hspan : Window (n + 1) (mid + 1) last (wrap (phys + (mid + 1 - start))) := by
      refine ⟨hs.level, hpiece.dvd, hs.dvdLast, hlt, hlt64, hmid.trans hs.same, ?_, hphys⟩
      refine Nat.dvd_of_mod_eq_zero ?_
      have h := (phys_mod (k := 1) phys (by decide) (Nat.le_succ_of_le hle)).mpr (by
        rw [slot_one, Nat.mod_eq_zero_of_dvd hs.dvdPhys, Nat.mod_eq_zero_of_dvd hs.dvdStart])
      rwa [slot_one, Nat.mod_eq_zero_of_dvd hpiece.dvd] at h
    have hindex : index start (n + 1) + 1 = index (mid + 1) (n + 1) := by
      have h512 := hmid
      rw [slot_succ (n + 1), ← Nat.div_div_eq_div_mul, ← Nat.div_div_eq_div_mul] at h512
      rw [index, index, hnext] at *
      omega
    obtain ⟨s'', hok', hplaced'⟩ := ih hspan hplaced.grows.tree
      (hf.extends hplaced.taken hplaced.grows) (by omega)
      (fun a ha ha' => by
        rw [hplaced.leaf a (hin (by omega) ha'), if_neg fun hr => absurd hr.2 (by omega)]
        exact hnone a (by omega) ha') (by omega)
    refine ⟨s'', ?_, hplaced.trans hn hplaced' hle hlt hcut hs.same⟩
    rw [mapEntries, hok, ok_bind]
    simp only
    rw [wrap_of_lt (show start + (mid - start + 1) < 2 ^ 64 by omega), hindex,
      show start + (mid - start + 1) = mid + 1 by omega,
      show mid - start + 1 = mid + 1 - start by omega, hok']

/-- `__pt_map_pages` maps the range, at every level. -/
theorem ptMapPagesInner_places : ∀ n, Places page flags n (ptMapPagesInner (some page) flags n)
  | 0, _, _, _, _, _, _, hs, _, _, _, _ => absurd hs.level.1 (by decide)
  | n + 1, s, p, start, last, phys, limit, hs, htree, hf, hroom, hnone => by
      have hle : start / slot (n + 1) ≤ last / slot (n + 1) := Nat.div_le_div_right hs.le
      obtain ⟨s', hok, hplaced⟩ := mapEntries_spec (ptMapPagesInner_places n) hs htree hf
        hroom hnone (k := last / slot (n + 1) - start / slot (n + 1)) (by omega)
      refine ⟨s', ?_, hplaced⟩
      rw [ptMapPagesInner, pmlSize_eq hs.level, ok_bind, pmlOffs_eq hs.level, ok_bind,
        pmlOffs_eq hs.level, ok_bind, index_count hs.le hs.same, hok]

end FilesKernel.Paging
