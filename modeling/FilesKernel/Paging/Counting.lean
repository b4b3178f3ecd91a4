import FilesKernel.Paging.Attributes

/-! How many tables a range takes.

    `__pt_count_pages` decides about the alignment once for a table, and does not look at how much of
    a slot is mapped; `__pt_map_pages` decides for each entry. So they differ where the range begins
    or ends inside a slot that could be a large page. -/

namespace FilesKernel.Paging
open CExec CWord Radix

variable {page : ℕ → ℕ} {s : PtState} {k n a start last last' mid stop phys flags pml4 : ℕ}

/-- How many slots of level `k` the count takes for tables. -/
def countedSlots (k start last phys : ℕ) : ℕ :=
  if phys % slot k ≠ start % slot k then touched k start last
  else if start % slot k ≠ 0 then touched k start (min last (slotEnd start (k + 1)))
  else 0

/-- How many slots of level `k` need tables. -/
def neededSlots (k start last phys : ℕ) : ℕ :=
  if phys % slot k ≠ start % slot k then touched k start last
  else touched k start last - wholes k start last

/-- The slots of all levels from 2 to `n`. -/
def counted (start last phys : ℕ) : ℕ → ℕ
  | n + 2 =>
    (if n + 2 = 4 then touched 4 start last else countedSlots (n + 2) start last phys) +
      counted start last phys (n + 1)
  | _ => 0

/-! ### The formula -/

theorem countedSlots_add (phys : ℕ) (hk : k < n) (hn : n ≤ 4) (hle : start ≤ mid) (hlt : mid < last)
    (hcut : (mid + 1) % slot n = 0) : countedSlots k start last phys =
      countedSlots k start mid phys +
        countedSlots k (mid + 1) last (wrap (phys + (mid + 1 - start))) := by
  have hcut' := mod_slot_zero (Nat.le_of_lt hk) hcut
  have hphys : wrap (phys + (mid + 1 - start)) % slot k = (mid + 1) % slot k ↔
      phys % slot k = start % slot k := phys_mod phys (by omega) (Nat.le_succ_of_le hle)
  have hend := slotEnd_le_cut (k := k + 1) hk hcut hle
  by_cases hcong : phys % slot k = start % slot k
  · have hbehind : countedSlots k (mid + 1) last (wrap (phys + (mid + 1 - start))) = 0 := by
      rw [countedSlots, if_neg (not_not.mpr (hphys.mpr hcong)), if_neg (not_not.mpr hcut')]
    rw [hbehind, Nat.add_zero, countedSlots, countedSlots, if_neg (not_not.mpr hcong),
      if_neg (not_not.mpr hcong), min_eq_right hend, min_eq_right (hend.trans (Nat.le_of_lt hlt))]
  · rw [countedSlots, countedSlots, countedSlots, if_pos hcong, if_pos hcong,
      if_pos fun h => hcong (hphys.mp h)]
    exact touched_add hle hlt hcut'

theorem counted_add (hn : n ≤ 3) (hle : start ≤ mid) (hlt : mid < last)
    (hcut : (mid + 1) % slot (n + 1) = 0) : counted start last phys n = counted start mid phys n +
      counted (mid + 1) last (wrap (phys + (mid + 1 - start))) n := by
  induction n with
  | zero => rfl
  | succ n ih =>
    cases n with
    | zero => rfl
    | succ n =>
      have hslots := countedSlots_add phys (Nat.lt_succ_self (n + 2)) (by omega) hle hlt hcut
      rw [counted, counted, counted, if_neg (by omega), if_neg (by omega), if_neg (by omega), hslots,
        ih (by omega) (mod_slot_zero (Nat.le_succ _) hcut)]
      omega

/-- Nothing is counted below a table whose range begins at a slot on both sides. -/
theorem counted_aligned (hn : n ≤ 3) (hstart : start % slot n = 0) (hphys : phys % slot n = 0) :
    counted start last phys n = 0 := by
  induction n with
  | zero => rfl
  | succ n ih =>
    cases n with
    | zero => rfl
    | succ n =>
      have hslots : countedSlots (n + 2) start last phys = 0 := by
        rw [countedSlots, if_neg (not_not.mpr (hphys.trans hstart.symm)), if_neg (not_not.mpr hstart)]
      rw [counted, if_neg (by omega), hslots, ih (by omega) (mod_slot_zero (Nat.le_succ _) hstart)
        (mod_slot_zero (Nat.le_succ _) hphys)]

/-- The table of level `n` takes its own slots and those below, unless it begins at a slot. -/
theorem counted_succ (hn : n + 2 ≤ 3) (hsame : start / slot (n + 3) = last / slot (n + 3)) :
    counted start last phys (n + 2) =
      if start % slot (n + 2) ≠ 0 ∨ phys % slot (n + 2) ≠ 0 then
        touched (n + 2) start last + counted start last phys (n + 1)
      else 0 := by
  have hend : min last (slotEnd start (n + 3)) = last := min_eq_left (le_slotEnd hsame.symm)
  split
  · rename_i h
    rw [counted, if_neg (by omega), countedSlots, hend]
    split
    · rfl
    · rename_i heq
      rw [if_pos]
      intro hzero
      rw [not_not, hzero] at heq
      rcases h with h | h
      · exact h hzero
      · exact h heq
  · rename_i h
    rw [not_or, not_not, not_not] at h
    exact counted_aligned hn h.1 h.2

/-! ### The loop -/

variable {sub : ℕ → ℕ → ℕ → Exec ℕ} {lvl size : ℕ} {notaligned : Bool}

/-- Without the recursive call, nothing is added. -/
theorem countEntries_none (h : ¬ (lvl = 4 ∨ notaligned = true)) :
    ∀ k start phys, countEntries sub lvl size stop notaligned k start phys = .ok 0
  | 0, _, _ => rfl
  | k + 1, start, phys => by
      rw [countEntries, if_neg h, countEntries_none h k]
      rfl

/-- Where each entry has one table, there are as many as iterations. -/
theorem countEntries_one (hsub : ∀ a b c, sub a b c = .ok 1) (h : lvl = 4 ∨ notaligned = true) :
    ∀ k start phys, countEntries sub lvl size stop notaligned k start phys = .ok k
  | 0, _, _ => rfl
  | k + 1, start, phys => by
      rw [countEntries, if_pos h, hsub, countEntries_one hsub h k, Nat.add_comm]
      rfl

/-- The end of the slot is found where the sum does not wrap around. -/
theorem entryStop_eq (ha : a + slot n < 2 ^ 64) :
    wrap (a + slot n) / slot n * slot n = slotEnd a n + 1 := by
  rw [wrap_of_lt ha, Nat.add_div_right _ (slot_pos n), slotEnd_succ]

/-- Behind a slot that ends before `last` there is another one. -/
theorem slot_fits (hn : n ≤ 4) (h : slotEnd a n < last) (hlt : last < 2 ^ 64) :
    a + slot n < 2 ^ 64 := by
  have hsucc := slotEnd_succ a n
  have hwhole := slot_mul (n := n) (by omega)
  have hdiv : a / slot n + 1 < 2 ^ (61 - 9 * n) := by
    refine Nat.lt_of_mul_lt_mul_left (a := slot n) ?_
    rw [hwhole, Nat.mul_comm, ← hsucc]
    omega
  have hmul : (a / slot n + 1 + 1) * slot n ≤ 2 ^ 64 := by
    rw [← hwhole, Nat.mul_comm]
    exact Nat.mul_le_mul_left _ hdiv
  rw [Nat.add_mul, Nat.one_mul, ← hsucc] at hmul
  have := (slotEnd_spec a n).1
  omega

/-- The loop counts what the recursive calls count for the pieces of the range; the call for the
    last entry may count up to `last'`. -/
theorem countEntries_spec (hn : n ≤ 3) (hgo : n + 1 = 4 ∨ notaligned = true) (hle' : last ≤ last')
    (hsame : last' / slot (n + 1) = last / slot (n + 1)) (hlt64 : last + 1 < 2 ^ 64)
    (hpiece : ∀ a phys, slotEnd a (n + 1) < last → sub a (slotEnd a (n + 1) + 1) phys =
      .ok (1 + counted a (slotEnd a (n + 1)) phys n))
    (hfinal : ∀ a phys, a ≤ last → a / slot (n + 1) = last / slot (n + 1) →
      sub a (if wrap (a + slot (n + 1)) / slot (n + 1) * slot (n + 1) < last + 1 then
        wrap (a + slot (n + 1)) / slot (n + 1) * slot (n + 1) else last + 1) phys =
          .ok (1 + counted a last' phys n)) :
    ∀ k start phys, start ≤ last → start / slot (n + 1) + k = last / slot (n + 1) →
      countEntries sub (n + 1) (slot (n + 1)) (last + 1) notaligned (k + 1) start phys =
        .ok (touched (n + 1) start last' + counted start last' phys n) := by
  intro k
  induction k with
  | zero =>
    intro start phys hle hk
    have hone : touched (n + 1) start last' = 1 := by
      rw [touched, hsame, ← hk]
      omega
    rw [countEntries, if_pos hgo, hfinal start phys hle hk, hone]
    rfl
  | succ k ih =>
    intro start phys hle hk
    have hpos := slot_pos (n + 1)
    obtain ⟨hend, hdiv, -⟩ := slotEnd_spec start (n + 1)
    have hsucc := slotEnd_succ start (n + 1)
    have hnext : (slotEnd start (n + 1) + 1) / slot (n + 1) = start / slot (n + 1) + 1 := by
      rw [hsucc, Nat.mul_div_cancel _ hpos]
    have hcut : (slotEnd start (n + 1) + 1) % slot (n + 1) = 0 := by
      rw [hsucc, Nat.mul_mod_left]
    have hlt : slotEnd start (n + 1) < last := by
      by_contra hge
      have hback : last / slot (n + 1) ≤ slotEnd start (n + 1) / slot (n + 1) :=
        Nat.div_le_div_right (Nat.not_lt.mp hge)
      omega
    have hentry := entryStop_eq (slot_fits (by omega) (show slotEnd start (n + 1) < last from hlt)
      (by omega))
    have hrest := ih (slotEnd start (n + 1) + 1) (wrap (phys + (slotEnd start (n + 1) + 1 - start)))
      hlt (by omega)
    have hlt' : slotEnd start (n + 1) < last' := Nat.lt_of_lt_of_le hlt hle'
    have hone : touched (n + 1) start (slotEnd start (n + 1)) = 1 := by
      rw [touched, hdiv]
      omega
    rw [touched_add hend hlt' hcut, counted_add hn hend hlt' hcut, hone, countEntries, if_pos hgo,
      hentry, if_pos (show slotEnd start (n + 1) + 1 < last + 1 by omega), hpiece start phys hlt,
      wsub_of_le (show start ≤ slotEnd start (n + 1) + 1 by omega) (by omega),
      wrap_of_lt (show start + (slotEnd start (n + 1) + 1 - start) < 2 ^ 64 by omega),
      Nat.add_sub_cancel' (show start ≤ slotEnd start (n + 1) + 1 by omega), ok_bind, hrest]
    refine congrArg Except.ok (?_ : 1 + _ + (_ + _) = _)
    omega

/-! ### The levels -/

theorem ptCountPagesInner_one (start stop phys : ℕ) : ptCountPagesInner 1 start stop phys = .ok 1 := by
  rw [ptCountPagesInner, pmlSize_eq (by decide), ok_bind, pmlOffs_eq (by decide), ok_bind,
    pmlOffs_eq (by decide), ok_bind]
  rfl

theorem ptCountPagesInner_eq (hn : n + 2 ≤ 4) (start stop phys : ℕ) :
    ptCountPagesInner (n + 2) start stop phys = (do
      let count ← countEntries (ptCountPagesInner (n + 1)) (n + 2) (slot (n + 2)) stop
        (decide (start % slot (n + 2) ≠ 0 ∨ phys % slot (n + 2) ≠ 0))
        (index (wsub stop 1) (n + 2) + 1 - index start (n + 2)) start phys
      .ok (1 + count)) := by
  rw [ptCountPagesInner, pmlSize_eq (by omega), ok_bind, pmlOffs_eq (by omega), ok_bind,
    pmlOffs_eq (by omega), ok_bind]
  exact if_neg (by omega)

/-- A table of level 2 has one table for each entry, or none. -/
theorem ptCountPagesInner_two (start stop phys : ℕ) : ptCountPagesInner 2 start stop phys =
    .ok (1 + if start % slot 2 ≠ 0 ∨ phys % slot 2 ≠ 0 then
      index (wsub stop 1) 2 + 1 - index start 2 else 0) := by
  rw [ptCountPagesInner_eq (by decide)]
  split
  · rename_i h
    rw [countEntries_one ptCountPagesInner_one (Or.inr (decide_eq_true h)), ok_bind]
  · rename_i h
    rw [countEntries_none fun hgo => by
      rcases hgo with hgo | hgo
      · omega
      · exact h (of_decide_eq_true hgo), ok_bind]

/-- What is counted for a range below one table. -/
def Counts (n : ℕ) : Prop := ∀ start last phys, start ≤ last → last < 2 ^ 64 - slot 4 →
  start / slot (n + 1) = last / slot (n + 1) →
    ptCountPagesInner n start (last + 1) phys = .ok (1 + counted start last phys n)

theorem slot_four : slot 4 = 2 ^ 39 := rfl

/-- From the level below to the next. -/
theorem Counts.succ (hn : n + 2 ≤ 4) (h : Counts (n + 1)) : Counts (n + 2) := by
  intro start last phys hle hlast hsame
  have hdiv : start / slot (n + 2) ≤ last / slot (n + 2) := Nat.div_le_div_right hle
  have hslot : slot (n + 2) ≤ slot 4 := Nat.le_of_dvd (slot_pos 4) (slot_dvd_slot hn)
  rw [slot_four] at hlast hslot
  rw [ptCountPagesInner_eq hn, wsub_of_le (by omega) (by omega), Nat.add_sub_cancel,
    index_count hle hsame]
  by_cases hgo : n + 2 = 4 ∨ decide (start % slot (n + 2) ≠ 0 ∨ phys % slot (n + 2) ≠ 0) = true
  · have hpiece : ∀ a phys, slotEnd a (n + 2) < last →
        ptCountPagesInner (n + 1) a (slotEnd a (n + 2) + 1) phys =
          .ok (1 + counted a (slotEnd a (n + 2)) phys (n + 1)) := fun a phys ha => by
      obtain ⟨hend, hsame', -⟩ := slotEnd_spec a (n + 2)
      exact h a _ phys hend (by rw [slot_four]; omega) hsame'.symm
    rw [countEntries_spec (by omega) hgo (Nat.le_refl _) rfl (by omega) hpiece
      (fun a phys ha hsame' => by
        have hend : last ≤ slotEnd a (n + 2) := le_slotEnd hsame'.symm
        rw [entryStop_eq (show a + slot (n + 2) < 2 ^ 64 by omega), if_neg (by omega)]
        exact h a last phys ha (by rw [slot_four]; omega) hsame') _ start phys hle
      (Nat.add_sub_cancel' hdiv), ok_bind]
    by_cases htop : n + 2 = 4
    · rw [counted, if_pos htop]
      obtain rfl : n = 2 := by omega
      rfl
    · rw [counted_succ (by omega) hsame, if_pos (by
        rcases hgo with hgo | hgo
        · exact absurd hgo htop
        · exact of_decide_eq_true hgo)]
  · rw [countEntries_none hgo, ok_bind]
    rw [not_or, decide_eq_true_eq, not_or, not_not, not_not] at hgo
    rw [counted_aligned (by omega) hgo.2.1 hgo.2.2]

theorem counts : ∀ n, n + 1 ≤ 4 → Counts (n + 1)
  | 0, _ => fun start last phys _ _ _ => ptCountPagesInner_one start (last + 1) phys
  | n + 1, hn => (counts n (Nat.le_of_succ_le hn)).succ hn

/-- Where the count for a range ends: in the last slot of level 4, it runs to the end of the address
    space. -/
def countEnd (last : ℕ) : ℕ := if last / slot 4 = 2 ^ 25 - 1 then 2 ^ 64 - 1 else last

theorem slot_two : slot 2 = 2 ^ 21 := rfl

theorem slot_three : slot 3 = 2 ^ 30 := rfl

/-- Behind the first entry, the range is empty, and each table of level 2 is counted alike. -/
theorem countEntries_zero (h : notaligned = true) (hphys : phys < 2 ^ 64) :
    ∀ k, countEntries (ptCountPagesInner 2) 3 (slot 3) 0 notaligned k 0 phys =
      .ok (k * (1 + if phys % slot 2 ≠ 0 then 512 else 0))
  | 0 => by rw [Nat.zero_mul]; rfl
  | k + 1 => by
      have hall : index (wsub 0 1) 2 + 1 - index 0 2 = 512 := by
        rw [wsub_eq]
        decide
      rw [countEntries, if_pos (Or.inr h), if_neg (Nat.not_lt_zero _), ptCountPagesInner_two, hall,
        wsub_of_le (Nat.le_refl 0) (by decide), Nat.sub_zero, Nat.add_zero, Nat.add_zero,
        wrap_of_lt hphys, wrap_of_lt (by decide), countEntries_zero h hphys k, Nat.zero_mod]
      refine congrArg Except.ok (?_ : 1 + _ + _ = _)
      rw [Nat.succ_mul, Nat.add_comm]
      simp only [ne_eq, not_true, false_or]

/-- A table of level 3 at the end of the address space, where the end of the range wraps around. -/
theorem ptCountPagesInner_top (hlow : 2 ^ 64 - slot 4 ≤ start) (hlt : start < 2 ^ 64) :
    ptCountPagesInner 3 start 0 phys = .ok (1 + counted start (2 ^ 64 - 1) phys 3) := by
  have hlow' := hlow
  rw [slot_four] at hlow'
  have hidx : index start 3 = start / 2 ^ 30 - (2 ^ 34 - 512) := by
    rw [index, slot_three]
    omega
  have hcount : index (wsub 0 1) 3 + 1 - index start 3 = 511 - index start 3 + 1 := by
    rw [wsub_eq, show index ((0 + (2 ^ 64 - 1 % 2 ^ 64)) % 2 ^ 64) 3 = 511 from by decide, hidx]
    omega
  have hall : index (wsub 0 1) 2 = 511 := by
    rw [wsub_eq]
    decide
  rw [ptCountPagesInner_eq (by decide), hcount]
  by_cases hgo : decide (start % slot 3 ≠ 0 ∨ phys % slot 3 ≠ 0) = true
  · -- the first entry is counted from `start` on
    have hback : wrap (start + wsub 0 start) = 0 := by
      rw [wsub_eq, wrap_eq]
      omega
    have hphys : wrap (phys + wsub 0 start) < 2 ^ 64 := by
      rw [wrap_eq]
      exact Nat.mod_lt _ (Nat.two_pow_pos 64)
    have hcong : wrap (phys + wsub 0 start) % slot 2 ≠ 0 ↔ phys % slot 2 ≠ start % slot 2 := by
      rw [wsub_eq, wrap_eq, slot_two]
      omega
    have htop : start / slot (1 + 3) = (2 ^ 64 - 1) / slot (1 + 3) := by
      rw [show slot (1 + 3) = 2 ^ 39 from rfl]
      omega
    rw [counted_succ (by decide) htop, if_pos (of_decide_eq_true hgo), countEntries,
      if_pos (Or.inr hgo), if_neg (Nat.not_lt_zero _), ptCountPagesInner_two, hback,
      countEntries_zero hgo hphys]
    refine congrArg Except.ok (?_ : 1 + (1 + _ + _) = 1 + (_ + _))
    rw [hall, show counted start (2 ^ 64 - 1) phys (1 + 1) =
      countedSlots 2 start (2 ^ 64 - 1) phys from rfl, countedSlots]
    -- the slots from `start` on, of both levels
    have hthree : touched (1 + 2) start (2 ^ 64 - 1) = 511 - index start 3 + 1 := by
      rw [touched, hidx, slot_three]
      omega
    have htwo : touched 2 start (2 ^ 64 - 1) =
        (511 - index start 3) * 512 + (511 + 1 - index start 2) := by
      rw [touched, hidx, index, slot_two]
      omega
    have hfirst : touched 2 start (min (2 ^ 64 - 1) (slotEnd start (2 + 1))) =
        511 + 1 - index start 2 := by
      have hsucc : slotEnd start 3 + 1 = (start / slot 3 + 1) * slot 3 := slotEnd_succ start 3
      rw [slot_three] at hsucc
      rw [min_eq_right (show slotEnd start 3 ≤ 2 ^ 64 - 1 by omega), touched, index, slot_two]
      omega
    simp only [hcong, hthree, htwo, hfirst]
    by_cases hc : phys % slot 2 = start % slot 2
    · by_cases hs : start % slot 2 = 0
      · rw [if_neg (not_or.mpr ⟨not_not.mpr hs, not_not.mpr (hc.trans hs)⟩), if_neg (not_not.mpr hc),
          if_neg (not_not.mpr hc), if_neg (not_not.mpr hs)]
        omega
      · rw [if_pos (Or.inl hs), if_neg (not_not.mpr hc), if_neg (not_not.mpr hc), if_pos hs]
        omega
    · rw [if_pos hc, if_pos hc, if_pos (by omega), Nat.mul_add]
      omega
  · rw [countEntries_none fun h => by
      rcases h with h | h
      · omega
      · exact hgo h, ok_bind]
    rw [decide_eq_true_eq, not_or, not_not, not_not] at hgo
    rw [counted_aligned (by decide) hgo.1 hgo.2]

/-- What is counted, for a range that does not end at the end of the address space. -/
theorem ptCountPages_eq (phys : ℕ) (hle : start ≤ last) (hlt : last + 1 < 2 ^ 64)
    (hsame : start / slot 5 = last / slot 5) : ptCountPages start (last + 1) phys =
      .ok (1 + (touched 4 start last + counted start (countEnd last) phys 3)) := by
  rw [ptCountPages, countEnd]
  split
  · rename_i htop
    have hdiv : start / slot 4 ≤ last / slot 4 := Nat.div_le_div_right hle
    have hend : (2 ^ 64 - 1) / slot 4 = last / slot 4 := htop.symm ▸ by decide
    have hpiece : ∀ a phys, slotEnd a 4 < last → ptCountPagesInner 3 a (slotEnd a 4 + 1) phys =
        .ok (1 + counted a (slotEnd a 4) phys 3) := fun a phys ha => by
      obtain ⟨hle', hsame', -⟩ := slotEnd_spec a 4
      refine counts 2 (by decide) a _ phys hle' ?_ hsame'.symm
      have hsucc := slotEnd_succ a 4
      rw [slot_four] at hsucc htop ⊢
      omega
    have hfinal : ∀ a phys, a ≤ last → a / slot 4 = last / slot 4 →
        ptCountPagesInner 3 a (if wrap (a + slot 4) / slot 4 * slot 4 < last + 1 then
          wrap (a + slot 4) / slot 4 * slot 4 else last + 1) phys =
            .ok (1 + counted a (2 ^ 64 - 1) phys 3) := fun a phys ha hsame' => by
      have hzero : wrap (a + slot 4) / slot 4 * slot 4 = 0 := by
        rw [wrap_eq]
        rw [slot_four] at hsame' htop ⊢
        omega
      rw [hzero, if_pos (Nat.succ_pos last)]
      refine ptCountPagesInner_top ?_ (by omega)
      rw [slot_four] at hsame' htop ⊢
      omega
    rw [ptCountPagesInner_eq (by decide), wsub_of_le (by omega) hlt, Nat.add_sub_cancel,
      index_count hle hsame, countEntries_spec (n := 3) (by decide) (Or.inl rfl) (by omega) hend hlt
        hpiece hfinal _ start phys hle (Nat.add_sub_cancel' hdiv), ok_bind, touched, hend, ← touched]
  · rename_i htop
    refine counts 3 (by decide) start last phys hle ?_ hsame
    rw [slot_four] at htop ⊢
    omega

/-! ### Too many and too few -/

/-- The slots of level `k` that are counted although they need no table: those that leaves map as a
    whole in the first table of this level, if the range does not begin at a slot, and those behind
    the range. -/
def surplus (k start last phys : ℕ) : ℕ :=
  if phys % slot k ≠ start % slot k then touched k start (countEnd last) - touched k start last
  else if start % slot k ≠ 0 then
    touched k start (min (countEnd last) (slotEnd start (k + 1))) -
      touched k start (min last (slotEnd start (k + 1))) +
      wholes k start (min last (slotEnd start (k + 1)))
  else 0

/-- The slots of level `k` that are not counted although they need a table: the one in which the range
    ends, in a table that seems to be aligned. -/
def missed (k start last phys : ℕ) : ℕ :=
  if phys % slot k = start % slot k ∧ (last + 1) % slot k ≠ 0 ∧
      (start % slot k = 0 ∨ slotEnd start (k + 1) < last) then 1
  else 0

theorem touched_mono (k start : ℕ) (h : last ≤ last') : touched k start last ≤ touched k start last' :=
  Nat.succ_le_succ (Nat.sub_le_sub_right (Nat.div_le_div_right h) _)

/-- From a slot on, only the last one may need a table. -/
theorem touched_sub_wholes (hstart : start % slot k = 0) (hle : start ≤ last) :
    touched k start last = wholes k start last + if (last + 1) % slot k ≠ 0 then 1 else 0 := by
  have hdiv : start / slot k ≤ last / slot k := Nat.div_le_div_right hle
  rw [touched, wholes, ceil_slot, succ_div_slot, if_pos hstart]
  split_ifs <;> omega

theorem countedSlots_missed (k phys : ℕ) (hle : start ≤ last) (hlast : last ≤ countEnd last) :
    countedSlots k start (countEnd last) phys + missed k start last phys =
      neededSlots k start last phys + surplus k start last phys := by
  have hmono := touched_mono k start hlast
  have hwholes := wholes_le (k := k) hle
  rw [countedSlots, missed, neededSlots, surplus]
  by_cases hc : phys % slot k = start % slot k
  · rw [if_neg (not_not.mpr hc), if_neg (not_not.mpr hc), if_neg (not_not.mpr hc)]
    by_cases hs : start % slot k = 0
    · have hsub := touched_sub_wholes hs hle
      rw [if_neg (not_not.mpr hs), if_neg (not_not.mpr hs), hsub]
      by_cases he : (last + 1) % slot k = 0
      · rw [if_neg fun h => h.2.1 he, if_neg (not_not.mpr he)]
        omega
      · rw [if_pos ⟨hc, he, Or.inl hs⟩, if_pos he]
        omega
    · rw [if_pos hs, if_pos hs]
      have hend := (slotEnd_spec start (k + 1)).1
      rcases Nat.lt_or_ge (slotEnd start (k + 1)) last with hlt | hge
      · -- the slots behind the first table are not counted
        have hcut : (slotEnd start (k + 1) + 1) % slot k = 0 :=
          mod_slot_zero (Nat.le_succ k) (by rw [slotEnd_succ, Nat.mul_mod_left])
        have hsub := touched_sub_wholes hcut (show slotEnd start (k + 1) + 1 ≤ last from hlt)
        have hfirst := wholes_le (k := k) hend
        rw [min_eq_right (Nat.le_of_lt hlt), min_eq_right (by omega), touched_add hend hlt hcut,
          wholes_add hend hlt hcut, hsub]
        by_cases he : (last + 1) % slot k = 0
        · rw [if_neg fun h => h.2.1 he, if_neg (not_not.mpr he)]
          omega
        · rw [if_pos ⟨hc, he, Or.inr hlt⟩, if_pos he]
          omega
      · have hmin : last ≤ min (countEnd last) (slotEnd start (k + 1)) := le_min hlast hge
        have hmono' := touched_mono k start hmin
        rw [if_neg fun h => by rcases h.2.2 with h | h <;> omega, min_eq_left hge]
        omega
  · rw [if_pos hc, if_pos hc, if_pos hc, if_neg fun h => hc h.1]
    omega

/-! ### Preallocation -/

/-- The tables that mapping takes are those that were counted, less the top one. -/
def CountExact (page : ℕ → ℕ) (s : PtState) (pml4 start stop phys flags : ℕ) : Prop :=
  ∃ count s', ptCountPages start stop phys = .ok count ∧
    ptMapPages (some page) s pml4 start stop phys flags = .ok s' ∧
    count = 1 + (s'.taken - s.taken)

/-- A range of pages in the upper half. -/
structure UpperRange (start stop : ℕ) : Prop where
  dvdStart : 2 ^ 12 ∣ start
  dvdStop : 2 ^ 12 ∣ stop
  low : higherBase ≤ start
  nonempty : start < stop
  lt : stop < 2 ^ 64

theorem UpperRange.window (h : UpperRange start stop) (hphys : 2 ^ 12 ∣ phys) (hlt : phys < 2 ^ 64) :
    Window 4 start (stop - 1) phys := by
  have hlow := h.low
  have hne := h.nonempty
  have hlt' := h.lt
  rw [higherBase] at hlow
  refine ⟨by decide, h.dvdStart, ?_, by omega, by omega, ?_, hphys, hlt⟩
  · rw [Nat.sub_add_cancel (by omega)]
    exact h.dvdStop
  · rw [show slot (4 + 1) = 2 ^ 48 from rfl]
    omega

theorem newTables_eq (hlarge : flags.testBit largeBit = true) :
    newTables flags start last phys 4 =
      touched 4 start last + (neededSlots 3 start last phys + neededSlots 2 start last phys) := by
  have hleafy : ∀ k, k = 3 ∨ k = 2 → Leafy flags k := fun k hk =>
    ⟨by omega, Or.inl (largeOf_ne_zero.mpr ⟨hk, and_large_ne_zero.mpr hlarge⟩)⟩
  have hneeded : ∀ k, k = 3 ∨ k = 2 →
      touched k start last - leavesOf flags k start last phys = neededSlots k start last phys :=
    fun k hk => by
      rw [leavesOf, neededSlots]
      by_cases hc : phys % slot k = start % slot k
      · rw [if_pos ⟨hleafy k hk, hc⟩, if_neg (not_not.mpr hc)]
      · rw [if_neg fun h => hc h.2, if_pos hc, Nat.sub_zero]
  have htop : leavesOf flags 4 start last phys = 0 := if_neg fun h => h.1.1 rfl
  have hsum : newTables flags start last phys 4 =
      (touched 4 start last - leavesOf flags 4 start last phys) +
        ((touched 3 start last - leavesOf flags 3 start last phys) +
          (touched 2 start last - leavesOf flags 2 start last phys)) := rfl
  rw [hsum, htop, hneeded 3 (Or.inl rfl), hneeded 2 (Or.inr rfl), Nat.sub_zero]

/-- In an empty table, mapping takes a table for each slot that is not a leaf. -/
theorem ptMapPages_taken (flags : ℕ) (h : UpperRange start stop) (hphys : 2 ^ 12 ∣ phys)
    (hlt : phys < 2 ^ 64) (hempty : ∀ i < ptEntries, (s.mem pml4 i).testBit presentBit = false)
    (hf : Fresh page (s.taken + tablesFor 4 start (stop - 1)) s 4 pml4) :
    ∃ s', ptMapPages (some page) s pml4 start stop phys flags = .ok s' ∧
      s'.taken - s.taken = touched 4 start (stop - 1) +
        (neededSlots 3 start (stop - 1) phys + neededSlots 2 start (stop - 1) phys) := by
  have hne := h.nonempty
  have hlt' := h.lt
  have habsent : ∀ a, (s.mem pml4 (index a 4)).testBit presentBit = false := fun a =>
    hempty _ (index_lt a 4)
  have hplaces : Places page (flags ||| PTE_PRESENT ||| PTE_LARGE) 4 _ := ptMapPagesInner_places 4
  obtain ⟨s', hok, hplaced⟩ := hplaces s pml4 start (stop - 1) phys _ (h.window hphys hlt)
    (IsTree.empty fun i hi => child_absent (hempty i hi)) hf
    (Nat.add_le_add_left (newTables_le_tablesFor 4) _) fun a _ _ => leafOf_absent (habsent a)
  have hcount := hplaced.count fun a _ _ => stopLevel_end (child_absent (habsent a))
  refine ⟨s', ?_, ?_⟩
  · rw [ptMapPages, bugOn_false (dvd_mod h.dvdStart), ok_bind, bugOn_false (dvd_mod h.dvdStop), ok_bind,
      wsub_of_le (by omega) hlt', hok]
  · rw [hcount, Nat.add_sub_cancel_left, newTables_eq (by
      rw [Nat.testBit_or]
      exact Bool.or_eq_true_iff.mpr (Or.inr (by decide)))]

/-- The count is exact if and only if the slots counted in excess are as many as those missed. -/
theorem countExact_iff (h : UpperRange start stop) (hphys : 2 ^ 12 ∣ phys) (hlt : phys < 2 ^ 64)
    (hempty : ∀ i < ptEntries, (s.mem pml4 i).testBit presentBit = false)
    (hf : Fresh page (s.taken + tablesFor 4 start (stop - 1)) s 4 pml4) :
    CountExact page s pml4 start stop phys flags ↔
      surplus 3 start (stop - 1) phys + surplus 2 start (stop - 1) phys =
        missed 3 start (stop - 1) phys + missed 2 start (stop - 1) phys := by
  have hne := h.nonempty
  have hlt' := h.lt
  have hs := h.window hphys hlt
  obtain ⟨s', hok, htaken⟩ := ptMapPages_taken flags h hphys hlt hempty hf
  have hcount := ptCountPages_eq phys hs.le (by omega) hs.same
  rw [Nat.sub_add_cancel (show 1 ≤ stop by omega)] at hcount
  have hlast : stop - 1 ≤ countEnd (stop - 1) := by
    rw [countEnd]
    split <;> omega
  have hthree := countedSlots_missed 3 phys hs.le hlast
  have htwo := countedSlots_missed 2 phys hs.le hlast
  have hsum : counted start (countEnd (stop - 1)) phys 3 =
      countedSlots 3 start (countEnd (stop - 1)) phys +
        countedSlots 2 start (countEnd (stop - 1)) phys := rfl
  constructor
  · rintro ⟨count, s'', hcount', hok', heq⟩
    obtain rfl := Except.ok.inj (hok.symm.trans hok')
    obtain rfl := Except.ok.inj (hcount.symm.trans hcount')
    omega
  · intro heq
    exact ⟨_, s', hcount, hok, by omega⟩

theorem upperRange_pages : UpperRange higherBase (higherBase + 0x2000) :=
  ⟨by decide, by decide, by decide, by decide, by decide⟩

/-- Two pages, at a physical address that is not aligned like them. -/
theorem shiftedPages_exact : CountExact framesBehind emptyTables 0x1000 higherBase
    (higherBase + 0x2000) 0x1000 2 :=
  (countExact_iff upperRange_pages (by decide) (by decide) (fun i _ => Nat.zero_testBit _)
    (framesBehind_fresh (by decide))).mpr (by decide +kernel)

/-- For two pages at the begin of a slot, one table of level 3 is counted and those below are not. -/
theorem twoPages_not_exact : UpperRange higherBase (higherBase + 0x2000) ∧
    ¬ CountExact framesBehind emptyTables 0x1000 higherBase (higherBase + 0x2000) 0 2 := by
  refine ⟨upperRange_pages, ?_⟩
  rintro ⟨count, s', hcount, hok, heq⟩
  have hrun : (ptCountPages higherBase (higherBase + 0x2000) 0).toOption = some 2 ∧
      (ptMapPages (some framesBehind) emptyTables 0x1000 higherBase (higherBase + 0x2000) 0
        2).toOption.map PtState.taken = some 3 := by
    decide +kernel
  rw [hcount, hok] at hrun
  have hone := Option.some.inj hrun.1
  have htwo := Option.some.inj hrun.2
  rw [hone, htwo] at heq
  exact absurd heq (by decide)

end FilesKernel.Paging
