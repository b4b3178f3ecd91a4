import Mathlib.Data.Nat.ModEq
import Mathlib.Tactic.IntervalCases
import FilesKernel.Paging.Walk

/-! The slots of a range.

    An entry of level `n` covers a slot of addresses. A slot that lies in the range as a whole can be
    mapped by one leaf, if the physical address is aligned like the virtual one; each other slot that
    the range touches needs a table of the level below. -/

namespace FilesKernel.Paging
open CExec CWord

variable {n k start last mid phys flags : ℕ}

/-! ### Sizes and indices -/

theorem pmlShift_eq (h : 1 ≤ n ∧ n ≤ 4) : pmlShift n = .ok (3 + 9 * n) := by
  obtain ⟨h₁, h₂⟩ := h
  rw [pmlShift, bugOn_false (by omega), ok_bind]
  interval_cases n <;> rfl

theorem pmlOffs_eq (h : 1 ≤ n ∧ n ≤ 4) (addr : ℕ) : pmlOffs addr n = .ok (index addr n) := by
  rw [pmlOffs, bugOn_false (by omega), ok_bind, pmlShift_eq h, ok_bind]
  obtain ⟨h₁, h₂⟩ := h
  interval_cases n <;> rfl

theorem pmlSize_eq (h : 1 ≤ n ∧ n ≤ 4) : pmlSize n = .ok (slot n) := by
  rw [pmlSize, bugOn_false (by omega), ok_bind, pmlShift_eq h, ok_bind]
  rfl

/-- How many entries of a table a range needs. -/
theorem index_count (hle : start ≤ last) (hsame : start / slot (n + 1) = last / slot (n + 1)) :
    index last n + 1 - index start n = last / slot n - start / slot n + 1 := by
  have hdiv : start / slot n ≤ last / slot n := Nat.div_le_div_right hle
  rw [slot_succ, ← Nat.div_div_eq_div_mul, ← Nat.div_div_eq_div_mul] at hsame
  rw [index, index]
  omega

/-- The last address of the slot of `a`. -/
def slotEnd (a n : ℕ) : ℕ := (a / slot n + 1) * slot n - 1

theorem slotEnd_spec (a n : ℕ) : a ≤ slotEnd a n ∧ slotEnd a n / slot n = a / slot n ∧
    slotEnd a n - a + 1 = slot n - a % slot n := by
  have hpos := slot_pos n
  have hmul := Nat.div_add_mod a (slot n)
  have hlt := Nat.mod_lt a hpos
  have hsucc : (a / slot n + 1) * slot n = slot n * (a / slot n) + slot n := by
    rw [Nat.add_mul, Nat.one_mul, Nat.mul_comm]
  rw [slotEnd, hsucc]
  refine ⟨by omega, ?_, by omega⟩
  rw [show slot n * (a / slot n) + slot n - 1 = slot n - 1 + slot n * (a / slot n) by omega,
    Nat.add_mul_div_left _ _ hpos, Nat.div_eq_of_lt (by omega), Nat.zero_add]

theorem le_slotEnd {a b : ℕ} (h : b / slot n = a / slot n) : b ≤ slotEnd a n := by
  have := (slotEnd_spec b n).1
  rwa [slotEnd, h] at this

/-- The end of the slot is found, also where the sum wraps around. -/
theorem entryEnd_eq (hn : n ≤ 4) {a : ℕ} (ha : a < 2 ^ 64) :
    wsub (wrap (a + slot n) / slot n * slot n) 1 = slotEnd a n := by
  have hpos := slot_pos n
  have hwhole := slot_mul (n := n) (by omega)
  have hdiv : a / slot n < 2 ^ (61 - 9 * n) :=
    (Nat.div_lt_iff_lt_mul hpos).mpr (by rw [Nat.mul_comm, hwhole]; exact ha)
  have hmul := Nat.div_add_mod a (slot n)
  have hlt := Nat.mod_lt a hpos
  have hsucc : (a / slot n + 1) * slot n = slot n * (a / slot n) + slot n := by
    rw [Nat.add_mul, Nat.one_mul, Nat.mul_comm]
  have hle : (a / slot n + 1) * slot n ≤ 2 ^ 64 := by
    rw [← hwhole, Nat.mul_comm]
    exact Nat.mul_le_mul_left _ hdiv
  rw [slotEnd]
  rcases Nat.lt_or_ge (a + slot n) (2 ^ 64) with hsum | hsum
  · rw [wrap_of_lt hsum, Nat.add_div_right _ hpos, wsub_of_le (by omega) (by omega)]
  · have hback : wrap (a + slot n) < slot n := by
      rw [wrap_eq]
      omega
    have hlast : (a / slot n + 1) * slot n = 2 ^ 64 := by
      refine Nat.le_antisymm hle ?_
      rw [← hwhole] at hsum hle ⊢
      by_contra hne
      have hne' : a / slot n + 1 ≠ 2 ^ (61 - 9 * n) := fun e => hne (by rw [e, Nat.mul_comm])
      have hbound : slot n * (a / slot n + 2) ≤ slot n * 2 ^ (61 - 9 * n) :=
        Nat.mul_le_mul_left _ (by omega)
      rw [Nat.mul_add] at hbound
      omega
    rw [Nat.div_eq_of_lt hback, Nat.zero_mul, hlast, wsub_eq]
    decide

/-! ### Slots and leaves -/

/-- How many slots of level `k` a range touches. -/
def touched (k start last : ℕ) : ℕ := last / slot k - start / slot k + 1

/-- How many slots of level `k` lie in a range as a whole. -/
def wholes (k start last : ℕ) : ℕ := (last + 1) / slot k - (start + (slot k - 1)) / slot k

/-- An entry of this level can be a leaf. -/
def Leafy (flags k : ℕ) : Prop := k ≠ 4 ∧ (largeOf k flags ≠ 0 ∨ k = 1)

instance : Decidable (Leafy flags k) := inferInstanceAs (Decidable (_ ∧ _))

/-- How many leaves of level `k` there can be. -/
def leavesOf (flags k start last phys : ℕ) : ℕ :=
  if Leafy flags k ∧ phys % slot k = start % slot k then wholes k start last else 0

/-- How many tables a range needs below a table of level `n`. -/
def newTables (flags start last phys : ℕ) : ℕ → ℕ
  | n + 2 => (touched (n + 2) start last - leavesOf flags (n + 2) start last phys) +
      newTables flags start last phys (n + 1)
  | _ => 0

theorem largeOf_ne_zero : largeOf k flags ≠ 0 ↔ (k = 3 ∨ k = 2) ∧ flags &&& PTE_LARGE ≠ 0 := by
  rw [largeOf]
  split
  · rename_i h
    exact ⟨fun hl => ⟨h, hl⟩, fun hl => hl.2⟩
  · rename_i h
    exact ⟨fun hl => absurd rfl hl, fun hl => absurd hl.1 h⟩

theorem leafy_down (h : Leafy flags (n + 2)) : Leafy flags (n + 1) := by
  obtain ⟨-, hl | hl⟩ := h
  · obtain ⟨hlvl, hl⟩ := largeOf_ne_zero.mp hl
    refine ⟨by omega, ?_⟩
    rcases Nat.eq_zero_or_pos n with rfl | hpos
    · exact Or.inr rfl
    · exact Or.inl (largeOf_ne_zero.mpr ⟨by omega, hl⟩)
  · omega

theorem slot_dvd_slot (h : k ≤ n) : slot k ∣ slot n := Nat.pow_dvd_pow 2 (by omega)

theorem mod_slot_zero {a : ℕ} (hk : k ≤ n) (h : a % slot n = 0) : a % slot k = 0 :=
  Nat.mod_eq_zero_of_dvd ((slot_dvd_slot hk).trans (Nat.dvd_of_mod_eq_zero h))

/-- The first slot that begins at `start` or behind it. -/
theorem ceil_slot (k start : ℕ) : (start + (slot k - 1)) / slot k =
    start / slot k + if start % slot k = 0 then 0 else 1 := by
  have hpos := slot_pos k
  have hdiv := Nat.div_add_mod start (slot k)
  have hmod := Nat.mod_lt start hpos
  split
  · rw [show start + (slot k - 1) = slot k - 1 + slot k * (start / slot k) by omega,
      Nat.add_mul_div_left _ _ hpos, Nat.div_eq_of_lt (by omega)]
    omega
  · rw [show start + (slot k - 1) = start % slot k - 1 + slot k * (start / slot k + 1) by
        rw [Nat.mul_succ]
        omega,
      Nat.add_mul_div_left _ _ hpos, Nat.div_eq_of_lt (by omega)]
    omega

theorem succ_div_slot (k last : ℕ) : (last + 1) / slot k =
    last / slot k + if (last + 1) % slot k = 0 then 1 else 0 := by
  rw [Nat.succ_div]
  split <;> split <;> rename_i h₁ h₂
  · rfl
  · exact absurd (Nat.mod_eq_zero_of_dvd h₁) h₂
  · exact absurd (Nat.dvd_of_mod_eq_zero h₂) h₁
  · rfl

theorem wholes_le (h : start ≤ last) : wholes k start last ≤ touched k start last := by
  have hle : start / slot k ≤ last / slot k := Nat.div_le_div_right h
  rw [wholes, touched, ceil_slot, succ_div_slot]
  split_ifs <;> omega

theorem leavesOf_le (flags phys : ℕ) (h : start ≤ last) :
    leavesOf flags k start last phys ≤ touched k start last := by
  rw [leavesOf]
  split
  · exact wholes_le h
  · exact Nat.zero_le _

theorem newTables_le_succ (flags start last phys n : ℕ) :
    newTables flags start last phys n ≤ newTables flags start last phys (n + 1) := by
  cases n with
  | zero => exact Nat.zero_le _
  | succ n => exact Nat.le_add_left _ _

/-- The physical address that goes with a later address of the range. -/
theorem phys_mod (phys : ℕ) (hk : k ≤ 4) {a : ℕ} (ha : start ≤ a) :
    wrap (phys + (a - start)) % slot k = a % slot k ↔ phys % slot k = start % slot k := by
  have hdvd : slot k ∣ 2 ^ 64 := Dvd.intro _ (slot_mul (by omega))
  rw [wrap_eq, Nat.mod_mod_of_dvd _ hdvd]
  obtain ⟨d, rfl⟩ := Nat.exists_eq_add_of_le ha
  rw [Nat.add_sub_cancel_left]
  exact ⟨fun h => Nat.ModEq.add_right_cancel' d h, fun h => Nat.ModEq.add_right d h⟩

/-- The range is cut between two slots. -/
theorem touched_add (hle : start ≤ mid) (hlt : mid < last) (hcut : (mid + 1) % slot k = 0) :
    touched k start last = touched k start mid + touched k (mid + 1) last := by
  have h₁ : start / slot k ≤ mid / slot k := Nat.div_le_div_right hle
  have h₂ : (mid + 1) / slot k ≤ last / slot k := Nat.div_le_div_right hlt
  rw [succ_div_slot, if_pos hcut] at h₂
  rw [touched, touched, touched, succ_div_slot, if_pos hcut]
  omega

theorem wholes_add (hle : start ≤ mid) (hlt : mid < last) (hcut : (mid + 1) % slot k = 0) :
    wholes k start last = wholes k start mid + wholes k (mid + 1) last := by
  have h₁ : start / slot k ≤ mid / slot k := Nat.div_le_div_right hle
  have h₂ : (mid + 1) / slot k ≤ last / slot k := Nat.div_le_div_right hlt
  rw [succ_div_slot, if_pos hcut] at h₂
  rw [wholes, wholes, wholes, ceil_slot k (mid + 1), if_pos hcut, succ_div_slot k mid, if_pos hcut,
    ceil_slot, succ_div_slot]
  split_ifs <;> omega

theorem newTables_add (flags phys : ℕ) (hle : start ≤ mid) (hlt : mid < last) (hn : n ≤ 4)
    (hcut : (mid + 1) % slot n = 0) : newTables flags start last phys n =
      newTables flags start mid phys n +
        newTables flags (mid + 1) last (wrap (phys + (mid + 1 - start))) n := by
  induction n with
  | zero => rfl
  | succ n ih =>
    cases n with
    | zero => rfl
    | succ n =>
      have hleaves : leavesOf flags (n + 2) start last phys = leavesOf flags (n + 2) start mid phys +
          leavesOf flags (n + 2) (mid + 1) last (wrap (phys + (mid + 1 - start))) := by
        simp only [leavesOf, phys_mod phys hn (Nat.le_succ_of_le hle)]
        split
        · exact wholes_add hle hlt hcut
        · rfl
      have h₁ := leavesOf_le (k := n + 2) flags phys hle
      have h₂ := leavesOf_le (k := n + 2) flags (wrap (phys + (mid + 1 - start)))
        (show mid + 1 ≤ last from hlt)
      rw [newTables, newTables, newTables, ih (Nat.le_of_succ_le hn)
        (mod_slot_zero (Nat.le_succ _) hcut), hleaves, touched_add (k := n + 2) hle hlt hcut]
      omega

/-- In one slot, the number is one or zero. -/
theorem wholes_one (hle : start ≤ last) (hsame : start / slot k = last / slot k) : wholes k start last =
    if start % slot k = 0 ∧ last = slotEnd start k then 1 else 0 := by
  obtain ⟨hend, hdiv, -⟩ := slotEnd_spec start k
  have hlast : (last + 1) % slot k = 0 ↔ last = slotEnd start k := by
    have hpos := slot_pos k
    have hsucc : (start / slot k + 1) * slot k = slotEnd start k + 1 := by
      have : 0 < (start / slot k + 1) * slot k := Nat.mul_pos (Nat.succ_pos _) hpos
      rw [slotEnd]
      omega
    constructor
    · intro h
      have hmul := Nat.div_mul_cancel (Nat.dvd_of_mod_eq_zero h)
      rw [succ_div_slot, if_pos h, ← hsame, hsucc] at hmul
      omega
    · rintro rfl
      rw [← hsucc, Nat.mul_mod_left]
  rw [wholes, ceil_slot, succ_div_slot, ← hsame]
  by_cases hs : start % slot k = 0
  · by_cases hl : last = slotEnd start k
    · rw [if_pos (hlast.mpr hl), if_pos hs, if_pos ⟨hs, hl⟩]
      omega
    · rw [if_neg fun h => hl (hlast.mp h), if_pos hs, if_neg fun h => hl h.2]
      omega
  · rw [if_neg hs, if_neg (c := start % slot k = 0 ∧ last = slotEnd start k) fun h => hs h.1]
    split_ifs <;> omega

/-- A slot that no leaf maps as a whole takes one table. -/
theorem newTables_descend (hle : start ≤ last) (hsame : start / slot (n + 2) = last / slot (n + 2))
    (hnot : ¬ (Leafy flags (n + 2) ∧ phys % slot (n + 2) = start % slot (n + 2) ∧
      start % slot (n + 2) = 0 ∧ last = slotEnd start (n + 2))) :
    newTables flags start last phys (n + 2) = newTables flags start last phys (n + 1) + 1 := by
  have hleaves : leavesOf flags (n + 2) start last phys = 0 := by
    rw [leavesOf]
    split
    · rename_i h
      rw [wholes_one hle hsame, if_neg fun hw => hnot ⟨h.1, h.2, hw⟩]
    · rfl
  rw [newTables, hleaves, touched, hsame]
  omega

/-- A slot that a leaf maps takes none. -/
theorem newTables_whole (hn : n ≤ 4) (hleafy : Leafy flags n) (hphys : phys % slot n = 0)
    (hstart : start % slot n = 0) (hlast : last = slotEnd start n) :
    newTables flags start last phys n = 0 := by
  have hsucc : (last + 1) % slot n = 0 := by
    have : 0 < (start / slot n + 1) * slot n := Nat.mul_pos (Nat.succ_pos _) (slot_pos n)
    rw [hlast, slotEnd, Nat.sub_add_cancel this, Nat.mul_mod_left]
  have hle : start ≤ last := hlast ▸ (slotEnd_spec start n).1
  clear hlast
  induction n with
  | zero => rfl
  | succ n ih =>
    cases n with
    | zero => rfl
    | succ n =>
      have hleaves : leavesOf flags (n + 2) start last phys = touched (n + 2) start last := by
        have hdiv : start / slot (n + 2) ≤ last / slot (n + 2) := Nat.div_le_div_right hle
        rw [leavesOf, if_pos ⟨hleafy, hphys.trans hstart.symm⟩, wholes, touched, ceil_slot,
          succ_div_slot, if_pos hstart, if_pos hsucc]
        omega
      have hdown : ∀ {a}, a % slot (n + 1 + 1) = 0 → a % slot (n + 1) = 0 :=
        mod_slot_zero (Nat.le_succ _)
      rw [newTables, hleaves, Nat.sub_self, Nat.zero_add]
      exact ih (Nat.le_of_succ_le hn) (leafy_down hleafy) (hdown hphys) (hdown hstart) (hdown hsucc)

end FilesKernel.Paging
