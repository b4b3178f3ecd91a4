import Mathlib.Data.Nat.Bitwise
import FilesKernel.Lib.Radix
import FilesKernel.Paging.Model

/-! The page walk of the hardware.

    A walk ends at an entry that is not present, or at a leaf: any entry of level 1, and a large one
    of level 2 or 3. The rest of the address is the offset in the page. -/

namespace FilesKernel.Paging
open CExec CWord Radix

variable {mem mem' : ℕ → ℕ → ℕ} {n p e addr flags phys k : ℕ}

/-- How many bytes an entry of this level covers. -/
def slot (n : ℕ) : ℕ := 2 ^ (3 + 9 * n)

def index (addr n : ℕ) : ℕ := addr / slot n % 512

def isLeaf (n e : ℕ) : Bool := n = 1 || (n = 2 || n = 3) && e.testBit largeBit

def ptShape : Shape ℕ ℕ where
  width := ptEntries
  child n e := if e.testBit presentBit ∧ ¬ isLeaf n e then some (e &&& PTE_PHYS_MASK) else none

/-- Where the leaf `e` of level `n` maps an address. -/
def leafAddr (n e addr : ℕ) : ℕ := (e &&& PTE_PHYS_MASK) / slot n * slot n + addr % slot n

def endOfWalk (addr : ℕ) : Option (ℕ × ℕ) → Option ℕ
  | some (n, e) => if e.testBit presentBit then some (leafAddr n e addr) else none
  | none => none

/-- The walk from a table `p` of level `n`. -/
def walk (mem : ℕ → ℕ → ℕ) (n p addr : ℕ) : Option ℕ :=
  endOfWalk addr (lookup ptShape mem (index addr) n p)

/-- The halves of the address space. -/
def canonical (addr : ℕ) : Prop := addr < 2 ^ 47 ∨ 2 ^ 64 - 2 ^ 47 ≤ addr ∧ addr < 2 ^ 64

instance (addr : ℕ) : Decidable (canonical addr) := inferInstanceAs (Decidable (_ ∨ _))

/-- The physical address that an address is translated to. -/
def translate (mem : ℕ → ℕ → ℕ) (pml4 addr : ℕ) : Option ℕ :=
  if canonical addr then walk mem 4 pml4 addr else none

/-! ### Addresses -/

theorem slot_pos (n : ℕ) : 0 < slot n := Nat.pow_pos (by omega)

theorem slot_succ (n : ℕ) : slot (n + 1) = slot n * 512 := by
  rw [slot, slot, show 3 + 9 * (n + 1) = 3 + 9 * n + 9 by omega, Nat.pow_add]

theorem index_lt (addr n : ℕ) : index addr n < ptShape.width := Nat.mod_lt _ (by decide)

theorem slot_one : slot 1 = 2 ^ 12 := rfl

theorem slot_dvd (h : 1 ≤ n) : 2 ^ 12 ∣ slot n := Nat.pow_dvd_pow 2 (by omega)

theorem slot_mul {n : ℕ} (h : n ≤ 5) : slot n * 2 ^ (61 - 9 * n) = 2 ^ 64 := by
  rw [slot, ← Nat.pow_add]
  congr 1
  omega

/-- In the same slot of a table above, entries are told apart by their index. -/
theorem index_eq_iff {a b : ℕ} (h : a / slot (n + 1) = b / slot (n + 1)) :
    index a n = index b n ↔ a / slot n = b / slot n := by
  rw [slot_succ, ← Nat.div_div_eq_div_mul, ← Nat.div_div_eq_div_mul] at h
  rw [index, index]
  omega

theorem index_mod {a b : ℕ} (h : a % slot (n + 1) = b % slot (n + 1)) : index a n = index b n := by
  have hmod : ∀ x, x / slot n % 512 = x % (slot n * 512) / slot n := fun x =>
    (Nat.mod_mul_right_div_self x _ _).symm
  rw [slot_succ] at h
  rw [index, index, hmod, hmod, h]

theorem mod_slot {a b : ℕ} (hk : k ≤ n) (h : a % slot n = b % slot n) :
    a % slot k = b % slot k := by
  have hdvd : slot k ∣ slot n := Nat.pow_dvd_pow 2 (by omega)
  rw [← Nat.mod_mod_of_dvd a hdvd, h, Nat.mod_mod_of_dvd b hdvd]

/-- The way through the tables depends on the low bits of the address. -/
theorem lookup_mod {a b : ℕ} (h : a % slot (n + 1) = b % slot (n + 1)) :
    lookup ptShape mem (index a) n p = lookup ptShape mem (index b) n p := by
  induction n generalizing p with
  | zero => rfl
  | succ n ih =>
    rw [lookup, lookup, index_mod h]
    split
    · exact ih (mod_slot (Nat.le_succ _) h)
    · rfl

theorem lookup_level : ∀ {n p : ℕ} {idx : ℕ → ℕ} {r : ℕ × ℕ},
    lookup ptShape mem idx n p = some r → r.1 ≤ n
  | n + 1, p, idx, r, h => by
      rw [lookup] at h
      split at h
      · exact Nat.le_succ_of_le (lookup_level h)
      · obtain rfl := Option.some.inj h
        exact Nat.le_refl _

/-- A walk depends on the low bits of the address. -/
theorem walk_mod {a b : ℕ} (h : a % slot (n + 1) = b % slot (n + 1)) :
    walk mem n p a = walk mem n p b := by
  rw [walk, walk, lookup_mod h]
  cases hr : lookup ptShape mem (index b) n p with
  | none => rfl
  | some r =>
    have hlow : a % slot r.1 = b % slot r.1 :=
      mod_slot (Nat.le_succ_of_le (lookup_level hr)) h
    simp only [endOfWalk, leafAddr, hlow]

/-! ### Entries -/

theorem and_physMask (x : ℕ) : x &&& PTE_PHYS_MASK = x % 2 ^ 52 / 2 ^ 12 * 2 ^ 12 := by
  have hmask : PTE_PHYS_MASK = (2 ^ 40 - 1) * 2 ^ 12 := by decide
  apply Nat.eq_of_testBit_eq
  intro j
  rw [hmask, Nat.testBit_and, Nat.testBit_mul_two_pow, Nat.testBit_mul_two_pow,
    Nat.testBit_two_pow_sub_one, Nat.testBit_div_two_pow, Nat.testBit_mod_two_pow]
  by_cases hj : 12 ≤ j
  · rw [Nat.sub_add_cancel hj]
    by_cases hj' : j < 52
    · simp [hj, hj', show j - 12 < 40 by omega]
    · simp [hj, hj', show ¬ j - 12 < 40 by omega]
  · simp [hj]

theorem and_physMask_of_aligned {x : ℕ} (h : 2 ^ 12 ∣ x) (hlt : x < 2 ^ 52) :
    x &&& PTE_PHYS_MASK = x := by
  rw [and_physMask, Nat.mod_eq_of_lt hlt, Nat.div_mul_cancel h]

theorem testBit_of_aligned {x j : ℕ} (h : 2 ^ 12 ∣ x) (hj : j < 12) : x.testBit j = false := by
  obtain ⟨c, rfl⟩ := h
  rw [Nat.mul_comm, Nat.testBit_mul_two_pow]
  simp [hj]

/-- The large bit of the flags, or nothing. -/
def largeOf (n flags : ℕ) : ℕ := if n = 3 ∨ n = 2 then flags &&& PTE_LARGE else 0

/-- A leaf holds the physical address and the flags. -/
theorem leaf_and_physMask (hphys : 2 ^ 12 ∣ phys) (hlt : phys < 2 ^ 52)
    (hflags : flags &&& PTE_PHYS_MASK = 0) :
    (phys ||| flags ||| largeOf n flags) &&& PTE_PHYS_MASK = phys := by
  have hlarge : largeOf n flags &&& PTE_PHYS_MASK = 0 := by
    rw [largeOf]
    split
    · rw [Nat.and_right_comm, hflags, Nat.zero_and]
    · exact Nat.zero_and _
  rw [Nat.and_or_distrib_right, Nat.and_or_distrib_right, hflags, hlarge,
    and_physMask_of_aligned hphys hlt, Nat.or_zero, Nat.or_zero]

theorem leaf_present (hphys : 2 ^ 12 ∣ phys) :
    (phys ||| flags ||| largeOf n flags).testBit presentBit = flags.testBit presentBit := by
  have hlarge : (largeOf n flags).testBit 0 = false := by
    rw [largeOf]
    split
    · rw [Nat.testBit_and, show (PTE_LARGE).testBit 0 = false by decide, Bool.and_false]
    · exact Nat.zero_testBit 0
  rw [presentBit, Nat.testBit_or, Nat.testBit_or, testBit_of_aligned hphys (by decide), hlarge,
    Bool.false_or, Bool.or_false]

theorem and_large_ne_zero : flags &&& PTE_LARGE ≠ 0 ↔ flags.testBit largeBit := by
  rw [show PTE_LARGE = 2 ^ largeBit from rfl, Nat.and_two_pow]
  cases flags.testBit largeBit <;> decide

/-- The new entries point to no table. -/
theorem leaf_child (hn : n ≠ 4 ∧ (largeOf n flags ≠ 0 ∨ n = 1)) :
    ptShape.child n (phys ||| flags ||| largeOf n flags) = none := by
  refine if_neg fun h => h.2 ?_
  rcases hn.2 with hl | rfl
  · rw [largeOf] at hl
    split at hl
    · rename_i hlvl
      have hbit := and_large_ne_zero.mp hl
      have : (phys ||| flags ||| largeOf n flags).testBit largeBit = true := by
        rw [Nat.testBit_or, Nat.testBit_or, hbit, Bool.or_true, Bool.true_or]
      rcases hlvl with rfl | rfl <;> simp [isLeaf, this]
    · exact absurd rfl hl
  · rfl

/-- The entry for a new table points to it. -/
theorem table_child {page : ℕ} (hn : n ≠ 1) (hpage : 2 ^ 12 ∣ page) (hlt : page < 2 ^ 52) :
    ptShape.child n (page ||| (PTE_PRESENT ||| PTE_WRITE ||| PTE_USER)) = some page ∧
      (page ||| (PTE_PRESENT ||| PTE_WRITE ||| PTE_USER)) &&& PTE_PHYS_MASK = page := by
  have hmask : (page ||| (PTE_PRESENT ||| PTE_WRITE ||| PTE_USER)) &&& PTE_PHYS_MASK = page := by
    rw [Nat.and_or_distrib_right, and_physMask_of_aligned hpage hlt,
      show (PTE_PRESENT ||| PTE_WRITE ||| PTE_USER) &&& PTE_PHYS_MASK = 0 by decide, Nat.or_zero]
  have hlarge : (page ||| (PTE_PRESENT ||| PTE_WRITE ||| PTE_USER)).testBit largeBit = false := by
    rw [Nat.testBit_or, testBit_of_aligned hpage (by decide)]
    decide
  refine ⟨?_, hmask⟩
  have hpresent : (page ||| (PTE_PRESENT ||| PTE_WRITE ||| PTE_USER)).testBit presentBit = true := by
    rw [Nat.testBit_or]
    exact Bool.or_eq_true_iff.mpr (Or.inr (by decide))
  refine (if_pos ⟨hpresent, ?_⟩).trans (congrArg some hmask)
  simp [isLeaf, hn, hlarge]

end FilesKernel.Paging
