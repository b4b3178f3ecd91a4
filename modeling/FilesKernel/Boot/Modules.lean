import Mathlib.Data.Nat.Find
import FilesKernel.Boot.Model

/-! Which module `initramfs` picks.

    The condition of the loop accepts any module with one byte of the magic in its place, and a module
    that ends before it starts has a huge size. The flags are tested against decimal 1000, of which
    bit 3 is only one of six. -/

namespace FilesKernel.Boot
open CExec CWord

variable {mem : BootMem} {info count desc k : ℕ}

/-- `"070701"` -/
def newcMagic : List UInt8 := [48, 55, 48, 55, 48, 49]

/-- At least 7 bytes long, and begins with the magic of the newc format. -/
def IsNewc (mem : BootMem) (first second : ℕ) : Prop :=
  first + 7 ≤ second ∧ (List.range 6).map (fun i => mem (first + i)) = newcMagic

/-- The range of the module that the `k`-th descriptor from `desc` on describes. -/
def moduleAt (mem : BootMem) (desc k : ℕ) : ℕ × ℕ :=
  (loadBytes mem 4 (desc + 16 * k), loadBytes mem 4 (desc + 16 * k + 4))

/-- The loop of `initramfs`, with the descriptors that it reads. -/
def findArchiveTraced (mem : BootMem) : ℕ → ℕ → List ℕ × Exec (ℕ × ℕ)
  | 0, _ => ([], .error (.bug "1"))
  | count + 1, desc =>
    let first := loadBytes mem 4 desc
    let second := loadBytes mem 4 (desc + 4)
    if isArchive mem first second then ([desc], .ok (first, second))
    else
      let (descs, r) := findArchiveTraced mem count (desc + 16)
      (desc :: descs, r)

def initramfsTraced (mem : BootMem) (info : ℕ) : List ℕ × Exec (ℕ × ℕ) :=
  let mbt := mbootInfo mem info
  if mbt.flags &&& 1000 = 0 then ([], .error (.bug "!(mbt->flags & 1000)"))
  else findArchiveTraced mem mbt.modsCount mbt.modsAddr

/-- The module list is read only when the flags say that it is there, and then the first archive in
    it is returned, or the kernel stops. -/
structure SelectsArchive (mem : BootMem) (info : ℕ) : Prop where
  unread : (mbootInfo mem info).flags.testBit 3 = false → (initramfsTraced mem info).1 = []
  found : (mbootInfo mem info).flags.testBit 3 = true → ∀ k < (mbootInfo mem info).modsCount,
    IsNewc mem (moduleAt mem (mbootInfo mem info).modsAddr k).1
      (moduleAt mem (mbootInfo mem info).modsAddr k).2 →
    (∀ j < k, ¬ IsNewc mem (moduleAt mem (mbootInfo mem info).modsAddr j).1
      (moduleAt mem (mbootInfo mem info).modsAddr j).2) →
    initramfs mem info = .ok (moduleAt mem (mbootInfo mem info).modsAddr k)
  stops : (mbootInfo mem info).flags.testBit 3 = true → (∀ k < (mbootInfo mem info).modsCount,
    ¬ IsNewc mem (moduleAt mem (mbootInfo mem info).modsAddr k).1
      (moduleAt mem (mbootInfo mem info).modsAddr k).2) →
    ∃ text, initramfs mem info = .error (.bug text)

/-- Without bit 3, no other bit of decimal 1000 is set or the list is empty; with bit 3, no module
    before the first archive passes the weaker test of the code. -/
def TestsSuffice (mem : BootMem) (info : ℕ) : Prop :=
  let mbt := mbootInfo mem info
  if mbt.flags.testBit 3 then
    ∀ k < mbt.modsCount,
      isArchive mem (moduleAt mem mbt.modsAddr k).1 (moduleAt mem mbt.modsAddr k).2 = true →
      ∃ j ≤ k, IsNewc mem (moduleAt mem mbt.modsAddr j).1 (moduleAt mem mbt.modsAddr j).2
  else mbt.flags &&& 1000 = 0 ∨ mbt.modsCount = 0

/-! ### The loop -/

theorem findArchiveTraced_snd (mem : BootMem) : ∀ count desc,
    (findArchiveTraced mem count desc).2 = findArchive mem count desc
  | 0, _ => rfl
  | count + 1, desc => by
      simp only [findArchiveTraced, findArchive]
      split
      · rfl
      · exact findArchiveTraced_snd mem count (desc + 16)

/-- The traced function is `initramfs`. -/
theorem initramfsTraced_snd (mem : BootMem) (info : ℕ) :
    (initramfsTraced mem info).2 = initramfs mem info := by
  simp only [initramfsTraced, initramfs]
  split
  · rename_i h
    rw [bugOn_true h, error_bind]
  · rename_i h
    rw [bugOn_false h, ok_bind, findArchiveTraced_snd]

theorem moduleAt_succ (mem : BootMem) (desc k : ℕ) :
    moduleAt mem (desc + 16) k = moduleAt mem desc (k + 1) := by
  simp only [moduleAt, Nat.mul_succ, Nat.add_assoc, Nat.add_comm 16]

/-- The loop returns the first module that the condition accepts. -/
theorem findArchive_cases (mem : BootMem) : ∀ count desc,
    (∃ k < count, isArchive mem (moduleAt mem desc k).1 (moduleAt mem desc k).2 = true ∧
      (∀ j < k, isArchive mem (moduleAt mem desc j).1 (moduleAt mem desc j).2 = false) ∧
      findArchive mem count desc = .ok (moduleAt mem desc k)) ∨
    ((∀ k < count, isArchive mem (moduleAt mem desc k).1 (moduleAt mem desc k).2 = false) ∧
      findArchive mem count desc = .error (.bug "1"))
  | 0, _ => Or.inr ⟨nofun, rfl⟩
  | count + 1, desc => by
      cases hfirst : isArchive mem (moduleAt mem desc 0).1 (moduleAt mem desc 0).2 with
      | true => exact Or.inl ⟨0, Nat.succ_pos count, hfirst, nofun, if_pos hfirst⟩
      | false =>
        have hrest : findArchive mem (count + 1) desc = findArchive mem count (desc + 16) :=
          if_neg (by rw [Bool.not_eq_true]; exact hfirst)
        have ih := findArchive_cases mem count (desc + 16)
        simp only [moduleAt_succ] at ih
        rw [hrest]
        rcases ih with ⟨k, hk, hacc, hmin, hok⟩ | ⟨hno, hbug⟩
        · refine Or.inl ⟨k + 1, Nat.succ_lt_succ hk, hacc, fun j hj => ?_, hok⟩
          cases j with
          | zero => exact hfirst
          | succ j => exact hmin j (Nat.lt_of_succ_lt_succ hj)
        · refine Or.inr ⟨fun k hk => ?_, hbug⟩
          cases k with
          | zero => exact hfirst
          | succ k => exact hno k (Nat.lt_of_succ_lt_succ hk)

/-- Every archive passes the condition. -/
theorem IsNewc.isArchive {first second : ℕ} (h : IsNewc mem first second) (hlt : second < 2 ^ 32) :
    isArchive mem first second = true := by
  have hsize : wsub second first = second - first :=
    wsub_of_le (Nat.le_trans (Nat.le_add_right _ _) h.1) (by omega)
  have hmagic : mem first = 48 := (List.cons.inj h.2).1
  have hlong := h.1
  rw [Boot.isArchive, decide_eq_true_iff, hsize]
  exact ⟨by omega, Or.inl hmagic⟩

theorem moduleAt_lt (mem : BootMem) (desc k : ℕ) : (moduleAt mem desc k).2 < 2 ^ 32 :=
  loadBytes_lt mem 4 _

/-- For every information block and module list: the right module is selected, from a list that is
    there, exactly when the tests of the code suffice. -/
theorem selectsArchive_iff (mem : BootMem) (info : ℕ) :
    SelectsArchive mem info ↔ TestsSuffice mem info := by
  simp only [TestsSuffice]
  cases hbit : (mbootInfo mem info).flags.testBit 3 with
  | false =>
    have htraced : (initramfsTraced mem info).1 = [] ↔
        (mbootInfo mem info).flags &&& 1000 = 0 ∨ (mbootInfo mem info).modsCount = 0 := by
      simp only [initramfsTraced]
      split
      · rename_i h
        exact iff_of_true rfl (Or.inl h)
      · rename_i h
        cases (mbootInfo mem info).modsCount with
        | zero => exact iff_of_true rfl (Or.inr rfl)
        | succ n =>
          refine iff_of_false (fun hnil => ?_) (by simp [h])
          simp only [findArchiveTraced] at hnil
          split at hnil <;> cases hnil
    simp only [Bool.false_eq_true, if_false]
    rw [← htraced]
    refine ⟨fun h => h.unread hbit, fun h => ⟨fun _ => h, ?_, ?_⟩⟩
    · intro hset; rw [hbit] at hset; cases hset
    · intro hset; rw [hbit] at hset; cases hset
  | true =>
    have hflags : ¬ (mbootInfo mem info).flags &&& 1000 = 0 := by
      intro h
      have htest := congrArg (Nat.testBit · 3) h
      simp only [Nat.testBit_and, hbit, Nat.zero_testBit] at htest
      exact absurd htest (by decide)
    have hrun : initramfs mem info =
        findArchive mem (mbootInfo mem info).modsCount (mbootInfo mem info).modsAddr := by
      simp only [initramfs]
      rw [bugOn_false hflags, ok_bind]
    simp only [if_true]
    have hcases := findArchive_cases mem (mbootInfo mem info).modsCount (mbootInfo mem info).modsAddr
    rw [← hrun] at hcases
    constructor
    · intro h k hk hacc
      by_contra hno
      simp only [not_exists, not_and] at hno
      rcases hcases with ⟨l, hl, hacc', hmin, hok⟩ | ⟨hnone, -⟩
      · -- the loop ends at or before `k`, at a module that is no archive
        have hlk : l ≤ k := by
          by_contra hlt
          rw [hmin k (by omega)] at hacc
          cases hacc
        by_cases hsome : ∃ j, j < (mbootInfo mem info).modsCount ∧
            IsNewc mem (moduleAt mem (mbootInfo mem info).modsAddr j).1
              (moduleAt mem (mbootInfo mem info).modsAddr j).2
        · classical
          obtain ⟨hj, hnewc⟩ := Nat.find_spec hsome
          have hfound := h.found hbit _ hj hnewc fun i hi hi' =>
            Nat.find_min hsome hi ⟨by omega, hi'⟩
          rw [hok, Except.ok.injEq] at hfound
          exact hno l hlk (hfound ▸ hnewc)
        · obtain ⟨text, hstop⟩ := h.stops hbit fun j hj hnewc => hsome ⟨j, hj, hnewc⟩
          rw [hok] at hstop
          cases hstop
      · rw [hnone k hk] at hacc
        cases hacc
    · intro h
      refine ⟨fun hclear => ?_, fun _ k hk hnewc hmin => ?_, fun _ hnone => ?_⟩
      · rw [hbit] at hclear; cases hclear
      · have hacc := hnewc.isArchive (moduleAt_lt mem _ k)
        rcases hcases with ⟨l, hl, hacc', hmin', hok⟩ | ⟨hno, -⟩
        · have hlk : ¬ k < l := by
            intro hlt
            rw [hmin' k hlt] at hacc
            cases hacc
          obtain ⟨j, hj, hnewc'⟩ := h l hl hacc'
          have hkj : ¬ j < k := fun hlt => hmin j hlt hnewc'
          obtain rfl : l = k := by omega
          exact hok
        · rw [hno k hk] at hacc
          cases hacc
      · rcases hcases with ⟨l, hl, hacc', -, -⟩ | ⟨-, hbug⟩
        · obtain ⟨j, hj, hnewc⟩ := h l hl hacc'
          exact absurd hnewc (hnone j (by omega))
        · exact ⟨_, hbug⟩

/-- Flags with bit 3, and one module of 8 bytes, of which the second is `7`. -/
def decoyModule : BootMem := fun a =>
  [8, 0, 0, 0, 0, 0, 0, 0, 0, 0, 0, 0, 0, 0, 0, 0, 0, 0, 0, 0, 1, 0, 0, 0, 28, 0, 0, 0,
    60, 0, 0, 0, 68, 0, 0, 0].getD a (if a = 61 then 55 else 127)

/-- A module that is no archive is taken for one. -/
theorem not_selectsArchive_decoy : ¬ SelectsArchive decoyModule 0 := by
  intro h
  obtain ⟨text, hstop⟩ := h.stops (by decide +kernel) (by
    intro k hk hnewc
    obtain rfl : k = 0 := by
      have hcount : (mbootInfo decoyModule 0).modsCount = 1 := by decide +kernel
      omega
    exact absurd hnewc.2 (by decide +kernel))
  have hrun : (initramfs decoyModule 0).toOption = some (60, 68) := by decide +kernel
  rw [hstop] at hrun
  cases hrun

end FilesKernel.Boot
