import FilesKernel.Paging.Leaves

/-! Mapping a range.

    Where the physical addresses fit into the entries, the leaves translate the range to the frames
    from `phys` on, whatever their levels are. -/

namespace FilesKernel.Paging
open CExec CWord Radix

variable {page : ℕ → ℕ} {s s' : PtState} {n p start last stop phys flags k a : ℕ}

/-- How many tables there are for a range below a table of level `n`. -/
def tablesFor : ℕ → ℕ → ℕ → ℕ
  | n + 2, start, last =>
    (last / slot (n + 2) - start / slot (n + 2) + 1) + tablesFor (n + 1) start last
  | _, _, _ => 0

/-- Leaves save tables. -/
theorem newTables_le_tablesFor (n : ℕ) :
    newTables flags start last phys n ≤ tablesFor n start last := by
  induction n with
  | zero => rfl
  | succ n ih =>
    cases n with
    | zero => rfl
    | succ n =>
      rw [newTables, tablesFor, touched]
      omega

/-- The arguments of `__pt_map_pages` at level `n`. -/
structure Span (n start last phys : ℕ) : Prop where
  level : 1 ≤ n ∧ n ≤ 4
  dvdStart : 2 ^ 12 ∣ start
  dvdLast : 2 ^ 12 ∣ last + 1
  le : start ≤ last
  lt : last < 2 ^ 64
  same : start / slot (n + 1) = last / slot (n + 1)
  dvdPhys : 2 ^ 12 ∣ phys
  fits : phys + (last - start) < 2 ^ 52

theorem Span.window (hs : Span n start last phys) : Window n start last phys :=
  ⟨hs.level, hs.dvdStart, hs.dvdLast, hs.le, hs.lt, hs.same, hs.dvdPhys, by
    have := hs.fits
    omega⟩

/-- What a present leaf is found for, if it is made with these flags. -/
def target (flags phys : ℕ) : Option ℕ := if flags.testBit presentBit then some phys else none

/-- The range is mapped, and the rest of the table as before. -/
structure Mapped (page : ℕ → ℕ) (flags : ℕ) (s s' : PtState) (n p start last phys : ℕ) : Prop where
  taken : s.taken ≤ s'.taken
  used : s'.taken ≤ s.taken + tablesFor n start last
  grows : Extends ptShape s.mem s'.mem n p (pagesFrom page s.taken s'.taken)
  walk : ∀ a, a / slot (n + 1) = start / slot (n + 1) → walk s'.mem n p a =
    if start ≤ a ∧ a ≤ last then target flags (phys + (a - start)) else walk s.mem n p a
  paths : flags.testBit largeBit = false → ∀ a, start ≤ a → a ≤ last →
    ∃ t, Path ptShape s'.mem (index a) n p t

/-! ### Where the leaves lead to -/

theorem walk_eq (mem : ℕ → ℕ → ℕ) (n p a : ℕ) :
    walk mem n p a = (leafOf mem n p a).map fun r => leafAddr r.1 r.2 a := by
  rw [walk, leafOf]
  cases lookup ptShape mem (index a) n p with
  | none => rfl
  | some r =>
    rw [endOfWalk, Option.filter]
    split <;> simp

/-- A walk from a table ends somewhere. -/
theorem stopLevel_pos (mem : ℕ → ℕ → ℕ) (a : ℕ) : ∀ n p, 1 ≤ stopLevel mem (n + 1) p a
  | 0, p => by rw [stopLevel_end (child_one _)]
  | n + 1, p => by
      cases h : ptShape.child (n + 2) (mem p (index a (n + 2))) with
      | none => rw [stopLevel_end h]; omega
      | some c => rw [stopLevel_congr (lookup_child h)]; exact stopLevel_pos mem a n c

/-- A page of the range can always be mapped by a leaf of level 1. -/
theorem Window.whole_page (hs : Window n start last phys) (ha : start ≤ a) (ha' : a ≤ last) :
    Whole flags start last phys 1 a := by
  have hstart := Nat.mod_eq_zero_of_dvd hs.dvdStart
  refine ⟨⟨by decide, Or.inr rfl⟩, ?_, ?_, ?_⟩
  · rw [slot_one, hstart, Nat.mod_eq_zero_of_dvd hs.dvdPhys]
  · rw [← Nat.div_mul_cancel (n := slot 1) hs.dvdStart]
    exact Nat.mul_le_mul_right _ (Nat.div_le_div_right ha)
  · exact slotEnd_le_cut (Nat.le_refl 1) (Nat.mod_eq_zero_of_dvd hs.dvdLast) ha'

/-- The leaf for `a` is of a level at which one can be. -/
theorem Window.leafLevel_whole (flags : ℕ) (hs : Window n start last phys) (ha : start ≤ a)
    (ha' : a ≤ last) : ∀ m, 1 ≤ leafLevel flags start last phys a (m + 1) ∧
      Whole flags start last phys (leafLevel flags start last phys a (m + 1)) a
  | 0 => by
      rw [leafLevel, if_pos (hs.whole_page ha ha')]
      exact ⟨Nat.le_refl 1, hs.whole_page ha ha'⟩
  | m + 1 => by
      rw [leafLevel]
      split
      · rename_i h
        exact ⟨by omega, h⟩
      · exact hs.leafLevel_whole flags ha ha' m

/-- A leaf maps the address to the one that goes with it. -/
theorem Span.leafAddr_eq (hs : Span n start last phys) (hflags : flags &&& PTE_PHYS_MASK = 0)
    (hk : 1 ≤ k) (ha : a ≤ last) (hw : Whole flags start last phys k a) :
    leafAddr k (leafEntry flags start phys k a) a = phys + (a - start) := by
  obtain ⟨-, hphys, hbegin, -⟩ := hw
  have hfits := hs.fits
  have hslot : a / slot k * slot k ≤ a := Nat.div_mul_le_self a (slot k)
  have hmod : (phys + (a / slot k * slot k - start)) % slot k = 0 := by
    have h := Nat.ModEq.add_right (a / slot k * slot k - start) hphys
    rw [Nat.add_sub_cancel' hbegin] at h
    exact (show _ % _ = _ % _ from h).trans (Nat.mul_mod_left _ _)
  have hdvd : 2 ^ 12 ∣ phys + (a / slot k * slot k - start) :=
    (slot_dvd hk).trans (Nat.dvd_of_mod_eq_zero hmod)
  have hdiv := Nat.div_add_mod a (slot k)
  rw [Nat.mul_comm] at hdiv
  rw [leafAddr, leafEntry, wrap_of_lt (by omega), leaf_and_physMask hdvd (by omega) hflags,
    Nat.div_mul_cancel (Nat.dvd_of_mod_eq_zero hmod)]
  omega

/-- What has been placed is mapped, if the physical addresses fit into the entries. -/
theorem Placed.mapped (hs : Span n start last phys) (hflags : flags &&& PTE_PHYS_MASK = 0)
    (h : Placed page flags s s' n p start last phys) : Mapped page flags s s' n p start last phys := by
  refine ⟨h.taken, h.used.trans (Nat.add_le_add_left (newTables_le_tablesFor n) _), h.grows,
    fun a ha => ?_, h.paths⟩
  rw [walk_eq, walk_eq, h.leaf a ha]
  split
  · rename_i hr
    obtain ⟨m, hm⟩ : ∃ m, stopLevel s.mem n p a = m + 1 := by
      obtain ⟨j, rfl⟩ : ∃ j, n = j + 1 := ⟨n - 1, by have := hs.level.1; omega⟩
      exact ⟨stopLevel s.mem (j + 1) p a - 1, by have := stopLevel_pos s.mem a j p; omega⟩
    obtain ⟨hk, hw⟩ := hs.window.leafLevel_whole flags hr.1 hr.2 m
    rw [hm, madeLeaf, target]
    split
    · rw [Option.map_some, hs.leafAddr_eq hflags hk hr.2 hw]
    · rfl
  · rfl

theorem leafOf_eq_none {mem : ℕ → ℕ → ℕ} : leafOf mem n p a = none ↔ walk mem n p a = none := by
  rw [walk_eq, Option.map_eq_none_iff]

/-! ### The whole address space -/

/-- The end of a range, where zero stands for the end of the address space. -/
def rangeEnd (stop : ℕ) : ℕ := if stop = 0 then 2 ^ 64 else stop

/-- A page-aligned range in the upper half, in which nothing is mapped. -/
structure Unmapped (mem : ℕ → ℕ → ℕ) (pml4 start stop : ℕ) : Prop where
  dvdStart : 2 ^ 12 ∣ start
  dvdStop : 2 ^ 12 ∣ stop
  upper : 2 ^ 64 - 2 ^ 47 ≤ start
  lt : stop < 2 ^ 64
  nonempty : start < rangeEnd stop
  absent : ∀ a, start ≤ a → a < rangeEnd stop → translate mem pml4 a = none

/-- The last address of a range. -/
theorem rangeEnd_last (hlt : stop < 2 ^ 64) (hne : start < rangeEnd stop) :
    start ≤ wsub stop 1 ∧ wsub stop 1 < 2 ^ 64 ∧ wsub stop 1 + 1 = rangeEnd stop := by
  rw [rangeEnd] at hne ⊢
  split at hne
  · rename_i hzero
    have hlast : wsub 0 1 = 2 ^ 64 - 1 := by
      rw [wsub_eq]
      decide
    rw [if_pos hzero, hzero, hlast]
    omega
  · rename_i hpos
    rw [if_neg hpos, wsub_of_le (by omega) hlt]
    omega

theorem Unmapped.bounds (h : Unmapped s.mem p start n) : start ≤ wsub n 1 ∧ wsub n 1 < 2 ^ 64 ∧
    wsub n 1 + 1 = rangeEnd n := rangeEnd_last h.lt h.nonempty

/-- The upper half lies below one table of level 4. -/
theorem upper_div {a : ℕ} (h : 2 ^ 64 - 2 ^ 47 ≤ a) (hlt : a < 2 ^ 64) : a / slot 5 = 2 ^ 16 - 1 := by
  rw [show slot 5 = 2 ^ 48 from rfl]
  omega

theorem Unmapped.span (h : Unmapped s.mem p start n) (hphys : 2 ^ 12 ∣ phys)
    (hfits : phys + (rangeEnd n - start) ≤ 2 ^ 52) : Span 4 start (wsub n 1) phys := by
  obtain ⟨hle, hlt, hend⟩ := h.bounds
  have hupper := h.upper
  refine ⟨by decide, h.dvdStart, ?_, hle, hlt, ?_, hphys, by omega⟩
  · rw [hend, rangeEnd]
    split
    · decide
    · exact h.dvdStop
  · rw [upper_div hupper (by omega), upper_div (by omega) hlt]

theorem Unmapped.walk (h : Unmapped s.mem p start n) {a : ℕ} (ha : start ≤ a)
    (ha' : a ≤ wsub n 1) : walk s.mem 4 p a = none := by
  obtain ⟨-, hlt, hend⟩ := h.bounds
  have hupper := h.upper
  have hnone := h.absent a ha (by omega)
  have hcanonical : canonical a := Or.inr ⟨by omega, by omega⟩
  rwa [translate, if_pos hcanonical] at hnone

/-- The walks in the upper half decide what is translated to what. -/
theorem translate_of_walk {mem mem' : ℕ → ℕ → ℕ} {P : ℕ → Prop} [DecidablePred P]
    {T : ℕ → Option ℕ} (hP : ∀ x, P x → 2 ^ 64 - 2 ^ 47 ≤ x ∧ x < 2 ^ 64)
    (h : ∀ x, x / slot 5 = 2 ^ 16 - 1 →
      walk mem' 4 p x = if P x then T x else walk mem 4 p x) (x : ℕ) :
    translate mem' p x = if P x then T x else translate mem p x := by
  rw [translate, translate]
  by_cases hcanonical : canonical x
  · rw [if_pos hcanonical, if_pos hcanonical]
    rcases hcanonical with hlow | ⟨hhigh, hlt⟩
    · -- the walk takes the address for one between the halves
      have hmod : x % slot (4 + 1) = (x + (2 ^ 64 - 2 ^ 48)) % slot (4 + 1) := by
        rw [show slot (4 + 1) = 2 ^ 48 from rfl]
        omega
      have hdiv : (x + (2 ^ 64 - 2 ^ 48)) / slot 5 = 2 ^ 16 - 1 := by
        rw [show slot 5 = 2 ^ 48 from rfl]
        omega
      have hout : ¬ P x := fun hp => by have := hP x hp; omega
      have hout' : ¬ P (x + (2 ^ 64 - 2 ^ 48)) := fun hp => by have := hP _ hp; omega
      have hlow : walk mem 4 p x = walk mem 4 p (x + (2 ^ 64 - 2 ^ 48)) := walk_mod hmod
      rw [walk_mod hmod, h _ hdiv, if_neg hout, if_neg hout', hlow]
    · exact h x (upper_div hhigh hlt)
  · have hout : ¬ P x := fun hp => hcanonical (Or.inr (hP x hp))
    rw [if_neg hcanonical, if_neg hcanonical, if_neg hout]

/-- A call for the table of level 4 changes the translation of the range only. -/
theorem Mapped.translate (h : Mapped page flags s s' 4 p start last phys)
    (hstart : 2 ^ 64 - 2 ^ 47 ≤ start) (hle : start ≤ last) (hlast : last < 2 ^ 64) (a : ℕ) :
    translate s'.mem p a =
      if start ≤ a ∧ a ≤ last then target flags (phys + (a - start))
      else translate s.mem p a :=
  translate_of_walk (T := fun a => target flags (phys + (a - start)))
    (fun x hx => by omega)
    (fun x hx => h.walk x (hx.trans (upper_div hstart (by omega)).symm)) a

theorem dvd_mod {x : ℕ} (h : 2 ^ 12 ∣ x) : ¬ x % 2 ^ 12 ≠ 0 := not_not.mpr (Nat.mod_eq_zero_of_dvd h)

theorem flags_present (flags : ℕ) :
    (flags ||| PTE_PRESENT ||| PTE_LARGE).testBit presentBit = true := by
  rw [Nat.testBit_or, Nat.testBit_or]
  simp [PTE_PRESENT, presentBit]

theorem flags_physMask (h : flags &&& PTE_PHYS_MASK = 0) :
    (flags ||| PTE_PRESENT ||| PTE_LARGE) &&& PTE_PHYS_MASK = 0 := by
  rw [Nat.and_or_distrib_right, Nat.and_or_distrib_right, h]
  decide

/-- What `pt_map_pages` and `pt_populate_pages` have in common. -/
theorem ptMapPagesInner_upper (hflags : flags &&& PTE_PHYS_MASK = 0) (h : Unmapped s.mem p start n)
    (hphys : 2 ^ 12 ∣ phys) (hfits : phys + (rangeEnd n - start) ≤ 2 ^ 52)
    (htree : IsTree ptShape s.mem 4 p)
    (hf : Fresh page (s.taken + tablesFor 4 start (wsub n 1)) s 4 p) :
    ∃ s', ptMapPagesInner (some page) flags 4 s p start (wsub n 1) phys = .ok s' ∧
      Mapped page flags s s' 4 p start (wsub n 1) phys := by
  have hs := h.span hphys hfits
  obtain ⟨s', hok, hplaced⟩ := ptMapPagesInner_places 4 s p start (wsub n 1) phys _ hs.window htree hf
    (Nat.add_le_add_left (newTables_le_tablesFor 4) _) fun _ ha ha' =>
      leafOf_eq_none.mpr (h.walk ha ha')
  exact ⟨s', hok, hplaced.mapped hs hflags⟩

/-- What `pt_map_pages` does to the tables, and what becomes of the translation. -/
theorem ptMapPages_mapped (h : Unmapped s.mem p start stop) (hphys : 2 ^ 12 ∣ phys)
    (hfits : phys + (rangeEnd stop - start) ≤ 2 ^ 52) (hflags : flags &&& PTE_PHYS_MASK = 0)
    (htree : IsTree ptShape s.mem 4 p)
    (hf : Fresh page (s.taken + tablesFor 4 start (rangeEnd stop - 1)) s 4 p) :
    ∃ s', ptMapPages (some page) s p start stop phys flags = .ok s' ∧
      Mapped page (flags ||| PTE_PRESENT ||| PTE_LARGE) s s' 4 p start (wsub stop 1) phys ∧
      ∀ a, translate s'.mem p a =
        if start ≤ a ∧ a < rangeEnd stop then some (phys + (a - start)) else translate s.mem p a := by
  obtain ⟨hle, hlt, hend⟩ := h.bounds
  rw [← hend, Nat.add_sub_cancel] at hf
  obtain ⟨s', hok, hmapped⟩ := ptMapPagesInner_upper (flags_physMask hflags) h hphys hfits htree hf
  refine ⟨s', ?_, hmapped, fun a => ?_⟩
  · rw [ptMapPages, bugOn_false (dvd_mod h.dvdStart), ok_bind, bugOn_false (dvd_mod h.dvdStop),
      ok_bind, hok]
  · rw [hmapped.translate h.upper hle hlt a, target, if_pos (flags_present flags), ← hend]
    simp only [Nat.lt_succ_iff]

/-- `pt_map_pages` maps the range to the frames from `phys` on, and nothing else. -/
theorem ptMapPages_maps {pml4 : ℕ} (h : Unmapped s.mem pml4 start stop)
    (hphys : 2 ^ 12 ∣ phys) (hfits : phys + (rangeEnd stop - start) ≤ 2 ^ 52)
    (hflags : flags &&& PTE_PHYS_MASK = 0) (htree : IsTree ptShape s.mem 4 pml4)
    (hf : Fresh page (s.taken + tablesFor 4 start (rangeEnd stop - 1)) s 4 pml4) :
    ∃ s', ptMapPages (some page) s pml4 start stop phys flags = .ok s' ∧
      ∀ a, translate s'.mem pml4 a =
        if start ≤ a ∧ a < rangeEnd stop then some (phys + (a - start))
        else translate s.mem pml4 a := by
  obtain ⟨s', hok, -, htranslate⟩ := ptMapPages_mapped h hphys hfits hflags htree hf
  exact ⟨s', hok, htranslate⟩

/-- A table with nothing in it, and a pool of the frames behind it. -/
def emptyTables : PtState := ⟨fun _ _ => 0, 0⟩

def framesBehind (k : ℕ) : ℕ := 0x2000 + 0x1000 * k

/-- Two entries of the table of level 4 share the table below. -/
def sharedTables : PtState := ⟨fun p i => if p = 0x1000 ∧ 510 ≤ i then 0x2003 else 0, 0⟩

/-- A page is mapped at the end of the address space. -/
def lastPage : ℕ := 2 ^ 64 - 2 ^ 12

/-- An entry has no room for a frame at 2 ^ 52, the flags may spoil the address, and with a shared
    table a page appears at two addresses. -/
theorem ptMapPages_not_always :
    (ptMapPages (some framesBehind) emptyTables 0x1000 lastPage 0 (2 ^ 52) 0).toOption.map
      (fun s => translate s.mem 0x1000 lastPage) = some (some 0) ∧
    (ptMapPages (some framesBehind) emptyTables 0x1000 lastPage 0 0 0x8000).toOption.map
      (fun s => translate s.mem 0x1000 lastPage) = some (some 0x8000) ∧
    translate sharedTables.mem 0x1000 (lastPage - 2 ^ 39) = none ∧
    (ptMapPages (some fun k => framesBehind (k + 1)) sharedTables 0x1000 lastPage 0 0x8000
      0).toOption.map (fun s => translate s.mem 0x1000 (lastPage - 2 ^ 39)) = some (some 0x8000) := by
  decide +kernel

theorem emptyTables_child (k p i : ℕ) : ptShape.child k (emptyTables.mem p i) = none :=
  child_absent (Nat.zero_testBit _)

theorem translate_empty (p a : ℕ) : translate emptyTables.mem p a = none := by
  rw [translate]
  split
  · exact leafOf_eq_none.mp (leafOf_absent (Nat.zero_testBit _))
  · rfl

theorem unmapped_lastPage : Unmapped emptyTables.mem 0x1000 lastPage 0 :=
  ⟨by decide, by decide, by decide, by decide, by decide, fun a _ _ => translate_empty _ a⟩

theorem framesBehind_fresh {k : ℕ} (h : k ≤ 2 ^ 39) :
    Fresh framesBehind k emptyTables 4 0x1000 where
  ok j _ hj := by
    rw [framesBehind]
    exact ⟨by omega, by omega, by omega⟩
  distinct i j _ _ _ _ e := by
    rw [framesBehind, framesBehind] at e
    omega
  out j _ _ := by
    rw [tables_empty (emptyTables_child 4 0x1000), Set.mem_singleton_iff, framesBehind]
    omega

/-- The last page is mapped. -/
theorem lastPage_maps : ∃ s', ptMapPages (some framesBehind) emptyTables 0x1000 lastPage 0 0x8000 3 =
      .ok s' ∧ ∀ a, translate s'.mem 0x1000 a =
        if lastPage ≤ a ∧ a < rangeEnd 0 then some (0x8000 + (a - lastPage))
        else translate emptyTables.mem 0x1000 a :=
  ptMapPages_maps unmapped_lastPage (by decide) (by decide) (by decide)
    (IsTree.empty fun i _ => emptyTables_child 4 0x1000 i) (framesBehind_fresh (by decide))

end FilesKernel.Paging
