import FilesKernel.Memory
import FilesKernel.Paging.MapPages

/-! The attributes of mapped addresses.

    Writing and user access need the permission of every entry of the walk. The index into the
    page-attribute table is in the leaf, and one of its bits is elsewhere in a large leaf, whose
    bit 7 says that it is large. -/

namespace FilesKernel.Paging
open CExec CWord Radix

variable {page : ℕ → ℕ} {s s' : PtState} {mem : ℕ → ℕ → ℕ}
  {n p e start last stop phys flags bit k m a pml4 : ℕ}

/-- The bit is set in all entries of the walk from a table `p` of level `n`. -/
def allSet (mem : ℕ → ℕ → ℕ) (bit addr : ℕ) : ℕ → ℕ → Bool
  | 0, _ => true
  | n + 1, p =>
    (mem p (index addr (n + 1))).testBit bit &&
      match ptShape.child (n + 1) (mem p (index addr (n + 1))) with
      | some c => allSet mem bit addr n c
      | none => true

/-- The index into the page-attribute table of a leaf `e` of level `n`. -/
def patIndex (n e : ℕ) : ℕ :=
  4 * (e.testBit (if n = 1 then 7 else 12)).toNat + 2 * (e.testBit 4).toNat + (e.testBit 3).toNat

structure Attributes where
  write : Bool
  user : Bool
  pat : ℕ
  deriving DecidableEq, Repr

/-- The effective attributes of an address, if it is present. -/
def attributes (mem : ℕ → ℕ → ℕ) (pml4 addr : ℕ) : Option Attributes :=
  if canonical addr then (leafOf mem 4 pml4 addr).map fun r =>
    ⟨allSet mem 1 addr 4 pml4, allSet mem 2 addr 4 pml4, patIndex r.1 r.2⟩
  else none

/-- Where all tables permit it, the leaf decides. -/
theorem allSet_eq (hbit : bit = 1 ∨ bit = 2) : ∀ {n p : ℕ}, Every ptShape mem Permits n p →
    lookup ptShape mem (index a) n p = some (k, e) → allSet mem bit a n p = e.testBit bit
  | n + 1, p, hall, hl => by
      rw [allSet]
      rw [lookup] at hl
      cases hc : ptShape.child (n + 1) (mem p (index a (n + 1))) with
      | none =>
        rw [hc] at hl
        obtain ⟨-, rfl⟩ := Prod.mk.inj (Option.some.inj hl)
        exact Bool.and_true _
      | some c =>
        rw [hc] at hl
        obtain ⟨⟨hwrite, huser⟩, hbelow⟩ := hall _ (index_lt a (n + 1)) c hc
        have hset : (mem p (index a (n + 1))).testBit bit = true := by
          rcases hbit with rfl | rfl
          · exact hwrite
          · exact huser
        simp only [hset, Bool.true_and]
        exact allSet_eq hbit hbelow hl

/-! ### The leaf of an address -/

/-- The slot of a higher level begins before and ends behind. -/
theorem slot_le_slot (hk : k ≤ n) (a : ℕ) :
    a / slot n * slot n ≤ a / slot k * slot k ∧ slotEnd a k ≤ slotEnd a n := by
  refine ⟨?_, slotEnd_le_cut hk (by rw [slotEnd_succ, Nat.mul_mod_left]) (slotEnd_spec a n).1⟩
  rcases Nat.eq_zero_or_pos (a / slot n * slot n) with hzero | hpos
  · rw [hzero]
    exact Nat.zero_le _
  · have hle := Nat.div_mul_le_self a (slot n)
    have hsucc : a / slot n * slot n - 1 + 1 = a / slot n * slot n := by omega
    have hcut : (a / slot n * slot n - 1 + 1) % slot n = 0 := by rw [hsucc, Nat.mul_mod_left]
    have h := cut_le_slot hk hcut (show a / slot n * slot n - 1 < a by omega)
    rwa [hsucc] at h

/-- A slot that a leaf of a higher level could map can be mapped by leaves of level 2. -/
theorem whole_down (hk : 2 ≤ k) (hk' : k ≤ 3) (h : Whole flags start last phys k a) :
    Whole flags start last phys 2 a := by
  obtain ⟨hleafy, hphys, hbegin, hend⟩ := h
  have hdvd := slot_dvd_slot hk
  obtain ⟨hbegin', hend'⟩ := slot_le_slot hk a
  refine ⟨?_, ?_, hbegin.trans hbegin', hend'.trans hend⟩
  · rcases Nat.lt_or_eq_of_le hk with hlt | rfl
    · obtain rfl : k = 3 := by omega
      exact leafy_down hleafy
    · exact hleafy
  · rw [← Nat.mod_mod_of_dvd phys hdvd, hphys, Nat.mod_mod_of_dvd start hdvd]

theorem leafLevel_mono (flags start last phys a : ℕ) (h : n ≤ m) :
    leafLevel flags start last phys a n ≤ leafLevel flags start last phys a m := by
  induction m with
  | zero => rw [Nat.le_zero.mp h]
  | succ m ih =>
    rcases Nat.lt_or_eq_of_le h with hlt | rfl
    · refine (ih (Nat.le_of_lt_succ hlt)).trans ?_
      conv_rhs => rw [leafLevel]
      split
      · exact Nat.le_succ_of_le (leafLevel_le _ _ _ _ _ _)
      · exact Nat.le_refl _
    · exact Nat.le_refl _

/-- When the leaf is a large one. -/
theorem two_le_leafLevel (flags : ℕ) (hs : Window n start last phys) (ha : start ≤ a) (ha' : a ≤ last) :
    2 ≤ leafLevel flags start last phys a (m + 1) ↔
      2 ≤ m + 1 ∧ Whole flags start last phys 2 a := by
  obtain ⟨-, hwhole⟩ := hs.leafLevel_whole flags ha ha' m
  have hle := leafLevel_le flags start last phys a (m + 1)
  refine ⟨fun h => ⟨h.trans hle, ?_⟩, fun ⟨hm, hw⟩ => ?_⟩
  · have hfour := hwhole.1.1
    refine whole_down h ?_ hwhole
    rcases hwhole.1.2 with hl | hone
    · have := (largeOf_ne_zero.mp hl).1
      omega
    · omega
  · have htwo : leafLevel flags start last phys a 2 = 2 := if_pos hw
    rw [← htwo]
    exact leafLevel_mono _ _ _ _ _ hm

/-- The slot of 2 MiB around `a` lies in the range, begins at a multiple of 2 MiB on both sides, and
    has no table of level 1 yet. -/
def LargeAt (mem : ℕ → ℕ → ℕ) (pml4 start stop phys a : ℕ) : Prop :=
  phys % slot 2 = start % slot 2 ∧ start ≤ a / slot 2 * slot 2 ∧ slotEnd a 2 < rangeEnd stop ∧
    2 ≤ stopLevel mem 4 pml4 a

/-- What the leaves of a range have for attributes. -/
def leafAttributes (flags : ℕ) (large : Bool) : Attributes :=
  ⟨flags.testBit 1, flags.testBit 2,
    4 * (if large then flags.testBit 12 else flags.testBit 7).toNat + 2 * (flags.testBit 4).toNat +
      (flags.testBit 3).toNat⟩

/-- A leaf has the bits of the flags below the page number. -/
theorem leafEntry_low (hphys : 2 ^ 12 ∣ wrap (phys + (a / slot k * slot k - start))) {j : ℕ}
    (hj : j < 12) : (leafEntry flags start phys k a).testBit j = flags.testBit j := by
  rw [leafEntry, Nat.testBit_or, Nat.testBit_or, testBit_of_aligned hphys hj, Bool.false_or]
  cases hflag : flags.testBit j with
  | true => rfl
  | false =>
    rw [largeOf]
    split
    · rw [Nat.testBit_and, hflag]
      rfl
    · rw [Nat.zero_testBit]
      rfl

theorem leafEntry_pat (hk : 2 ≤ k) (hphys : slot k ∣ wrap (phys + (a / slot k * slot k - start))) :
    (leafEntry flags start phys k a).testBit 12 = flags.testBit 12 := by
  have hlow : (wrap (phys + (a / slot k * slot k - start))).testBit 12 = false := by
    obtain ⟨i, hi⟩ := (slot_dvd_slot hk).trans hphys
    rw [hi, show slot 2 = 2 ^ 21 from rfl, Nat.mul_comm, Nat.testBit_mul_two_pow]
    simp
  have hlarge : (largeOf k flags).testBit 12 = false := by
    rw [largeOf]
    split
    · rw [Nat.testBit_and, show PTE_LARGE.testBit 12 = false by decide, Bool.and_false]
    · exact Nat.zero_testBit _
  rw [leafEntry, Nat.testBit_or, Nat.testBit_or, hlow, hlarge, Bool.false_or, Bool.or_false]

/-- The attributes of a mapped address. -/
theorem Placed.attributes_eq (hs : Window 4 start last phys)
    (h : Placed page flags s s' 4 pml4 start last phys) (hpermits : Every ptShape s.mem Permits 4 pml4)
    (hpresent : flags.testBit presentBit) (ha : start ≤ a) (ha' : a ≤ last) (hcan : canonical a) :
    attributes s'.mem pml4 a = some (leafAttributes flags
      (decide (2 ≤ stopLevel s.mem 4 pml4 a ∧ Whole flags start last phys 2 a))) := by
  obtain ⟨m, hm⟩ : ∃ m, stopLevel s.mem 4 pml4 a = m + 1 :=
    ⟨_, (Nat.sub_add_cancel (stopLevel_pos s.mem a 3 pml4)).symm⟩
  obtain ⟨hk, -, hphys, hbegin, -⟩ := hs.leafLevel_whole flags ha ha' m
  have hlarge := two_le_leafLevel (m := m) flags hs ha ha'
  have hlevel := (leafLevel_le flags start last phys a (m + 1)).trans (hm ▸ stopLevel_le)
  have hleaf := h.leaf a (div_between hs.same ha ha')
  rw [if_pos ⟨ha, ha'⟩, hm, madeLeaf, if_pos hpresent] at hleaf
  rw [hm]
  generalize leafLevel flags start last phys a (m + 1) = k at hk hphys hbegin hlarge hlevel hleaf
  have hlookup : lookup ptShape s'.mem (index a) 4 pml4 = some (k, leafEntry flags start phys k a) := by
    rw [leafOf] at hleaf
    exact (Option.filter_eq_some_iff.mp hleaf).1
  -- the physical address is aligned like the slot
  have hslot : slot k ∣ wrap (phys + (a / slot k * slot k - start)) := by
    refine Nat.dvd_of_mod_eq_zero (((phys_mod phys hlevel hbegin).mpr hphys).trans ?_)
    exact Nat.mul_mod_left _ _
  have hpage := (slot_dvd hk).trans hslot
  have hall := h.permits hpermits
  rw [attributes, if_pos hcan, hleaf, Option.map_some, allSet_eq (Or.inl rfl) hall hlookup,
    allSet_eq (Or.inr rfl) hall hlookup, leafEntry_low hpage (by decide), leafEntry_low hpage (by decide),
    leafAttributes, patIndex, leafEntry_low hpage (j := 4) (by decide),
    leafEntry_low hpage (j := 3) (by decide)]
  by_cases hone : k = 1
  · rw [if_pos hone, decide_eq_false (fun hl => by have := hlarge.mpr hl; omega),
      leafEntry_low hpage (by decide)]
    rfl
  · have htwo : 2 ≤ k := by omega
    rw [if_neg hone, decide_eq_true (hlarge.mp htwo), leafEntry_pat htwo hslot]
    rfl

/-! ### All leaves alike -/

instance (mem : ℕ → ℕ → ℕ) (pml4 start stop phys a : ℕ) :
    Decidable (LargeAt mem pml4 start stop phys a) := inferInstanceAs (Decidable (_ ∧ _))

/-- The two kinds of leaves differ in one bit of the index. -/
theorem leafAttributes_eq_iff (hseven : flags.testBit 7 = true) :
    leafAttributes flags true = leafAttributes flags false ↔ flags.testBit 12 = true := by
  simp only [leafAttributes, hseven, Attributes.mk.injEq, true_and, if_true, Bool.false_eq_true, if_false]
  cases flags.testBit 12 <;> simp

/-- A page-aligned range of addresses, in which nothing is mapped. -/
structure Vacant (mem : ℕ → ℕ → ℕ) (pml4 start stop : ℕ) : Prop where
  dvdStart : 2 ^ 12 ∣ start
  dvdStop : 2 ^ 12 ∣ stop
  lt : stop < 2 ^ 64
  nonempty : start < rangeEnd stop
  canonical : ∀ a, start ≤ a → a < rangeEnd stop → canonical a
  absent : ∀ a, start ≤ a → a < rangeEnd stop → translate mem pml4 a = none

/-- All addresses of the range get the same attributes. -/
def SameAttributes (page : ℕ → ℕ) (s : PtState) (pml4 start stop phys flags : ℕ) : Prop :=
  ∃ s', ptMapPages (some page) s pml4 start stop phys flags = .ok s' ∧
    ∀ a b, start ≤ a → a < rangeEnd stop → start ≤ b → b < rangeEnd stop →
      attributes s'.mem pml4 a = attributes s'.mem pml4 b

theorem Vacant.window (h : Vacant mem pml4 start stop) (hphys : 2 ^ 12 ∣ phys) (hlt : phys < 2 ^ 64) :
    Window 4 start (wsub stop 1) phys := by
  obtain ⟨hle, hlast, hend⟩ := rangeEnd_last h.lt h.nonempty
  have hstart := h.canonical start (Nat.le_refl _) h.nonempty
  have hstop := h.canonical (wsub stop 1) hle (by omega)
  refine ⟨by decide, h.dvdStart, ?_, hle, hlast, ?_, hphys, hlt⟩
  · rw [hend, rangeEnd]
    split
    · decide
    · exact h.dvdStop
  · rw [show slot (4 + 1) = 2 ^ 48 from rfl]
    rcases hstart with hlow | hhigh
    · rcases hstop with hlow' | hhigh'
      · omega
      · -- the addresses between the halves are not canonical
        have hgap := h.canonical (2 ^ 47) (by omega) (by omega)
        rcases hgap with hgap | hgap <;> omega
    · omega

/-- The mapping of a vacant range, and the attributes in it. -/
theorem ptMapPages_attributes (flags : ℕ) (h : Vacant s.mem pml4 start stop) (hphys : 2 ^ 12 ∣ phys)
    (hlt : phys < 2 ^ 64) (htree : IsTree ptShape s.mem 4 pml4)
    (hpermits : Every ptShape s.mem Permits 4 pml4)
    (hf : Fresh page (s.taken + tablesFor 4 start (rangeEnd stop - 1)) s 4 pml4) :
    ∃ s', ptMapPages (some page) s pml4 start stop phys flags = .ok s' ∧
      ∀ a, start ≤ a → a < rangeEnd stop → attributes s'.mem pml4 a =
        some (leafAttributes (flags ||| PTE_PRESENT ||| PTE_LARGE)
          (decide (LargeAt s.mem pml4 start stop phys a))) := by
  obtain ⟨hle, hlast, hend⟩ := rangeEnd_last h.lt h.nonempty
  have hs := h.window hphys hlt
  rw [← hend, Nat.add_sub_cancel] at hf
  have hplaces : Places page (flags ||| PTE_PRESENT ||| PTE_LARGE) 4 _ := ptMapPagesInner_places 4
  obtain ⟨s', hok, hplaced⟩ := hplaces s pml4 start (wsub stop 1) phys _ hs htree hf
    (Nat.add_le_add_left (newTables_le_tablesFor 4) _) fun a ha ha' => by
      have habsent := h.absent a ha (by omega)
      rw [translate, if_pos (h.canonical a ha (by omega))] at habsent
      exact leafOf_eq_none.mpr habsent
  refine ⟨s', ?_, fun a ha ha' => ?_⟩
  · rw [ptMapPages, bugOn_false (dvd_mod h.dvdStart), ok_bind, bugOn_false (dvd_mod h.dvdStop), ok_bind,
      hok]
  · rw [hplaced.attributes_eq hs hpermits (flags_present flags) ha (by omega) (h.canonical a ha ha')]
    have hleafy : Leafy (flags ||| PTE_PRESENT ||| PTE_LARGE) 2 :=
      ⟨by decide, Or.inl (largeOf_ne_zero.mpr ⟨Or.inr rfl, and_large_ne_zero.mpr (by
        rw [Nat.testBit_or]
        exact Bool.or_eq_true_iff.mpr (Or.inr (by decide)))⟩)⟩
    congr 2
    refine decide_eq_decide.mpr ⟨?_, ?_⟩
    · rintro ⟨htwo, -, hp, hb, hend⟩
      exact ⟨hp, hb, by omega, htwo⟩
    · rintro ⟨hp, hb, he, htwo⟩
      exact ⟨htwo, hleafy, hp, hb, by omega⟩

/-- `pt_map_pages` gives all addresses the same attributes if and only if the leaves are all large or
    all small, or the flags set the bit of a large leaf that a small one gets from `__PTE_LARGE`. -/
theorem sameAttributes_iff (h : Vacant s.mem pml4 start stop) (hphys : 2 ^ 12 ∣ phys)
    (hlt : phys < 2 ^ 64) (htree : IsTree ptShape s.mem 4 pml4)
    (hpermits : Every ptShape s.mem Permits 4 pml4)
    (hf : Fresh page (s.taken + tablesFor 4 start (rangeEnd stop - 1)) s 4 pml4) :
    SameAttributes page s pml4 start stop phys flags ↔ flags.testBit 12 ∨
      (∀ a, start ≤ a → a < rangeEnd stop → LargeAt s.mem pml4 start stop phys a) ∨
      ∀ a, start ≤ a → a < rangeEnd stop → ¬ LargeAt s.mem pml4 start stop phys a := by
  obtain ⟨s', hok, hattr⟩ := ptMapPages_attributes flags h hphys hlt htree hpermits hf
  have hseven : (flags ||| PTE_PRESENT ||| PTE_LARGE).testBit 7 = true := by
    rw [Nat.testBit_or]
    exact Bool.or_eq_true_iff.mpr (Or.inr (by decide))
  have htwelve : (flags ||| PTE_PRESENT ||| PTE_LARGE).testBit 12 = flags.testBit 12 := by
    rw [Nat.testBit_or, Nat.testBit_or, show PTE_PRESENT.testBit 12 = false by decide,
      show PTE_LARGE.testBit 12 = false by decide, Bool.or_false, Bool.or_false]
  have hkinds := leafAttributes_eq_iff hseven
  rw [htwelve] at hkinds
  constructor
  · rintro ⟨s'', hok', hsame⟩
    obtain rfl := Except.ok.inj (hok.symm.trans hok')
    by_cases hbit : flags.testBit 12 = true
    · exact Or.inl hbit
    · -- a large and a small leaf would differ
      have hdiffer : ∀ a b, start ≤ a → a < rangeEnd stop → start ≤ b → b < rangeEnd stop →
          LargeAt s.mem pml4 start stop phys a → LargeAt s.mem pml4 start stop phys b :=
        fun a b ha ha' hb hb' hlarge => by
          by_contra hsmall
          have heq := hsame a b ha ha' hb hb'
          rw [hattr a ha ha', hattr b hb hb', decide_eq_true hlarge, decide_eq_false hsmall] at heq
          exact hbit (hkinds.mp (Option.some.inj heq))
      right
      by_cases hex : LargeAt s.mem pml4 start stop phys start
      · exact Or.inl fun a ha ha' => hdiffer start a (Nat.le_refl _) h.nonempty ha ha' hex
      · exact Or.inr fun a ha ha' hlarge => hex (hdiffer a start ha ha' (Nat.le_refl _) h.nonempty hlarge)
  · intro hcond
    refine ⟨s', hok, fun a b ha ha' hb hb' => ?_⟩
    rw [hattr a ha ha', hattr b hb hb']
    rcases hcond with hbit | hall | hall
    · have hsame := hkinds.mpr hbit
      cases decide (LargeAt s.mem pml4 start stop phys a) <;>
        cases decide (LargeAt s.mem pml4 start stop phys b) <;> simp [hsame]
    · rw [decide_eq_true (hall a ha ha'), decide_eq_true (hall b hb hb')]
    · rw [decide_eq_false (hall a ha ha'), decide_eq_false (hall b hb hb')]

theorem vacant_empty (hstart : 2 ^ 12 ∣ start) (hstop : 2 ^ 12 ∣ stop) (hlow : higherBase ≤ start)
    (hlt : stop < 2 ^ 64) (hne : start < stop) : Vacant emptyTables.mem 0x1000 start stop := by
  have hend : rangeEnd stop = stop := if_neg (by omega)
  rw [higherBase] at hlow
  refine ⟨hstart, hstop, hlt, by rwa [hend], fun a ha ha' => Or.inr ⟨by omega, by omega⟩,
    fun a _ _ => translate_empty _ a⟩

/-- Two pages get small leaves. -/
theorem twoPages_sameAttributes :
    SameAttributes framesBehind emptyTables 0x1000 higherBase (higherBase + 0x2000) 0 2 := by
  refine (sameAttributes_iff (vacant_empty (by decide) (by decide) (by decide) (by decide) (by decide))
    (by decide) (by decide) (IsTree.empty fun i _ => emptyTables_child 4 0x1000 i)
    (Every.empty (emptyTables_child 4 0x1000)) (framesBehind_fresh (by decide))).mpr
    (Or.inr (Or.inr fun a ha ha' hlarge => ?_))
  -- the slot of level 2 ends behind them
  have hend := hlarge.2.2.1
  have hslot : slot 2 = 2 ^ 21 := rfl
  have hstop : rangeEnd (higherBase + 0x2000) = higherBase + 0x2000 := if_neg (by decide)
  rw [slotEnd, hslot, hstop] at hend
  rw [higherBase] at ha hend
  omega

/-- Of 2 MiB and a page, the page gets another memory type. -/
theorem lastPage_differs : Vacant emptyTables.mem 0x1000 higherBase (higherBase + 0x201000) ∧
    ¬ SameAttributes framesBehind emptyTables 0x1000 higherBase (higherBase + 0x201000) 0 2 := by
  refine ⟨vacant_empty (by decide) (by decide) (by decide) (by decide) (by decide), ?_⟩
  rintro ⟨s', hok, hsame⟩
  have hrun : (ptMapPages (some framesBehind) emptyTables 0x1000 higherBase (higherBase + 0x201000) 0
      2).toOption.map (fun s => (attributes s.mem 0x1000 higherBase,
        attributes s.mem 0x1000 (higherBase + 0x200000))) =
      some (some ⟨true, false, 0⟩, some ⟨true, false, 4⟩) := by
    decide +kernel
  rw [hok] at hrun
  have heq := hsame higherBase (higherBase + 0x200000) (by decide) (by decide) (by decide) (by decide)
  have hpair := Prod.mk.inj (Option.some.inj hrun)
  rw [hpair.1, hpair.2] at heq
  exact absurd heq (by decide)

end FilesKernel.Paging
