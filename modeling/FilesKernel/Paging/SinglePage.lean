import FilesKernel.Paging.MapPages

/-! Single pages.

    Where the tables down to level 1 exist, mapping a page needs no pool: one entry is written, and
    the translation changes for the addresses of the page only. -/

namespace FilesKernel.Paging
open CExec CWord Radix

variable {mem : ℕ → ℕ → ℕ} {s s' : PtState} {pool : PagePool} {n p c t a x e phys flags pml4 : ℕ}
  {sub : PtState → ℕ → ℕ → ℕ → ℕ → Exec PtState}

theorem child_eq_some (h : ptShape.child n e = some c) :
    e.testBit presentBit = true ∧ e &&& PTE_PHYS_MASK = c := by
  simp only [ptShape] at h
  split at h
  · rename_i hp
    exact ⟨hp.1, Option.some.inj h⟩
  · cases h

/-- The addresses of a page have the same way through the tables. -/
theorem page_div (hn : 1 ≤ n) (h : x / 2 ^ 12 = a / 2 ^ 12) :
    x / slot n = a / slot n := by
  have hslot : slot n = 2 ^ 12 * 2 ^ (9 * (n - 1)) := by
    rw [slot, ← Nat.pow_add]
    congr 1
    omega
  rw [hslot, ← Nat.div_div_eq_div_mul, ← Nat.div_div_eq_div_mul, h]

theorem lastByte_div (ha : 2 ^ 12 ∣ a) : (a + 0xfff) / 2 ^ 12 = a / 2 ^ 12 := by omega

theorem page_index (ha : 2 ^ 12 ∣ a) (hn : 1 ≤ n) : index (a + 0xfff) n = index a n := by
  rw [index, index, page_div hn (lastByte_div ha)]

/-- Where an iteration ends, and how many bytes it maps. -/
theorem mapEnd_page (hs : Span n a (a + 0xfff) phys) :
    (if wsub (wrap (a + slot n) / slot n * slot n) 1 < a + 0xfff then
      wsub (wrap (a + slot n) / slot n * slot n) 1 else a + 0xfff) = a + 0xfff ∧
    wrap (wsub (a + 0xfff) a + 1) = 2 ^ 12 := by
  have hlt := hs.lt
  have hle := le_slotEnd (page_div hs.level.1 (lastByte_div hs.dvdStart))
  rw [entryEnd_eq hs.level.2 (by omega), if_neg (by omega), wsub_of_le (by omega) hlt,
    wrap_of_lt (by omega)]
  exact ⟨rfl, by omega⟩

theorem mapEntry_table (hs : Span n a (a + 0xfff) phys)
    (hc : ptShape.child n (s.mem p (index a n)) = some c)
    (hsub : sub s c a (a + 0xfff) phys = .ok s') :
    mapEntry sub pool flags n (slot n) (a + 0xfff) p s (index a n) a phys = .ok (s', 2 ^ 12) := by
  obtain ⟨hend, htomap⟩ := mapEnd_page hs
  obtain ⟨hpresent, hmask⟩ := child_eq_some hc
  have hn : n ≠ 1 := fun e => by
    rw [e, child_one] at hc
    cases hc
  simp only [mapEntry, hend, htomap]
  rw [get_eq (index_lt _ _), ok_bind, if_neg (by rw [hpresent]; decide), bugOn_false hn, ok_bind, hmask,
    hsub, ok_bind]

theorem mapEntry_last (hs : Span 1 a (a + 0xfff) phys)
    (habsent : (s.mem p (index a 1)).testBit presentBit = false) :
    mapEntry sub pool flags 1 (slot 1) (a + 0xfff) p s (index a 1) a phys =
      .ok ({ s with mem := store s.mem p (index a 1) (phys ||| flags) }, 2 ^ 12) := by
  obtain ⟨hend, htomap⟩ := mapEnd_page hs
  have haligned : a % slot 1 = 0 ∧ phys % slot 1 = 0 :=
    ⟨Nat.mod_eq_zero_of_dvd hs.dvdStart, Nat.mod_eq_zero_of_dvd hs.dvdPhys⟩
  simp only [mapEntry, hend, htomap]
  rw [get_eq (index_lt _ _), ok_bind, if_pos (by rw [habsent]; decide),
    if_pos ⟨by decide, rfl, haligned, Or.inr trivial⟩, set_eq (index_lt _ _), ok_bind,
    if_neg (by decide : ¬ (1 = 3 ∨ 1 = 2)), Nat.or_zero]

/-- Where the tables exist, `__pt_map_pages` writes the entry of a page. -/
theorem ptMapPagesInner_page (habsent : (s.mem t (index a 1)).testBit presentBit = false) :
    ∀ {n p : ℕ}, Span n a (a + 0xfff) phys → Path ptShape s.mem (index a) n p t →
    ptMapPagesInner pool flags n s p a (a + 0xfff) phys =
      .ok { s with mem := store s.mem t (index a 1) (phys ||| flags) } := by
  intro n
  induction n with
  | zero => exact fun _ hp => hp.elim
  | succ n ih =>
    intro p hs hp
    have hiter : ∀ s', mapEntry (ptMapPagesInner pool flags n) pool flags (n + 1) (slot (n + 1))
        (a + 0xfff) p s (index a (n + 1)) a phys = .ok (s', 2 ^ 12) →
        ptMapPagesInner pool flags (n + 1) s p a (a + 0xfff) phys = .ok s' := fun s' h => by
      rw [ptMapPagesInner, pmlSize_eq hs.level, ok_bind, pmlOffs_eq hs.level, ok_bind,
        pmlOffs_eq hs.level, ok_bind, page_index hs.dvdStart hs.level.1, Nat.add_sub_cancel_left,
        mapEntries, h, ok_bind]
      rfl
    cases n with
    | zero =>
      obtain rfl : p = t := hp
      exact hiter _ (mapEntry_last hs habsent)
    | succ n =>
      obtain ⟨c, hc, hp⟩ := hp
      have hs' : Span (n + 1) a (a + 0xfff) phys :=
        ⟨⟨by omega, by have := hs.level.2; omega⟩, hs.dvdStart, hs.dvdLast, hs.le, hs.lt,
          (page_div (by omega) (lastByte_div hs.dvdStart)).symm, hs.dvdPhys, hs.fits⟩
      exact hiter _ (mapEntry_table hs hc (ih hs' hp))

/-! ### Populated windows -/

/-- There are tables down to level 1 for each address from `start` up to `stop`. -/
structure Populated (mem : ℕ → ℕ → ℕ) (pml4 start stop : ℕ) : Prop where
  tree : IsTree ptShape mem 4 pml4
  paths : ∀ a, start ≤ a → a < stop → ∃ t, Path ptShape mem (index a) 4 pml4 t

/-- Addresses of different pages have different ways. -/
theorem index_ne {b : ℕ} (ha : a / slot 5 = b / slot 5) (hne : a / 2 ^ 12 ≠ b / 2 ^ 12) :
    ∃ k, 1 ≤ k ∧ k ≤ 4 ∧ index a k ≠ index b k := by
  by_contra hall
  have hsame : ∀ k, 1 ≤ k → k ≤ 4 → index a k = index b k := fun k hk hk' => by
    by_contra hidx
    exact hall ⟨k, hk, hk', hidx⟩
  have h₄ := (index_eq_iff ha).mp (hsame 4 (by decide) (by decide))
  have h₃ := (index_eq_iff h₄).mp (hsame 3 (by decide) (by decide))
  have h₂ := (index_eq_iff h₃).mp (hsame 2 (by decide) (by decide))
  exact hne ((index_eq_iff h₂).mp (hsame 1 (by decide) (by decide)))

/-- The entry of a page in the upper half is written. -/
theorem translate_storeLast (htree : IsTree ptShape mem 4 pml4)
    (hp : Path ptShape mem (index a) 4 pml4 t) (ha : 2 ^ 64 - 2 ^ 47 ≤ a) (hlt : a < 2 ^ 64)
    (hdvd : 2 ^ 12 ∣ a) (x : ℕ) :
    translate (store mem t (index a 1) e) pml4 x =
      if x / 2 ^ 12 = a / 2 ^ 12 then endOfWalk x (some (1, e)) else translate mem pml4 x := by
  obtain ⟨hgrows, hsame⟩ := Extends.storeLast (e := e) child_one (index_lt a) htree hp
  refine translate_of_walk (P := fun x => x / 2 ^ 12 = a / 2 ^ 12)
    (T := fun x => endOfWalk x (some (1, e))) (fun y hy => by omega) (fun y hy => ?_) x
  rw [walk, walk]
  split
  · rename_i hpage
    have hidx : ∀ k, 1 ≤ k → k ≤ 4 → index y k = index a k := fun k hk _ => by
      rw [index, index, page_div hk hpage]
    have hp' := (hgrows.paths _ (index_lt a) t hp).idx_congr hidx
    rw [hp'.lookup (child_one _), hidx 1 (by decide) (by decide), store_self]
  · rename_i hpage
    rw [hsame _ (index_lt y) (index_ne (hy.trans (upper_div ha hlt).symm) hpage)]

/-- In a populated window, the entry of each page can be written. -/
theorem Populated.entry {start stop : ℕ} (h : Populated mem pml4 start stop)
    (hstart : 2 ^ 64 - 2 ^ 47 ≤ start) (hstop : stop ≤ 2 ^ 64) (hdvd : 2 ^ 12 ∣ a) (ha : start ≤ a)
    (ha' : a < stop) : ∃ t, Path ptShape mem (index a) 4 pml4 t ∧
      translate mem pml4 a = endOfWalk a (some (1, mem t (index a 1))) ∧
      ∀ e, Populated (store mem t (index a 1) e) pml4 start stop ∧
        ∀ x, translate (store mem t (index a 1) e) pml4 x =
          if x / 2 ^ 12 = a / 2 ^ 12 then endOfWalk x (some (1, e)) else translate mem pml4 x := by
  obtain ⟨t, ht⟩ := h.paths a ha ha'
  have hcanonical : canonical a := Or.inr ⟨by omega, by omega⟩
  refine ⟨t, ht, ?_, fun e => ⟨⟨?_, fun b hb hb' => ?_⟩, fun x => ?_⟩⟩
  · rw [translate, if_pos hcanonical, walk, ht.lookup (child_one _)]
  · exact (Extends.storeLast child_one (index_lt a) h.tree ht).1.tree
  · obtain ⟨u, hu⟩ := h.paths b hb hb'
    exact ⟨u, (Extends.storeLast child_one (index_lt a) h.tree ht).1.paths _ (index_lt b) u hu⟩
  · exact translate_storeLast h.tree ht (by omega) (by omega) hdvd x

/-- A page is mapped without a pool. -/
theorem Populated.map {start stop : ℕ} (h : Populated s.mem pml4 start stop)
    (hstart : 2 ^ 64 - 2 ^ 47 ≤ start) (hstop : stop < 2 ^ 64) (hdvd : 2 ^ 12 ∣ a) (ha : start ≤ a)
    (ha' : a + 2 ^ 12 ≤ stop) (hphys : 2 ^ 12 ∣ phys) (hlt : phys < 2 ^ 52)
    (hflags : flags &&& PTE_PHYS_MASK = 0) (habsent : translate s.mem pml4 a = none) :
    ∃ s', ptMapPages none s pml4 a (a + 2 ^ 12) phys flags = .ok s' ∧
      Populated s'.mem pml4 start stop ∧ ∀ x, translate s'.mem pml4 x =
        if x / 2 ^ 12 = a / 2 ^ 12 then some (phys + x % 2 ^ 12) else translate s.mem pml4 x := by
  obtain ⟨t, ht, hentry, hwrite⟩ := h.entry hstart (Nat.le_of_lt hstop) hdvd ha (by omega)
  have hfree : (s.mem t (index a 1)).testBit presentBit = false := by
    rw [hentry, endOfWalk] at habsent
    split at habsent
    · cases habsent
    · rename_i hp
      exact Bool.eq_false_iff.mpr hp
  have hspan : Span 4 a (a + 0xfff) phys :=
    ⟨by decide, hdvd, by omega, by omega, by omega,
      (page_div (by decide) (lastByte_div hdvd)).symm, hphys, by omega⟩
  obtain ⟨hpopulated, htranslate⟩ := hwrite (phys ||| (flags ||| PTE_PRESENT ||| PTE_LARGE))
  refine ⟨{ s with mem := store s.mem t (index a 1) (phys ||| (flags ||| PTE_PRESENT ||| PTE_LARGE)) },
    ?_, hpopulated, fun x => ?_⟩
  · rw [ptMapPages, bugOn_false (dvd_mod hdvd), ok_bind, bugOn_false (by omega), ok_bind,
      wsub_of_le (by omega) (by omega), show a + 2 ^ 12 - 1 = a + 0xfff by omega,
      ptMapPagesInner_page hfree hspan ht]
  · have hmask := leaf_and_physMask (n := 1) hphys hlt (flags_physMask hflags)
    have hpresent : (phys ||| (flags ||| PTE_PRESENT ||| PTE_LARGE) |||
        largeOf 1 (flags ||| PTE_PRESENT ||| PTE_LARGE)).testBit presentBit = true :=
      (leaf_present hphys).trans (flags_present flags)
    rw [show largeOf 1 (flags ||| PTE_PRESENT ||| PTE_LARGE) = 0 from rfl, Nat.or_zero] at hmask hpresent
    rw [htranslate, endOfWalk, if_pos hpresent, leafAddr, hmask, slot_one, Nat.div_mul_cancel hphys]

theorem endOfWalk_zero (x : ℕ) : endOfWalk x (some (n, 0)) = none := by
  rw [endOfWalk, Nat.zero_testBit]
  rfl

/-- `pt_populate_pages` creates the tables for a range and maps nothing. -/
theorem ptPopulatePages_spec {page : ℕ → ℕ} {start stop : ℕ} (h : Unmapped s.mem pml4 start stop)
    (hstop : stop ≠ 0) (htree : IsTree ptShape s.mem 4 pml4)
    (hf : Fresh page (s.taken + tablesFor 4 start (stop - 1)) s 4 pml4) :
    ∃ s', ptPopulatePages (some page) s pml4 start stop = .ok s' ∧
      Populated s'.mem pml4 start stop ∧ ∀ x, translate s'.mem pml4 x =
        if start ≤ x ∧ x < stop then none else translate s.mem pml4 x := by
  have hlt := h.lt
  have hupper := h.upper
  have hend : rangeEnd stop = stop := if_neg hstop
  have hlast : wsub stop 1 = stop - 1 := wsub_of_le (by omega) hlt
  obtain ⟨hle, hlt', -⟩ := h.bounds
  rw [← hlast] at hf
  obtain ⟨s', hok, hmapped⟩ := ptMapPagesInner_upper (Nat.zero_and _) h
    (Nat.dvd_zero _) (by rw [hend]; omega) htree hf
  refine ⟨s', ?_, ⟨hmapped.grows.tree, fun a ha ha' => ?_⟩, fun x => ?_⟩
  · rw [ptPopulatePages, bugOn_false (dvd_mod h.dvdStart), ok_bind, bugOn_false (dvd_mod h.dvdStop),
      ok_bind, hok]
  · exact hmapped.paths (Nat.zero_testBit _) a ha (by omega)
  · rw [hmapped.translate hupper hle hlt', target, Nat.zero_testBit]
    by_cases hx : start ≤ x ∧ x < stop
    · rw [if_pos hx, if_pos (by omega)]
      rfl
    · rw [if_neg hx, if_neg (by omega)]

end FilesKernel.Paging
