import FilesKernel.Balloc.RemoveRange

/-! Reserved memory is never free.

    However broken the memory map is, both trees stay valid while ranges are added, and every removal
    is exact; so what the second loop and the last two calls take out of `free_ranges` is out for
    good. -/

namespace FilesKernel.Balloc
open CExec CWord RbTree LinkedList RedBlack Spans Boot

variable {c : Image} {s s' : BallocState} {mem : BootMem} {info : ℕ}

/-! ### The pool after `balloc_setup_nodes` -/

theorem Image.node_isNode (c : Image) {i : ℕ} (hi : i < ballocMaxRanges) : IsNode (c.node i) := by
  have h₁ := c.nodes_pos
  have h₂ := c.nodes_aligned
  have h₃ := c.nodes_end
  rw [ballocMaxRanges] at hi
  rw [memoryNodeSize, ballocMaxRanges] at h₃
  have hval : c.node i = c.ballocNodes + 40 * i := rfl
  exact ⟨by omega, by omega, by omega⟩

theorem Image.node_ne_list (c : Image) {i : ℕ} (hi : i < ballocMaxRanges) :
    c.node i ≠ c.ballocFreeList := by
  have h := c.list_apart
  rw [ballocMaxRanges] at hi
  rw [memoryNodeSize, ballocMaxRanges] at h
  have hval : c.node i = c.ballocNodes + 40 * i := rfl
  omega

/-- All nodes -/
def Image.nodes (c : Image) : List ℕ := (List.range ballocMaxRanges).map c.node

/-- The loop over the nodes puts them all into the pool, each in front of the others. -/
theorem ballocSetupLoop_spec : ∀ {n : ℕ} {s : BallocState} {L : List ℕ}, n ≤ ballocMaxRanges →
    Holds c s L (fun _ => .nil) → (∀ a ∈ L, ∃ i < ballocMaxRanges - n, a = c.node i) →
    ∃ s' L', ballocSetupLoop c n s = .ok s' ∧ Holds c s' L' (fun _ => .nil) ∧
      L' = ((List.range' (ballocMaxRanges - n) n).map c.node).reverse ++ L
  | 0, s, L, _, h, _ => ⟨s, L, rfl, h, rfl⟩
  | n + 1, s, L, hn, h, hL => by
      have hi : ballocMaxRanges - (n + 1) < ballocMaxRanges := by omega
      have hnext : ballocMaxRanges - (n + 1) + 1 = ballocMaxRanges - n := by omega
      have hloose : Loose c L (fun _ => .nil) (c.node (ballocMaxRanges - (n + 1))) := by
        refine ⟨c.node_isNode hi, fun hmem => ?_, fun t hmem => by cases hmem⟩
        rcases List.mem_cons.mp hmem with hmem | hmem
        · exact c.node_ne_list hi hmem
        · obtain ⟨i, hlt, he⟩ := hL _ hmem
          simp only [Image.node, memoryNodeSize] at he
          omega
      obtain ⟨s₁, e₁, h₁, -, -⟩ := ballocFreeNode_spec h hloose
      obtain ⟨s₂, L₂, e₂, h₂, rfl⟩ := ballocSetupLoop_spec (n := n) (by omega) h₁ fun a ha => by
        rcases List.mem_cons.mp ha with rfl | ha
        · exact ⟨_, by omega, rfl⟩
        · obtain ⟨i, hlt, he⟩ := hL a ha
          exact ⟨i, by omega, he⟩
      refine ⟨s₂, _, ?_, h₂, ?_⟩
      · rw [ballocSetupLoop, e₁, ok_bind, e₂]
      · rw [List.range'_succ, hnext, List.map_cons, List.reverse_cons, List.append_assoc,
          List.singleton_append]

/-- `balloc_setup_nodes` in any memory, with both trees empty. -/
theorem ballocSetupNodes_spec (c : Image) (hroot : ∀ t, s.root t = 0) : ∃ s' L,
    ballocSetupNodes c s = .ok s' ∧ Holds c s' L (fun _ => .nil) ∧ L.Perm c.nodes := by
  obtain ⟨m, e, hm, -⟩ := listInit_spec s.heads (Nat.ne_of_gt c.list_pos)
  have h : Holds c (s.setHeads m) [] (fun _ => .nil) := by
    have hnil : ∀ a : ℕ, a ∉ (ColorTree.nil : ColorTree ℕ).inorder := fun a ha => by cases ha
    refine ⟨hm, fun t => ⟨?_, trivial, List.nodup_nil, fun _ _ => rfl⟩, fun t => ⟨rfl, 0, rfl⟩,
      fun a ha => absurd ha (hnil a), fun t a ha => absurd ha (hnil a),
      fun t t' _ a ha => absurd ha (hnil a)⟩
    rw [root_tree, root_setHeads, hroot]
    rfl
  obtain ⟨s', L, e', h', rfl⟩ := ballocSetupLoop_spec (le_refl _) h fun a ha => by cases ha
  refine ⟨s', _, ?_, h', ?_⟩
  · rw [ballocSetupNodes, e, ok_bind, e']
  · rw [List.append_nil, Nat.sub_self, ← List.range_eq_range']
    exact List.reverse_perm _

/-! ### The entries of the map -/

/-- The pointer behind an entry. -/
def entryNext (mem : BootMem) (ptr : ℕ) : ℕ := wrap (ptr + ((mmapEntry mem ptr).size + 4))

/-- The loops come past the entry at `p` when they are at `ptr`. -/
inductive EntryFrom (mem : BootMem) (stop : ℕ) : ℕ → ℕ → Prop where
  | here {ptr : ℕ} : ptr + mmapEntrySize ≤ stop → EntryFrom mem stop ptr ptr
  | next {ptr p : ℕ} : ptr + mmapEntrySize ≤ stop → EntryFrom mem stop (entryNext mem ptr) p →
      EntryFrom mem stop ptr p

/-- `mmapEntry mem p` is an entry of the memory map. -/
def IsEntry (mem : BootMem) (info p : ℕ) : Prop :=
  EntryFrom mem ((mbootInfo mem info).mmapAddr + (mbootInfo mem info).mmapSize)
    (mbootInfo mem info).mmapAddr p

/-- The addresses that must not be handed out. -/
inductive Reserved (c : Image) (mem : BootMem) (info x : ℕ) : Prop where
  | entry {p : ℕ} : IsEntry mem info p → (mmapEntry mem p).type ≠ 1 → (mmapEntry mem p).addr ≤ x →
      x < (mmapEntry mem p).addr + (mmapEntry mem p).length → Reserved c mem info x
  | kernel : c.textPhysBegin ≤ x → x < c.bssPhysEnd → Reserved c mem info x
  | module {r : ℕ × ℕ} : initramfs mem info = .ok r → r.1 ≤ x → x < r.2 → Reserved c mem info x

/-! ### The passes over the map -/

/-- Both trees are valid. -/
def TreesValid (c : Image) (s : BallocState) (T : RangeTree → ColorTree ℕ) : Prop :=
  (∃ L, Holds c s L T) ∧ ∀ t, Valid (s.ranges (T t))

theorem TreesValid.add {T : RangeTree → ColorTree ℕ} {t : RangeTree} {b e : ℕ} (h : TreesValid c s T)
    (hbe : b ≤ e) (hok : ballocAddRange c s t b e = .ok s') : ∃ T', TreesValid c s' T' := by
  obtain ⟨⟨L, h⟩, hv⟩ := h
  obtain ⟨nd, L, rfl⟩ := ballocAddRange_ne_nil h (hv t) hok
  obtain ⟨s₁, L', T', e₁, h', hv', -, -, hf⟩ := ballocAddRange_cover h (hv t) hbe
  obtain rfl : s₁ = s' := Except.ok.inj (e₁.symm.trans hok)
  refine ⟨_, ⟨L', h'⟩, fun t' => ?_⟩
  rcases eq_or_ne t' t with rfl | hne
  · rwa [Function.update_self]
  · rw [Function.update_of_ne hne, hf.ranges h]; exact hv t'

theorem TreesValid.remove {T : RangeTree → ColorTree ℕ} {b e : ℕ} (h : TreesValid c s T)
    (hok : ballocRemoveRange c s .freeRanges b e = .ok s') : ∃ T', TreesValid c s' T' ∧
      freeSet s' T' = freeSet s T \ Set.Ico b e := by
  obtain ⟨⟨L, h⟩, hv⟩ := h
  obtain ⟨L', T', h', hv', hc, ho, -⟩ := ballocRemoveRange_spec h (hv .freeRanges) hok
  refine ⟨_, ⟨⟨L', h'⟩, fun t' => ?_⟩, ?_⟩
  · rcases eq_or_ne t' .freeRanges with rfl | hne
    · rwa [Function.update_self]
    · have hran : s'.ranges (T t') = s.ranges (T t') := List.map_congr_left (ho t' hne)
      rw [Function.update_of_ne hne, hran]
      exact hv t'
  · rw [freeSet, Function.update_self]; exact hc

/-- The rule for a pass: `act` keeps `I` at every entry that the pass comes to. -/
theorem mmapLoop_invariant {act : BallocState → MmapEntry → Exec BallocState} {stop : ℕ}
    {I : BallocState → ℕ → Prop} (hact : ∀ s s' p, p + mmapEntrySize ≤ stop → I s p →
      act s (mmapEntry mem p) = .ok s' → I s' (entryNext mem p)) {start : ℕ} (hI : I s start)
    (hok : loop (mmapBody mem act stop) maxSteps (s, start) = .ok s') :
    ∃ p, stop < p + mmapEntrySize ∧ I s' p := by
  refine loop_invariant (I := fun r => I r.1 r.2) (Q := fun s' => ∃ p, stop < p + mmapEntrySize ∧
    I s' p) ?_ ?_ hI hok
  · rintro ⟨s, p⟩ r hs hb
    rw [mmapBody] at hb
    split at hb
    · rename_i hp
      obtain ⟨s₁, h₁, hb⟩ := bind_eq_ok.mp hb
      obtain rfl := Sum.inl.inj (Except.ok.inj hb)
      exact hact s s₁ p hp hs h₁
    · cases hb
  · rintro ⟨s, p⟩ a hs hb
    rw [mmapBody] at hb
    split at hb
    · obtain ⟨s₁, h₁, hb⟩ := bind_eq_ok.mp hb
      cases hb
    · rename_i hp
      obtain rfl := Sum.inr.inj (Except.ok.inj hb)
      exact ⟨p, not_le.mp hp, hs⟩

/-- The first pass keeps both trees valid. -/
theorem mmapAdd_pass {stop start : ℕ} {T : RangeTree → ColorTree ℕ} (h : TreesValid c s T)
    (hwrap : ∀ p, EntryFrom mem stop start p →
      (mmapEntry mem p).addr + (mmapEntry mem p).length < 2 ^ 64)
    (hok : loop (mmapBody mem (mmapAdd c) stop) maxSteps (s, start) = .ok s') :
    ∃ T', TreesValid c s' T' := by
  let I (s : BallocState) (p : ℕ) : Prop :=
    (∀ q, EntryFrom mem stop p q → EntryFrom mem stop start q) ∧ ∃ T, TreesValid c s T
  have hstep : ∀ s s' p, p + mmapEntrySize ≤ stop → I s p → mmapAdd c s (mmapEntry mem p) = .ok s' →
      I s' (entryNext mem p) := by
    rintro s s' p hp ⟨hfrom, T, h⟩ hact
    have hlt := hwrap p (hfrom p (.here hp))
    rw [mmapAdd, wrap_of_lt hlt] at hact
    obtain ⟨s₁, h₁, h₂⟩ := bind_eq_ok.mp hact
    obtain ⟨T₁, hT₁⟩ := h.add (Nat.le_add_right _ _) h₁
    exact ⟨fun q hq => hfrom q (.next hp hq), hT₁.add (Nat.le_add_right _ _) h₂⟩
  obtain ⟨p, -, -, hv⟩ := mmapLoop_invariant (I := I) hstep ⟨fun _ h => h, T, h⟩ hok
  exact hv

/-- The second pass takes every reserved entry out. -/
theorem mmapReserve_pass {stop start : ℕ} {T : RangeTree → ColorTree ℕ} (h : TreesValid c s T)
    (hwrap : ∀ p, EntryFrom mem stop start p →
      (mmapEntry mem p).addr + (mmapEntry mem p).length < 2 ^ 64)
    (hok : loop (mmapBody mem (mmapReserve c) stop) maxSteps (s, start) = .ok s') :
    ∃ T', TreesValid c s' T' ∧ ∀ p, EntryFrom mem stop start p → (mmapEntry mem p).type ≠ 1 →
      ∀ x ∈ freeSet s' T', ¬ ((mmapEntry mem p).addr ≤ x ∧
        x < (mmapEntry mem p).addr + (mmapEntry mem p).length) := by
  let Out (s : BallocState) (T : RangeTree → ColorTree ℕ) (p : ℕ) : Prop :=
    (mmapEntry mem p).type ≠ 1 → ∀ x ∈ freeSet s T, ¬ ((mmapEntry mem p).addr ≤ x ∧
      x < (mmapEntry mem p).addr + (mmapEntry mem p).length)
  let I (s : BallocState) (p : ℕ) : Prop :=
    (∀ q, EntryFrom mem stop p q → EntryFrom mem stop start q) ∧ ∃ T, TreesValid c s T ∧
      ∀ q, EntryFrom mem stop start q → EntryFrom mem stop p q ∨ Out s T q
  have hstep : ∀ s s' p, p + mmapEntrySize ≤ stop → I s p →
      mmapReserve c s (mmapEntry mem p) = .ok s' → I s' (entryNext mem p) := by
    rintro s s' p hp ⟨hfrom, T, h, hout⟩ hact
    refine ⟨fun q hq => hfrom q (.next hp hq), ?_⟩
    have hlt := hwrap p (hfrom p (.here hp))
    rw [mmapReserve, wrap_of_lt hlt] at hact
    split at hact
    · obtain ⟨T₁, hT₁, hset⟩ := h.remove hact
      have hleft : ∀ x ∈ freeSet s' T₁, x ∈ freeSet s T ∧ x ∉ Set.Ico (mmapEntry mem p).addr
          ((mmapEntry mem p).addr + (mmapEntry mem p).length) := fun x hx => by
        rw [hset] at hx; exact hx
      refine ⟨T₁, hT₁, fun q hq => ?_⟩
      rcases hout q hq with hq | hq
      · cases hq with
        | here _ => exact Or.inr fun _ x hx hrange => (hleft x hx).2 hrange
        | next _ hq => exact Or.inl hq
      · exact Or.inr fun ht x hx => hq ht x (hleft x hx).1
    · rename_i htype
      obtain rfl := Except.ok.inj hact
      refine ⟨T, h, fun q hq => ?_⟩
      rcases hout q hq with hq | hq
      · cases hq with
        | here _ => exact Or.inr fun ht => absurd ht htype
        | next _ hq => exact Or.inl hq
      · exact Or.inr hq
  obtain ⟨p, hp, -, T', hT', hout⟩ := mmapLoop_invariant (I := I) hstep
    ⟨fun _ h => h, T, h, fun q hq => Or.inl hq⟩ hok
  refine ⟨T', hT', fun q hq => ?_⟩
  rcases hout q hq with hq | hq
  · -- nothing is left to come
    cases hq with
    | here h => exact absurd h (not_le.mpr hp)
    | next h _ => exact absurd h (not_le.mpr hp)
  · exact hq

/-- No range of `free_ranges` contains a reserved address. -/
def NothingReserved (c : Image) (mem : BootMem) (info : ℕ) (s : BallocState) : Prop :=
  ∃ T, Repr (s.tree .freeRanges).mem (s.tree .freeRanges) T ∧ Valid (s.ranges T) ∧
    ∀ n ∈ T.inorder, ∀ x, (s.range n).begin ≤ x → x < (s.range n).stop → ¬ Reserved c mem info x

theorem nothingReserved_of_parse {T : RangeTree → ColorTree ℕ} (h : TreesValid c s T)
    (hwrap : ∀ p, IsEntry mem info p →
      (mmapEntry mem p).addr + (mmapEntry mem p).length < 2 ^ 64)
    (hok : ballocParseMmap c s mem info = .ok s') : NothingReserved c mem info s' := by
  rw [ballocParseMmap] at hok
  obtain ⟨_, -, hok⟩ := bind_eq_ok.mp hok
  obtain ⟨s₁, h₁, hok⟩ := bind_eq_ok.mp hok
  obtain ⟨s₂, h₂, hok⟩ := bind_eq_ok.mp hok
  obtain ⟨s₃, h₃, hok⟩ := bind_eq_ok.mp hok
  obtain ⟨s₄, h₄, hok⟩ := bind_eq_ok.mp hok
  obtain ⟨r, hr, hok⟩ := bind_eq_ok.mp hok
  obtain ⟨s₅, h₅, h₆⟩ := bind_eq_ok.mp hok
  obtain ⟨T₁, hT₁⟩ := mmapAdd_pass h hwrap h₁
  obtain ⟨T₂, hT₂⟩ := hT₁.add c.image_le h₂
  obtain ⟨T₃, hT₃⟩ := hT₂.add c.image_le h₃
  obtain ⟨T₄, hT₄, hout₄⟩ := mmapReserve_pass hT₃ hwrap h₄
  obtain ⟨T₅, hT₅, hset₅⟩ := hT₄.remove h₅
  obtain ⟨T₆, ⟨⟨L, h'⟩, hv'⟩, hset₆⟩ := hT₅.remove h₆
  rw [hset₅] at hset₆
  refine ⟨T₆ .freeRanges, h'.trees .freeRanges, hv' .freeRanges, fun n hn x hb he hres => ?_⟩
  have hx : x ∈ freeSet s' T₆ := ⟨s'.range n, List.mem_map_of_mem hn, hb, he⟩
  rw [hset₆] at hx
  cases hres with
  | entry hp ht hb he => exact hout₄ _ hp ht x hx.1.1 ⟨hb, he⟩
  | kernel hb he => exact hx.2 ⟨hb, he⟩
  | module hr' hb he =>
    obtain rfl := Except.ok.inj (hr.symm.trans hr')
    exact hx.1.2 ⟨hb, he⟩

/-- After `balloc_setup`, reserved memory is not free. -/
theorem ballocSetup_nothing_reserved (hroot : ∀ t, s.root t = 0)
    (hwrap : ∀ p, IsEntry mem info p →
      (mmapEntry mem p).addr + (mmapEntry mem p).length < 2 ^ 64)
    (hok : ballocSetup c s mem info = .ok s') : NothingReserved c mem info s' := by
  obtain ⟨s₁, L, e₁, h₁, -⟩ := ballocSetupNodes_spec c hroot
  rw [ballocSetup, e₁, ok_bind] at hok
  exact nothingReserved_of_parse ⟨⟨L, h₁⟩, fun t => valid_nil⟩ hwrap hok

/-! ### A small memory map -/

def bootImage : Image :=
  { smallImage with textPhysBegin := 6400, bssPhysEnd := 6656, image_le := by decide }

/-- A free entry `[4096, 8192)`, a reserved one `[6144, 7168)` in it, and a module at
    `[5120, 5136)`. -/
def bootMem : BootMem
  | 0 => 64 | 20 => 1 | 24 => 128 | 44 => 48 | 49 => 1
  | 129 => 20 | 132 => 16 | 133 => 20
  | 256 => 20 | 261 => 16 | 269 => 16 | 276 => 1
  | 280 => 20 | 285 => 24 | 293 => 4 | 300 => 2
  | 5120 => 48
  | _ => 0

def bootState : BallocState := ⟨fun _ => ⟨0, 0, 0⟩, fun _ => ⟨0, 0⟩, 0, 0⟩

theorem boot_entries {p : ℕ} (h : IsEntry bootMem 0 p) : p = 256 ∨ p = 280 := by
  have h' : EntryFrom bootMem 304 256 p := h
  cases h' with
  | here _ => exact Or.inl rfl
  | next _ h' =>
    have e₁ : entryNext bootMem 256 = 280 := by decide +kernel
    rw [e₁] at h'
    cases h' with
    | here _ => exact Or.inr rfl
    | next _ h' =>
      have e₂ : entryNext bootMem 280 = 304 := by decide +kernel
      rw [e₂] at h'
      cases h' with
      | here hlt => exact absurd hlt (by decide)
      | next hlt _ => exact absurd hlt (by decide)

theorem boot_nothing_reserved : ∃ s', ballocSetup bootImage bootState bootMem 0 = .ok s' ∧
    NothingReserved bootImage bootMem 0 s' := by
  have hret : (ballocSetup bootImage bootState bootMem 0).toOption.isSome = true := by
    decide +kernel
  cases hok : ballocSetup bootImage bootState bootMem 0 with
  | error e => rw [hok] at hret; cases hret
  | ok s' =>
    refine ⟨s', rfl, ballocSetup_nothing_reserved (fun t => by cases t <;> rfl) (fun p hp => ?_) hok⟩
    rcases boot_entries hp with rfl | rfl <;> decide +kernel

end FilesKernel.Balloc
