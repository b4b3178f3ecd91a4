import Mathlib.Data.List.TakeWhile
import FilesKernel.FileSystem.Nodes

/-! The grammar of `name_to_levels_array`.

    The array has a slot for each `/` of the string, while the components are cut from the bytes
    behind the first one, whatever that one is, as far as the `int` length goes. An empty component
    stops the cutting; when there is none, the components are as many as the slots if the string
    begins with `/`, and one more if it does not. -/

namespace FilesKernel.FileSystem
open CExec CWord

/-- `/c1/…/cn` -/
def joinPath (comps : List CString) : CString := comps.flatMap fun c => slash :: c

/-- The string is a non-empty sequence of `/` followed by a non-empty component without `/`. -/
structure PathOf (fileName : CString) (comps : List CString) : Prop where
  some_comp : comps ≠ []
  comp : ∀ c ∈ comps, c ≠ [] ∧ slash ∉ c
  joined : fileName = joinPath comps

/-- The string is split into its components, or stopped by an assertion when it has none. -/
structure SplitsExactly (memAlloc : MemAlloc) (fileName : CString) : Prop where
  returns : (∃ r, nameToLevelsArray memAlloc fileName = .ok r) ↔ ∃ comps, PathOf fileName comps
  components : ∀ comps, PathOf fileName comps →
    nameToLevelsArray memAlloc fileName = .ok ⟨comps, comps.length⟩
  stops : (¬ ∃ comps, PathOf fileName comps) →
    ∃ text, nameToLevelsArray memAlloc fileName = .error (.bug text)

/-- The bytes that the loop may see of a string. -/
def seen (fileName : CString) : CString := fileName.take (toInt fileName.length).toNat

/-- What stands between the slashes behind the first byte. -/
def components (fileName : CString) : List CString := (seen fileName).tail.splitOn slash

/-- Each component before the first empty one has a slot in the array, and memory for its copy. -/
def LevelsFit (memAlloc : MemAlloc) (fileName : CString) : Prop :=
  ∀ k < ((components fileName).takeWhile (· ≠ [])).length,
    memAlloc.currentLevel k = true ∧ k < slotsOf memAlloc (toInt (fileName.count slash))

instance (memAlloc : MemAlloc) (fileName : CString) : Decidable (LevelsFit memAlloc fileName) :=
  inferInstanceAs (Decidable (∀ k < _, _))

/-! ### Cutting a path -/

theorem joinPath_cons (c : CString) (comps : List CString) :
    joinPath (c :: comps) = slash :: (c ++ joinPath comps) := by
  simp [joinPath]

theorem count_joinPath {comps : List CString} (h : ∀ c ∈ comps, slash ∉ c) :
    (joinPath comps).count slash = comps.length := by
  induction comps with
  | nil => rfl
  | cons c comps ih =>
    have hc : c.count slash = 0 := List.count_eq_zero.mpr (h c List.mem_cons_self)
    have ih := ih (fun d hd => h d (List.mem_cons_of_mem _ hd))
    rw [joinPath_cons, List.count_cons_self, List.count_append, hc, ih, List.length_cons]
    omega

/-- The components of any string, joined. -/
theorem intercalate_eq_joinPath (c : CString) : ∀ more : List CString,
    [slash].intercalate (c :: more) = c ++ joinPath more
  | [] => by simp [joinPath]
  | d :: more => by
      rw [List.intercalate_cons_cons, intercalate_eq_joinPath d more, joinPath_cons]
      simp

theorem splitOn_joinPath {c : CString} {more : List CString} (h : ∀ d ∈ c :: more, slash ∉ d) :
    (c ++ joinPath more).splitOn slash = c :: more := by
  rw [← intercalate_eq_joinPath]
  exact List.splitOn_intercalate slash h (List.cons_ne_nil c more)

/-- Every string is a sequence of components, some perhaps empty, with slashes between them. -/
theorem exists_components : ∀ f : CString, ∃ c more,
    f = c ++ joinPath more ∧ ∀ d ∈ c :: more, slash ∉ d
  | [] => ⟨[], [], rfl, by simp⟩
  | b :: f => by
      obtain ⟨c, more, hf, hfree⟩ := exists_components f
      by_cases hb : b = slash
      · subst hb
        refine ⟨[], c :: more, by rw [hf, joinPath_cons, List.nil_append], fun d hd => ?_⟩
        rcases List.mem_cons.mp hd with rfl | hd
        · exact List.not_mem_nil
        · exact hfree d hd
      · refine ⟨b :: c, more, by rw [hf, List.cons_append], fun d hd => ?_⟩
        rcases List.mem_cons.mp hd with rfl | hd
        · rw [List.mem_cons, not_or]
          exact ⟨Ne.symm hb, hfree c List.mem_cons_self⟩
        · exact hfree d (List.mem_cons_of_mem _ hd)

/-! ### The loop -/

/-- The components stored one after the other, up to an empty one. -/
def storeLevels (memAlloc : MemAlloc) (slots : ℕ) :
    List CString → List CString → Exec (List CString)
  | levels, [] => .ok levels
  | levels, c :: comps => do
    bugOn (c = []) "level_end == level_start"
    let levels ← storeLevel memAlloc slots levels c
    storeLevels memAlloc slots levels comps

theorem storeLevels_eq (memAlloc : MemAlloc) (slots : ℕ) : ∀ comps levels : List CString,
    storeLevels memAlloc slots levels comps =
    if ∀ k < (comps.takeWhile (· ≠ [])).length,
        memAlloc.currentLevel (levels.length + k) = true ∧ levels.length + k < slots then
      if [] ∈ comps then .error (.bug "level_end == level_start") else .ok (levels ++ comps)
    else .error .fault
  | [], levels => by simp [storeLevels]
  | c :: comps, levels => by
      rw [storeLevels]
      by_cases hc : c = []
      · subst hc
        rw [bugOn_true rfl, error_bind]
        simp
      · have hmem : [] ∈ c :: comps ↔ [] ∈ comps := by simp [Ne.symm hc]
        have hlen : ((c :: comps).takeWhile (· ≠ [])).length =
            (comps.takeWhile (· ≠ [])).length + 1 := by simp [hc]
        simp only [bugOn_false hc, ok_bind, hmem, hlen, Nat.forall_lt_succ_left, Nat.add_zero,
          storeLevel]
        by_cases hfits : memAlloc.currentLevel levels.length = true ∧ levels.length < slots
        · rw [if_pos hfits, ok_bind, storeLevels_eq memAlloc slots comps (levels ++ [c])]
          simp only [hfits, true_and, List.length_append, List.length_singleton,
            List.append_assoc, List.singleton_append, Nat.add_assoc, Nat.add_comm 1]
        · rw [if_neg hfits, error_bind, if_neg fun h => hfits h.1]

/-- The loop passes over the bytes of a component. -/
theorem cutLevels_scan (memAlloc : MemAlloc) (slots : ℕ) (f : CString) (ls : ℕ)
    (levels : List CString) (n : ℕ) : ∀ (c pre post : CString), f = pre ++ (c ++ post) → slash ∉ c →
      cutLevels memAlloc f slots (c.length + n) pre.length ls levels =
        cutLevels memAlloc f slots n (pre.length + c.length) ls levels
  | [], pre, post, _, _ => by simp
  | b :: c, pre, post, hf, hc => by
      rw [List.mem_cons, not_or] at hc
      have hb : f[pre.length]? = some b := by rw [hf]; simp
      have hne : f[pre.length]? ≠ some slash := by
        rw [hb]; exact fun e => hc.1 (Option.some.inj e).symm
      rw [List.length_cons, Nat.succ_add, cutLevels, if_neg hne]
      have ih := cutLevels_scan memAlloc slots f ls levels n c (pre ++ [b]) post (by simp [hf]) hc.2
      simp only [List.length_append, List.length_singleton] at ih
      rw [ih]
      congr 1; omega

theorem levelAt_middle (pre c post : CString) :
    levelAt (pre ++ (c ++ post)) pre.length (pre.length + c.length) = c := by
  simp [levelAt]

/-- The loop from the start of a component on, with the copy that follows it: all components are
    stored, the last one after the loop. -/
theorem cutLevels_store (memAlloc : MemAlloc) (slots : ℕ) : ∀ (more : List CString)
    (f c pre post : CString) (levels : List CString),
    f = pre ++ (c ++ joinPath more ++ post) → (∀ d ∈ c :: more, slash ∉ d) →
    (do
      let (i, levelStart, levels) ←
        cutLevels memAlloc f slots (c ++ joinPath more).length pre.length pre.length levels
      bugOn (i = levelStart) "level_end == level_start"
      storeLevel memAlloc slots levels (levelAt f levelStart i)) =
        storeLevels memAlloc slots levels (c :: more)
  | [], f, c, pre, post, levels, hf, hfree => by
      have hf : f = pre ++ (c ++ post) := by simpa [joinPath] using hf
      have hscan := cutLevels_scan memAlloc slots f pre.length levels 0 c pre post hf
        (hfree c List.mem_cons_self)
      have hlevel : levelAt f pre.length (pre.length + c.length) = c := by
        rw [hf]; exact levelAt_middle pre c post
      have hempty : pre.length + c.length = pre.length ↔ c = [] := by simp
      rw [joinPath, List.flatMap_nil, List.append_nil, ← Nat.add_zero c.length, hscan, cutLevels,
        ok_bind]
      simp only [hlevel, hempty, storeLevels]
      cases storeLevel memAlloc slots levels c <;> rfl
  | d :: more, f, c, pre, post, levels, hf, hfree => by
      have hf' : f = (pre ++ c ++ [slash]) ++ (d ++ joinPath more ++ post) := by
        rw [hf, joinPath_cons]; simp
      have hslash : f[pre.length + c.length]? = some slash := by rw [hf, joinPath_cons]; simp
      have hlen : (c ++ joinPath (d :: more)).length =
          c.length + ((d ++ joinPath more).length + 1) := by
        rw [joinPath_cons]; simp only [List.length_append, List.length_cons]
      have hlevel : levelAt f pre.length (pre.length + c.length) = c := by
        rw [hf, List.append_assoc c]; exact levelAt_middle pre c _
      have hempty : pre.length + c.length = pre.length ↔ c = [] := by simp
      have hpre : (pre ++ c ++ [slash]).length = pre.length + c.length + 1 := by
        simp only [List.length_append, List.length_singleton]
      rw [hlen, cutLevels_scan memAlloc slots f pre.length levels _ c pre _
        (by rw [hf, List.append_assoc]) (hfree c List.mem_cons_self), cutLevels, if_pos hslash,
        storeLevels]
      simp only [hlevel, hempty, bind_assoc]
      refine bind_congr_ok rfl fun _ _ => bind_congr_ok rfl fun levels' _ => ?_
      rw [← hpre]
      exact cutLevels_store memAlloc slots more f d (pre ++ c ++ [slash]) post levels' hf'
        fun x hx => hfree x (List.mem_cons_of_mem _ hx)

/-- The whole splitter: the components are stored, and a slot is counted for each slash. -/
theorem nameToLevelsArray_eq_storeLevels (memAlloc : MemAlloc) (f : CString) :
    nameToLevelsArray memAlloc f = (do
      let levels ← storeLevels memAlloc (slotsOf memAlloc (toInt (f.count slash))) [] (components f)
      .ok ⟨levels, toInt (f.count slash)⟩) := by
  have hlen : (seen f).length = (toInt f.length).toNat := by
    have := toInt_le f.length
    rw [seen, List.length_take]
    omega
  rw [nameToLevelsArray]
  cases hs : seen f with
  | nil =>
    have hzero : (toInt f.length - 1).toNat = 0 := by
      rw [hs, List.length_nil] at hlen
      omega
    rw [hzero, cutLevels, ok_bind, components, hs]
    simp only [bugOn_true, error_bind, List.tail_nil, List.splitOn_nil, storeLevels]
  | cons b rest =>
    obtain ⟨c, more, rfl, hfree⟩ := exists_components rest
    have hf : f = [b] ++ (c ++ joinPath more ++ f.drop (toInt f.length).toNat) := by
      conv_lhs => rw [← List.take_append_drop (toInt f.length).toNat f]
      rw [seen] at hs
      rw [hs]
      simp
    have hn : (toInt f.length - 1).toNat = (c ++ joinPath more).length := by
      rw [hs, List.length_cons] at hlen
      omega
    have hcut := cutLevels_store memAlloc (slotsOf memAlloc (toInt (f.count slash))) more f c [b] _ []
      hf hfree
    rw [components, hs, List.tail_cons, splitOn_joinPath hfree, ← hcut, hn]
    simp only [bind_assoc]
    rfl

theorem storeLevels_of_fit {memAlloc : MemAlloc} {f : CString} (h : LevelsFit memAlloc f) :
    storeLevels memAlloc (slotsOf memAlloc (toInt (f.count slash))) [] (components f) =
      if [] ∈ components f then .error (.bug "level_end == level_start")
      else .ok (components f) := by
  rw [storeLevels_eq, if_pos, List.nil_append]
  intro k hk
  rw [List.length_nil, Nat.zero_add]
  exact h k hk

theorem storeLevels_of_not_fit {memAlloc : MemAlloc} {f : CString} (h : ¬ LevelsFit memAlloc f) :
    storeLevels memAlloc (slotsOf memAlloc (toInt (f.count slash))) [] (components f) =
      .error .fault := by
  rw [storeLevels_eq, if_neg]
  intro h'
  refine h fun k hk => ?_
  have hk' := h' k hk
  rw [List.length_nil, Nat.zero_add] at hk'
  exact hk'

/-- What becomes of a string. -/
theorem nameToLevelsArray_eq (memAlloc : MemAlloc) (f : CString) :
    nameToLevelsArray memAlloc f = if LevelsFit memAlloc f then
      if [] ∈ components f then .error (.bug "level_end == level_start")
      else .ok ⟨components f, toInt (f.count slash)⟩
    else .error .fault := by
  rw [nameToLevelsArray_eq_storeLevels]
  by_cases h : LevelsFit memAlloc f
  · rw [if_pos h, storeLevels_of_fit h]
    split
    · rw [error_bind]
    · rw [ok_bind]
  · rw [if_neg h, storeLevels_of_not_fit h, error_bind]

/-! ### Paths -/

/-- Memory for the array, and for the copies of `n` components. -/
def MemAlloc.Serves (memAlloc : MemAlloc) (n : ℕ) : Prop :=
  memAlloc.levels = true ∧ ∀ k < n, memAlloc.currentLevel k = true

instance (memAlloc : MemAlloc) (n : ℕ) : Decidable (memAlloc.Serves n) :=
  inferInstanceAs (Decidable (_ ∧ ∀ k < _, _))

theorem MemAlloc.always_serves (n : ℕ) : MemAlloc.always.Serves n := ⟨rfl, fun _ _ => rfl⟩

variable {memAlloc : MemAlloc} {f : CString} {comps : List CString}

theorem seen_tail (f : CString) : (seen f).tail = f.tail.take ((toInt f.length).toNat - 1) := by
  rw [seen, ← List.drop_one, List.drop_take, List.drop_one]

theorem seen_of_lt (h : f.length < 2 ^ 31) : seen f = f := by
  rw [seen, toInt_of_lt h]
  exact List.take_length

/-- A short string has a slot for each of its slashes. -/
theorem slotsOf_count (hmem : memAlloc.levels = true) (h : f.length < 2 ^ 31) :
    slotsOf memAlloc (toInt (f.count slash)) = f.count slash := by
  have hcount : f.count slash ≤ f.length := List.count_le_length
  have hcast : 8 * (f.count slash : ℤ) = (8 * f.count slash : ℕ) := by push_cast; rfl
  rw [slotsOf, if_pos hmem, toInt_of_lt (by omega), hcast, u64_natCast (by omega)]
  omega

theorem length_components (f : CString) :
    (components f).length = (seen f).tail.count slash + 1 := by
  obtain ⟨c, more, hf, hfree⟩ := exists_components (seen f).tail
  rw [components, hf, splitOn_joinPath hfree, List.count_append,
    List.count_eq_zero.mpr (hfree c List.mem_cons_self),
    count_joinPath fun d hd => hfree d (List.mem_cons_of_mem _ hd), List.length_cons]
  omega

theorem PathOf.count (h : PathOf f comps) : f.count slash = comps.length := by
  rw [h.joined]
  exact count_joinPath fun c hc => (h.comp c hc).2

theorem PathOf.tail (h : PathOf f comps) : f.tail = [slash].intercalate comps := by
  obtain ⟨c, more, rfl⟩ := List.exists_cons_of_ne_nil h.some_comp
  rw [h.joined, joinPath_cons, List.tail_cons, intercalate_eq_joinPath]

theorem PathOf.splitOn (h : PathOf f comps) : f.tail.splitOn slash = comps := by
  rw [h.tail]
  exact List.splitOn_intercalate slash (fun c hc => (h.comp c hc).2) h.some_comp

theorem PathOf.nil_not_mem (h : PathOf f comps) : [] ∉ comps := fun hd => (h.comp [] hd).1 rfl

theorem PathOf.components (h : PathOf f comps) (hf : f.length < 2 ^ 31) :
    FileSystem.components f = comps := by
  rw [FileSystem.components, seen_of_lt hf, h.splitOn]

theorem PathOf.levelsFit (h : PathOf f comps) (hf : f.length < 2 ^ 31) :
    LevelsFit memAlloc f ↔ memAlloc.Serves comps.length := by
  have hall : comps.takeWhile (· ≠ []) = comps :=
    List.takeWhile_eq_self_iff.mpr fun c hc => by simpa using (h.comp c hc).1
  rw [LevelsFit, h.components hf, hall]
  constructor
  · intro hfit
    have hmem : memAlloc.levels = true := by
      have hfirst := (hfit 0 (List.length_pos_of_ne_nil h.some_comp)).2
      by_contra hno
      rw [slotsOf, if_neg hno] at hfirst
      exact absurd hfirst (Nat.not_lt_zero 0)
    exact ⟨hmem, fun k hk => (hfit k hk).1⟩
  · rintro ⟨hmem, hlevels⟩ k hk
    exact ⟨hlevels k hk, by rw [slotsOf_count hmem hf, h.count]; exact hk⟩

/-- A path is cut into its components. -/
theorem PathOf.splits (h : PathOf f comps) (hf : f.length < 2 ^ 31)
    (hm : memAlloc.Serves comps.length) :
    nameToLevelsArray memAlloc f = .ok ⟨comps, comps.length⟩ := by
  have hshort : comps.length < 2 ^ 31 := by
    have hcount : f.count slash ≤ f.length := List.count_le_length
    rw [h.count] at hcount
    omega
  rw [nameToLevelsArray_eq, if_pos ((h.levelsFit hf).mpr hm), h.components hf,
    if_neg h.nil_not_mem, h.count, toInt_of_lt hshort]

/-- Only of a short path all components are seen. -/
theorem PathOf.lt_of_components (h : PathOf f comps) (hc : FileSystem.components f = comps) :
    f.length < 2 ^ 31 := by
  have htail : (seen f).tail = f.tail := by
    rw [h.tail, ← hc, FileSystem.components, List.intercalate_splitOn]
  have hlen := congrArg List.length htail
  have hone : 2 ≤ f.length := by
    obtain ⟨c, more, rfl⟩ := List.exists_cons_of_ne_nil h.some_comp
    have hpos := List.length_pos_of_ne_nil (h.comp c List.mem_cons_self).1
    rw [h.joined, joinPath_cons, List.length_cons, List.length_append]
    omega
  rw [seen_tail, List.length_take, List.length_tail] at hlen
  have hle := toInt_le f.length
  exact lt_of_toInt (by omega)

/-- Of a long path with short components not even as many components are seen. -/
theorem PathOf.lt_of_le (h : PathOf f comps) (hshort : ∀ c ∈ comps, c.length < maxFileNameLength)
    (hc : comps.length ≤ (FileSystem.components f).length) : f.length < 2 ^ 31 := by
  by_contra hlong
  rw [not_lt] at hlong
  obtain ⟨pre, last, rfl⟩ : ∃ pre last, comps = pre ++ [last] :=
    ⟨_, _, (List.dropLast_concat_getLast h.some_comp).symm⟩
  have hlast := hshort last (by simp)
  -- what is not seen has no slash, and more bytes than the last component
  have hrest : slash ∉ f.tail.drop ((toInt f.length).toNat - 1) := by
    have hcount : f.count slash = f.tail.count slash + 1 := by
      obtain ⟨c, more, he⟩ := List.exists_cons_of_ne_nil h.some_comp
      rw [h.joined, he, joinPath_cons, List.tail_cons, List.count_cons_self]
    have hsplit := List.take_append_drop ((toInt f.length).toNat - 1) f.tail
    have hsum := congrArg (List.count slash) hsplit
    rw [List.count_append, ← seen_tail] at hsum
    rw [length_components] at hc
    have htotal := h.count
    rw [← List.count_eq_zero]
    omega
  have hsuffix : slash :: last <:+ f.tail.drop ((toInt f.length).toNat - 1) := by
    refine List.suffix_of_suffix_length_le (show slash :: last <:+ f from ⟨joinPath pre, ?_⟩)
      ((List.drop_suffix _ _).trans (List.tail_suffix f)) ?_
    · rw [h.joined]
      simp [joinPath]
    · have hseen := toInt_toNat_le hlong
      rw [List.length_drop, List.length_tail, List.length_cons]
      simp only [maxFileNameLength] at hlast
      omega
  exact hrest (hsuffix.subset List.mem_cons_self)

theorem pathOf_cons {b : UInt8} {c : CString} {more : List CString}
    (hfree : ∀ d ∈ c :: more, slash ∉ d) :
    PathOf (b :: (c ++ joinPath more)) comps ↔ b = slash ∧ [] ∉ c :: more ∧ comps = c :: more := by
  constructor
  · intro h
    obtain ⟨d, rest, rfl⟩ := List.exists_cons_of_ne_nil h.some_comp
    obtain ⟨hb, hj⟩ := List.cons.inj (h.joined.trans (joinPath_cons d rest))
    have hs := splitOn_joinPath hfree
    rw [hj, splitOn_joinPath (fun x hx => (h.comp x hx).2)] at hs
    exact ⟨hb, hs ▸ fun hd => (h.comp [] hd).1 rfl, hs⟩
  · rintro ⟨rfl, hne, rfl⟩
    exact ⟨List.cons_ne_nil c more, fun d hd => ⟨fun e => hne (e ▸ hd), hfree d hd⟩,
      (joinPath_cons c more).symm⟩

/-- A short string without empty components begins with `/` if its levels fit. -/
theorem exists_pathOf (hf : f.length < 2 ^ 31) (hfit : LevelsFit memAlloc f)
    (hne : [] ∉ components f) : ∃ comps, PathOf f comps := by
  have hseen := seen_of_lt hf
  cases f with
  | nil =>
    rw [components, hseen] at hne
    simp at hne
  | cons b rest =>
    obtain ⟨c, more, rfl, hfree⟩ := exists_components rest
    have hcomps : components (b :: (c ++ joinPath more)) = c :: more := by
      rw [components, hseen, List.tail_cons, splitOn_joinPath hfree]
    rw [hcomps] at hne
    refine ⟨c :: more, (pathOf_cons hfree).mpr ⟨?_, hne, rfl⟩⟩
    by_contra hb
    -- the last component would need one slot more than there are slashes
    have hall : (c :: more).takeWhile (· ≠ []) = c :: more :=
      List.takeWhile_eq_self_iff.mpr fun d hd => by
        have hd' : d ≠ [] := fun e => hne (e ▸ hd)
        simpa using hd'
    have hcount : (b :: (c ++ joinPath more)).count slash = more.length := by
      rw [List.count_cons_of_ne hb, List.count_append,
        List.count_eq_zero.mpr (hfree c List.mem_cons_self),
        count_joinPath fun d hd => hfree d (List.mem_cons_of_mem _ hd), Nat.zero_add]
    rw [LevelsFit, hcomps, hall] at hfit
    have hslot := (hfit more.length (by simp)).2
    by_cases hmem : memAlloc.levels = true
    · rw [slotsOf_count hmem hf, hcount] at hslot
      exact lt_irrefl _ hslot
    · rw [slotsOf, if_neg hmem] at hslot
      exact absurd hslot (Nat.not_lt_zero _)

/-- For every string: it is split as the grammar says exactly when the levels fit, and it is short, or
    no path and stopped at an empty component. -/
theorem splitsExactly_iff (memAlloc : MemAlloc) (f : CString) : SplitsExactly memAlloc f ↔
    LevelsFit memAlloc f ∧
      (f.length < 2 ^ 31 ∨ [] ∈ components f ∧ ¬ ∃ comps, PathOf f comps) := by
  have heq := nameToLevelsArray_eq memAlloc f
  constructor
  · intro h
    have hfit : LevelsFit memAlloc f := by
      by_contra hno
      rw [if_neg hno] at heq
      by_cases hpath : ∃ comps, PathOf f comps
      · obtain ⟨r, hr⟩ := h.returns.mpr hpath
        rw [heq] at hr
        cases hr
      · obtain ⟨text, hstop⟩ := h.stops hpath
        rw [heq] at hstop
        cases hstop
    rw [if_pos hfit] at heq
    refine ⟨hfit, or_iff_not_imp_left.mpr fun hlong => ?_⟩
    have hpath : ¬ ∃ comps, PathOf f comps := by
      rintro ⟨comps, hpath⟩
      have hr := h.components comps hpath
      rw [heq] at hr
      split at hr
      · cases hr
      · exact hlong (hpath.lt_of_components (congrArg NameArray.array (Except.ok.inj hr)))
    obtain ⟨text, hstop⟩ := h.stops hpath
    rw [heq] at hstop
    split at hstop
    · rename_i hmem
      exact ⟨hmem, hpath⟩
    · cases hstop
  · rintro ⟨hfit, hcase⟩
    rw [if_pos hfit] at heq
    have hbug : [] ∈ components f → (¬ ∃ comps, PathOf f comps) → SplitsExactly memAlloc f := by
      intro hmem hpath
      rw [if_pos hmem] at heq
      refine ⟨iff_of_false ?_ hpath, fun comps h => absurd ⟨comps, h⟩ hpath, fun _ => ⟨_, heq⟩⟩
      rintro ⟨r, hr⟩
      rw [heq] at hr
      cases hr
    rcases hcase with hf | ⟨hmem, hpath⟩
    · by_cases hpath : ∃ comps, PathOf f comps
      · have hsplits : ∀ comps, PathOf f comps →
            nameToLevelsArray memAlloc f = .ok ⟨comps, comps.length⟩ :=
          fun comps h => h.splits hf ((h.levelsFit hf).mp hfit)
        obtain ⟨comps, h⟩ := id hpath
        exact ⟨iff_of_true ⟨_, hsplits comps h⟩ hpath, hsplits, fun hno => absurd hpath hno⟩
      · refine hbug ?_ hpath
        by_contra hne
        exact hpath (exists_pathOf hf hfit hne)
    · exact hbug hmem hpath

/-- The relative path `ab` is written through an array without slots. -/
theorem not_splitsExactly_relative : ¬ SplitsExactly .always [97, 98] := by
  intro h
  have hno : ¬ ∃ comps, PathOf [97, 98] comps := by
    rintro ⟨comps, hp⟩
    obtain ⟨c, more, rfl⟩ := List.exists_cons_of_ne_nil hp.some_comp
    obtain ⟨hb, -⟩ := List.cons.inj (hp.joined.trans (joinPath_cons c more))
    exact absurd hb (by decide)
  obtain ⟨text, hstop⟩ := h.stops hno
  have hfit : ¬ LevelsFit .always [97, 98] := by decide +kernel
  rw [nameToLevelsArray_eq, if_neg hfit] at hstop
  cases hstop

end FilesKernel.FileSystem
