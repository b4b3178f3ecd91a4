import FilesKernel.FileSystem.Grammar
import FilesKernel.FileSystem.Tree

/-! Where `find_node` leads.

    In a tree that a client can reach, each component that is read leads to the first child whose name
    it starts. A string that leads nowhere is stopped by an assertion, unless only the last component
    is missing: that one is added, to whatever its directory has room for. Of a string whose slashes
    are miscounted a slot may be read that has not been written; the search with it goes astray. -/

namespace FilesKernel.FileSystem
open CExec CWord

/-- The levels that `name_to_levels_array` returns. -/
def levelsOf (name : CString) : NameArray := ⟨components name, toInt (name.count slash)⟩

/-- `name_to_levels_array` returns. -/
def Splits (memAlloc : MemAlloc) (name : CString) : Prop :=
  LevelsFit memAlloc name ∧ [] ∉ components name

/-- The first child whose name the component starts. -/
def FirstChild (s : FsState) (p : NodePtr) (level : CString) (j : ℕ) : Prop :=
  j < (s.nodes p).childrenNum ∧ level <+: (s.nodes (p ++ [j])).name ∧
    ∀ i < j, ¬ level <+: (s.nodes (p ++ [i])).name

/-- Going down from directory to directory, component by component. -/
inductive Leads (s : FsState) : NodePtr → List (Option CString) → NodePtr → Prop
  | here (p : NodePtr) : Leads s p [] p
  | down {p q : NodePtr} {level : CString} {levels : List (Option CString)} {j : ℕ} :
      (s.nodes p).type = .DIR → FirstChild s p level j → Leads s (p ++ [j]) levels q →
      Leads s p (some level :: levels) q

/-- Going down until a slot that has not been written is compared with the name of a child. -/
inductive Strays (s : FsState) : NodePtr → List (Option CString) → Prop
  | here {p : NodePtr} {levels : List (Option CString)} :
      (s.nodes p).type = .DIR → (s.nodes p).childrenNum ≠ 0 → Strays s p (none :: levels)
  | down {p : NodePtr} {level : CString} {levels : List (Option CString)} {j : ℕ} :
      (s.nodes p).type = .DIR → FirstChild s p level j → Strays s (p ++ [j]) levels →
      Strays s p (some level :: levels)

/-- The string leads to the node. -/
def LeadsTo (memAlloc : MemAlloc) (s : FsState) (name : CString) (p : NodePtr) : Prop :=
  Splits memAlloc name ∧ Leads s [] ((levelsOf name).above ++ [(levelsOf name).last]) p

/-- Only the last component of the string, `last`, is missing, in `dir`. -/
structure NeedsChild (memAlloc : MemAlloc) (s : FsState) (name : CString) (dir : NodePtr)
    (last : CString) : Prop where
  splits : Splits memAlloc name
  path : Leads s [] (levelsOf name).above dir
  isDir : (s.nodes dir).type = .DIR
  isLast : (levelsOf name).last = some last
  absent : ∀ j < (s.nodes dir).childrenNum, ¬ last <+: (s.nodes (dir ++ [j])).name

/-- A slot that has not been written is compared with a name, or becomes one. -/
def GoesAstray (memAlloc : MemAlloc) (s : FsState) (name : CString) : Prop :=
  Splits memAlloc name ∧ (Strays s [] (levelsOf name).above ∨
    (levelsOf name).last = none ∧ ∃ p, Leads s [] (levelsOf name).above p ∧ (s.nodes p).type = .DIR)

/-- There is a slot in `children_`, and the name fits a `name_`. -/
def HasRoom (s : FsState) (dir : NodePtr) (last : CString) : Prop :=
  (s.nodes dir).children ≠ none ∧ (s.nodes dir).childrenNum < maxFilesInDir ∧
    last.length + 1 ≤ maxFileNameLength

instance (s : FsState) (dir : NodePtr) (last : CString) : Decidable (HasRoom s dir last) :=
  inferInstanceAs (Decidable (_ ∧ _ ∧ _))

variable {memAlloc : MemAlloc} {s s' : FsState} {p q cur dir : NodePtr} {name last : CString}
  {levels : List (Option CString)} {type : NodeType}

theorem leads_concat : ∀ {levels : List (Option CString)} {level : Option CString} {p : NodePtr},
    Leads s p (levels ++ [level]) q ↔ ∃ d last j, Leads s p levels d ∧ (s.nodes d).type = .DIR ∧
      level = some last ∧ FirstChild s d last j ∧ q = d ++ [j]
  | [], level, p => by
      constructor
      · intro h
        cases h with
        | down hdir hj h =>
          cases h
          exact ⟨p, _, _, .here p, hdir, rfl, hj, rfl⟩
      · rintro ⟨d, last, j, h, hdir, rfl, hj, rfl⟩
        cases h
        exact .down hdir hj (.here _)
  | first :: levels, level, p => by
      constructor
      · intro h
        cases h with
        | down hdir hj h =>
          obtain ⟨d, last, i, hd, hrest⟩ := leads_concat.mp h
          exact ⟨d, last, i, .down hdir hj hd, hrest⟩
      · rintro ⟨d, last, i, h, hrest⟩
        cases h with
        | down hdir hj h => exact .down hdir hj (leads_concat.mpr ⟨d, last, i, h, hrest⟩)

/-- A node is as deep as its way is long. -/
theorem Leads.length (h : Leads s p levels q) : q.length = p.length + levels.length := by
  induction h with
  | here p => rfl
  | down _ _ _ ih =>
    rw [ih, List.length_append, List.length_singleton, List.length_cons]
    omega

/-! ### The descent -/

theorem OwnArray.findChild_first (hc : OwnArray s dir) {level : Option CString} :
    FileSystem.findChild s dir level = .ok (some p) ↔
      ∃ last j, level = some last ∧ FirstChild s dir last j ∧ p = dir ++ [j] := by
  cases level with
  | none =>
    rw [findChild_unwritten]
    constructor
    · intro h
      split at h <;> cases h
    · rintro ⟨last, j, hlast, -⟩
      cases hlast
  | some level =>
    rw [hc.findChild_eq_some]
    constructor
    · rintro ⟨j, hj, hpre, hmin, rfl⟩
      exact ⟨level, j, rfl, ⟨hj, hpre, hmin⟩, rfl⟩
    · rintro ⟨last, j, hlast, ⟨hj, hpre, hmin⟩, rfl⟩
      cases hlast
      exact ⟨j, hj, hpre, hmin, rfl⟩

/-- `find_node` goes down where its levels lead. -/
theorem TreeOk.descend_eq_ok (hs : TreeOk s) : ∀ {levels : List (Option CString)}
    {cur p : NodePtr}, InTree s cur → (descend s cur levels = .ok p ↔ Leads s cur levels p)
  | [], cur, p, _ => by
      constructor
      · intro h
        obtain rfl := Except.ok.inj h
        exact .here _
      · intro h
        cases h
        rfl
  | level :: levels, cur, p, hcur => by
      constructor
      · intro h
        obtain ⟨_, hdir, h⟩ := bind_eq_ok.mp h
        rw [bugOn_eq_ok, not_not] at hdir
        obtain ⟨found, hf, h⟩ := bind_eq_ok.mp h
        cases found with
        | none => cases h
        | some q =>
          obtain ⟨last, j, rfl, hj, rfl⟩ := (hs.dir cur hcur hdir).findChild_first.mp hf
          exact .down hdir hj ((hs.descend_eq_ok (inTree_concat.mpr ⟨hcur, hj.1⟩)).mp h)
      · intro h
        cases h with
        | @down _ _ level _ j hdir hj h =>
          rw [descend, bugOn_false (by simp [hdir]), ok_bind,
            bind_of_ok ((hs.dir cur hcur hdir).findChild_first.mpr ⟨level, j, rfl, hj, rfl⟩)]
          exact (hs.descend_eq_ok (inTree_concat.mpr ⟨hcur, hj.1⟩)).mpr h

/-- The descent ends at a node or in an assertion, unless it strays. -/
theorem TreeOk.descend_cases (hs : TreeOk s) : ∀ (levels : List (Option CString)) {cur : NodePtr},
    InTree s cur → (Ends (descend s cur levels) ∧ ¬ Strays s cur levels) ∨
      (descend s cur levels = .error .fault ∧ Strays s cur levels)
  | [], _, _ => Or.inl ⟨trivial, by rintro ⟨⟩⟩
  | level :: levels, cur, hcur => by
      rw [descend]
      by_cases hdir : (s.nodes cur).type = .DIR
      · have hc := hs.dir cur hcur hdir
        rw [bugOn_false (by simp [hdir]), ok_bind]
        cases level with
        | none =>
          rw [findChild_unwritten]
          by_cases hzero : (s.nodes cur).childrenNum = 0
          · left
            rw [if_pos hzero, ok_bind]
            refine ⟨trivial, fun h => ?_⟩
            cases h with
            | here _ hnum => exact hnum hzero
          · right
            rw [if_neg hzero, error_bind]
            exact ⟨rfl, .here hdir hzero⟩
        | some level =>
          obtain ⟨found, hf⟩ : ∃ found, findChild s cur (some level) = .ok found :=
            ⟨_, hc.findChild level⟩
          rw [hf, ok_bind]
          cases found with
          | none =>
            left
            refine ⟨trivial, fun h => ?_⟩
            cases h with
            | down _ hj _ => exact hc.findChild_eq_none.mp hf _ hj.1 hj.2.1
          | some q =>
            obtain ⟨_, j, hlast, hj, rfl⟩ := hc.findChild_first.mp hf
            cases hlast
            rcases hs.descend_cases levels (inTree_concat.mpr ⟨hcur, hj.1⟩) with ⟨he, hno⟩ | ⟨he, hst⟩
            · refine Or.inl ⟨he, fun h => ?_⟩
              cases h with
              | @down _ _ _ i _ hi h =>
                have hfirst := hc.findChild_first.mpr ⟨level, i, rfl, hi, rfl⟩
                obtain rfl : i = j := by
                  simpa using Option.some.inj (Except.ok.inj (hfirst.symm.trans hf))
                exact hno h
            · exact Or.inr ⟨he, .down hdir hj hst⟩
      · left
        rw [bugOn_true hdir, error_bind]
        refine ⟨trivial, fun h => ?_⟩
        cases h with
        | here hd _ => exact hdir hd
        | down hd _ _ => exact hdir hd

theorem TreeOk.leads_inTree (hs : TreeOk s) (h : Leads s [] levels p) : InTree s p :=
  (descend_inTree hs (inTree_root s) ((hs.descend_eq_ok (inTree_root s)).mpr h)).1

/-! ### The whole lookup -/

/-- `find_node` after `name_to_levels_array`. -/
theorem findNode_of_splits (h : Splits memAlloc name) : findNode memAlloc s name type = (do
    let cur ← descend s [] (levelsOf name).above
    bugOn ((s.nodes cur).type ≠ .DIR) "current_node_ptr->type_ != DIR"
    match ← findChild s cur (levelsOf name).last with
    | some p => .ok (s, p)
    | none => addChild memAlloc s cur (levelsOf name).last type : Exec (FsState × NodePtr)) := by
  rw [findNode, nameToLevelsArray_eq, if_pos h.1, if_neg h.2, ok_bind]
  rfl

/-- A string that leads to a node finds it, whatever type is wanted, and changes nothing. -/
theorem findNode_leads (hs : TreeOk s) (h : LeadsTo memAlloc s name p) (type : NodeType) :
    findNode memAlloc s name type = .ok (s, p) := by
  obtain ⟨hsplits, hl⟩ := h
  obtain ⟨d, last, j, hd, hdir, hlast, hj, rfl⟩ := leads_concat.mp hl
  have hin := hs.leads_inTree hd
  rw [findNode_of_splits hsplits, bind_of_ok ((hs.descend_eq_ok (inTree_root s)).mpr hd),
    bugOn_false (by simp [hdir]), ok_bind,
    bind_of_ok ((hs.dir d hin hdir).findChild_first.mpr ⟨last, j, hlast, hj, rfl⟩)]

/-- The check lets a full directory through, and one that got no array: without room, something is
    written out of bounds. -/
theorem TreeOk.addChild_eq (hs : TreeOk s) (hin : InTree s dir) (hdir : (s.nodes dir).type = .DIR) :
    addChild memAlloc s dir (some last) type = if HasRoom s dir last
      then .ok (s.withChild memAlloc dir last type, s.slot dir) else .error .fault := by
  have hcheck : ¬ (s.nodes dir).childrenNum > 256 := Nat.not_lt.mpr (hs.bound dir hin)
  rcases hs.dir dir hin hdir with hc | ⟨hc, -⟩
  · split
    · rename_i h
      exact addChild_eq_ok.mpr ⟨dir, last, hc, rfl, h.2.1, h.2.2, rfl, rfl⟩
    · rename_i h
      simp only [addChild]
      rw [bugOn_false hcheck, ok_bind, hc]
      simp only
      by_cases hn : (s.nodes dir).childrenNum < maxFilesInDir
      · have hlong : ¬ last.length + 1 ≤ maxFileNameLength :=
          fun hlen => h ⟨by rw [hc]; exact Option.some_ne_none dir, hn, hlen⟩
        rw [if_pos hn, initFsNode, strcopy, if_neg hlong]
        rfl
      · rw [if_neg hn]
  · rw [if_neg fun h => h.1 hc]
    simp only [addChild]
    rw [bugOn_false hcheck, ok_bind, hc]

/-- A string whose last component is missing has it added. -/
theorem findNode_needs (hs : TreeOk s) (h : NeedsChild memAlloc s name dir last) (type : NodeType) :
    findNode memAlloc s name type = if HasRoom s dir last
      then .ok (s.withChild memAlloc dir last type, s.slot dir) else .error .fault := by
  have hin := hs.leads_inTree h.path
  rw [findNode_of_splits h.splits, bind_of_ok ((hs.descend_eq_ok (inTree_root s)).mpr h.path),
    bugOn_false (by simp [h.isDir]), ok_bind, h.isLast,
    bind_of_ok ((hs.dir dir hin h.isDir).findChild_eq_none.mpr h.absent)]
  exact hs.addChild_eq hin h.isDir

theorem findNode_astray (hs : TreeOk s) (h : GoesAstray memAlloc s name) (type : NodeType) :
    findNode memAlloc s name type = .error .fault := by
  obtain ⟨hsplits, hst | ⟨hlast, p, hl, hdir⟩⟩ := h
  · rw [findNode_of_splits hsplits]
    rcases hs.descend_cases _ (inTree_root s) with ⟨-, hno⟩ | ⟨he, -⟩
    · exact absurd hst hno
    · rw [he, error_bind]
  · have hin := hs.leads_inTree hl
    have hcheck : ¬ (s.nodes p).childrenNum > 256 := Nat.not_lt.mpr (hs.bound p hin)
    rw [findNode_of_splits hsplits, bind_of_ok ((hs.descend_eq_ok (inTree_root s)).mpr hl),
      bugOn_false (by simp [hdir]), ok_bind, hlast, findChild_unwritten]
    by_cases hzero : (s.nodes p).childrenNum = 0
    · rw [if_pos hzero, ok_bind]
      simp only [addChild]
      rw [bugOn_false hcheck, ok_bind]
      cases (s.nodes p).children <;> rfl
    · rw [if_neg hzero, error_bind]

/-- What a string comes to: its levels do not fit, it leads to a node, its last component is missing,
    it goes astray, or an assertion stops the lookup. -/
theorem findNode_cases (hs : TreeOk s) (memAlloc : MemAlloc) (name : CString) (type : NodeType) :
    (¬ LevelsFit memAlloc name ∧ findNode memAlloc s name type = .error .fault) ∨
    (∃ p, LeadsTo memAlloc s name p) ∨ (∃ dir last, NeedsChild memAlloc s name dir last) ∨
    GoesAstray memAlloc s name ∨ ∃ text, findNode memAlloc s name type = .error (.bug text) := by
  by_cases hfit : LevelsFit memAlloc name
  · right
    by_cases hmem : [] ∈ components name
    · refine Or.inr (Or.inr (Or.inr ⟨"level_end == level_start", ?_⟩))
      rw [findNode, nameToLevelsArray_eq, if_pos hfit, if_pos hmem, error_bind]
    · have hsplits : Splits memAlloc name := ⟨hfit, hmem⟩
      rw [findNode_of_splits hsplits]
      rcases hs.descend_cases (levelsOf name).above (inTree_root s) with ⟨hends, -⟩ | ⟨-, hst⟩
      · cases hdesc : descend s [] (levelsOf name).above with
        | error e =>
          rw [hdesc] at hends
          cases e with
          | bug text => exact Or.inr (Or.inr (Or.inr ⟨text, rfl⟩))
          | fault => exact absurd hends id
          | fuel => exact absurd hends id
        | ok cur =>
          have hl := (hs.descend_eq_ok (inTree_root s)).mp hdesc
          rw [ok_bind]
          by_cases hdir : (s.nodes cur).type = .DIR
          · have hc := hs.dir cur (hs.leads_inTree hl) hdir
            cases hlast : (levelsOf name).last with
            | none => exact Or.inr (Or.inr (Or.inl ⟨hsplits, Or.inr ⟨hlast, cur, hl, hdir⟩⟩))
            | some last =>
              by_cases hfound : ∃ j, FirstChild s cur last j
              · obtain ⟨j, hj⟩ := hfound
                exact Or.inl ⟨cur ++ [j], hsplits,
                  leads_concat.mpr ⟨cur, last, j, hl, hdir, hlast, hj, rfl⟩⟩
              · refine Or.inr (Or.inl ⟨cur, last, hsplits, hl, hdir, hlast, ?_⟩)
                rw [← hc.findChild_eq_none]
                cases hf : findChild s cur (some last) with
                | error e => rw [hc.findChild] at hf; cases hf
                | ok found =>
                  cases found with
                  | none => rfl
                  | some q =>
                    obtain ⟨_, j, he, hj, -⟩ := hc.findChild_first.mp hf
                    cases he
                    exact absurd ⟨j, hj⟩ hfound
          · exact Or.inr (Or.inr (Or.inr ⟨_, by rw [bugOn_true hdir, error_bind]⟩))
      · exact Or.inr (Or.inr (Or.inl ⟨hsplits, Or.inl hst⟩))
  · exact Or.inl ⟨hfit, by rw [findNode, nameToLevelsArray_eq, if_neg hfit, error_bind]⟩

/-- A lookup that returns has followed its string, or added its last component. -/
theorem findNode_returned (hs : TreeOk s) (h : findNode memAlloc s name type = .ok (s', p)) :
    (LeadsTo memAlloc s name p ∧ s' = s) ∨ ∃ dir last, NeedsChild memAlloc s name dir last ∧
      HasRoom s dir last ∧ p = s.slot dir ∧ s' = s.withChild memAlloc dir last type := by
  rcases findNode_cases hs memAlloc name type with ⟨-, he⟩ | ⟨q, hq⟩ | ⟨dir, last, hn⟩ | ha | ⟨text, he⟩
  · rw [he] at h; cases h
  · rw [findNode_leads hs hq] at h
    cases h
    exact Or.inl ⟨hq, rfl⟩
  · rw [findNode_needs hs hn] at h
    split at h
    · rename_i hroom
      cases h
      exact Or.inr ⟨dir, last, hn, hroom, rfl, rfl⟩
    · cases h
  · rw [findNode_astray hs ha] at h; cases h
  · rw [he] at h; cases h

/-- What `readdir` makes of the node that it has found. -/
theorem readdir_of_findNode (hs : TreeOk s)
    (h : findNode memAlloc s name .DIR = .ok (s', p)) : readdir memAlloc s name =
      if (s'.nodes p).childrenNum = 0 then .ok (s', none)
      else if ∀ i < (s'.nodes p).childrenNum, memAlloc.nextNode i = true then
        .ok (s', some ((List.range (s'.nodes p).childrenNum).map fun j => p ++ [j]))
      else .error .fault := by
  obtain ⟨ht, hp, -⟩ := hs.findNode h
  rw [readdir, h, ok_bind]
  simp only
  cases hnum : (s'.nodes p).childrenNum with
  | zero => rfl
  | succ n =>
    have hc : (s'.nodes p).children = some p := by
      cases htype : (s'.nodes p).type with
      | FILE => rw [ht.file p hp htype] at hnum; cases hnum
      | DIR =>
        rcases ht.dir p hp htype with hc | ⟨-, hzero⟩
        · exact hc
        · rw [hzero] at hnum; cases hnum
    rw [hc, if_neg (Nat.succ_ne_zero n)]

/-! ### Paths -/

/-- Of a path that is seen whole, all slots have been written. -/
theorem PathOf.levelsOf_eq {pre : List CString} (h : PathOf name (pre ++ [last]))
    (hlen : name.length < 2 ^ 31) :
    (levelsOf name).above = pre.map some ∧ (levelsOf name).last = some last := by
  have hcount : toInt (name.count slash) = pre.length + 1 := by
    have hle : name.count slash ≤ name.length := List.count_le_length
    rw [toInt_of_lt (by omega), h.count, List.length_append, List.length_singleton]
    push_cast
    rfl
  have hget : ∀ i : ℕ, (levelsOf name).get i = (pre ++ [last])[i]? := by
    intro i
    rw [levelsOf, h.components hlen, NameArray.get, if_pos (by omega)]
    simp only [Int.toNat_natCast]
  have hnum : (levelsOf name).levelsNum - 1 = pre.length := by
    simp only [levelsOf, hcount]
    omega
  constructor
  · rw [NameArray.above, hnum, Int.toNat_natCast]
    refine List.ext_getElem (by simp) fun i hi _ => ?_
    have hi : i < pre.length := by simpa using hi
    rw [List.getElem_map, List.getElem_range, hget, List.getElem?_append_left hi,
      List.getElem?_eq_getElem hi, List.getElem_map]
  · rw [NameArray.last, hnum, hget]
    simp

theorem PathOf.splits_iff {comps : List CString} (h : PathOf name comps)
    (hlen : name.length < 2 ^ 31) : Splits memAlloc name ↔ memAlloc.Serves comps.length := by
  rw [Splits, h.levelsFit hlen, h.components hlen]
  exact and_iff_left h.nil_not_mem

/-- A lookup that returns a node has cut at least as many components as the node is deep. -/
theorem findNode_length (hs : TreeOk s) (h : findNode memAlloc s name type = .ok (s', p)) :
    Splits memAlloc name ∧ p.length ≤ (components name).length := by
  have hdepth : ∀ last, (levelsOf name).last = some last →
      (levelsOf name).above.length + 1 ≤ (components name).length := by
    intro last hlast
    rw [NameArray.last, NameArray.get] at hlast
    split at hlast
    · have hlt := (List.getElem?_eq_some_iff.mp hlast).1
      rw [NameArray.above, List.length_map, List.length_range]
      exact hlt
    · cases hlast
  rcases findNode_returned hs h with ⟨⟨hsplits, hl⟩, -⟩ | ⟨dir, last, hn, -, rfl, -⟩
  · obtain ⟨d, last, j, -, -, hlast, -, -⟩ := leads_concat.mp hl
    have hlen := hl.length
    rw [List.length_append, List.length_singleton, List.length_nil, Nat.zero_add] at hlen
    exact ⟨hsplits, hlen ▸ hdepth last hlast⟩
  · have hlen := hn.path.length
    rw [List.length_nil, Nat.zero_add] at hlen
    rw [FsState.slot, List.length_append, List.length_singleton, hlen]
    exact ⟨hn.splits, hdepth last hn.isLast⟩

end FilesKernel.FileSystem
