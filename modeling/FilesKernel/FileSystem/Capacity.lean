import FilesKernel.FileSystem.Lookup

/-! How much a directory and a name hold.

    The check of `find_node` is against 256 children, when the array has 256 slots and the next slot is
    about to be used, and the copy of a name into `name_` is not checked at all; nor is what
    `mem_alloc` returns, nor whether a level that is read has been written. Up to the first call that
    meets one of these, the limits hold. -/

namespace FilesKernel.FileSystem
open CExec CWord

/-- The calls that look a path up. -/
def FsOp.IsLookup : FsOp → Prop
  | .open .. => True
  | .mkdir .. => True
  | .readdir .. => True
  | _ => False

/-- Along the run, directories and names are within their arrays, and no lookup accesses anything out
    of bounds. -/
structure WithinCapacity (garbage : BlockPtr → ℕ → UInt8) (blocks : ℕ) (ops : List FsOp) :
    Prop where
  nodes : ∀ ops' c, ops' <+: ops → runClient garbage blocks ops' = .ok c → ∀ p, InTree c.fs p →
    (c.fs.nodes p).childrenNum ≤ maxFilesInDir ∧
      (c.fs.nodes p).name.length + 1 ≤ maxFileNameLength
  steps : ∀ ops' op c, ops' ++ [op] <+: ops → runClient garbage blocks ops' = .ok c →
    op.IsLookup → c.step op ≠ .error .fault

/-- The levels of the string fit and are all written when they are read, and there is room for the
    child that is added. -/
structure MeetsLimits (memAlloc : MemAlloc) (s : FsState) (name : CString) : Prop where
  fit : LevelsFit memAlloc name
  written : ¬ GoesAstray memAlloc s name
  room : ∀ dir last, NeedsChild memAlloc s name dir last → HasRoom s dir last

/-- The call's lookup meets the limits, and there is memory for what `readdir` lists. -/
def FsOp.MeetsLimits (s : FsState) : FsOp → Prop
  | .open memAlloc name => FileSystem.MeetsLimits memAlloc s name
  | .mkdir memAlloc name => FileSystem.MeetsLimits memAlloc s name
  | .readdir memAlloc name => FileSystem.MeetsLimits memAlloc s name ∧
      ∀ p, LeadsTo memAlloc s name p → ∀ i < (s.nodes p).childrenNum, memAlloc.nextNode i = true
  | _ => True

variable {c : Client} {s s' : FsState} {p : NodePtr} {op : FsOp} {memAlloc : MemAlloc}
  {name : CString} {type : NodeType}

/-! ### Steps -/

/-- A lookup accesses something out of bounds exactly when it does not meet the limits. -/
theorem findNode_eq_fault (hs : TreeOk s) :
    findNode memAlloc s name type = .error .fault ↔ ¬ MeetsLimits memAlloc s name := by
  constructor
  · intro h hm
    rcases findNode_cases hs memAlloc name type with ⟨hno, -⟩ | ⟨p, hl⟩ | ⟨dir, last, hn⟩ | ha |
      ⟨text, he⟩
    · exact hno hm.fit
    · rw [findNode_leads hs hl] at h; cases h
    · rw [findNode_needs hs hn, if_pos (hm.room dir last hn)] at h; cases h
    · exact hm.written ha
    · rw [he] at h; cases h
  · intro hm
    by_contra hne
    refine hm ⟨?_, fun ha => hne (findNode_astray hs ha type), fun dir last hn => ?_⟩
    · by_contra hno
      exact hne (by rw [findNode, nameToLevelsArray_eq, if_neg hno, error_bind])
    · by_contra hroom
      exact hne (by rw [findNode_needs hs hn, if_neg hroom])

/-- A lookup that meets the limits returns, or is stopped by an assertion. -/
theorem ends_findNode (hs : TreeOk s) (h : MeetsLimits memAlloc s name) :
    Ends (findNode memAlloc s name type) := by
  rcases findNode_cases hs memAlloc name type with ⟨hno, -⟩ | ⟨p, hl⟩ | ⟨dir, last, hn⟩ | ha |
    ⟨text, he⟩
  · exact absurd h.fit hno
  · rw [findNode_leads hs hl]; trivial
  · rw [findNode_needs hs hn, if_pos (h.room dir last hn)]; trivial
  · exact absurd ha h.written
  · rw [he]; trivial

/-- The list of a directory that has just been added is empty. -/
theorem readdir_eq_fault (hs : TreeOk s) : readdir memAlloc s name = .error .fault ↔
    ¬ (FsOp.readdir memAlloc name).MeetsLimits s := by
  rw [FsOp.MeetsLimits]
  by_cases hm : MeetsLimits memAlloc s name
  · have hends : Ends (findNode memAlloc s name .DIR) := ends_findNode hs hm
    cases hf : findNode memAlloc s name .DIR with
    | error e =>
      have hbug : e ≠ .fault := by
        rintro rfl
        rw [hf] at hends
        exact hends
      have hnone : ∀ p, ¬ LeadsTo memAlloc s name p := by
        intro p hl
        rw [findNode_leads hs hl] at hf
        cases hf
      rw [readdir, hf, error_bind]
      refine iff_of_false (fun h => hbug (Except.error.inj h)) ?_
      rw [not_not]
      exact ⟨hm, fun p hl => absurd hl (hnone p)⟩
    | ok r =>
      obtain ⟨t, p⟩ := r
      rw [readdir_of_findNode hs hf]
      rcases findNode_returned hs hf with ⟨hl, rfl⟩ | ⟨dir, last, hn, -, rfl, rfl⟩
      · have hunique : ∀ q, LeadsTo memAlloc t name q → q = p := by
          intro q hq
          rw [findNode_leads hs hq] at hf
          cases hf
          rfl
        by_cases hlist : ∀ i < (t.nodes p).childrenNum, memAlloc.nextNode i = true
        · rw [if_pos hlist]
          refine iff_of_false (by split <;> rintro ⟨⟩) ?_
          rw [not_not]
          exact ⟨hm, fun q hq => hunique q hq ▸ hlist⟩
        · have hnum : (t.nodes p).childrenNum ≠ 0 := by
            intro hzero
            exact hlist fun i hi => by rw [hzero] at hi; cases hi
          rw [if_neg hnum, if_neg hlist]
          exact iff_of_true rfl fun h => hlist (h.2 p hl)
      · have hnone : ∀ q, ¬ LeadsTo memAlloc s name q := by
          intro q hq
          rw [findNode_leads hs hq] at hf
          obtain ⟨-, rfl⟩ := Prod.mk.inj (Except.ok.inj hf)
          exact slot_not_inTree (hs.leads_inTree hq.2)
        have hnew : ((s.withChild memAlloc dir last .DIR).nodes (s.slot dir)).childrenNum = 0 := by
          rw [withChild_slot]; rfl
        rw [if_pos hnew]
        refine iff_of_false (by rintro ⟨⟩) ?_
        rw [not_not]
        exact ⟨hm, fun q hq => absurd hq (hnone q)⟩
  · rw [readdir, (findNode_eq_fault hs).mpr hm, error_bind]
    exact iff_of_true rfl fun h => hm h.1

/-- A call accesses something out of bounds exactly when it does not meet the limits. -/
theorem step_eq_fault (hs : TreeOk c.fs) (hop : op.IsLookup) :
    c.step op = .error .fault ↔ ¬ op.MeetsLimits c.fs := by
  cases op with
  | «open» memAlloc name =>
    rw [Client.step, bind_eq_fault, openFile, bind_eq_fault, findNode_eq_fault hs]
    · rfl
    · exact fun _ _ => (ends_bugOn _ _).bind fun _ _ => trivial
    · exact fun _ _ => trivial
  | mkdir memAlloc name =>
    rw [Client.step, bind_eq_fault, FileSystem.mkdir, bind_eq_fault, findNode_eq_fault hs]
    · rfl
    · exact fun _ _ => trivial
    · exact fun _ _ => trivial
  | readdir memAlloc name =>
    rw [Client.step, bind_eq_fault, readdir_eq_fault hs]
    exact fun _ _ => trivial
  | close i => cases hop
  | read i offset mem dataBegin n => cases hop
  | write i offset mem dataBegin n => cases hop

/-! ### Runs -/

/-- For every run: the limits hold exactly when every call meets them. -/
theorem withinCapacity_iff (garbage : BlockPtr → ℕ → UInt8) (blocks : ℕ) (ops : List FsOp) :
    WithinCapacity garbage blocks ops ↔ ∀ ops' op c, ops' ++ [op] <+: ops →
      runClient garbage blocks ops' = .ok c → op.IsLookup → op.MeetsLimits c.fs := by
  constructor
  · intro h ops' op c hops hc hop
    by_contra hm
    exact h.steps ops' op c hops hc hop ((step_eq_fault (runClient_ok hc).tree hop).mpr hm)
  · intro h
    refine ⟨fun ops' c hops hc p hp => ?_, fun ops' op c hops hc hop hfault => ?_⟩
    · have hs := (runClient_ok hc).tree
      exact ⟨hs.bound p hp, hs.fits p hp⟩
    · exact (step_eq_fault (runClient_ok hc).tree hop).mp hfault (h ops' op c hops hc hop)

/-- A name of 128 bytes leaves no byte for its NUL. -/
def longName : CString := List.replicate 128 97

theorem not_withinCapacity_long :
    ¬ WithinCapacity (fun _ _ => 0) 1 [.mkdir .always (slash :: longName)] := by
  intro h
  obtain ⟨s, hs⟩ : ∃ s, initFileSystem (fun _ _ => 0) 1 = .ok s := ⟨_, initFileSystem_eq _ 1⟩
  have hc : runClient (fun _ _ => 0) 1 [] = .ok ⟨s, []⟩ := by rw [runClient, hs]; rfl
  obtain ⟨hroot, -⟩ := initFileSystem_root hs
  have hpath : PathOf (slash :: longName) ([] ++ [longName]) :=
    ⟨by decide, by decide +kernel, by decide +kernel⟩
  have hlen : (slash :: longName).length < 2 ^ 31 := by decide +kernel
  obtain ⟨habove, hlast⟩ := hpath.levelsOf_eq hlen
  have hneeds : NeedsChild .always s (slash :: longName) [] longName := by
    have hempty : (s.nodes []).childrenNum = 0 := by rw [hroot]; rfl
    refine ⟨(hpath.splits_iff hlen).mpr (MemAlloc.always_serves _), ?_,
      (initFileSystem_tree hs).root, hlast, fun j hj => ?_⟩
    · rw [habove]
      exact .here []
    · exact absurd hj (by omega)
  have hlong : ¬ HasRoom s [] longName := by
    rintro ⟨-, -, hname⟩
    rw [longName, List.length_replicate] at hname
    exact absurd hname (by decide)
  have hop : (FsOp.mkdir .always (slash :: longName)).IsLookup := trivial
  refine h.steps [] _ ⟨s, []⟩ (List.prefix_refl _) hc hop ?_
  rw [step_eq_fault (initFileSystem_tree hs) hop]
  exact fun hm => hlong (hm.room [] longName hneeds)

end FilesKernel.FileSystem
