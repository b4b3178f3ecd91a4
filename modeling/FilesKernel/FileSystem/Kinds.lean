import FilesKernel.FileSystem.Lookup

/-! Files and directories.

    `find_node` takes the wanted type for a new node only. A string that leads to a directory is opened
    as a file would be, and `mkdir` of a string that leads to a file returns. As long as neither
    happens the two kinds stay apart. -/

namespace FilesKernel.FileSystem
open CExec CWord

/-- `open` is not called with a string that leads to a directory, nor `mkdir` with one that leads to
    a file. -/
def FsOp.KeepsApart (s : FsState) : FsOp → Prop
  | .open memAlloc name => ∀ p, LeadsTo memAlloc s name p → (s.nodes p).type = .FILE
  | .mkdir memAlloc name => ∀ p, LeadsTo memAlloc s name p → (s.nodes p).type = .DIR
  | _ => True

/-- Along the run, `open` returns files, `mkdir` comes to directories, no directory is open or has
    bytes, and no file has children. -/
structure KindsApart (garbage : BlockPtr → ℕ → UInt8) (blocks : ℕ) (ops : List FsOp) : Prop where
  opens : ∀ ops' memAlloc name c s p, ops' ++ [.open memAlloc name] <+: ops →
    runClient garbage blocks ops' = .ok c → openFile memAlloc c.fs name = .ok (s, p) →
    (s.nodes p).type = .FILE
  mkdirs : ∀ ops' memAlloc name c s p, ops' ++ [.mkdir memAlloc name] <+: ops →
    runClient garbage blocks ops' = .ok c → findNode memAlloc c.fs name .DIR = .ok (s, p) →
    (s.nodes p).type = .DIR
  dirs : ∀ ops' c, ops' <+: ops → runClient garbage blocks ops' = .ok c → ∀ p, InTree c.fs p →
    (c.fs.nodes p).type = .DIR → (c.fs.nodes p).opened = false ∧ (c.fs.nodes p).size = 0 ∧
      (c.fs.nodes p).listHead = none
  files : ∀ ops' c, ops' <+: ops → runClient garbage blocks ops' = .ok c → ∀ p, InTree c.fs p →
    (c.fs.nodes p).type = .FILE → (c.fs.nodes p).childrenNum = 0

/-- The handles of the client are files, and directories are as they were made. -/
structure Apart (c : Client) : Prop where
  handles : ∀ p ∈ c.files, (c.fs.nodes p).type = .FILE
  dirs : ∀ p, InTree c.fs p → (c.fs.nodes p).type = .DIR → (c.fs.nodes p).opened = false ∧
    (c.fs.nodes p).size = 0 ∧ (c.fs.nodes p).listHead = none

variable {c c' : Client} {s s' : FsState} {p q dir : NodePtr} {memAlloc : MemAlloc}
  {name last : CString} {type : NodeType}

/-! ### Steps -/

/-- A lookup changes no node in use but for its children, and a node that it adds is of the wanted
    type. -/
theorem findNode_kinds (hs : TreeOk s) (h : findNode memAlloc s name type = .ok (s', p)) :
    (∀ q, InTree s q → (s'.nodes q).type = (s.nodes q).type ∧
      (s'.nodes q).opened = (s.nodes q).opened ∧ (s'.nodes q).size = (s.nodes q).size ∧
      (s'.nodes q).listHead = (s.nodes q).listHead) ∧
    ((LeadsTo memAlloc s name p ∧ s' = s) ∨ (s'.nodes p).type = type) ∧
    ∀ q, InTree s' q → InTree s q ∨ (s'.nodes q).opened = false ∧ (s'.nodes q).size = 0 ∧
      (s'.nodes q).listHead = none := by
  rcases findNode_returned hs h with ⟨hl, rfl⟩ | ⟨dir, last, hn, -, rfl, rfl⟩
  · exact ⟨fun q _ => ⟨rfl, rfl, rfl, rfl⟩, Or.inl ⟨hl, rfl⟩, fun q hq => Or.inl hq⟩
  · refine ⟨fun q hq => ?_, Or.inr (by rw [withChild_slot]; rfl), fun q hq => ?_⟩
    · have hslot : q ≠ s.slot dir := fun e => slot_not_inTree (e ▸ hq)
      by_cases hd : q = dir
      · rw [hd, withChild_dir]
        exact ⟨rfl, rfl, rfl, rfl⟩
      · rw [withChild_other hslot hd]
        exact ⟨rfl, rfl, rfl, rfl⟩
    · rcases (inTree_withChild (hs.leads_inTree hn.path)).mp hq with hq | rfl
      · exact Or.inl hq
      · rw [withChild_slot]
        exact Or.inr ⟨rfl, rfl, rfl⟩

theorem Apart.lookup (hc : c.Ok) (ha : Apart c) (h : findNode memAlloc c.fs name type = .ok (s, p)) :
    Apart ⟨s, c.files⟩ := by
  obtain ⟨hkeep, -, hold⟩ := findNode_kinds hc.tree h
  refine ⟨fun q hq => ?_, fun q hq hdir => ?_⟩
  · rw [(hkeep q (hc.files q hq)).1]
    exact ha.handles q hq
  · rcases hold q hq with hin | hnew
    · obtain ⟨ht, ho, hz, hl⟩ := hkeep q hin
      rw [ho, hz, hl]
      exact ha.dirs q hin (ht ▸ hdir)
    · exact hnew

/-- Setting the flag of a file. -/
theorem Apart.setOpened (ha : Apart c) (hp : (c.fs.nodes p).type = .FILE) (b : Bool) :
    Apart ⟨c.fs.setOpened p b, c.files ++ [p]⟩ := by
  have hsh := sameShape_setOpened c.fs p b
  refine ⟨fun q hq => ?_, fun q hq hdir => ?_⟩
  · rw [(hsh q).1]
    rcases List.mem_append.mp hq with hq | hq
    · exact ha.handles q hq
    · rw [List.mem_singleton.mp hq, hp]
  · rw [(hsh q).1] at hdir
    have hne : q ≠ p := by
      rintro rfl
      rw [hp] at hdir
      cases hdir
    have hsame : (c.fs.setOpened p b).nodes q = c.fs.nodes q := Function.update_of_ne hne _ _
    rw [hsame]
    exact ha.dirs q (hsh.inTree.mp hq) hdir

/-- Writing to a file. -/
theorem Apart.write (ha : Apart c) (hp : (c.fs.nodes p).type = .FILE) {offset dataBegin n : ℕ}
    {mem : Mem} (h : writeFile c.fs p offset mem dataBegin n = .ok s) : Apart ⟨s, c.files⟩ := by
  have hsh := writeFile_sameShape h
  obtain ⟨t, b, ht, hw⟩ := writeFile_eq_ok h
  refine ⟨fun q hq => (hsh q).1.trans (ha.handles q hq), fun q hq hdir => ?_⟩
  rw [(hsh q).1] at hdir
  have hne : q ≠ p := by
    rintro rfl
    rw [hp] at hdir
    cases hdir
  have hsame : s.nodes q = c.fs.nodes q := by
    rw [writeToBlock_nodes hw, ht.nodes, Function.update_of_ne hne]
  rw [hsame]
  exact ha.dirs q (hsh.inTree.mp hq) hdir

/-- What `open` returns, where it leads to no directory. -/
theorem open_file (hs : TreeOk s) (hop : (FsOp.open memAlloc name).KeepsApart s)
    (h : findNode memAlloc s name .FILE = .ok (s', p)) : (s'.nodes p).type = .FILE := by
  rcases (findNode_kinds hs h).2.1 with ⟨hl, rfl⟩ | hnew
  · exact hop p hl
  · exact hnew

/-- A call that keeps the kinds apart keeps what is known of them. -/
theorem Apart.step (hc : c.Ok) (ha : Apart c) {op : FsOp} (hop : op.KeepsApart c.fs)
    (h : c.step op = .ok c') : Apart c' := by
  rcases Client.step_cases h with ⟨_, name, p, t, rfl, hf, rfl⟩ | ⟨i, p, -, hp, rfl⟩ |
    ⟨_, name, p, t, -, hf, rfl⟩ | ⟨i, _, _, _, _, -, rfl⟩ | ⟨i, p, _, _, _, _, t, -, hp, -, hw, rfl⟩
  · exact (ha.lookup hc hf).setOpened (open_file hc.tree hop hf) true
  · have hset := ha.setOpened (ha.handles p hp) false
    exact ⟨fun q hq => hset.handles q (List.mem_append_left _ hq), hset.dirs⟩
  · exact ha.lookup hc hf
  · exact ha
  · exact ha.write (ha.handles p hp) hw

/-! ### Runs -/

theorem apart_init {garbage : BlockPtr → ℕ → UInt8} {blocks : ℕ}
    (h : initFileSystem garbage blocks = .ok s) : Apart ⟨s, []⟩ := by
  obtain ⟨hroot, honly⟩ := initFileSystem_root h
  refine ⟨nofun, fun p hp _ => ?_⟩
  simp only [honly p hp, hroot]
  exact ⟨rfl, rfl, rfl⟩

/-- For every run: the kinds stay apart exactly when no call of it brings them together. -/
theorem kindsApart_iff (garbage : BlockPtr → ℕ → UInt8) (blocks : ℕ) (ops : List FsOp) :
    KindsApart garbage blocks ops ↔ ∀ ops' op c, ops' ++ [op] <+: ops →
      runClient garbage blocks ops' = .ok c → op.KeepsApart c.fs := by
  constructor
  · intro h ops' op c hops hc
    have hs := (runClient_ok hc).tree
    cases op with
    | «open» memAlloc name =>
      intro p hl
      cases htype : (c.fs.nodes p).type with
      | FILE => rfl
      | DIR =>
        -- the directory is not open yet, so that `open` returns it
        have hopened := (h.dirs ops' c ((List.prefix_append _ _).trans hops) hc p
          (hs.leads_inTree hl.2) htype).1
        have hreturned := h.opens ops' memAlloc name c _ p hops hc
          (openFile_eq_ok.mpr ⟨c.fs, findNode_leads hs hl .FILE, hopened, rfl⟩)
        rw [(sameShape_setOpened c.fs p true p).1, htype] at hreturned
        cases hreturned
    | mkdir memAlloc name =>
      exact fun p hl => h.mkdirs ops' memAlloc name c c.fs p hops hc (findNode_leads hs hl .DIR)
    | close i => trivial
    | readdir memAlloc name => trivial
    | read i offset mem dataBegin n => trivial
    | write i offset mem dataBegin n => trivial
  · intro h
    have hrun : ∀ ops' c, ops' <+: ops → runClient garbage blocks ops' = .ok c → Apart c :=
      fun ops' c hops hc => runClient_induction (fun s hs => apart_init hs)
        (fun ops' op c c' hops' hc ha hstep =>
          ha.step (runClient_ok hc) (h ops' op c hops' hc) hstep) hops hc
    refine ⟨fun ops' _ name c s p hops hc ho => ?_, fun ops' _ name c s p hops hc hf => ?_,
      fun ops' c hops hc => (hrun ops' c hops hc).dirs,
      fun ops' c hops hc => (runClient_ok hc).tree.file⟩
    · obtain ⟨t, hf, -, rfl⟩ := openFile_eq_ok.mp ho
      rw [(sameShape_setOpened t p true p).1]
      exact open_file (runClient_ok hc).tree (h ops' _ c hops hc) hf
    · rcases (findNode_kinds (runClient_ok hc).tree hf).2.1 with ⟨hl, rfl⟩ | hnew
      · exact h ops' _ c hops hc p hl
      · exact hnew

/-- A directory is opened. -/
theorem not_kindsApart_opened :
    ¬ KindsApart (fun _ _ => 0) 1 [.mkdir .always [slash, 100], .open .always [slash, 100]] := by
  intro h
  have hrun : (do
      let c ← runClient (fun _ _ => 0) 1 [.mkdir .always [slash, 100]]
      let r ← openFile .always c.fs [slash, 100]
      .ok (r.1.nodes r.2).type : Exec NodeType) = .ok .DIR := by decide +kernel
  obtain ⟨c, hc, hrun⟩ := bind_eq_ok.mp hrun
  obtain ⟨⟨s, p⟩, ho, hval⟩ := bind_eq_ok.mp hrun
  have hfile := h.opens [.mkdir .always [slash, 100]] .always [slash, 100] c s p
    (List.prefix_refl _) hc ho
  rw [Except.ok.inj hval] at hfile
  cases hfile

end FilesKernel.FileSystem
