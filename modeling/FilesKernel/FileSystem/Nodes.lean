import FilesKernel.FileSystem.Blocks

/-! What the lookups, the start of a write and the set-up do to a state.

    `find_node` either finds its node and changes nothing, or adds one child to one directory; no
    lookup touches a block. `write` grows its node and gives it a first block before it walks.
    `init_file_system(n)` leaves the `n` blocks in one chain at `fs_descriptors_head` and no file with
    any block. -/

namespace FilesKernel.FileSystem
open CExec CWord

/-- A node as `init_fs_node` leaves it. -/
def freshNode (memAlloc : MemAlloc) (p : NodePtr) (name : CString) (type : NodeType) : FsNode where
  type := type
  name := name
  children := if type = .DIR ∧ memAlloc.children then some p else none
  childrenNum := 0
  listHead := none
  size := 0
  opened := false

variable {memAlloc : MemAlloc}

theorem initFsNode_eq_ok {s s' : FsState} {p : NodePtr} {name : CString} {type : NodeType} :
    initFsNode memAlloc s p name type = .ok s' ↔ name.length + 1 ≤ maxFileNameLength ∧
      s' = { s with nodes := Function.update s.nodes p (freshNode memAlloc p name type) } := by
  unfold initFsNode strcopy
  split
  · rename_i h
    simp only [ok_bind, Except.ok.injEq, h, true_and]
    exact eq_comm
  · rename_i h
    simp [h]

/-- The nodes after a child has been added. -/
def addedChild (memAlloc : MemAlloc) (s : FsState) (dir a : NodePtr) (name : CString)
    (type : NodeType) : NodePtr → FsNode :=
  Function.update
    (Function.update s.nodes dir
      { s.nodes dir with childrenNum := (s.nodes dir).childrenNum + 1 })
    (a ++ [(s.nodes dir).childrenNum])
    (freshNode memAlloc (a ++ [(s.nodes dir).childrenNum]) name type)

/-- When adding a child returns, and what it then has done. -/
theorem addChild_eq_ok {s s' : FsState} {dir p : NodePtr} {name : Option CString}
    {type : NodeType} :
    addChild memAlloc s dir name type = .ok (s', p) ↔ ∃ a last, (s.nodes dir).children = some a ∧
      name = some last ∧ (s.nodes dir).childrenNum < maxFilesInDir ∧
      last.length + 1 ≤ maxFileNameLength ∧ p = a ++ [(s.nodes dir).childrenNum] ∧
      s' = { s with nodes := addedChild memAlloc s dir a last type } := by
  simp only [addChild, bind_eq_ok, bugOn_eq_ok]
  constructor
  · rintro ⟨-, hfull, h⟩
    cases hc : (s.nodes dir).children with
    | none => rw [hc] at h; cases h
    | some a =>
      cases name with
      | none => rw [hc] at h; cases h
      | some last =>
        rw [hc] at h
        by_cases hn : (s.nodes dir).childrenNum < maxFilesInDir
        · simp only [hn, ↓reduceIte, bind_eq_ok, initFsNode_eq_ok] at h
          obtain ⟨t, ⟨hlen, rfl⟩, h⟩ := h
          cases h
          exact ⟨a, last, rfl, rfl, hn, hlen, rfl, by simp only [addedChild, hc]⟩
        · simp [hn] at h
  · rintro ⟨a, last, hc, rfl, hn, hlen, rfl, rfl⟩
    refine ⟨(), by simp only [maxFilesInDir] at hn; omega, ?_⟩
    rw [hc]
    simp only [hn, ↓reduceIte]
    rw [bind_eq_ok]
    exact ⟨_, initFsNode_eq_ok.mpr ⟨hlen, rfl⟩, by simp only [addedChild, hc]⟩

/-- The lookup that `find_node` ends with: the directory and the outcome of the search in it. -/
theorem findNode_eq_ok {s s' : FsState} {name : CString} {type : NodeType} {p : NodePtr} :
    findNode memAlloc s name type = .ok (s', p) ↔ ∃ levels cur,
      nameToLevelsArray memAlloc name = .ok levels ∧ descend s [] levels.above = .ok cur ∧
      (s.nodes cur).type = .DIR ∧
      ((findChild s cur levels.last = .ok (some p) ∧ s' = s) ∨
        (findChild s cur levels.last = .ok none ∧
          addChild memAlloc s cur levels.last type = .ok (s', p))) := by
  simp only [findNode, bind_eq_ok, bugOn_eq_ok, not_not]
  constructor
  · rintro ⟨levels, hl, cur, hcur, -, hdir, found, hf, h⟩
    refine ⟨levels, cur, hl, hcur, hdir, ?_⟩
    cases found with
    | none => exact Or.inr ⟨hf, h⟩
    | some q => cases h; exact Or.inl ⟨hf, rfl⟩
  · rintro ⟨levels, cur, hl, hcur, hdir, h⟩
    refine ⟨levels, hl, cur, hcur, (), hdir, ?_⟩
    rcases h with ⟨hf, rfl⟩ | ⟨hf, ha⟩
    · exact ⟨_, hf, rfl⟩
    · exact ⟨_, hf, ha⟩

/-- What a lookup may have done: nothing, or one node added. -/
theorem findNode_changes {s s' : FsState} {name : CString} {type : NodeType} {p : NodePtr}
    (h : findNode memAlloc s name type = .ok (s', p)) :
    s' = s ∨ ∃ dir a last, (s.nodes dir).type = .DIR ∧ (s.nodes dir).children = some a ∧
      (s.nodes dir).childrenNum < maxFilesInDir ∧ last.length + 1 ≤ maxFileNameLength ∧
      findChild s dir (some last) = .ok none ∧ p = a ++ [(s.nodes dir).childrenNum] ∧
      s' = { s with nodes := addedChild memAlloc s dir a last type } := by
  obtain ⟨_, cur, -, -, hdir, ⟨-, rfl⟩ | ⟨hf, ha⟩⟩ := findNode_eq_ok.mp h
  · exact Or.inl rfl
  · obtain ⟨a, last, hc, hlast, hn, hlen, hp, hs⟩ := addChild_eq_ok.mp ha
    exact Or.inr ⟨cur, a, last, hdir, hc, hn, hlen, hlast ▸ hf, hp, hs⟩

/-- A lookup touches no block, and gives no node any. -/
theorem findNode_blocks {s s' : FsState} {name : CString} {type : NodeType} {p : NodePtr}
    (h : findNode memAlloc s name type = .ok (s', p)) :
    s'.fsDescriptorsHead = s.fsDescriptorsHead ∧ s'.blocks = s.blocks ∧
      ∀ q, (s'.nodes q).listHead = (s.nodes q).listHead ∧ (s'.nodes q).size = (s.nodes q).size ∨
        (s'.nodes q).listHead = none ∧ (s'.nodes q).size = 0 := by
  rcases findNode_changes h with rfl | ⟨dir, a, last, -, -, -, -, -, -, rfl⟩
  · exact ⟨rfl, rfl, fun q => Or.inl ⟨rfl, rfl⟩⟩
  · refine ⟨rfl, rfl, fun q => ?_⟩
    simp only [addedChild]
    by_cases hq : q = a ++ [(s.nodes dir).childrenNum]
    · subst hq; right; simp [freshNode]
    · left
      rw [Function.update_of_ne hq]
      by_cases hd : q = dir
      · subst hd; simp
      · simp [Function.update_of_ne hd]

/-- `open` returns a node that is now open, and otherwise did what its lookup did. -/
theorem openFile_eq_ok {s s' : FsState} {name : CString} {p : NodePtr} :
    openFile memAlloc s name = .ok (s', p) ↔ ∃ t, findNode memAlloc s name .FILE = .ok (t, p) ∧
      (t.nodes p).opened = false ∧ s' = t.setOpened p true := by
  simp only [openFile, bind_eq_ok, bugOn_eq_ok, Bool.not_eq_true]
  constructor
  · rintro ⟨⟨t, q⟩, hf, -, ho, h⟩
    cases h
    exact ⟨t, hf, ho, rfl⟩
  · rintro ⟨t, hf, ho, rfl⟩
    exact ⟨(t, p), hf, (), ho, rfl⟩

/-! ### Writes -/

@[simp] theorem grow_opened (n : FsNode) (e : ℕ) : (n.grow e).opened = n.opened := by
  unfold FsNode.grow; split <;> rfl

@[simp] theorem grow_listHead (n : FsNode) (e : ℕ) : (n.grow e).listHead = n.listHead := by
  unfold FsNode.grow; split <;> rfl

@[simp] theorem grow_size (n : FsNode) (e : ℕ) : (n.grow e).size = max e n.size := by
  unfold FsNode.grow
  split
  · rename_i h; exact (max_eq_left (Nat.le_of_lt h)).symm
  · exact (max_eq_right (by omega)).symm

@[simp] theorem grow_type (n : FsNode) (e : ℕ) : (n.grow e).type = n.type := by
  unfold FsNode.grow; split <;> rfl

@[simp] theorem grow_name (n : FsNode) (e : ℕ) : (n.grow e).name = n.name := by
  unfold FsNode.grow; split <;> rfl

@[simp] theorem grow_children (n : FsNode) (e : ℕ) : (n.grow e).children = n.children := by
  unfold FsNode.grow; split <;> rfl

@[simp] theorem grow_childrenNum (n : FsNode) (e : ℕ) :
    (n.grow e).childrenNum = n.childrenNum := by
  unfold FsNode.grow; split <;> rfl

/-- `write` up to its walk: the file is open, has grown, and has `b` as its first block, taken from
    the free list if it had none. -/
structure Started (s t : FsState) (p : NodePtr) (fileEnd : ℕ) (b : BlockPtr) : Prop where
  opened : (s.nodes p).opened = true
  nodes : t.nodes = Function.update s.nodes p
    { (s.nodes p).grow fileEnd with listHead := some b }
  first : ((s.nodes p).listHead = some b ∧ t.blocks = s.blocks ∧
      t.fsDescriptorsHead = s.fsDescriptorsHead) ∨
    ((s.nodes p).listHead = none ∧ ∃ u, getFsBlock s = .ok (u, b) ∧ t.blocks = u.blocks ∧
      t.fsDescriptorsHead = u.fsDescriptorsHead)

/-- A write that returns has gone through its start and its walk. -/
theorem writeFile_eq_ok {s s' : FsState} {p : NodePtr} {offset dataBegin n : ℕ} {mem : Mem}
    (h : writeFile s p offset mem dataBegin n = .ok s') :
    ∃ t b, Started s t p (wrap (offset + n)) b ∧
      writeToBlock mem (blockSteps offset n) t b offset dataBegin n = .ok s' := by
  obtain ⟨_, ho, h⟩ := bind_eq_ok.mp h
  have ho : (s.nodes p).opened = true := by simpa using bugOn_eq_ok.mp ho
  simp only [grow_listHead] at h
  cases hh : (s.nodes p).listHead with
  | some b =>
    simp only [hh, ok_bind] at h
    refine ⟨_, b, ?_, h⟩
    refine ⟨ho, ?_, Or.inl ⟨hh, rfl, rfl⟩⟩
    simp only [← hh, ← grow_listHead (s.nodes p) (wrap (offset + n))]
  | none =>
    simp only [hh] at h
    obtain ⟨⟨u, b⟩, hg, h⟩ := bind_eq_ok.mp h
    obtain ⟨hhead, rfl⟩ := getFsBlock_eq_ok.mp hg
    simp only [ok_bind] at h
    refine ⟨_, b, ?_, h⟩
    refine ⟨ho, ?_, Or.inr ⟨hh, _, getFsBlock_eq_ok.mpr ⟨hhead, rfl⟩, rfl, rfl⟩⟩
    simp only [FsState.taken, Function.update_idem]

/-! ### Set-up -/

/-- `allocate_fs_blocks(n)` links the blocks `n - 1, …, 0` in one chain. -/
theorem allocateFsBlocks_chain (garbage : BlockPtr → ℕ → UInt8) (s : FsState) : ∀ n,
    ChainOf (allocateFsBlocks garbage n s).blocks (allocateFsBlocks garbage n s).fsDescriptorsHead
      (List.range n).reverse
  | 0 => rfl
  | n + 1 => by
    have ih := allocateFsBlocks_chain garbage s n
    rw [List.range_succ, List.reverse_append, List.reverse_singleton, List.singleton_append]
    refine ⟨rfl, ?_⟩
    simp only [allocateFsBlocks, Function.update_self]
    cases hh : (allocateFsBlocks garbage n s).fsDescriptorsHead with
    | none =>
      simp only [hh] at ih ⊢
      refine chainOf_congr (fun c hc => ?_) ih
      have hne : c ≠ n := Nat.ne_of_lt (by simpa using hc)
      rw [Function.update_of_ne hne]
    | some b =>
      simp only [hh] at ih ⊢
      refine chainOf_congr (fun c hc => ?_) ih
      have hne : c ≠ n := Nat.ne_of_lt (by simpa using hc)
      rw [Function.update_of_ne hne]
      by_cases hb : c = b
      · subst hb; simp
      · rw [Function.update_of_ne hb]

theorem allocateFsBlocks_nodes (garbage : BlockPtr → ℕ → UInt8) (s : FsState) : ∀ n,
    (allocateFsBlocks garbage n s).nodes = s.nodes
  | 0 => rfl
  | n + 1 => by
    simp only [allocateFsBlocks]
    split <;> exact allocateFsBlocks_nodes garbage s n

/-- The state that `init_file_system` leaves. -/
theorem initFileSystem_eq (garbage : BlockPtr → ℕ → UInt8) (n : ℕ) :
    initFileSystem garbage n = .ok
      { allocateFsBlocks garbage n (blankState garbage) with
        nodes := Function.update (blankState garbage).nodes [] (freshNode .always [] [slash] .DIR) } := by
  rw [initFileSystem, initFsNode_eq_ok]
  exact ⟨by decide, by rw [allocateFsBlocks_nodes]⟩

/-- No node has a block. -/
def NoBlocks (s : FsState) : Prop := ∀ q, (s.nodes q).listHead = none ∧ (s.nodes q).size = 0

/-- After `init_file_system(n)` the `n` blocks are in one free chain and no node has any. -/
theorem initFileSystem_spec {garbage : BlockPtr → ℕ → UInt8} {n : ℕ} {s : FsState}
    (h : initFileSystem garbage n = .ok s) :
    ChainOf s.blocks s.fsDescriptorsHead (List.range n).reverse ∧ NoBlocks s := by
  rw [initFileSystem_eq] at h
  cases h
  refine ⟨allocateFsBlocks_chain garbage _ n, fun q => ?_⟩
  by_cases hq : q = []
  · subst hq; simp [freshNode]
  · simp [Function.update_of_ne hq, blankState]

/-- Lookups in a state without file blocks leave it so. -/
theorem NoBlocks.findNode {s s' : FsState} {name : CString} {type : NodeType} {p : NodePtr}
    (hs : NoBlocks s) (h : findNode memAlloc s name type = .ok (s', p)) : NoBlocks s' := by
  intro q
  rcases (findNode_blocks h).2.2 q with ⟨hl, hz⟩ | hnone
  · rw [hl, hz]; exact hs q
  · exact hnone

end FilesKernel.FileSystem
