import Mathlib.Data.List.Induction
import FilesKernel.FileSystem.Nodes

/-! The directory tree and what every client run keeps of it.

    The nodes in use are those reached from the root through child indices below `children_num_`.
    Directories own their own `children_` array, or have none and no child, and hold at most 256
    children; files hold none, names fit their arrays, and a name is never a prefix of the name of an
    older sibling, since `find_node` would have returned that sibling. -/

namespace FilesKernel.FileSystem
open CExec CWord

/-- `streq(from, to)` accepts when `from` is a prefix of `to`. -/
theorem streq_iff : ∀ {src dst : CString}, streq src dst = true ↔ src <+: dst
  | [], dst => by simp [streq]
  | c :: src, [] => by simp [streq]
  | c :: src, t :: dst => by
    rw [streq, List.cons_prefix_cons]
    by_cases h : t = c
    · subst h; simp [streq_iff]
    · simp [h, Ne.symm h]

/-- The node is in use: every index on the way from the root is below `children_num_`. -/
def InTree (s : FsState) (p : NodePtr) : Prop :=
  ∀ q j t, p = q ++ j :: t → j < (s.nodes q).childrenNum

theorem inTree_root (s : FsState) : InTree s [] := by
  intro q j t h; simp at h

theorem inTree_concat {s : FsState} {p : NodePtr} {j : ℕ} :
    InTree s (p ++ [j]) ↔ InTree s p ∧ j < (s.nodes p).childrenNum := by
  constructor
  · intro h
    exact ⟨fun q i t hp => h q i (t ++ [j]) (by simp [hp]), h p j [] rfl⟩
  · rintro ⟨hp, hj⟩ q i t h
    rcases List.eq_nil_or_concat t with rfl | ⟨t', k, rfl⟩
    · obtain ⟨rfl, rfl⟩ : p = q ∧ j = i := by simpa using List.append_inj' h rfl
      exact hj
    · rw [List.concat_eq_append, ← List.cons_append, ← List.append_assoc] at h
      exact hp q i t' (List.append_inj' h rfl).1

/-- The node has its own `children_` array, or got none and has no child. -/
def OwnArray (s : FsState) (p : NodePtr) : Prop :=
  (s.nodes p).children = some p ∨ (s.nodes p).children = none ∧ (s.nodes p).childrenNum = 0

structure TreeOk (s : FsState) : Prop where
  root : (s.nodes []).type = .DIR
  dir : ∀ p, InTree s p → (s.nodes p).type = .DIR → OwnArray s p
  file : ∀ p, InTree s p → (s.nodes p).type = .FILE → (s.nodes p).childrenNum = 0
  bound : ∀ p, InTree s p → (s.nodes p).childrenNum ≤ maxFilesInDir
  fits : ∀ p, InTree s p → (s.nodes p).name.length + 1 ≤ maxFileNameLength
  names : ∀ p i j, InTree s p → i < j → j < (s.nodes p).childrenNum →
    ¬ (s.nodes (p ++ [j])).name <+: (s.nodes (p ++ [i])).name

/-! ### Steps that do not change the shape of the tree -/

/-- The nodes agree in everything the lookups read. -/
def SameShape (s s' : FsState) : Prop :=
  ∀ p, (s'.nodes p).type = (s.nodes p).type ∧ (s'.nodes p).name = (s.nodes p).name ∧
    (s'.nodes p).children = (s.nodes p).children ∧
    (s'.nodes p).childrenNum = (s.nodes p).childrenNum

theorem SameShape.inTree {s s' : FsState} (h : SameShape s s') {p : NodePtr} :
    InTree s' p ↔ InTree s p := by
  simp only [InTree, (h _).2.2.2]

theorem SameShape.treeOk {s s' : FsState} (h : SameShape s s') (hs : TreeOk s) : TreeOk s' where
  root := by rw [(h _).1]; exact hs.root
  dir p hp hd := by
    rw [OwnArray, (h p).2.2.1, (h p).2.2.2]; exact hs.dir p (h.inTree.mp hp) ((h p).1 ▸ hd)
  file p hp hf := by
    rw [(h p).2.2.2]; exact hs.file p (h.inTree.mp hp) ((h p).1 ▸ hf)
  bound p hp := by
    rw [(h p).2.2.2]; exact hs.bound p (h.inTree.mp hp)
  fits p hp := by
    rw [(h p).2.1]; exact hs.fits p (h.inTree.mp hp)
  names p i j hp hij hj := by
    rw [(h _).2.1, (h _).2.1]
    exact hs.names p i j (h.inTree.mp hp) hij ((h p).2.2.2 ▸ hj)

/-- Replacing one node by one of the same shape. -/
theorem sameShape_update {s s' : FsState} {p : NodePtr} {n : FsNode}
    (hs : s'.nodes = Function.update s.nodes p n) (ht : n.type = (s.nodes p).type)
    (hn : n.name = (s.nodes p).name) (hc : n.children = (s.nodes p).children)
    (hk : n.childrenNum = (s.nodes p).childrenNum) : SameShape s s' := by
  intro q
  rw [hs]
  by_cases hq : q = p
  · subst hq; simp [ht, hn, hc, hk]
  · simp [Function.update_of_ne hq]

theorem sameShape_setOpened (s : FsState) (p : NodePtr) (b : Bool) :
    SameShape s (s.setOpened p b) :=
  sameShape_update rfl rfl rfl rfl rfl

theorem setOpened_listHead (s : FsState) (p q : NodePtr) (b : Bool) :
    ((s.setOpened p b).nodes q).listHead = (s.nodes q).listHead := by
  by_cases hq : q = p
  · subst hq; simp [FsState.setOpened]
  · simp [FsState.setOpened, Function.update_of_ne hq]

/-! ### Adding a child -/

section
variable {s : FsState} {dir : NodePtr} {name : CString} {type : NodeType}

/-- The state after a child of `dir` has been added, with `dir`'s own array. -/
def FsState.withChild (s : FsState) (memAlloc : MemAlloc) (dir : NodePtr) (name : CString)
    (type : NodeType) : FsState :=
  { s with nodes := addedChild memAlloc s dir dir name type }

/-- The slot that the new child takes. -/
def FsState.slot (s : FsState) (dir : NodePtr) : NodePtr := dir ++ [(s.nodes dir).childrenNum]

theorem withChild_slot : (s.withChild memAlloc dir name type).nodes (s.slot dir) =
    freshNode memAlloc (s.slot dir) name type := by
  simp [FsState.withChild, addedChild, FsState.slot]

theorem withChild_dir : (s.withChild memAlloc dir name type).nodes dir =
    { s.nodes dir with childrenNum := (s.nodes dir).childrenNum + 1 } := by
  simp [FsState.withChild, addedChild]

theorem withChild_other {p : NodePtr} (hs : p ≠ s.slot dir) (hd : p ≠ dir) :
    (s.withChild memAlloc dir name type).nodes p = s.nodes p := by
  rw [FsState.slot] at hs
  simp only [FsState.withChild, addedChild, Function.update_of_ne hs, Function.update_of_ne hd]

theorem slot_not_inTree : ¬ InTree s (s.slot dir) := fun h =>
  absurd (inTree_concat.mp h).2 (lt_irrefl _)

/-- Adding a child changes no name of a node in use. -/
theorem withChild_name {p : NodePtr} (hp : InTree s p) :
    ((s.withChild memAlloc dir name type).nodes p).name = (s.nodes p).name := by
  have hslot : p ≠ s.slot dir := fun e => slot_not_inTree (e ▸ hp)
  by_cases hd : p = dir
  · rw [hd, withChild_dir]
  · rw [withChild_other hslot hd]

/-- The nodes in use are the old ones and the new one. -/
theorem inTree_withChild (hd : InTree s dir) {p : NodePtr} :
    InTree (s.withChild memAlloc dir name type) p ↔ InTree s p ∨ p = s.slot dir := by
  induction p using List.reverseRecOn with
  | nil => simp [inTree_root]
  | append_singleton q j ih =>
    rw [inTree_concat, inTree_concat, ih]
    by_cases hq : q = dir
    · subst hq
      simp only [withChild_dir, FsState.slot, List.append_cancel_left_eq, List.cons.injEq, and_true,
        hd, true_or, true_and]
      omega
    · by_cases hs : q = s.slot dir
      · subst hs
        have hne : s.slot dir ++ [j] ≠ s.slot dir := by simp
        simp [withChild_slot, freshNode, slot_not_inTree, hne]
      · have hne : q ++ [j] ≠ s.slot dir := fun h => hq (List.append_inj' h rfl).1
        simp [withChild_other hs hq, hs, hne]

theorem TreeOk.withChild (hs : TreeOk s) (hd : InTree s dir) (hdir : (s.nodes dir).type = .DIR)
    (harray : (s.nodes dir).children = some dir)
    (hn : (s.nodes dir).childrenNum < maxFilesInDir) (hlen : name.length + 1 ≤ maxFileNameLength)
    (hnew : ∀ i < (s.nodes dir).childrenNum, ¬ name <+: (s.nodes (dir ++ [i])).name) :
    TreeOk (s.withChild memAlloc dir name type) := by
  -- a node in use is the new one, the directory, or another old one
  have cases : ∀ p, InTree (s.withChild memAlloc dir name type) p →
      p = s.slot dir ∨ p = dir ∨ (p ≠ dir ∧ InTree s p ∧
        (s.withChild memAlloc dir name type).nodes p = s.nodes p) := by
    intro p hp
    rcases (inTree_withChild hd).mp hp with h | h
    · by_cases hpd : p = dir
      · exact Or.inr (Or.inl hpd)
      · have hps : p ≠ s.slot dir := fun e => slot_not_inTree (e ▸ h)
        exact Or.inr (Or.inr ⟨hpd, h, withChild_other hps hpd⟩)
    · exact Or.inl h
  have hroot : (s.withChild memAlloc dir name type).nodes [] = s.nodes [] ∨ [] = dir := by
    rcases cases [] (inTree_root _) with h | h | h
    · simp [FsState.slot] at h
    · exact Or.inr h
    · exact Or.inl h.2.2
  constructor
  · rcases hroot with h | h
    · rw [h]; exact hs.root
    · subst h; rw [withChild_dir]; exact hs.root
  · intro p hp hpd
    rcases cases p hp with rfl | rfl | ⟨-, h, he⟩
    · rw [OwnArray, withChild_slot]
      rw [withChild_slot] at hpd
      by_cases hgot : memAlloc.children = true
      · exact Or.inl (if_pos ⟨hpd, hgot⟩)
      · exact Or.inr ⟨if_neg fun h => hgot h.2, rfl⟩
    · rw [OwnArray, withChild_dir]; exact Or.inl harray
    · rw [OwnArray, he]; rw [he] at hpd; exact hs.dir p h hpd
  · intro p hp hpf
    rcases cases p hp with rfl | rfl | ⟨-, h, he⟩
    · rw [withChild_slot]; rfl
    · rw [withChild_dir] at hpf
      simp only [hdir] at hpf; cases hpf
    · rw [he] at hpf ⊢; exact hs.file p h hpf
  · intro p hp
    rcases cases p hp with rfl | rfl | ⟨-, h, he⟩
    · rw [withChild_slot]; exact Nat.zero_le _
    · rw [withChild_dir]; exact hn
    · rw [he]; exact hs.bound p h
  · intro p hp
    rcases cases p hp with rfl | rfl | ⟨-, h, he⟩
    · rw [withChild_slot]; exact hlen
    · rw [withChild_dir]; exact hs.fits p hd
    · rw [he]; exact hs.fits p h
  · intro p i j hp hij hj
    rcases cases p hp with rfl | rfl | ⟨hpd, h, he⟩
    · rw [withChild_slot] at hj
      exact absurd hj (Nat.not_lt_zero _)
    · rw [withChild_dir] at hj
      simp only at hj
      have old : ∀ k < (s.nodes p).childrenNum,
          (s.withChild memAlloc p name type).nodes (p ++ [k]) = s.nodes (p ++ [k]) := by
        intro k hk
        refine withChild_other (fun e => ?_) (by simp)
        have : k = (s.nodes p).childrenNum := by simpa [FsState.slot] using e
        omega
      rw [old i (by omega)]
      by_cases hjn : j < (s.nodes p).childrenNum
      · rw [old j hjn]; exact hs.names p i j hd hij hjn
      · obtain rfl : j = (s.nodes p).childrenNum := by omega
        have hslot : (s.withChild memAlloc p name type).nodes (s.slot p) =
            freshNode memAlloc (s.slot p) name type := withChild_slot
        rw [FsState.slot] at hslot
        rw [hslot]
        exact hnew i hij
    · rw [he] at hj
      have old : ∀ k, (s.withChild memAlloc dir name type).nodes (p ++ [k]) = s.nodes (p ++ [k]) ∨
          p ++ [k] = dir := by
        intro k
        by_cases hk : p ++ [k] = dir
        · exact Or.inr hk
        · exact Or.inl (withChild_other (fun e => hpd (List.append_inj' e rfl).1) hk)
      have same : ∀ k, ((s.withChild memAlloc dir name type).nodes (p ++ [k])).name =
          (s.nodes (p ++ [k])).name := by
        intro k
        rcases old k with e | e
        · rw [e]
        · rw [e, withChild_dir]
      rw [same i, same j]
      exact hs.names p i j h hij hj

end

/-! ### Lookups -/

/-- The search loop in a directory of a well-formed tree. -/
theorem OwnArray.findChild {s : FsState} {dir : NodePtr} (hc : OwnArray s dir) (level : CString) :
    findChild s dir (some level) = .ok (((List.range (s.nodes dir).childrenNum).find? fun j =>
      streq level (s.nodes (dir ++ [j])).name).map fun j => dir ++ [j]) := by
  unfold FileSystem.findChild
  rcases hc with hc | ⟨hc, hzero⟩
  · rw [hc]
  · rw [hc, hzero]; rfl

/-- Without a string nothing is found, and without children nothing is missed. -/
theorem findChild_unwritten (s : FsState) (dir : NodePtr) :
    findChild s dir none = if (s.nodes dir).childrenNum = 0 then .ok none else .error .fault := by
  unfold findChild
  cases (s.nodes dir).children <;> rfl

/-- The child found is the first whose name the component is a prefix of. -/
theorem OwnArray.findChild_eq_some {s : FsState} {dir p : NodePtr} (hc : OwnArray s dir)
    {level : CString} :
    FileSystem.findChild s dir (some level) = .ok (some p) ↔ ∃ j < (s.nodes dir).childrenNum,
      level <+: (s.nodes (dir ++ [j])).name ∧
      (∀ i < j, ¬ level <+: (s.nodes (dir ++ [i])).name) ∧ p = dir ++ [j] := by
  rw [hc.findChild]
  simp only [Except.ok.injEq, Option.map_eq_some_iff, List.find?_range_eq_some, streq_iff]
  constructor
  · rintro ⟨j, ⟨hpre, hj, hmin⟩, rfl⟩
    exact ⟨j, List.mem_range.mp hj, hpre, fun i hi => by simpa [← streq_iff] using hmin i hi, rfl⟩
  · rintro ⟨j, hj, hpre, hmin, rfl⟩
    exact ⟨j, ⟨hpre, List.mem_range.mpr hj, fun i hi => by simpa [← streq_iff] using hmin i hi⟩, rfl⟩

/-- Nothing is found when the component is a prefix of no child's name. -/
theorem OwnArray.findChild_eq_none {s : FsState} {dir : NodePtr} (hc : OwnArray s dir)
    {level : CString} :
    FileSystem.findChild s dir (some level) = .ok none ↔ ∀ j < (s.nodes dir).childrenNum,
      ¬ level <+: (s.nodes (dir ++ [j])).name := by
  rw [hc.findChild]
  simp [streq_iff]

/-- A child is only found for a string. -/
theorem TreeOk.findChild_found {s : FsState} (hs : TreeOk s) {dir p : NodePtr}
    {level : Option CString} (hin : InTree s dir) (hdir : (s.nodes dir).type = .DIR)
    (h : findChild s dir level = .ok (some p)) : ∃ j < (s.nodes dir).childrenNum, p = dir ++ [j] := by
  cases level with
  | none =>
    rw [findChild_unwritten] at h
    split at h <;> cases h
  | some level =>
    obtain ⟨j, hj, -, -, hp⟩ := (hs.dir dir hin hdir).findChild_eq_some.mp h
    exact ⟨j, hj, hp⟩

/-- The descent goes down one child for each level. -/
theorem descend_inTree {s : FsState} (hs : TreeOk s) : ∀ {levels : List (Option CString)}
    {cur p : NodePtr}, InTree s cur → descend s cur levels = .ok p →
      InTree s p ∧ ∃ t, p = cur ++ t ∧ t.length = levels.length
  | [], cur, p, hcur, h => by
      cases h
      exact ⟨hcur, [], by simp, rfl⟩
  | level :: levels, cur, p, hcur, h => by
      simp only [descend, bind_eq_ok, bugOn_eq_ok, not_not] at h
      obtain ⟨-, hdir, found, hf, h⟩ := h
      cases found with
      | none => cases h
      | some q =>
        obtain ⟨j, hj, rfl⟩ := hs.findChild_found hcur hdir hf
        obtain ⟨hp, t, rfl, ht⟩ := descend_inTree hs (inTree_concat.mpr ⟨hcur, hj⟩) h
        exact ⟨hp, j :: t, by simp, by simp [ht]⟩

/-- What `find_node` does to a well-formed tree: it finds a node in use, or adds one. -/
theorem findNode_tree {s s' : FsState} (hs : TreeOk s) {memAlloc : MemAlloc} {name : CString}
    {type : NodeType} {p : NodePtr} (h : findNode memAlloc s name type = .ok (s', p)) :
    (s' = s ∧ InTree s p) ∨ ∃ dir last, InTree s dir ∧ (s.nodes dir).type = .DIR ∧
      (s.nodes dir).children = some dir ∧ (s.nodes dir).childrenNum < maxFilesInDir ∧
      last.length + 1 ≤ maxFileNameLength ∧
      (∀ i < (s.nodes dir).childrenNum, ¬ last <+: (s.nodes (dir ++ [i])).name) ∧
      p = s.slot dir ∧ s' = s.withChild memAlloc dir last type := by
  obtain ⟨levels, cur, -, hcur, hdir, hcase⟩ := findNode_eq_ok.mp h
  obtain ⟨hin, -⟩ := descend_inTree hs (inTree_root s) hcur
  have hc := hs.dir cur hin hdir
  rcases hcase with ⟨hf, rfl⟩ | ⟨hf, ha⟩
  · obtain ⟨j, hj, rfl⟩ := hs.findChild_found hin hdir hf
    exact Or.inl ⟨rfl, inTree_concat.mpr ⟨hin, hj⟩⟩
  · obtain ⟨a, last, hca, hlast, hn, hlen, hp, hs'⟩ := addChild_eq_ok.mp ha
    have hown : (s.nodes cur).children = some cur := by
      rcases hc with hc | ⟨hnone, -⟩
      · exact hc
      · rw [hnone] at hca; cases hca
    obtain rfl : cur = a := Option.some.inj (hown.symm.trans hca)
    rw [hlast] at hf
    exact Or.inr ⟨cur, last, hin, hdir, hown, hn, hlen, hc.findChild_eq_none.mp hf, hp, hs'⟩

/-- A lookup keeps the tree well formed and the nodes in use in use, and returns one. -/
theorem TreeOk.findNode {s s' : FsState} (hs : TreeOk s) {memAlloc : MemAlloc} {name : CString}
    {type : NodeType} {p : NodePtr} (h : findNode memAlloc s name type = .ok (s', p)) :
    TreeOk s' ∧ InTree s' p ∧ ∀ q, InTree s q → InTree s' q := by
  rcases findNode_tree hs h with ⟨rfl, hp⟩ | ⟨dir, last, hin, hdir, hown, hn, hlen, hnew, rfl, rfl⟩
  · exact ⟨hs, hp, fun q hq => hq⟩
  · exact ⟨hs.withChild hin hdir hown hn hlen hnew, (inTree_withChild hin).mpr (Or.inr rfl),
      fun q hq => (inTree_withChild hin).mpr (Or.inl hq)⟩

/-- A lookup takes no block from a node in use. -/
theorem TreeOk.findNode_listHead {s s' : FsState} (hs : TreeOk s) {memAlloc : MemAlloc}
    {name : CString} {type : NodeType} {p q : NodePtr}
    (h : FileSystem.findNode memAlloc s name type = .ok (s', p))
    (hq : InTree s q) : (s'.nodes q).listHead = (s.nodes q).listHead := by
  rcases findNode_tree hs h with ⟨rfl, -⟩ | ⟨dir, last, -, -, -, -, -, -, -, rfl⟩
  · rfl
  · have hslot : q ≠ s.slot dir := fun e => slot_not_inTree (e ▸ hq)
    by_cases hd : q = dir
    · subst hd; rw [withChild_dir]
    · rw [withChild_other hslot hd]

/-! ### Client runs -/

/-- `init_file_system` leaves a root directory, and no other node in use. -/
theorem initFileSystem_root {garbage : BlockPtr → ℕ → UInt8} {n : ℕ} {s : FsState}
    (h : initFileSystem garbage n = .ok s) : s.nodes [] = freshNode .always [] [slash] .DIR ∧
      ∀ p, InTree s p → p = [] := by
  rw [initFileSystem_eq] at h
  cases h
  refine ⟨by simp, fun p hp => ?_⟩
  cases p with
  | nil => rfl
  | cons j t => simpa [freshNode] using hp [] j t rfl

theorem initFileSystem_tree {garbage : BlockPtr → ℕ → UInt8} {n : ℕ} {s : FsState}
    (h : initFileSystem garbage n = .ok s) : TreeOk s := by
  obtain ⟨hroot, honly⟩ := initFileSystem_root h
  constructor
  · rw [hroot]; rfl
  · intro p hp _; rw [OwnArray, honly p hp, hroot]; exact Or.inl rfl
  · intro p hp; rw [honly p hp, hroot]; intro hf; cases hf
  · intro p hp; rw [honly p hp, hroot]; exact Nat.zero_le _
  · intro p hp; rw [honly p hp, hroot]; decide
  · intro p i j hp _ hj
    rw [honly p hp, hroot] at hj
    exact absurd hj (Nat.not_lt_zero j)

/-- A write keeps the shape of the tree. -/
theorem writeFile_sameShape {s s' : FsState} {p : NodePtr} {offset dataBegin n : ℕ} {mem : Mem}
    (h : writeFile s p offset mem dataBegin n = .ok s') : SameShape s s' := by
  obtain ⟨t, b, ht, hw⟩ := writeFile_eq_ok h
  refine sameShape_update ((writeToBlock_nodes hw).trans ht.nodes) ?_ ?_ ?_ ?_ <;> simp

/-- What a client relies on: a well-formed tree, and handles that are nodes in use. -/
structure Client.Ok (c : Client) : Prop where
  tree : TreeOk c.fs
  files : ∀ p ∈ c.files, InTree c.fs p

theorem Client.file_eq_ok {c : Client} {i : ℕ} {p : NodePtr} :
    c.file i = .ok p ↔ c.files[i]? = some p := by
  rw [Client.file]
  cases c.files[i]? with
  | none => simp
  | some q => simp

/-- What one call does: it looks a path up and may open it, sets a flag, or writes a file. -/
theorem Client.step_cases {c c' : Client} {op : FsOp} (h : c.step op = .ok c') :
    (∃ memAlloc name p t, op = .open memAlloc name ∧ findNode memAlloc c.fs name .FILE = .ok (t, p) ∧
      c' = ⟨t.setOpened p true, c.files ++ [p]⟩) ∨
    (∃ i p, op = .close i ∧ p ∈ c.files ∧ c' = ⟨c.fs.setOpened p false, c.files⟩) ∨
    (∃ memAlloc name p t, (op = .mkdir memAlloc name ∨ op = .readdir memAlloc name) ∧
      findNode memAlloc c.fs name .DIR = .ok (t, p) ∧ c' = ⟨t, c.files⟩) ∨
    (∃ i offset mem dataBegin n, op = .read i offset mem dataBegin n ∧ c' = c) ∨
    (∃ i p offset mem dataBegin n t, op = .write i offset mem dataBegin n ∧ p ∈ c.files ∧
      c.file i = .ok p ∧ writeFile c.fs p offset mem dataBegin n = .ok t ∧ c' = ⟨t, c.files⟩) := by
  cases op with
  | «open» memAlloc name =>
    obtain ⟨⟨s, p⟩, ho, h⟩ := bind_eq_ok.mp h
    obtain ⟨t, hf, -, rfl⟩ := openFile_eq_ok.mp ho
    cases h
    exact Or.inl ⟨memAlloc, name, p, t, rfl, hf, rfl⟩
  | close i =>
    obtain ⟨p, hp, h⟩ := bind_eq_ok.mp h
    cases h
    exact Or.inr (Or.inl ⟨i, p, rfl, List.mem_of_getElem? (Client.file_eq_ok.mp hp), rfl⟩)
  | mkdir memAlloc name =>
    obtain ⟨t, hm, h⟩ := bind_eq_ok.mp h
    obtain ⟨⟨u, p⟩, hf, hu⟩ := bind_eq_ok.mp hm
    cases hu
    cases h
    exact Or.inr (Or.inr (Or.inl ⟨memAlloc, name, p, t, Or.inl rfl, hf, rfl⟩))
  | readdir memAlloc name =>
    obtain ⟨⟨t, l⟩, hm, h⟩ := bind_eq_ok.mp h
    obtain ⟨⟨u, p⟩, hf, hu⟩ := bind_eq_ok.mp hm
    have htu : t = u := by
      simp only at hu
      split at hu
      · cases hu; rfl
      · split at hu
        · cases hu
        · split at hu
          · cases hu; rfl
          · cases hu
    cases h
    subst htu
    exact Or.inr (Or.inr (Or.inl ⟨memAlloc, name, p, t, Or.inr rfl, hf, rfl⟩))
  | read i offset mem dataBegin n =>
    obtain ⟨p, -, h⟩ := bind_eq_ok.mp h
    obtain ⟨r, -, h⟩ := bind_eq_ok.mp h
    cases h
    exact Or.inr (Or.inr (Or.inr (Or.inl ⟨i, offset, mem, dataBegin, n, rfl, rfl⟩)))
  | write i offset mem dataBegin n =>
    obtain ⟨p, hp, h⟩ := bind_eq_ok.mp h
    obtain ⟨t, hw, h⟩ := bind_eq_ok.mp h
    cases h
    exact Or.inr (Or.inr (Or.inr (Or.inr ⟨i, p, offset, mem, dataBegin, n, t, rfl,
      List.mem_of_getElem? (Client.file_eq_ok.mp hp), hp, hw, rfl⟩)))

/-- Every call keeps the tree well formed and the client's handles in use. -/
theorem Client.Ok.step {c c' : Client} (hc : c.Ok) {op : FsOp} (h : c.step op = .ok c') :
    c'.Ok := by
  have setOpened : ∀ {s : FsState} {p : NodePtr} {b : Bool}, TreeOk s →
      TreeOk (s.setOpened p b) := fun hs => (sameShape_setOpened _ _ _).treeOk hs
  have inTree_setOpened : ∀ {s : FsState} {p q : NodePtr} {b : Bool}, InTree s q →
      InTree (s.setOpened p b) q := fun hq => (sameShape_setOpened _ _ _).inTree.mpr hq
  rcases Client.step_cases h with ⟨_, name, p, t, -, hf, rfl⟩ | ⟨i, p, -, -, rfl⟩ |
    ⟨_, name, p, t, -, hf, rfl⟩ | ⟨i, _, _, _, _, -, rfl⟩ | ⟨i, p, _, _, _, _, t, -, -, -, hw, rfl⟩
  · obtain ⟨ht, hp, hkeep⟩ := hc.tree.findNode hf
    refine ⟨setOpened ht, fun q hq => inTree_setOpened ?_⟩
    rcases List.mem_append.mp hq with hq | hq
    · exact hkeep q (hc.files q hq)
    · rw [List.mem_singleton.mp hq]; exact hp
  · exact ⟨setOpened hc.tree, fun q hq => inTree_setOpened (hc.files q hq)⟩
  · obtain ⟨ht, -, hkeep⟩ := hc.tree.findNode hf
    exact ⟨ht, fun q hq => hkeep q (hc.files q hq)⟩
  · exact hc
  · have hsh := writeFile_sameShape hw
    exact ⟨hsh.treeOk hc.tree, fun q hq => hsh.inTree.mpr (hc.files q hq)⟩

theorem runClient_concat {garbage : BlockPtr → ℕ → UInt8} {blocks : ℕ} {ops : List FsOp}
    {op : FsOp} {c : Client} : runClient garbage blocks (ops ++ [op]) = .ok c ↔
      ∃ d, runClient garbage blocks ops = .ok d ∧ d.step op = .ok c := by
  simp only [runClient, bind_eq_ok, runOps_concat]
  constructor
  · rintro ⟨s, hs, d, hd, h⟩
    exact ⟨d, ⟨s, hs, hd⟩, h⟩
  · rintro ⟨d, ⟨s, hs, hd⟩, h⟩
    exact ⟨s, hs, d, hd, h⟩

/-- The run rule: what holds of the client that `init_file_system` leaves, and is kept by every call
    of the run, holds after every prefix of the run. -/
theorem runClient_induction {garbage : BlockPtr → ℕ → UInt8} {blocks : ℕ} {ops : List FsOp}
    {P : Client → Prop} (hinit : ∀ s, initFileSystem garbage blocks = .ok s → P ⟨s, []⟩)
    (hstep : ∀ ops' op c c', ops' ++ [op] <+: ops → runClient garbage blocks ops' = .ok c → P c →
      c.step op = .ok c' → P c') {ops' : List FsOp} {c : Client} (hops : ops' <+: ops)
    (h : runClient garbage blocks ops' = .ok c) : P c := by
  induction ops' using List.reverseRecOn generalizing c with
  | nil =>
    obtain ⟨s, hs, h⟩ := bind_eq_ok.mp h
    cases h
    exact hinit s hs
  | append_singleton ops' op ih =>
    obtain ⟨d, hd, h⟩ := runClient_concat.mp h
    exact hstep ops' op d c hops hd (ih ((List.prefix_append ops' [op]).trans hops) hd) h

/-- A run that returns has returned from each of its prefixes. -/
theorem runClient_prefix {garbage : BlockPtr → ℕ → UInt8} {blocks : ℕ} {ops' ops : List FsOp}
    {c : Client} (hops : ops' <+: ops) (h : runClient garbage blocks ops = .ok c) :
    ∃ d, runClient garbage blocks ops' = .ok d := by
  obtain ⟨rest, rfl⟩ := hops
  obtain ⟨s, hs, h⟩ := bind_eq_ok.mp h
  obtain ⟨d, hd, -⟩ := (runOps_append Client.step).mp h
  exact ⟨d, bind_eq_ok.mpr ⟨s, hs, hd⟩⟩

/-- In every state that a client's run reaches, the tree is well formed and the handles are in
    use. -/
theorem runClient_ok {garbage : BlockPtr → ℕ → UInt8} {blocks : ℕ} {ops : List FsOp} {c : Client}
    (h : runClient garbage blocks ops = .ok c) : c.Ok := by
  obtain ⟨s, hs, h⟩ := bind_eq_ok.mp h
  refine runOps_invariant Client.step (fun c op c' hc hstep => hc.step hstep) ?_ h
  exact ⟨initFileSystem_tree hs, fun p hp => by cases hp⟩

end FilesKernel.FileSystem
