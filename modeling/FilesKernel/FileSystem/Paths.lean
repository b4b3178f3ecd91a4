import FilesKernel.FileSystem.Lookup

/-! What a path resolves to.

    In a tree that a client can reach, every node is found again under its own path, if the path is
    seen whole, since no older sibling's name starts with its name. A name that starts the name of
    some child, without being one, is not added: `find_node` returns that child. -/

namespace FilesKernel.FileSystem
open CExec CWord

/-- At least one component, each non-empty, free of `/` and shorter than a `name_`. -/
def ValidPath (comps : List CString) : Prop :=
  comps ≠ [] ∧ ∀ c ∈ comps, c ≠ [] ∧ slash ∉ c ∧ c.length < maxFileNameLength

/-- The names met on the way from one node down to another. -/
def pathNames (s : FsState) : NodePtr → NodePtr → List CString
  | _, [] => []
  | cur, j :: t => (s.nodes (cur ++ [j])).name :: pathNames s (cur ++ [j]) t

/-- The node is in use and its chain of names from the root is `comps`. -/
def Named (s : FsState) (p : NodePtr) (comps : List CString) : Prop :=
  InTree s p ∧ pathNames s [] p = comps

/-- Every proper prefix of the path names a directory that is not full. -/
def PrefixDirs (s : FsState) (comps : List CString) : Prop :=
  ∀ k < comps.length, ∃ d, Named s d (comps.take k) ∧ (s.nodes d).type = .DIR ∧
    (s.nodes d).childrenNum < maxFilesInDir

/-- `s'` is `s` with one node `p` of the given name and type added to the directory `d`. -/
structure AddedOne (memAlloc : MemAlloc) (s s' : FsState) (d p : NodePtr) (name : CString)
    (type : NodeType) : Prop where
  new : ¬ InTree s p
  nodes : ∀ q, InTree s' q ↔ InTree s q ∨ q = p
  node : s'.nodes p = freshNode memAlloc p name type
  dir : s'.nodes d = { s.nodes d with childrenNum := (s.nodes d).childrenNum + 1 }
  others : ∀ q, q ≠ p → q ≠ d → s'.nodes q = s.nodes q
  blocks : s'.blocks = s.blocks ∧ s'.fsDescriptorsHead = s.fsDescriptorsHead

/-- `find_node` returns the node that the path names and changes nothing, or, when there is none,
    adds it and nothing else. -/
structure ResolvesRight (memAlloc : MemAlloc) (s : FsState) (comps : List CString)
    (type : NodeType) : Prop where
  found : ∀ p, Named s p comps → findNode memAlloc s (joinPath comps) type = .ok (s, p)
  added : (∀ p, ¬ Named s p comps) → ∃ s' d p,
    findNode memAlloc s (joinPath comps) type = .ok (s', p) ∧ Named s d comps.dropLast ∧
    Named s' p comps ∧ AddedOne memAlloc s s' d p (comps.getLast?.getD []) type

/-- The path names a node, or its last component starts no name in the directory before it, which
    got its array. -/
def Unshadowed (s : FsState) (comps : List CString) : Prop :=
  (∃ p, Named s p comps) ∨ ∀ d, Named s d comps.dropLast → (s.nodes d).children ≠ none ∧
    ∀ j < (s.nodes d).childrenNum, ¬ comps.getLast?.getD [] <+: (s.nodes (d ++ [j])).name

/-- The length of the path is kept in an `int`, its levels get their memory, and no name shadows it. -/
structure Resolvable (memAlloc : MemAlloc) (s : FsState) (comps : List CString) : Prop where
  short : (joinPath comps).length < 2 ^ 31
  served : memAlloc.Serves comps.length
  unshadowed : Unshadowed s comps

theorem ValidPath.pathOf {comps : List CString} (hv : ValidPath comps) :
    PathOf (joinPath comps) comps :=
  ⟨hv.1, fun c hc => ⟨(hv.2 c hc).1, (hv.2 c hc).2.1⟩, rfl⟩

/-! ### Names -/

theorem pathNames_concat (s : FsState) (j : ℕ) : ∀ (t cur : NodePtr),
    pathNames s cur (t ++ [j]) = pathNames s cur t ++ [(s.nodes (cur ++ t ++ [j])).name]
  | [], cur => by simp [pathNames]
  | i :: t, cur => by
      rw [List.cons_append, pathNames, pathNames, pathNames_concat s j t (cur ++ [i])]
      simp

theorem pathNames_length (s : FsState) : ∀ (t cur : NodePtr),
    (pathNames s cur t).length = t.length
  | [], _ => rfl
  | i :: t, cur => by rw [pathNames, List.length_cons, pathNames_length s t, List.length_cons]

/-- The root is the node without names. -/
theorem named_nil {s : FsState} {p : NodePtr} : Named s p [] ↔ p = [] := by
  constructor
  · rintro ⟨-, hn⟩
    rw [← List.length_eq_zero_iff, ← pathNames_length s p [], hn]
    rfl
  · rintro rfl
    exact ⟨inTree_root s, rfl⟩

/-- Every node above a node in use is a directory in use. -/
theorem TreeOk.above {s : FsState} (hs : TreeOk s) {p t : NodePtr} {j : ℕ}
    (h : InTree s (p ++ j :: t)) : InTree s p ∧ (s.nodes p).type = .DIR ∧
      j < (s.nodes p).childrenNum := by
  have hp : InTree s p := fun q i u hq => h q i (u ++ j :: t) (by rw [hq]; simp)
  have hj : j < (s.nodes p).childrenNum := h p j t rfl
  refine ⟨hp, ?_, hj⟩
  cases ht : (s.nodes p).type with
  | DIR => rfl
  | FILE => rw [hs.file p hp ht] at hj; exact absurd hj (Nat.not_lt_zero j)

/-- The names of a node in use lead to that node. -/
theorem TreeOk.leads_names {s : FsState} (hs : TreeOk s) : ∀ (t cur : NodePtr),
    InTree s (cur ++ t) → Leads s cur ((pathNames s cur t).map some) (cur ++ t)
  | [], cur, _ => by
      rw [List.append_nil]
      exact .here cur
  | j :: t, cur, h => by
      obtain ⟨hp, hdir, hj⟩ := hs.above h
      have hrest := hs.leads_names t (cur ++ [j]) (by simpa using h)
      rw [List.append_assoc, List.singleton_append] at hrest
      exact .down hdir ⟨hj, List.prefix_refl _, fun i hi => hs.names cur i j hp hi hj⟩ hrest

theorem Named.leads {s : FsState} (hs : TreeOk s) {p : NodePtr} {comps : List CString}
    (h : Named s p comps) : Leads s [] (comps.map some) p := by
  have hl := hs.leads_names p [] h.1
  rw [h.2] at hl
  exact hl

theorem Named.length {s : FsState} {p : NodePtr} {comps : List CString} (h : Named s p comps) :
    p.length = comps.length := by
  rw [← h.2, pathNames_length]

/-- Levels lead to at most one node. -/
theorem Leads.unique {s : FsState} (hs : TreeOk s) {levels : List (Option CString)}
    {p q : NodePtr} (hp : Leads s [] levels p) (hq : Leads s [] levels q) : p = q := by
  have h₁ := (hs.descend_eq_ok (inTree_root s)).mpr hp
  rw [(hs.descend_eq_ok (inTree_root s)).mpr hq] at h₁
  exact (Except.ok.inj h₁).symm

/-- At most one node has a given chain of names. -/
theorem Named.unique {s : FsState} (hs : TreeOk s) {p q : NodePtr} {comps : List CString}
    (hp : Named s p comps) (hq : Named s q comps) : p = q := (hp.leads hs).unique hs (hq.leads hs)

/-- A node with a chain of names ending in `name` is a child, of that name, of the node before. -/
theorem named_concat {s : FsState} {p : NodePtr} {comps : List CString} {name : CString} :
    Named s p (comps ++ [name]) ↔ ∃ d j, p = d ++ [j] ∧ Named s d comps ∧
      j < (s.nodes d).childrenNum ∧ (s.nodes (d ++ [j])).name = name := by
  constructor
  · rintro ⟨hp, hn⟩
    rcases List.eq_nil_or_concat p with rfl | ⟨d, j, rfl⟩
    · simp [pathNames] at hn
    · rw [List.concat_eq_append] at hp hn ⊢
      rw [pathNames_concat, List.nil_append] at hn
      obtain ⟨hd, hj⟩ := List.append_inj' hn rfl
      exact ⟨d, j, rfl, ⟨(inTree_concat.mp hp).1, hd⟩, (inTree_concat.mp hp).2, List.singleton_inj.mp hj⟩
  · rintro ⟨d, j, rfl, ⟨hd, hn⟩, hj, hname⟩
    exact ⟨inTree_concat.mpr ⟨hd, hj⟩, by rw [pathNames_concat, hn, List.nil_append, hname]⟩

/-- Adding a child changes no name of a node in use. -/
theorem pathNames_withChild {s : FsState} {memAlloc : MemAlloc} {dir : NodePtr} {name : CString}
    {type : NodeType} : ∀ (t cur : NodePtr), InTree s (cur ++ t) →
      pathNames (s.withChild memAlloc dir name type) cur t = pathNames s cur t
  | [], _, _ => rfl
  | j :: t, cur, h => by
      have hj : InTree s (cur ++ [j]) := fun q i u hq => h q i (u ++ t) (by
        have : cur ++ j :: t = (cur ++ [j]) ++ t := by simp
        rw [this, hq]; simp)
      have hslot : cur ++ [j] ≠ s.slot dir := fun e => slot_not_inTree (e ▸ hj)
      rw [pathNames, pathNames, pathNames_withChild t (cur ++ [j]) (by simpa using h)]
      by_cases hd : cur ++ [j] = dir
      · rw [hd, withChild_dir]
      · rw [withChild_other hslot hd]

theorem Named.withChild {s : FsState} {memAlloc : MemAlloc} {dir p : NodePtr} {name : CString}
    {type : NodeType} {comps : List CString} (hd : InTree s dir) (h : Named s p comps) :
    Named (s.withChild memAlloc dir name type) p comps :=
  ⟨(inTree_withChild hd).mpr (Or.inl h.1), by rw [pathNames_withChild p [] h.1, h.2]⟩

/-- A lookup changes no name. -/
theorem Named.findNode {s s' : FsState} (hs : TreeOk s) {memAlloc : MemAlloc} {name : CString}
    {type : NodeType} {p q : NodePtr} {comps : List CString} (hq : Named s q comps)
    (h : findNode memAlloc s name type = .ok (s', p)) : Named s' q comps := by
  rcases findNode_tree hs h with ⟨rfl, -⟩ | ⟨dir, last, hd, -, -, -, -, -, -, rfl⟩
  · exact hq
  · exact hq.withChild hd

/-! ### Resolution -/

section
variable {memAlloc : MemAlloc} {s s' : FsState} {comps : List CString} {name : CString}
  {fileName : CString} {type : NodeType} {d p : NodePtr}

/-- The directory that the path without its last component names. -/
theorem PrefixDirs.parent (h : PrefixDirs s (comps ++ [name])) : ∃ d, Named s d comps ∧
    (s.nodes d).type = .DIR ∧ (s.nodes d).childrenNum < maxFilesInDir := by
  simpa using h comps.length (by simp)

/-- A node that the path names is found, since no older sibling's name starts with its name. -/
theorem found_of_named (hs : TreeOk s) (hpath : PathOf fileName comps)
    (hlen : fileName.length < 2 ^ 31) (hm : memAlloc.Serves comps.length) (hn : Named s p comps)
    (type : NodeType) : findNode memAlloc s fileName type = .ok (s, p) := by
  refine findNode_leads hs ⟨(hpath.splits_iff hlen).mpr hm, ?_⟩ type
  obtain ⟨pre, last, rfl⟩ : ∃ pre last, comps = pre ++ [last] :=
    ⟨_, _, (List.dropLast_concat_getLast hpath.some_comp).symm⟩
  obtain ⟨habove, hlast⟩ := hpath.levelsOf_eq hlen
  have hl := hn.leads hs
  rw [List.map_append, List.map_singleton] at hl
  rw [habove, hlast]
  exact hl

/-- A name that starts no name in the directory is added. -/
theorem needsChild_of_path (hs : TreeOk s) (hpath : PathOf fileName (comps ++ [name]))
    (hlen : fileName.length < 2 ^ 31) (hm : memAlloc.Serves (comps ++ [name]).length)
    (hd : Named s d comps) (hdir : (s.nodes d).type = .DIR)
    (hfree : ∀ j < (s.nodes d).childrenNum, ¬ name <+: (s.nodes (d ++ [j])).name) :
    NeedsChild memAlloc s fileName d name := by
  obtain ⟨habove, hlast⟩ := hpath.levelsOf_eq hlen
  exact ⟨(hpath.splits_iff hlen).mpr hm, habove ▸ hd.leads hs, hdir, hlast, hfree⟩

/-- The new child has the path for its name, and is all that is new. -/
theorem addedOne_withChild (memAlloc : MemAlloc) (name : CString) (type : NodeType)
    (hd : Named s d comps) :
    Named (s.withChild memAlloc d name type) (s.slot d) (comps ++ [name]) ∧
      AddedOne memAlloc s (s.withChild memAlloc d name type) d (s.slot d) name type := by
  have hslot : (s.withChild memAlloc d name type).nodes (d ++ [(s.nodes d).childrenNum]) =
      freshNode memAlloc (s.slot d) name type := withChild_slot
  constructor
  · refine named_concat.mpr ⟨d, _, rfl, hd.withChild hd.1, ?_, ?_⟩
    · rw [withChild_dir]; exact Nat.lt_succ_self _
    · rw [hslot]; rfl
  · exact ⟨slot_not_inTree, fun q => inTree_withChild hd.1, withChild_slot, withChild_dir,
      fun q hq hqd => withChild_other hq hqd, rfl, rfl⟩

/-- A path with short components that comes to a node of its own depth is seen whole. -/
theorem seen_of_returned (hs : TreeOk s) (hpath : PathOf fileName comps)
    (hshort : ∀ c ∈ comps, c.length < maxFileNameLength)
    (hf : findNode memAlloc s fileName type = .ok (s', p)) (hdepth : p.length = comps.length) :
    fileName.length < 2 ^ 31 ∧ memAlloc.Serves comps.length := by
  obtain ⟨hsplits, hle⟩ := findNode_length hs hf
  have hlen := hpath.lt_of_le hshort (hdepth ▸ hle)
  exact ⟨hlen, (hpath.splits_iff hlen).mp hsplits⟩

/-- When a path whose prefixes exist resolves as it should. -/
theorem resolvesRight_iff_resolvable (hs : TreeOk s) (memAlloc : MemAlloc) (hv : ValidPath comps)
    (hp : PrefixDirs s comps) (type : NodeType) :
    ResolvesRight memAlloc s comps type ↔ Resolvable memAlloc s comps := by
  obtain ⟨pre, name, rfl⟩ : ∃ pre name, comps = pre ++ [name] :=
    ⟨_, _, (List.dropLast_concat_getLast hv.1).symm⟩
  have hlast : (pre ++ [name]).getLast?.getD [] = name := by simp
  have hshort : ∀ c ∈ pre ++ [name], c.length < maxFileNameLength := fun c hc => (hv.2 c hc).2.2
  obtain ⟨d, hd, hdir, hroom⟩ := hp.parent
  constructor
  · intro h
    by_cases hn : ∃ p, Named s p (pre ++ [name])
    · obtain ⟨p, hn⟩ := id hn
      obtain ⟨hlen, hm⟩ := seen_of_returned hs hv.pathOf hshort (h.found p hn) hn.length
      exact ⟨hlen, hm, Or.inl ⟨p, hn⟩⟩
    · rw [not_exists] at hn
      obtain ⟨s', e, p, hf, -, hnew, hadd⟩ := h.added hn
      obtain ⟨hlen, hm⟩ := seen_of_returned hs hv.pathOf hshort hf hnew.length
      refine ⟨hlen, hm, Or.inr fun e he => ?_⟩
      rw [List.dropLast_concat] at he
      obtain rfl := hd.unique hs he
      obtain ⟨habove, hlastLevel⟩ := hv.pathOf.levelsOf_eq hlen
      -- the lookup has not found an older node, so that it had room for a new one
      rcases findNode_returned hs hf with ⟨hl, -⟩ | ⟨dir, last, hneeds, hfits, -, -⟩
      · exact absurd (hs.leads_inTree hl.2) hadd.new
      · have hpre := hneeds.path
        rw [habove] at hpre
        obtain rfl := hpre.unique hs (hd.leads hs)
        have hsame := hneeds.isLast
        rw [hlastLevel] at hsame
        rw [hlast, Option.some.inj hsame]
        exact ⟨hfits.1, hneeds.absent⟩
  · rintro ⟨hlen, hm, hun⟩
    refine ⟨fun p hn => found_of_named hs hv.pathOf hlen hm hn type, fun hnone => ?_⟩
    rcases hun with ⟨p, hn⟩ | hfree
    · exact absurd hn (hnone p)
    · rw [List.dropLast_concat] at hfree ⊢
      rw [hlast] at hfree ⊢
      obtain ⟨harray, hfree⟩ := hfree d hd
      have hneeds := needsChild_of_path hs hv.pathOf hlen hm hd hdir hfree
      have hname : name.length + 1 ≤ maxFileNameLength := hshort name (by simp)
      obtain ⟨hnew, hadd⟩ := addedOne_withChild memAlloc name type hd
      refine ⟨_, d, _, ?_, hd, hnew, hadd⟩
      rw [findNode_needs hs hneeds, if_pos ⟨harray, hroom, hname⟩]

/-- A path that resolves as it should resolves to a node of its own names. -/
theorem ResolvesRight.named (h : ResolvesRight memAlloc s comps type)
    (hf : findNode memAlloc s (joinPath comps) type = .ok (s', p)) : Named s' p comps := by
  by_cases hn : ∃ q, Named s q comps
  · obtain ⟨q, hq⟩ := hn
    rw [h.found q hq] at hf
    cases hf
    exact hq
  · obtain ⟨t, _, q, hf', -, hq, -⟩ := h.added (not_exists.mp hn)
    rw [hf'] at hf
    cases hf
    exact hq

end

/-- In every directory tree that a client can reach, a path with existing prefixes resolves to its
    own node exactly when it is short, its levels get their memory, and that node exists or its last
    component starts no name in its directory; different paths that do so resolve to different
    nodes. -/
theorem resolvesRight_iff {garbage : BlockPtr → ℕ → UInt8} {blocks : ℕ} {ops : List FsOp}
    {c : Client} (hrun : runClient garbage blocks ops = .ok c) (memAlloc : MemAlloc)
    {comps : List CString} (hv : ValidPath comps) (hp : PrefixDirs c.fs comps) (type : NodeType) :
    (ResolvesRight memAlloc c.fs comps type ↔ Resolvable memAlloc c.fs comps) ∧
      ∀ memAlloc' comps' type' s s' p q, comps' ≠ comps → ValidPath comps' → PrefixDirs s comps' →
        Resolvable memAlloc c.fs comps → Resolvable memAlloc' s comps' →
        findNode memAlloc c.fs (joinPath comps) type = .ok (s, p) →
        findNode memAlloc' s (joinPath comps') type' = .ok (s', q) → q ≠ p := by
  have hs := (runClient_ok hrun).tree
  have hiff := resolvesRight_iff_resolvable hs memAlloc hv hp type
  refine ⟨hiff, ?_⟩
  rintro memAlloc' comps' type' s s' p q hne hv' hp' hu hu' hf hf' rfl
  have ht := (hs.findNode hf).1
  have hq' := ((resolvesRight_iff_resolvable ht memAlloc' hv' hp' type').mpr hu').named hf'
  have hq := ((hiff.mpr hu).named hf).findNode ht hf'
  exact hne (hq'.2.symm.trans hq.2)

/-- The directory `/d` with the file `/d/e` in it. -/
def besideRun : List FsOp :=
  [.mkdir .always [slash, 100], .open .always [slash, 100, slash, 101]]

/-- The path `/d/f` beside `/d/e`. -/
theorem resolvesRight_beside : ∃ c, runClient (fun _ _ => 0) 1 besideRun = .ok c ∧
    ResolvesRight .always c.fs [[100], [102]] .FILE := by
  have hrun : (do
      let c ← runClient (fun _ _ => 0) 1 besideRun
      let d := c.fs.nodes [0]
      .ok (((c.fs.nodes []).childrenNum, (c.fs.nodes []).type), (d.name, d.type, d.children.isSome),
        d.childrenNum, (c.fs.nodes [0, 0]).name) :
        Exec ((ℕ × NodeType) × (CString × NodeType × Bool) × ℕ × CString)) =
          .ok ((1, .DIR), ([100], .DIR, true), 1, [101]) := by decide +kernel
  obtain ⟨c, hc, hval⟩ := bind_eq_ok.mp hrun
  simp only [Except.ok.injEq, Prod.mk.injEq] at hval
  obtain ⟨⟨hnum, hroot⟩, ⟨hname, hdir, harray⟩, hone, hinner⟩ := hval
  have hs := (runClient_ok hc).tree
  have hd : Named c.fs [0] ([] ++ [[100]]) :=
    named_concat.mpr ⟨[], 0, rfl, named_nil.mpr rfl, by rw [hnum]; decide, hname⟩
  refine ⟨c, hc, ((resolvesRight_iff hc .always ⟨by decide, by decide⟩ ?_ .FILE).1).mpr
    ⟨by decide, MemAlloc.always_serves _, Or.inr fun e he => ?_⟩⟩
  · intro k hk
    rcases Nat.le_one_iff_eq_zero_or_eq_one.mp (Nat.le_of_lt_succ hk) with rfl | rfl
    · exact ⟨[], named_nil.mpr rfl, hroot, by rw [hnum]; decide⟩
    · exact ⟨[0], hd, hdir, by rw [hone]; decide⟩
  · obtain rfl := hd.unique hs he
    refine ⟨Option.ne_none_iff_isSome.mpr harray, fun j hj => ?_⟩
    rw [hone] at hj
    obtain rfl : j = 0 := Nat.lt_one_iff.mp hj
    rw [List.singleton_append, hinner]
    decide

/-- With a directory `/ab` in the tree the path `/a`, which names nothing, resolves to that
    directory, as `/ab` itself does. -/
theorem not_resolvesRight_prefix : ∃ c,
    runClient (fun _ _ => 0) 1 [.mkdir .always [slash, 97, 98]] = .ok c ∧
    ValidPath [[97]] ∧ PrefixDirs c.fs [[97]] ∧ ¬ ResolvesRight .always c.fs [[97]] .FILE ∧
    ∃ s s' p, findNode .always c.fs (joinPath [[97]]) .FILE = .ok (s, p) ∧
      findNode .always s (joinPath [[97, 98]]) .FILE = .ok (s', p) := by
  have hrun : (do
      let c ← runClient (fun _ _ => 0) 1 [.mkdir .always [slash, 97, 98]]
      let r ← findNode .always c.fs (joinPath [[97]]) .FILE
      let r' ← findNode .always r.1 (joinPath [[97, 98]]) .FILE
      .ok (r.2, r'.2, (c.fs.nodes []).childrenNum, (c.fs.nodes []).type, (c.fs.nodes [0]).name) :
        Exec (NodePtr × NodePtr × ℕ × NodeType × CString)) =
          .ok ([0], [0], 1, .DIR, [97, 98]) := by decide +kernel
  simp only [bind_eq_ok] at hrun
  obtain ⟨c, hc, ⟨s, p⟩, hf, ⟨s', q⟩, hf', hval⟩ := hrun
  simp only [Except.ok.injEq, Prod.mk.injEq] at hval
  obtain ⟨rfl, rfl, hnum, hdir, hname⟩ := hval
  have hs := (runClient_ok hc).tree
  have hv : ValidPath [[97]] := ⟨by decide, by decide⟩
  have hp : PrefixDirs c.fs [[97]] := by
    intro k hk
    obtain rfl : k = 0 := Nat.lt_one_iff.mp hk
    exact ⟨[], named_nil.mpr rfl, hdir, by rw [hnum]; decide⟩
  refine ⟨c, hc, hv, hp, fun h => ?_, s, s', [0], hf, hf'⟩
  rcases ((resolvesRight_iff_resolvable hs .always hv hp .FILE).mp h).unshadowed with ⟨r, hr⟩ | hfree
  · rw [← List.nil_append [[97]]] at hr
    obtain ⟨d, j, rfl, hd, hj, hn⟩ := named_concat.mp hr
    obtain rfl := named_nil.mp hd
    rw [hnum] at hj
    obtain rfl : j = 0 := Nat.lt_one_iff.mp hj
    rw [List.nil_append, hname] at hn
    exact absurd hn (by decide)
  · refine (hfree [] (named_nil.mpr rfl)).2 0 (by rw [hnum]; decide) ?_
    rw [List.nil_append, hname]
    decide

end FilesKernel.FileSystem
