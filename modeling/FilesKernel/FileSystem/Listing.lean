import FilesKernel.FileSystem.Paths

/-! What `readdir` lists.

    The list is built behind a sentinel on the stack, whose `next_` is set when the first child is
    appended. In a directory without children nothing sets it, and it is returned all the same. Each
    entry points to the name of a child, in memory that is not asked whether it was granted. -/

namespace FilesKernel.FileSystem
open CExec CWord

variable {s s' : FsState} {p dir : NodePtr} {memAlloc : MemAlloc} {name : CString} {type : NodeType}

/-- The children of `p`, in the order of `children_`. -/
def childNodes (s : FsState) (p : NodePtr) : List NodePtr :=
  (List.range (s.nodes p).childrenNum).map fun j => p ++ [j]

/-- Their names. -/
def childNames (s : FsState) (p : NodePtr) : List CString :=
  (childNodes s p).map fun q => (s.nodes q).name

/-- After the run `ops`, `readdir` returns the names of the children of `p` and changes nothing. The
    children stand in the order of their creation: at any earlier time, the list began with those
    that there were. -/
structure ListsChildren (garbage : BlockPtr → ℕ → UInt8) (blocks : ℕ) (ops : List FsOp)
    (memAlloc : MemAlloc) (s : FsState) (dirName : CString) (p : NodePtr) : Prop where
  listed : readdir memAlloc s dirName = .ok (s, some (childNodes s p))
  once : (childNames s p).Nodup
  order : ∀ ops' c', ops' <+: ops → runClient garbage blocks ops' = .ok c' → InTree c'.fs p →
    childNames c'.fs p <+: childNames s p

/-! ### Names in a directory -/

theorem childNames_eq (s : FsState) (p : NodePtr) : childNames s p =
    (List.range (s.nodes p).childrenNum).map fun j => (s.nodes (p ++ [j])).name := by
  rw [childNames, childNodes, List.map_map]
  rfl

theorem childNames_congr (hn : (s'.nodes p).childrenNum = (s.nodes p).childrenNum)
    (hname : ∀ j < (s.nodes p).childrenNum,
      (s'.nodes (p ++ [j])).name = (s.nodes (p ++ [j])).name) :
    childNames s' p = childNames s p := by
  rw [childNames_eq, childNames_eq, hn]
  exact List.map_congr_left fun j hj => hname j (List.mem_range.mp hj)

/-- No name in a directory is the name of an older child. -/
theorem TreeOk.childNames_nodup (hs : TreeOk s) (hp : InTree s p) : (childNames s p).Nodup := by
  rw [childNames_eq]
  refine (List.nodup_map_iff_inj_on List.nodup_range).mpr fun i hi j hj he => ?_
  rw [List.mem_range] at hi hj
  rcases Nat.lt_trichotomy i j with hij | hij | hij
  · exact absurd (he ▸ List.prefix_refl _) (hs.names p i j hp hij hj)
  · exact hij
  · exact absurd (he ▸ List.prefix_refl _) (hs.names p j i hp hij hi)

theorem SameShape.childNames (h : SameShape s s') (p : NodePtr) : childNames s' p = childNames s p :=
  childNames_congr (h p).2.2.2 fun _ _ => (h _).2.1

/-- The new child is the last of its directory. -/
theorem childNames_withChild (hd : InTree s dir) (hp : InTree s p) :
    childNames s p <+: childNames (s.withChild memAlloc dir name type) p := by
  have hslot : p ≠ s.slot dir := fun e => slot_not_inTree (e ▸ hp)
  have hnames : ∀ j < (s.nodes p).childrenNum,
      ((s.withChild memAlloc dir name type).nodes (p ++ [j])).name = (s.nodes (p ++ [j])).name :=
    fun j hj => withChild_name (inTree_concat.mpr ⟨hp, hj⟩)
  by_cases hpd : p = dir
  · subst hpd
    refine ⟨[((s.withChild memAlloc p name type).nodes (s.slot p)).name], ?_⟩
    rw [childNames_eq, childNames_eq, withChild_dir]
    simp only
    rw [List.range_succ, List.map_append]
    congr 1
    exact List.map_congr_left fun j hj => (hnames j (List.mem_range.mp hj)).symm
  · have hsame := childNames_congr (by rw [withChild_other hslot hpd]) hnames
    exact hsame ▸ List.prefix_refl _

/-! ### Runs -/

/-- Every call keeps a node in use in use, and its children where they are. -/
theorem Client.Ok.step_children {c c' : Client} (hc : c.Ok) {op : FsOp} (h : c.step op = .ok c')
    (hp : InTree c.fs p) : InTree c'.fs p ∧ childNames c.fs p <+: childNames c'.fs p := by
  have lookup : ∀ {memAlloc name type t q}, findNode memAlloc c.fs name type = .ok (t, q) →
      InTree t p ∧ childNames c.fs p <+: childNames t p := by
    intro memAlloc name type t q hf
    rcases findNode_tree hc.tree hf with ⟨rfl, -⟩ | ⟨d, last, hd, -, -, -, -, -, -, rfl⟩
    · exact ⟨hp, List.prefix_refl _⟩
    · exact ⟨(inTree_withChild hd).mpr (Or.inl hp), childNames_withChild hd hp⟩
  rcases Client.step_cases h with ⟨_, name, q, t, -, hf, rfl⟩ | ⟨i, q, -, -, rfl⟩ |
    ⟨_, name, q, t, -, hf, rfl⟩ | ⟨i, _, _, _, _, -, rfl⟩ | ⟨i, q, _, _, _, _, t, -, -, -, hw, rfl⟩
  · obtain ⟨hin, hpre⟩ := lookup hf
    have hsh := sameShape_setOpened t q true
    exact ⟨hsh.inTree.mpr hin, by rw [hsh.childNames]; exact hpre⟩
  · have hsh := sameShape_setOpened c.fs q false
    exact ⟨hsh.inTree.mpr hp, hsh.childNames p ▸ List.prefix_refl _⟩
  · exact lookup hf
  · exact ⟨hp, List.prefix_refl _⟩
  · have hsh := writeFile_sameShape hw
    exact ⟨hsh.inTree.mpr hp, hsh.childNames p ▸ List.prefix_refl _⟩

theorem runClient_children {garbage : BlockPtr → ℕ → UInt8} {blocks : ℕ} {ops' ops : List FsOp}
    {c' c : Client} (hops : ops' <+: ops) (h' : runClient garbage blocks ops' = .ok c')
    (h : runClient garbage blocks ops = .ok c) (hp : InTree c'.fs p) :
    childNames c'.fs p <+: childNames c.fs p := by
  obtain ⟨rest, rfl⟩ := hops
  have hok := runClient_ok h'
  obtain ⟨t, ht, h⟩ := bind_eq_ok.mp h
  obtain ⟨t', ht', h'⟩ := bind_eq_ok.mp h'
  rw [ht] at ht'
  cases ht'
  obtain ⟨d, hd, h⟩ := (runOps_append Client.step).mp h
  rw [h'] at hd
  cases hd
  let P (d : Client) : Prop := d.Ok ∧ InTree d.fs p ∧ childNames c'.fs p <+: childNames d.fs p
  have hrest : P c := by
    refine runOps_invariant Client.step (fun d op d' hd hstep => ?_) ⟨hok, hp, List.prefix_refl _⟩ h
    obtain ⟨hin, hpre⟩ := hd.1.step_children hstep hd.2.1
    exact ⟨hd.1.step hstep, hin, hd.2.2.trans hpre⟩
  exact hrest.2.2

/-! ### Listing -/

/-- The path is seen whole, its levels get their memory, and so does an entry for each child, of which
    there are some. -/
structure Listable (memAlloc : MemAlloc) (s : FsState) (dirName : CString) (p : NodePtr) :
    Prop where
  short : dirName.length < 2 ^ 31
  served : memAlloc.Serves p.length
  some_child : (s.nodes p).childrenNum ≠ 0
  entries : ∀ i < (s.nodes p).childrenNum, memAlloc.nextNode i = true

/-- A node in use has a name that fits its array, and so have the nodes above it. -/
theorem Named.short (hs : TreeOk s) {comps : List CString} (hn : Named s p comps) :
    ∀ c ∈ comps, c.length < maxFileNameLength := by
  induction comps using List.reverseRecOn generalizing p with
  | nil => intro c hc; cases hc
  | append_singleton comps name ih =>
    obtain ⟨d, j, rfl, hd, hj, rfl⟩ := named_concat.mp hn
    intro c hc
    rcases List.mem_append.mp hc with hc | hc
    · exact ih hd c hc
    · rw [List.mem_singleton.mp hc]
      exact hs.fits _ (inTree_concat.mpr ⟨hd.1, hj⟩)

/-- In every state that a client can reach, and for every path of an existing directory: its children
    are listed exactly when there are some, the path is short, and there is memory for its levels and
    for the list. -/
theorem listsChildren_iff {garbage : BlockPtr → ℕ → UInt8} {blocks : ℕ} {ops : List FsOp}
    {c : Client} (hrun : runClient garbage blocks ops = .ok c) (memAlloc : MemAlloc)
    {dirName : CString} {comps : List CString} (hpath : PathOf dirName comps)
    (hn : Named c.fs p comps) (hdir : (c.fs.nodes p).type = .DIR) :
    ListsChildren garbage blocks ops memAlloc c.fs dirName p ↔
      Listable memAlloc c.fs dirName p := by
  have hs := (runClient_ok hrun).tree
  constructor
  · intro h
    have hlisted := h.listed
    obtain ⟨⟨t, q⟩, hf, -⟩ := bind_eq_ok.mp hlisted
    rw [readdir_of_findNode hs hf] at hlisted
    split at hlisted
    · cases hlisted
    · rename_i hnum
      split at hlisted
      · rename_i hentries
        obtain ⟨rfl, hnodes⟩ := Prod.mk.inj (Except.ok.inj hlisted)
        -- a list that points to children of `p` is that of `p`
        have hlen := congrArg List.length (Option.some.inj hnodes)
        rw [childNodes, List.length_map, List.length_range, List.length_map, List.length_range] at hlen
        obtain rfl : q = p := by
          have hmem : q ++ [0] ∈ childNodes c.fs p := by
            rw [← Option.some.inj hnodes]
            exact List.mem_map.mpr ⟨0, List.mem_range.mpr (Nat.pos_of_ne_zero hnum), rfl⟩
          obtain ⟨j, -, hj⟩ := List.mem_map.mp hmem
          exact (List.append_inj' hj rfl).1.symm
        obtain ⟨hshort, hm⟩ := seen_of_returned hs hpath (hn.short hs) hf hn.length
        exact ⟨hshort, hn.length ▸ hm, hnum, hentries⟩
      · cases hlisted
  · intro h
    have hf := found_of_named hs hpath h.short (hn.length ▸ h.served) hn .DIR
    refine ⟨?_, hs.childNames_nodup hn.1, fun ops' c' hops h' hp => ?_⟩
    · rw [readdir_of_findNode hs hf, if_neg h.some_child, if_pos h.entries]
      rfl
    · exact runClient_children hops h' hrun hp

/-- The directory `/d` with the files `/d/g` and `/d/e` and the directory `/d/f` in it. -/
def innerRun : List FsOp :=
  [.mkdir .always [slash, 100], .open .always [slash, 100, slash, 103],
    .mkdir .always [slash, 100, slash, 102], .open .always [slash, 100, slash, 101]]

theorem listsChildren_inner : ∃ c, runClient (fun _ _ => 0) 1 innerRun = .ok c ∧
    ListsChildren (fun _ _ => 0) 1 innerRun .always c.fs [slash, 100] [0] ∧
    childNames c.fs [0] = [[103], [102], [101]] := by
  have hrun : (do
      let c ← runClient (fun _ _ => 0) 1 innerRun
      .ok ((c.fs.nodes []).childrenNum, (c.fs.nodes [0]).type, (c.fs.nodes [0]).name,
        childNames c.fs [0]) : Exec (ℕ × NodeType × CString × List CString)) =
          .ok (1, .DIR, [100], [[103], [102], [101]]) := by decide +kernel
  obtain ⟨c, hc, hval⟩ := bind_eq_ok.mp hrun
  simp only [Except.ok.injEq, Prod.mk.injEq] at hval
  obtain ⟨hnum, hdir, hname, hchildren⟩ := hval
  have hn : Named c.fs [0] ([] ++ [[100]]) :=
    named_concat.mpr ⟨[], 0, rfl, named_nil.mpr rfl, by rw [hnum]; decide, hname⟩
  have hpath : PathOf [slash, 100] [[100]] := ⟨by decide, by decide, rfl⟩
  have hthree : (c.fs.nodes [0]).childrenNum = 3 := by
    have hlen := congrArg List.length hchildren
    rw [childNames_eq, List.length_map, List.length_range] at hlen
    exact hlen
  exact ⟨c, hc, (listsChildren_iff hc .always hpath hn hdir).mpr
    ⟨by decide, MemAlloc.always_serves _, by rw [hthree]; decide, fun _ _ => rfl⟩, hchildren⟩

/-- The empty directory `/d` is not listed. -/
theorem not_listsChildren_empty : ∃ c,
    runClient (fun _ _ => 0) 1 [.mkdir .always [slash, 100]] = .ok c ∧
    Named c.fs [0] [[100]] ∧ (c.fs.nodes [0]).type = .DIR ∧
    ¬ ListsChildren (fun _ _ => 0) 1 [.mkdir .always [slash, 100]] .always c.fs [slash, 100] [0] := by
  have hrun : (do
      let c ← runClient (fun _ _ => 0) 1 [.mkdir .always [slash, 100]]
      .ok ((c.fs.nodes []).childrenNum, (c.fs.nodes [0]).type, (c.fs.nodes [0]).name,
        (c.fs.nodes [0]).childrenNum) : Exec (ℕ × NodeType × CString × ℕ)) =
          .ok (1, .DIR, [100], 0) := by decide +kernel
  obtain ⟨c, hc, hval⟩ := bind_eq_ok.mp hrun
  simp only [Except.ok.injEq, Prod.mk.injEq] at hval
  obtain ⟨hnum, hdir, hname, hzero⟩ := hval
  have hn : Named c.fs [0] ([] ++ [[100]]) :=
    named_concat.mpr ⟨[], 0, rfl, named_nil.mpr rfl, by rw [hnum]; decide, hname⟩
  have hpath : PathOf [slash, 100] [[100]] := ⟨by decide, by decide, rfl⟩
  have hs := (runClient_ok hc).tree
  have hf := found_of_named hs hpath (by decide) (MemAlloc.always_serves _) hn .DIR
  refine ⟨c, hc, hn, hdir, fun h => ?_⟩
  have hlisted := h.listed
  rw [readdir_of_findNode hs hf, if_pos hzero] at hlisted
  cases hlisted

end FilesKernel.FileSystem
