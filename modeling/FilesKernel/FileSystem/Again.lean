import FilesKernel.FileSystem.Bounds
import FilesKernel.FileSystem.Capacity

/-! Calls that are made again.

    Nothing is ever removed: nodes keep their types and names, chains their blocks. A string that has
    been looked up leads to the same node from then on, and a write that has returned finds the blocks
    that it needs when it is made again. -/

namespace FilesKernel.FileSystem
open CExec CWord

/-- `open`, a `write` from the begin of the file on, and `close`. -/
def storeFile (memAlloc : MemAlloc) (s : FsState) (fileName : CString) (mem : Mem)
    (dataBegin dataSize : ℕ) : Exec (FsState × NodePtr) := do
  let (s, file) ← openFile memAlloc s fileName
  let s ← writeFile s file 0 mem dataBegin dataSize
  .ok (closeFile s file, file)

/-- `t` has the nodes and the chains of `s`, with more behind them, and the same nodes are open. -/
structure Later (s t : FsState) : Prop where
  inTree : ∀ p, InTree s p → InTree t p
  name : ∀ p, InTree s p → (t.nodes p).name = (s.nodes p).name
  type : ∀ p, InTree s p → (t.nodes p).type = (s.nodes p).type
  opened : ∀ p, InTree s p → (t.nodes p).opened = (s.nodes p).opened
  first : ∀ p b, InTree s p → (s.nodes p).listHead = some b → (t.nodes p).listHead = some b
  next : ∀ b c, (s.blocks b).next = some c → (t.blocks b).next = some c

/-- The string has no empty component, and leads to the node where there is memory for its levels. -/
def Finds (s : FsState) (name : CString) (p : NodePtr) : Prop :=
  [] ∉ components name ∧ Leads s [] ((levelsOf name).above ++ [(levelsOf name).last]) p

variable {memAlloc memAlloc' : MemAlloc} {s s' t : FsState} {p q dir : NodePtr}
  {name last : CString} {type : NodeType} {mem mem' : Mem} {b : BlockPtr} {d d' n : ℕ}
  {levels : List (Option CString)}

/-! ### What stays -/

theorem Later.refl (s : FsState) : Later s s :=
  ⟨fun _ h => h, fun _ _ => rfl, fun _ _ => rfl, fun _ _ => rfl, fun _ _ _ h => h, fun _ _ h => h⟩

theorem Later.trans (h : Later s s') (h' : Later s' t) : Later s t where
  inTree p hp := h'.inTree p (h.inTree p hp)
  name p hp := (h'.name p (h.inTree p hp)).trans (h.name p hp)
  type p hp := (h'.type p (h.inTree p hp)).trans (h.type p hp)
  opened p hp := (h'.opened p (h.inTree p hp)).trans (h.opened p hp)
  first p b hp hb := h'.first p b (h.inTree p hp) (h.first p b hp hb)
  next b c hb := h'.next b c (h.next b c hb)

/-- A child more. -/
theorem withChild_later (hd : InTree s dir) : Later s (s.withChild memAlloc dir last type) := by
  have hkept : ∀ q, InTree s q → ∃ k, (s.withChild memAlloc dir last type).nodes q =
      { s.nodes q with childrenNum := k } := by
    intro q hq
    have hslot : q ≠ s.slot dir := fun e => slot_not_inTree (e ▸ hq)
    by_cases hqd : q = dir
    · subst hqd
      exact ⟨_, withChild_dir⟩
    · exact ⟨_, withChild_other hslot hqd⟩
  refine ⟨fun q hq => (inTree_withChild hd).mpr (Or.inl hq), fun q hq => ?_, fun q hq => ?_,
    fun q hq => ?_, fun q b hq hb => ?_, fun _ _ hb => hb⟩
  all_goals
    obtain ⟨k, hk⟩ := hkept q hq
    rw [hk]
  exact hb

theorem TreeOk.findNode_later (hs : TreeOk s)
    (h : FileSystem.findNode memAlloc s name type = .ok (s', p)) : Later s s' := by
  rcases findNode_returned hs h with ⟨-, rfl⟩ | ⟨dir, last, hn, -, -, rfl⟩
  · exact .refl s'
  · exact withChild_later (hs.leads_inTree hn.path)

theorem writeFile_later {offset : ℕ} (h : writeFile s p offset mem d n = .ok s') : Later s s' := by
  have hsh := writeFile_sameShape h
  obtain ⟨u, b, hu, hw⟩ := writeFile_eq_ok h
  have hnodes := (writeToBlock_nodes hw).trans hu.nodes
  refine ⟨fun q hq => hsh.inTree.mpr hq, fun q _ => (hsh q).2.1, fun q _ => (hsh q).1, fun q _ => ?_,
    fun q c _ hc => ?_, fun c e hc => (writeToBlock_walked hw).next c e ?_⟩
  · rw [hnodes]
    by_cases hq : q = p
    · subst hq; simp
    · rw [Function.update_of_ne hq]
  · rw [hnodes]
    by_cases hq : q = p
    · subst hq
      rcases hu.first with ⟨hb, -⟩ | ⟨hnone, -⟩
      · rw [Function.update_self, ← hc, hb]
      · rw [hnone] at hc; cases hc
    · rw [Function.update_of_ne hq, hc]
  · rcases hu.first with ⟨-, hb, -⟩ | ⟨-, v, hg, hb, -⟩
    · rw [hb, hc]
    · obtain ⟨-, rfl⟩ := getFsBlock_eq_ok.mp hg
      rw [hb, (taken_block s b c).1, hc]

/-- A node that is opened and closed again. -/
theorem Later.reopened (h : Later (s.setOpened p true) s') (hp : (s.nodes p).opened = false) :
    Later s (closeFile s' p) := by
  have hset := sameShape_setOpened s p true
  have hclose := sameShape_setOpened s' p false
  rw [closeFile]
  refine ⟨fun q hq => hclose.inTree.mpr (h.inTree q (hset.inTree.mpr hq)), fun q hq => ?_,
    fun q hq => ?_, fun q hq => ?_, fun q b hq hb => ?_, h.next⟩
  · rw [(hclose q).2.1, h.name q (hset.inTree.mpr hq), (hset q).2.1]
  · rw [(hclose q).1, h.type q (hset.inTree.mpr hq), (hset q).1]
  · by_cases hqp : q = p
    · subst hqp
      rw [hp]
      simp [FsState.setOpened]
    · have hopened := h.opened q (hset.inTree.mpr hq)
      simp only [FsState.setOpened, Function.update_of_ne hqp] at hopened ⊢
      exact hopened
  · rw [setOpened_listHead]
    exact h.first q b (hset.inTree.mpr hq) ((setOpened_listHead s p q true).trans hb)

/-! ### Looking up again -/

theorem Later.leads (h : Later s t) (hl : Leads s p levels q) (hp : InTree s p) :
    Leads t p levels q := by
  induction hl with
  | here p => exact .here p
  | @down p q level levels j hdir hj _ ih =>
    have hin : ∀ i ≤ j, InTree s (p ++ [i]) := fun i hi =>
      inTree_concat.mpr ⟨hp, Nat.lt_of_le_of_lt hi hj.1⟩
    refine .down ((h.type p hp).trans hdir) ⟨?_, ?_, fun i hi => ?_⟩ (ih (hin j (Nat.le_refl j)))
    · exact (inTree_concat.mp (h.inTree _ (hin j (Nat.le_refl j)))).2
    · rw [h.name _ (hin j (Nat.le_refl j))]
      exact hj.2.1
    · rw [h.name _ (hin i (Nat.le_of_lt hi))]
      exact hj.2.2 i hi

theorem Later.found (h : Later s t) (hf : Finds s name p) : Finds t name p :=
  ⟨hf.1, h.leads hf.2 (inTree_root s)⟩

/-- The node that a lookup returns has been found. -/
theorem TreeOk.found (hs : TreeOk s) (h : FileSystem.findNode memAlloc s name type = .ok (s', p)) :
    Finds s' name p := by
  rcases findNode_returned hs h with ⟨⟨hsplits, hl⟩, rfl⟩ | ⟨dir, last, hn, -, rfl, rfl⟩
  · exact ⟨hsplits.2, hl⟩
  · have hin := hs.leads_inTree hn.path
    have hlater : Later s (s.withChild memAlloc dir last type) := withChild_later hin
    refine ⟨hn.splits.2, leads_concat.mpr ⟨dir, last, (s.nodes dir).childrenNum,
      hlater.leads hn.path (inTree_root s), (hlater.type dir hin).trans hn.isDir, hn.isLast,
      ⟨?_, ?_, fun i hi => ?_⟩, rfl⟩⟩
    · rw [withChild_dir]
      exact Nat.lt_succ_self _
    · rw [← FsState.slot, withChild_slot]
      exact List.prefix_refl last
    · rw [withChild_name (inTree_concat.mpr ⟨hin, hi⟩)]
      exact hn.absent i hi

/-- A lookup that ends finds what has been found. -/
theorem Finds.findNode (hf : Finds t name p) (ht : TreeOk t)
    (hends : Ends (findNode memAlloc t name type)) :
    FileSystem.findNode memAlloc t name type = .ok (t, p) := by
  refine findNode_leads ht ⟨⟨?_, hf.1⟩, hf.2⟩ type
  by_contra hno
  rw [FileSystem.findNode, nameToLevelsArray_eq, if_neg hno, error_bind] at hends
  exact hends

/-! ### Writing again -/

/-- The copy loop runs the same, whatever the bytes are. -/
theorem copyToBlock_again (mem' : Mem) {dataEnd blockEnd : ℕ} : ∀ {fuel byte pos : ℕ}
    {data : ℕ → UInt8} (data' : ℕ → UInt8) {r : (ℕ → UInt8) × ℕ},
    copyToBlock mem dataEnd blockEnd fuel byte pos data = .ok r →
    ∃ data'', copyToBlock mem' dataEnd blockEnd fuel byte pos data' = .ok (data'', r.2)
  | 0, _, _, _, _, _, h => by cases h
  | fuel + 1, byte, pos, data, data', r, h => by
      rw [copyToBlock] at h ⊢
      split at h
      · rename_i hin
        rw [if_pos hin]
        split at h
        · rename_i hpos
          rw [if_pos hpos]
          exact copyToBlock_again mem' _ h
        · cases h
      · rename_i hin
        rw [if_neg hin]
        cases h
        exact ⟨data', rfl⟩

/-- A walk from the begin of a block, where its links are already there. -/
theorem writeToBlock_again : ∀ {fuel : ℕ} {s s' t : FsState} {b : BlockPtr} {d n : ℕ},
    writeToBlock mem fuel s b 0 d n = .ok s' →
    (∀ c e, (s'.blocks c).next = some e → (t.blocks c).next = some e) →
    ∃ t', writeToBlock mem' fuel t b 0 d n = .ok t'
  | 0, _, _, _, _, _, _, h, _ => by cases h
  | fuel + 1, s, s', t, b, d, n, h, hnext => by
      have hskip : ¬ 0 > fsBlockSize := Nat.not_lt_zero _
      rw [writeToBlock_eq, if_neg hskip, ok_bind, writeRest] at h ⊢
      obtain ⟨⟨data, byte⟩, hcopy, h⟩ := bind_eq_ok.mp h
      obtain ⟨data', hcopy'⟩ := copyToBlock_again mem' (t.blocks b).data hcopy
      rw [hcopy', ok_bind]
      simp only at h ⊢
      split at h
      · rename_i hmore
        obtain ⟨⟨u, c⟩, hn, hw⟩ := bind_eq_ok.mp h
        have hlink := (writeToBlock_walked hw).next b c (nextBlock_walk hn).2.1
        rw [if_pos hmore, nextBlock_some ((setData_next t b data' b).trans (hnext b c hlink)), ok_bind]
        exact writeToBlock_again hw fun x y hx => (setData_next t b data' x).trans (hnext x y hx)
      · rename_i hmore
        rw [if_neg hmore]
        exact ⟨_, rfl⟩

theorem writeFile_again (mem' : Mem) (h : writeFile s p 0 mem d n = .ok s')
    (ho : (t.nodes p).opened = true)
    (hfirst : ∀ b, (s'.nodes p).listHead = some b → (t.nodes p).listHead = some b)
    (hnext : ∀ c e, (s'.blocks c).next = some e → (t.blocks c).next = some e) :
    ∃ t', writeFile t p 0 mem' d n = .ok t' := by
  obtain ⟨u, b, hu, hw⟩ := writeFile_eq_ok h
  have hb : (t.nodes p).listHead = some b :=
    hfirst b (by rw [writeToBlock_nodes hw, hu.nodes, Function.update_self])
  rw [writeFile, bugOn_false (by simp [ho]), ok_bind]
  simp only [grow_listHead, hb, ok_bind]
  exact writeToBlock_again hw hnext

/-! ### The calls -/

/-- What a call that has returned leaves. -/
theorem TreeOk.storeFile (hs : TreeOk s)
    (h : storeFile memAlloc s name mem d n = .ok (s', p)) : TreeOk s' ∧ Later s s' := by
  obtain ⟨⟨u, q⟩, ho, h⟩ := bind_eq_ok.mp h
  obtain ⟨v, hw, h⟩ := bind_eq_ok.mp h
  cases h
  obtain ⟨x, hf, hopened, rfl⟩ := openFile_eq_ok.mp ho
  have htree := ((sameShape_setOpened x p true).treeOk (hs.findNode hf).1)
  have hlater := (writeFile_later hw).reopened hopened
  refine ⟨?_, (hs.findNode_later hf).trans hlater⟩
  exact (sameShape_setOpened v p false).treeOk ((writeFile_sameShape hw).treeOk htree)

theorem TreeOk.mkdir (hs : TreeOk s) (h : mkdir memAlloc s name = .ok s') :
    TreeOk s' ∧ Later s s' := by
  obtain ⟨⟨u, q⟩, hf, h⟩ := bind_eq_ok.mp h
  cases h
  exact ⟨(hs.findNode hf).1, hs.findNode_later hf⟩

/-- A file that has been stored is stored again, unless the lookup accesses something out of
    bounds. -/
theorem storeFile_again (hs : TreeOk s) (h : storeFile memAlloc s name mem d n = .ok (s', p))
    (ht : TreeOk t) (hl : Later s' t) (hends : Ends (storeFile memAlloc' t name mem' d n)) :
    ∃ r, storeFile memAlloc' t name mem' d n = .ok r := by
  obtain ⟨⟨u, q⟩, ho, h⟩ := bind_eq_ok.mp h
  obtain ⟨v, hw, h⟩ := bind_eq_ok.mp h
  cases h
  obtain ⟨x, hf, hopened, rfl⟩ := openFile_eq_ok.mp ho
  have hx := hs.findNode hf
  have hclosed : Later x (closeFile v p) := (writeFile_later hw).reopened hopened
  have hfind := ((hclosed.trans hl).found (hs.found hf)).findNode ht hends.left.left
  have hopen : openFile memAlloc' t name = .ok (t.setOpened p true, p) :=
    openFile_eq_ok.mpr ⟨t, hfind, ((hclosed.trans hl).opened p hx.2.1).trans hopened, rfl⟩
  have hin := (sameShape_setOpened v p false).inTree.mpr
    ((writeFile_later hw).inTree p ((sameShape_setOpened x p true).inTree.mpr hx.2.1))
  obtain ⟨t', hw'⟩ := writeFile_again (t := t.setOpened p true) mem' hw
    (by simp [FsState.setOpened])
    (fun b hb => (setOpened_listHead t p p true).trans
      (hl.first p b hin ((setOpened_listHead v p p false).trans hb))) hl.next
  rw [storeFile, hopen, ok_bind]
  simp only [hw', ok_bind]
  exact ⟨_, rfl⟩

theorem mkdir_again (hs : TreeOk s) (h : FileSystem.mkdir memAlloc s name = .ok s') (ht : TreeOk t)
    (hl : Later s' t) (hends : Ends (FileSystem.mkdir memAlloc' t name)) :
    ∃ t', FileSystem.mkdir memAlloc' t name = .ok t' := by
  obtain ⟨⟨u, q⟩, hf, h⟩ := bind_eq_ok.mp h
  cases h
  have hfind := (hl.found (hs.found hf)).findNode ht hends.left
  exact ⟨t, by rw [FileSystem.mkdir, hfind, ok_bind]⟩

/-! ### The buffer -/

/-- The end of a buffer that wraps around lies below it, and nothing is copied. -/
theorem writeToBlock_wrapped (hend : wrap (d + n) ≤ d) (fuel : ℕ) (s : FsState) (b : BlockPtr) :
    writeToBlock mem (fuel + 1) s b 0 d n = .ok s := by
  have hskip : ¬ 0 > fsBlockSize := Nat.not_lt_zero _
  have hmore : ¬ d + 0 < wrap (d + n) := by omega
  rw [writeToBlock_eq, if_neg hskip, ok_bind, writeRest, copyToBlock_spec mem (wrap_lt _) 0 _ _ _ _
    (by omega) (Nat.succ_pos _) (Or.inl rfl), ok_bind, pasted_zero]
  simp only [if_neg hmore]
  exact congrArg Except.ok (setData_self s b)

/-- A write to the begin of a file ends, whatever length it is given, and depends on the bytes of the
    buffer only. -/
theorem writeFile_anyLength (s : FsState) (p : NodePtr) (hd : 2 ^ 63 ≤ d) (hd' : d < 2 ^ 64)
    (hn : n < 2 ^ 64) (hmem : ∀ i < n, mem' (wrap (d + i)) = mem (wrap (d + i))) :
    Ends (writeFile s p 0 mem d n) ∧ writeFile s p 0 mem' d n = writeFile s p 0 mem d n := by
  obtain ⟨fuel, hfuel⟩ : ∃ fuel, blockSteps 0 n = fuel + 1 :=
    ⟨blockSteps 0 n - 1, by have := blockSteps_ge 0 n; omega⟩
  have hwalk : ∀ t b, Ends (writeToBlock mem (blockSteps 0 n) t b 0 d n) ∧
      writeToBlock mem' (blockSteps 0 n) t b 0 d n = writeToBlock mem (blockSteps 0 n) t b 0 d n := by
    intro t b
    rcases Nat.lt_or_ge (2 ^ 64) (d + n) with hlt | hge
    · have hend : wrap (d + n) ≤ d := by rw [wrap_eq]; omega
      rw [hfuel, writeToBlock_wrapped hend, writeToBlock_wrapped hend]
      exact ⟨trivial, rfl⟩
    · have hbytes : ∀ a, d ≤ a → a < d + n → mem' a = mem a := by
        intro a ha ha'
        have hi := hmem (a - d) (by omega)
        rwa [show d + (a - d) = a by omega, wrap_of_lt (by omega)] at hi
      have hcap := lt_blockSteps 0 n
      have h := writeToBlock_ends hd hge hbytes (blockSteps 0 n) t b 0 d n (Nat.le_refl d) hd'
        (by omega) (by simp only [fsBlockSize]; omega) (by decide)
        (by simp only [blockSteps, fsBlockSize]; omega)
      rwa [u64_natCast hn] at h
  exact ⟨writeFile_ends fun t b => (hwalk t b).1, writeFile_congr fun t b => (hwalk t b).2⟩

theorem ends_writeFile (s : FsState) (p : NodePtr) (hd : 2 ^ 63 ≤ d) (hd' : d < 2 ^ 64)
    (hn : n < 2 ^ 64) : Ends (writeFile s p 0 mem d n) :=
  (writeFile_anyLength s p hd hd' hn fun _ _ => rfl).1

/-- A buffer elsewhere, with the same bytes. -/
theorem writeToBlock_moved : ∀ {fuel : ℕ} {s : FsState} {b : BlockPtr} {d d' n : ℕ},
    higherBase ≤ d → higherBase ≤ d' → d + n + fsBlockSize < 2 ^ 64 →
    d' + n + fsBlockSize < 2 ^ 64 → (∀ i < n, mem' (d' + i) = mem (d + i)) →
    writeToBlock mem' fuel s b 0 d' n = writeToBlock mem fuel s b 0 d n
  | 0, _, _, _, _, _, _, _, _, _, _ => rfl
  | fuel + 1, s, b, d, d', n, hd, hd', hn, hn', hmem => by
      have hpasted : ∀ data, pasted mem' d' 0 (min n (fsBlockSize - 0)) data =
          pasted mem d 0 (min n (fsBlockSize - 0)) data := by
        intro data
        funext i
        rw [pasted, pasted]
        split
        · exact hmem _ (by omega)
        · rfl
      rw [writeToBlock_inside mem' fuel s b (Nat.zero_le _) hd' hn',
        writeToBlock_inside mem fuel s b (Nat.zero_le _) hd hn]
      simp only [hpasted]
      split
      · rename_i hmore
        refine bind_congr_ok rfl fun r _ => ?_
        rw [wsub_of_le (by omega) (by omega)]
        refine writeToBlock_moved (by omega) (by omega) (by omega) (by omega) fun i hi => ?_
        rw [Nat.add_assoc, Nat.add_assoc]
        exact hmem _ (by omega)
      · rfl

theorem storeFile_moved (hd : higherBase ≤ d) (hd' : higherBase ≤ d')
    (hn : d + n + fsBlockSize < 2 ^ 64) (hn' : d' + n + fsBlockSize < 2 ^ 64)
    (hmem : ∀ i < n, mem' (d' + i) = mem (d + i)) :
    FileSystem.storeFile memAlloc s name mem' d' n =
      FileSystem.storeFile memAlloc s name mem d n := by
  rw [FileSystem.storeFile, FileSystem.storeFile]
  refine bind_congr_ok rfl fun r _ => ?_
  exact bind_congr_ok (writeFile_congr fun t b => writeToBlock_moved hd hd' hn hn' hmem) fun _ _ => rfl

/-! ### When they end -/

theorem ends_findNode_iff (hs : TreeOk s) (type : NodeType) :
    Ends (FileSystem.findNode memAlloc s name type) ↔ MeetsLimits memAlloc s name := by
  refine ⟨fun h => ?_, fun h => ends_findNode hs h⟩
  by_contra hno
  rw [(findNode_eq_fault hs).mpr hno] at h
  exact h

theorem ends_mkdir_iff (hs : TreeOk s) :
    Ends (FileSystem.mkdir memAlloc s name) ↔ MeetsLimits memAlloc s name := by
  rw [← ends_findNode_iff hs .DIR]
  exact ⟨fun h => h.left, fun h => h.bind fun _ _ => trivial⟩

theorem ends_storeFile_iff (hs : TreeOk s) (hd : 2 ^ 63 ≤ d) (hd' : d < 2 ^ 64) (hn : n < 2 ^ 64) :
    Ends (FileSystem.storeFile memAlloc s name mem d n) ↔ MeetsLimits memAlloc s name := by
  rw [← ends_findNode_iff hs .FILE]
  refine ⟨fun h => h.left.left, fun h => ?_⟩
  have hopen : Ends (openFile memAlloc s name) :=
    h.bind fun _ _ => (ends_bugOn _ _).bind fun _ _ => trivial
  refine hopen.bind fun r _ => ?_
  exact (ends_writeFile r.1 r.2 hd hd' hn).bind fun _ _ => trivial

end FilesKernel.FileSystem
