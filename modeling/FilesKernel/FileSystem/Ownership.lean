import FilesKernel.FileSystem.Tree

/-! Who owns the blocks.

    Each block is to belong either to the free list or to the chain of one file. `get_fs_block`
    leaves `next_` of the block it hands out as it is, so the first write puts the whole rest of the
    free list on the chain of its file as well: with two blocks or more, ownership lasts exactly
    until a run's first write. -/

namespace FilesKernel.FileSystem
open CExec CWord

/-- `c` is met by following `next_` from `b`. -/
inductive Reach (blocks : BlockPtr → FsDescriptorList) : BlockPtr → BlockPtr → Prop where
  | refl (b : BlockPtr) : Reach blocks b b
  | next {b c d : BlockPtr} : (blocks b).next = some c → Reach blocks c d → Reach blocks b d

/-- The free list (`none`) or the chain of a node in use has the block. -/
def Owner (s : FsState) : Option NodePtr → BlockPtr → Prop
  | none, b => ∃ h, s.fsDescriptorsHead = some h ∧ Reach s.blocks h b
  | some p, b => InTree s p ∧ ∃ h, (s.nodes p).listHead = some h ∧ Reach s.blocks h b

/-- Every chain ends in `NULL`, and each of the `n` blocks has exactly one owner. -/
structure Owned (n : ℕ) (s : FsState) : Prop where
  free : ∃ l, ChainOf s.blocks s.fsDescriptorsHead l
  files : ∀ p, InTree s p → ∃ l, ChainOf s.blocks (s.nodes p).listHead l
  unique : ∀ b < n, ∃! o, Owner s o b

def FsOp.IsWrite : FsOp → Prop
  | .write .. => True
  | _ => False

/-- Along the run every block has one owner, and no write to a file changes what a read of another
    file returns. -/
structure OwnershipLaw (garbage : BlockPtr → ℕ → UInt8) (n : ℕ) (ops : List FsOp) : Prop where
  owned : ∀ ops' c, ops' <+: ops → runClient garbage n ops' = .ok c → Owned n c.fs
  separate : ∀ ops' i offset mem dataBegin dataSize c s p q,
    ops' ++ [.write i offset mem dataBegin dataSize] <+: ops → runClient garbage n ops' = .ok c →
    c.file i = .ok p → writeFile c.fs p offset mem dataBegin dataSize = .ok s →
    q ∈ c.files → q ≠ p → ∀ offset' mem' dataBegin' dataSize',
      readFile s q offset' mem' dataBegin' dataSize' =
        readFile c.fs q offset' mem' dataBegin' dataSize'

/-! ### Chains -/

/-- What a chain reaches from its first block is what it consists of. -/
theorem ChainOf.reach_iff {blocks : BlockPtr → FsDescriptorList} : ∀ {l : List BlockPtr}
    {h b : BlockPtr}, ChainOf blocks (some h) l → (Reach blocks h b ↔ b ∈ l)
  | [], _, _, hc => by cases hc
  | c :: l, h, b, ⟨hh, hc⟩ => by
      obtain rfl := Option.some.inj hh
      constructor
      · intro hr
        cases hr with
        | refl => exact List.mem_cons_self
        | next hn hr =>
          rw [hn] at hc
          exact List.mem_cons_of_mem _ (hc.reach_iff.mp hr)
      · intro hb
        rcases List.mem_cons.mp hb with rfl | hb
        · exact Reach.refl _
        · cases hn : (blocks h).next with
          | none =>
            rw [hn] at hc
            cases l with
            | nil => cases hb
            | cons d l => cases hc.1
          | some d =>
            rw [hn] at hc
            exact Reach.next hn (hc.reach_iff.mpr hb)

/-- Blocks that all lead on among themselves are on no chain that ends. -/
theorem not_chainOf_of_closed {blocks : BlockPtr → FsDescriptorList} {S : BlockPtr → Prop}
    (hS : ∀ b, S b → ∃ c, S c ∧ (blocks b).next = some c) :
    ∀ (l : List BlockPtr) {b : BlockPtr}, S b → ¬ ChainOf blocks (some b) l
  | [], _, _, hc => by cases hc
  | c :: l, b, hb, ⟨hbc, hc⟩ => by
      obtain rfl := Option.some.inj hbc
      obtain ⟨d, hd, hn⟩ := hS b hb
      rw [hn] at hc
      exact not_chainOf_of_closed hS l hd hc

/-- In the chain of the blocks `m, …, 0` each block leads to the one below. -/
theorem chainOf_range {blocks : BlockPtr → FsDescriptorList} : ∀ {m : ℕ} {h : Option BlockPtr},
    ChainOf blocks h (List.range (m + 1)).reverse →
      h = some m ∧ (∀ k < m, (blocks (k + 1)).next = some k) ∧ (blocks 0).next = none
  | 0, h, hc => ⟨hc.1, fun k hk => absurd hk (Nat.not_lt_zero k), hc.2⟩
  | m + 1, h, hc => by
      rw [List.range_succ, List.reverse_append, List.reverse_singleton,
        List.singleton_append] at hc
      obtain ⟨hn, hdown, hlast⟩ := chainOf_range hc.2
      refine ⟨hc.1, fun k hk => ?_, hlast⟩
      rcases Nat.lt_succ_iff_lt_or_eq.mp hk with hk | rfl
      · exact hdown k hk
      · exact hn

/-- Where each block leads to the one below, the first leads to all. -/
theorem reach_down {blocks : BlockPtr → FsDescriptorList} : ∀ {m : ℕ},
    (∀ k < m, (blocks (k + 1)).next = some k) → ∀ k ≤ m, Reach blocks m k
  | 0, _, k, hk => by
      obtain rfl := Nat.le_zero.mp hk
      exact Reach.refl 0
  | m + 1, hdown, k, hk => by
      rcases Nat.le_succ_iff.mp hk with hk | rfl
      · exact Reach.next (hdown m (Nat.lt_succ_self m))
          (reach_down (fun j hj => hdown j (Nat.lt_succ_of_lt hj)) k hk)
      · exact Reach.refl _

/-! ### Before the first write -/

/-- All blocks are free and no node has any. -/
def AllFree (n : ℕ) (s : FsState) : Prop :=
  ChainOf s.blocks s.fsDescriptorsHead (List.range n).reverse ∧ NoBlocks s

/-- A call that is not a write leaves all blocks free. -/
theorem AllFree.step {n : ℕ} {c c' : Client} {op : FsOp} (hc : AllFree n c.fs)
    (hop : ¬ op.IsWrite) (h : c.step op = .ok c') : AllFree n c'.fs := by
  have lookup : ∀ {memAlloc : MemAlloc} {name : CString} {type : NodeType} {t : FsState}
      {p : NodePtr}, findNode memAlloc c.fs name type = .ok (t, p) → AllFree n t := by
    intro memAlloc name type t p hf
    obtain ⟨hhead, hblocks, -⟩ := findNode_blocks hf
    exact ⟨by rw [hhead, hblocks]; exact hc.1, hc.2.findNode hf⟩
  have opened : ∀ {s : FsState} {p : NodePtr} {b : Bool}, AllFree n s →
      AllFree n (s.setOpened p b) := by
    rintro s p b ⟨hch, hno⟩
    refine ⟨hch, fun q => ?_⟩
    by_cases hq : q = p
    · subst hq; simpa [FsState.setOpened] using hno q
    · simpa [FsState.setOpened, Function.update_of_ne hq] using hno q
  rcases Client.step_cases h with ⟨_, name, p, t, -, hf, rfl⟩ | ⟨i, p, -, -, rfl⟩ |
    ⟨_, name, p, t, -, hf, rfl⟩ | ⟨i, _, _, _, _, -, rfl⟩ | ⟨i, p, _, _, _, _, t, rfl, -, -, -, -⟩
  · exact opened (lookup hf)
  · exact opened hc
  · exact lookup hf
  · exact hc
  · exact absurd trivial hop

/-- Before the first write of a run all blocks are free. -/
theorem allFree_run {garbage : BlockPtr → ℕ → UInt8} {n : ℕ} {ops : List FsOp} {c : Client}
    (hops : ∀ op ∈ ops, ¬ op.IsWrite) (h : runClient garbage n ops = .ok c) :
    AllFree n c.fs := by
  obtain ⟨s, hs, h⟩ := bind_eq_ok.mp h
  have hrun : ∀ (ops : List FsOp) {c c' : Client}, (∀ op ∈ ops, ¬ op.IsWrite) →
      AllFree n c.fs → runOps Client.step c ops = .ok c' → AllFree n c'.fs := by
    intro ops
    induction ops with
    | nil => intro c c' _ hc h; cases h; exact hc
    | cons op ops ih =>
      intro c c' hops hc h
      obtain ⟨d, hd, h⟩ := (runOps_cons Client.step).mp h
      exact ih (fun o ho => hops o (List.mem_cons_of_mem _ ho))
        (hc.step (hops op List.mem_cons_self) hd) h
  exact hrun ops hops (initFileSystem_spec hs) h

/-- While all blocks are free the free list owns each of them. -/
theorem AllFree.owned {n : ℕ} {s : FsState} (h : AllFree n s) : Owned n s where
  free := ⟨_, h.1⟩
  files p _ := ⟨[], (h.2 p).1⟩
  unique b hb := by
    refine ⟨none, ?_, ?_⟩
    · cases n with
      | zero => exact absurd hb (Nat.not_lt_zero b)
      | succ m =>
        have hhead := (chainOf_range h.1).1
        refine ⟨m, hhead, ?_⟩
        have hch := h.1
        rw [hhead] at hch
        exact hch.reach_iff.mpr (by simpa using hb)
    · intro o ho
      cases o with
      | none => rfl
      | some p =>
        obtain ⟨-, hd, hl, -⟩ := ho
        rw [(h.2 p).1] at hl
        cases hl

/-! ### The first write, with two blocks or more -/

/-- The `m + 2` blocks during and after the first write: the file's chain runs through all of them,
    and either the free list still has some or the chain has been closed to a cycle. -/
structure Leaked (m : ℕ) (s : FsState) : Prop where
  down : ∀ k ≤ m, (s.blocks (k + 1)).next = some k
  last : ((s.blocks 0).next = none ∧ ∃ h ≤ m + 1, s.fsDescriptorsHead = some h) ∨
    ∃ c ≤ m + 1, (s.blocks 0).next = some c

theorem Leaked.setData {m : ℕ} {s : FsState} (h : Leaked m s) (b : BlockPtr) (data : ℕ → UInt8) :
    Leaked m (s.setData b data) where
  down k hk := by rw [setData_next]; exact h.down k hk
  last := by rw [setData_next]; exact h.last

/-- Appending a block to the last one closes the cycle. -/
theorem Leaked.nextBlock {m : ℕ} {s s' : FsState} {b c : BlockPtr} (h : Leaked m s)
    (hb : b ≤ m + 1) (hn : nextBlock s b = .ok (s', c)) : Leaked m s' ∧ c ≤ m + 1 := by
  rcases nextBlock_eq_ok.mp hn with ⟨hnext, rfl⟩ | ⟨hnone, t, hg, rfl⟩
  · refine ⟨h, ?_⟩
    cases b with
    | zero =>
      rcases h.last with ⟨hnone, -⟩ | ⟨d, hd, hsome⟩
      · rw [hnone] at hnext; cases hnext
      · rw [hsome] at hnext
        exact Option.some.inj hnext ▸ hd
    | succ k =>
      rw [h.down k (Nat.le_of_succ_le_succ hb)] at hnext
      exact Option.some.inj hnext ▸ Nat.le_of_succ_le hb
  · obtain ⟨hhead, rfl⟩ := getFsBlock_eq_ok.mp hg
    obtain rfl : b = 0 := by
      cases b with
      | zero => rfl
      | succ k => rw [h.down k (Nat.le_of_succ_le_succ hb)] at hnone; cases hnone
    have hc : c ≤ m + 1 := by
      rcases h.last with ⟨-, d, hd, hsome⟩ | ⟨d, -, hsome⟩
      · rw [hsome] at hhead
        exact Option.some.inj hhead ▸ hd
      · rw [hsome] at hnone; cases hnone
    refine ⟨⟨fun k hk => ?_, Or.inr ⟨c, hc, ?_⟩⟩, hc⟩
    · rw [link_next, if_neg (Nat.succ_ne_zero k), (taken_block _ _ _).1]
      exact h.down k hk
    · rw [link_next, if_pos rfl]

/-- The first write, of any offset and length, leaves some block without a single owner. -/
theorem not_owned_of_first_write {m : ℕ} {s s' : FsState} (hs : AllFree (m + 2) s) {p : NodePtr}
    (hp : InTree s' p) {offset dataBegin n : ℕ} {mem : Mem}
    (h : writeFile s p offset mem dataBegin n = .ok s') : ¬ Owned (m + 2) s' := by
  obtain ⟨t, b, ht, hw⟩ := writeFile_eq_ok h
  obtain ⟨hhead, hdown, hlast⟩ := chainOf_range hs.1
  -- the file takes the block `m + 1`, whose `next_` is the new head of the free list
  have hstart : b = m + 1 ∧ Leaked m t := by
    rcases ht.first with ⟨hl, -, -⟩ | ⟨-, u, hg, hub, huh⟩
    · rw [(hs.2 p).1] at hl; cases hl
    · obtain ⟨hb, rfl⟩ := getFsBlock_eq_ok.mp hg
      obtain rfl : m + 1 = b := Option.some.inj (hhead.symm.trans hb)
      refine ⟨rfl, fun k hk => ?_, Or.inl ⟨?_, m, Nat.le_succ m, ?_⟩⟩
      · rw [hub, (taken_block _ _ _).1]; exact hdown k (Nat.lt_succ_of_le hk)
      · rw [hub, (taken_block _ _ _).1]; exact hlast
      · rw [huh]; exact hdown m (Nat.lt_succ_self m)
  obtain ⟨rfl, hleak⟩ := hstart
  have hleak' : Leaked m s' := (writeToBlock_rule (B := fun _ b => b ≤ m + 1)
    (fun s b data hs _ _ => ⟨hs.setData b data, fun _ hx => hx⟩)
    (fun s s' b c hs hb hn => ⟨(hs.nextBlock hb hn).1, (hs.nextBlock hb hn).2, fun _ hx => hx⟩) mem _
    hleak (le_refl _) hw).1
  have hl : (s'.nodes p).listHead = some (m + 1) := by
    rw [writeToBlock_nodes hw, ht.nodes, Function.update_self]
  intro ho
  rcases hleak'.last with ⟨-, k, hk, hfree⟩ | hcycle
  · have hnone : Owner s' none k := ⟨k, hfree, Reach.refl k⟩
    have hsome : Owner s' (some p) k :=
      ⟨hp, m + 1, hl, reach_down (fun j hj => hleak'.down j (Nat.le_of_lt_succ hj)) k hk⟩
    have heq := (ho.unique k (Nat.lt_succ_of_le hk)).unique hnone hsome
    cases heq
  · obtain ⟨l, hc⟩ := ho.files p hp
    rw [hl] at hc
    refine not_chainOf_of_closed (S := fun b => b ≤ m + 1) (fun b hb => ?_) l (le_refl _) hc
    cases b with
    | zero => exact hcycle
    | succ k =>
      exact ⟨k, Nat.le_of_succ_le hb, hleak'.down k (Nat.le_of_succ_le_succ hb)⟩

/-! ### One block -/

/-- The only block is free, or the first and last of the chain of one node in use. -/
structure OneBlock (s : FsState) : Prop where
  last : (s.blocks 0).next = none
  place : (s.fsDescriptorsHead = some 0 ∧ ∀ p, (s.nodes p).listHead = none) ∨
    (s.fsDescriptorsHead = none ∧ ∃ p, InTree s p ∧ (s.nodes p).listHead = some 0 ∧
      ∀ q, q ≠ p → (s.nodes q).listHead = none)

theorem AllFree.oneBlock {s : FsState} (h : AllFree 1 s) : OneBlock s where
  last := (chainOf_range h.1).2.2
  place := Or.inl ⟨(chainOf_range h.1).1, fun p => (h.2 p).1⟩

theorem OneBlock.owned {s : FsState} (h : OneBlock s) : Owned 1 s := by
  have hchain : ChainOf s.blocks (some 0) [0] := ⟨rfl, h.last⟩
  have hreach : ∀ b < 1, Reach s.blocks 0 b := fun b hb => by
    obtain rfl := Nat.lt_one_iff.mp hb
    exact Reach.refl 0
  rcases h.place with ⟨hhead, hnone⟩ | ⟨hhead, p, hp, hl, hnone⟩
  · refine ⟨⟨[0], hhead ▸ hchain⟩, fun q _ => ⟨[], hnone q⟩, fun b hb => ?_⟩
    refine ⟨none, ⟨0, hhead, hreach b hb⟩, fun o ho => ?_⟩
    cases o with
    | none => rfl
    | some q =>
      obtain ⟨-, d, hd, -⟩ := ho
      rw [hnone q] at hd; cases hd
  · refine ⟨⟨[], hhead⟩, fun q _ => ?_, fun b hb => ?_⟩
    · by_cases hq : q = p
      · exact ⟨[0], by rw [hq, hl]; exact hchain⟩
      · exact ⟨[], hnone q hq⟩
    · refine ⟨some p, ⟨hp, 0, hl, hreach b hb⟩, fun o ho => ?_⟩
      cases o with
      | none =>
        obtain ⟨d, hd, -⟩ := ho
        rw [hhead] at hd; cases hd
      | some q =>
        obtain ⟨-, d, hd, -⟩ := ho
        by_cases hq : q = p
        · rw [hq]
        · rw [hnone q hq] at hd; cases hd

/-- A write that finds its block in the only chain leaves the others without any. -/
theorem OneBlock.write {s s' : FsState} (hs : OneBlock s) {p : NodePtr} (hp : InTree s p)
    {offset dataBegin n : ℕ} {mem : Mem} (h : writeFile s p offset mem dataBegin n = .ok s') :
    OneBlock s' ∧ ∀ q, q ≠ p → (s.nodes q).listHead = none ∧ s'.nodes q = s.nodes q := by
  have hp' : InTree s' p := (writeFile_sameShape h).inTree.mpr hp
  obtain ⟨t, b, ht, hw⟩ := writeFile_eq_ok h
  have hnodes : s'.nodes = t.nodes := writeToBlock_nodes hw
  have hother : ∀ q, q ≠ p → s'.nodes q = s.nodes q := fun q hq => by
    rw [hnodes, ht.nodes, Function.update_of_ne hq]
  -- the write starts at the only block, and no block is free any more
  have hstart : b = 0 ∧ (t.blocks 0).next = none ∧ t.fsDescriptorsHead = none ∧
      ∀ q, q ≠ p → (s.nodes q).listHead = none := by
    rcases ht.first with ⟨hl, htb, hth⟩ | ⟨hl, u, hg, htb, hth⟩
    · rcases hs.place with ⟨-, hnone⟩ | ⟨hhead, r, -, hr, hnone⟩
      · rw [hnone p] at hl; cases hl
      · have hpr : p = r := by
          by_contra hne
          rw [hnone p hne] at hl; cases hl
        subst hpr
        rw [hr] at hl
        exact ⟨(Option.some.inj hl).symm, by rw [htb]; exact hs.last, hth.trans hhead, hnone⟩
    · obtain ⟨hhead, rfl⟩ := getFsBlock_eq_ok.mp hg
      rcases hs.place with ⟨hfree, hnone⟩ | ⟨hfree, -⟩
      · rw [hfree] at hhead
        obtain rfl := Option.some.inj hhead
        exact ⟨rfl, by rw [htb, (taken_block s 0 0).1]; exact hs.last,
          hth.trans hs.last, fun q _ => hnone q⟩
      · rw [hfree] at hhead; cases hhead
  obtain ⟨rfl, htn, hth, hnone⟩ := hstart
  have hwalk : (s'.blocks 0).next = none ∧ s'.fsDescriptorsHead = none := by
    refine (writeToBlock_rule
      (P := fun u => (u.blocks 0).next = none ∧ u.fsDescriptorsHead = none) (B := fun _ b => b = 0)
      (fun u b data hu _ _ => ?_) (fun u u' b c hu hb hn => ?_) mem _ ⟨htn, hth⟩ rfl hw).1
    · exact ⟨⟨by rw [setData_next]; exact hu.1, hu.2⟩, fun _ hx => hx⟩
    · subst hb
      rcases nextBlock_eq_ok.mp hn with ⟨hnext, -⟩ | ⟨-, v, hg, -⟩
      · rw [hu.1] at hnext; cases hnext
      · have hhead := (getFsBlock_eq_ok.mp hg).1
        rw [hu.2] at hhead; cases hhead
  refine ⟨⟨hwalk.1, Or.inr ⟨hwalk.2, p, hp', ?_, fun q hq => ?_⟩⟩, fun q hq =>
    ⟨hnone q hq, hother q hq⟩⟩
  · rw [hnodes, ht.nodes, Function.update_self]
  · rw [hother q hq]; exact hnone q hq

/-- Every call of a client keeps the only block in one place. -/
theorem OneBlock.step {c c' : Client} {op : FsOp} (hok : c.Ok) (hc : OneBlock c.fs)
    (h : c.step op = .ok c') : OneBlock c'.fs := by
  have lookup : ∀ {memAlloc : MemAlloc} {name : CString} {type : NodeType} {t : FsState}
      {p : NodePtr}, findNode memAlloc c.fs name type = .ok (t, p) → OneBlock t := by
    intro memAlloc name type t p hf
    obtain ⟨hhead, hblocks, hnodes⟩ := findNode_blocks hf
    have hnone : ∀ q, (c.fs.nodes q).listHead = none → (t.nodes q).listHead = none := by
      intro q hq
      rcases hnodes q with ⟨hl, -⟩ | ⟨hl, -⟩
      · rw [hl]; exact hq
      · exact hl
    refine ⟨by rw [hblocks]; exact hc.last, ?_⟩
    rw [hhead]
    rcases hc.place with ⟨hfree, hall⟩ | ⟨hfree, r, hr, hl, hrest⟩
    · exact Or.inl ⟨hfree, fun q => hnone q (hall q)⟩
    · refine Or.inr ⟨hfree, r, (hok.tree.findNode hf).2.2 r hr, ?_, fun q hq => hnone q (hrest q hq)⟩
      rw [hok.tree.findNode_listHead hf hr]; exact hl
  have opened : ∀ {s : FsState} {p : NodePtr} {b : Bool}, OneBlock s →
      OneBlock (s.setOpened p b) := by
    rintro s p b ⟨hlast, hplace⟩
    refine ⟨hlast, ?_⟩
    simp only [setOpened_listHead, (sameShape_setOpened s p b).inTree]
    exact hplace
  rcases Client.step_cases h with ⟨_, name, p, t, -, hf, rfl⟩ | ⟨i, p, -, -, rfl⟩ |
    ⟨_, name, p, t, -, hf, rfl⟩ | ⟨i, _, _, _, _, -, rfl⟩ | ⟨i, p, _, _, _, _, t, -, hp, -, hw, rfl⟩
  · exact opened (lookup hf)
  · exact opened hc
  · exact lookup hf
  · exact hc
  · exact (hc.write (hok.files p hp) hw).1

theorem oneBlock_run {garbage : BlockPtr → ℕ → UInt8} {ops : List FsOp} {c : Client}
    (h : runClient garbage 1 ops = .ok c) : OneBlock c.fs := by
  obtain ⟨s, hs, h⟩ := bind_eq_ok.mp h
  have hrun : c.Ok ∧ OneBlock c.fs :=
    runOps_invariant Client.step (P := fun c => c.Ok ∧ OneBlock c.fs)
      (fun c op c' hc hstep => ⟨hc.1.step hstep, hc.2.step hc.1 hstep⟩)
      ⟨⟨initFileSystem_tree hs, fun p hp => by cases hp⟩,
        AllFree.oneBlock (initFileSystem_spec hs)⟩ h
  exact hrun.2

/-! ### Runs -/

/-- Without blocks no write returns. -/
theorem no_write_of_no_blocks {s s' : FsState} (hs : AllFree 0 s) {p : NodePtr}
    {offset dataBegin n : ℕ} {mem : Mem} : writeFile s p offset mem dataBegin n ≠ .ok s' := by
  intro h
  obtain ⟨t, b, ht, -⟩ := writeFile_eq_ok h
  rcases ht.first with ⟨hl, -, -⟩ | ⟨-, u, hg, -, -⟩
  · rw [(hs.2 p).1] at hl; cases hl
  · have hhead := (getFsBlock_eq_ok.mp hg).1
    have hnone : s.fsDescriptorsHead = none := hs.1
    rw [hnone] at hhead; cases hhead

/-- A run without blocks has no write. -/
theorem no_writes_of_no_blocks {garbage : BlockPtr → ℕ → UInt8} : ∀ {ops : List FsOp} {c : Client},
    runClient garbage 0 ops = .ok c → ∀ op ∈ ops, ¬ op.IsWrite := by
  intro ops
  induction ops using List.reverseRecOn with
  | nil => intro c _ op hop; cases hop
  | append_singleton ops op ih =>
    intro c h o ho
    obtain ⟨d, hd, hstep⟩ := runClient_concat.mp h
    rcases List.mem_append.mp ho with ho | ho
    · exact ih hd o ho
    · obtain rfl := List.mem_singleton.mp ho
      intro hw
      rcases Client.step_cases hstep with ⟨_, _, _, _, rfl, -, -⟩ | ⟨_, _, rfl, -, -⟩ |
        ⟨_, _, _, _, rfl | rfl, -, -⟩ | ⟨_, _, _, _, _, rfl, -⟩ | ⟨_, p, _, _, _, _, t, -, -, -, hw, -⟩
      · exact hw
      · exact hw
      · exact hw
      · exact hw
      · exact hw
      · exact no_write_of_no_blocks (allFree_run (ih hd) hd) hw

/-- A list with an element of a kind has a first one. -/
theorem exists_first {α : Type} {P : α → Prop} : ∀ {l : List α}, (¬ ∀ x ∈ l, ¬ P x) →
    ∃ pre x post, l = pre ++ x :: post ∧ (∀ y ∈ pre, ¬ P y) ∧ P x
  | [], h => absurd (fun x hx => by cases hx) h
  | a :: l, h => by
      by_cases ha : P a
      · exact ⟨[], a, l, rfl, (fun y hy => by cases hy), ha⟩
      · have hl : ¬ ∀ x ∈ l, ¬ P x := fun hl => h (fun x hx => by
          rcases List.mem_cons.mp hx with rfl | hx
          · exact ha
          · exact hl x hx)
        obtain ⟨pre, x, post, rfl, hpre, hx⟩ := exists_first hl
        refine ⟨a :: pre, x, post, rfl, fun y hy => ?_, hx⟩
        rcases List.mem_cons.mp hy with rfl | hy
        · exact ha
        · exact hpre y hy

/-- A read of a file without blocks returns nothing. -/
theorem readFile_of_no_block {s : FsState} {q : NodePtr} (h : (s.nodes q).listHead = none)
    (offset : ℕ) (mem : Mem) (dataBegin n : ℕ) : readFile s q offset mem dataBegin n = (do
      bugOn ((s.nodes q).opened = false) "!node_ptr->opened_"
      .ok (mem, 0)) := by
  rw [readFile, h]
  rfl

/-- The first write of a run breaks the law when there are two blocks or more. -/
theorem not_ownershipLaw {garbage : BlockPtr → ℕ → UInt8} {m : ℕ} {ops : List FsOp} {c : Client}
    (h : runClient garbage (m + 2) ops = .ok c) (hops : ¬ ∀ op ∈ ops, ¬ op.IsWrite) :
    ¬ OwnershipLaw garbage (m + 2) ops := by
  intro hlaw
  obtain ⟨pre, op, post, rfl, hpre, hop⟩ := exists_first hops
  have hprefix : pre ++ [op] <+: pre ++ op :: post := ⟨post, by simp⟩
  obtain ⟨d, hd⟩ := runClient_prefix hprefix h
  obtain ⟨e, he, hstep⟩ := runClient_concat.mp hd
  have howned := hlaw.owned _ d hprefix hd
  have hok := runClient_ok hd
  rcases Client.step_cases hstep with ⟨_, _, _, _, rfl, -, -⟩ | ⟨_, _, rfl, -, -⟩ |
    ⟨_, _, _, _, rfl | rfl, -, -⟩ | ⟨_, _, _, _, _, rfl, -⟩ | ⟨_, p, _, _, _, _, t, -, hp, -, hw, rfl⟩
  · exact hop
  · exact hop
  · exact hop
  · exact hop
  · exact hop
  · exact not_owned_of_first_write (allFree_run hpre he) (hok.files p hp) hw howned

/-- Along a run that returns, ownership and the separation of files hold exactly when there is at
    most one block or the run has no write. -/
theorem ownershipLaw_iff {garbage : BlockPtr → ℕ → UInt8} {n : ℕ} {ops : List FsOp} {c : Client}
    (h : runClient garbage n ops = .ok c) :
    OwnershipLaw garbage n ops ↔ n ≤ 1 ∨ ∀ op ∈ ops, ¬ op.IsWrite := by
  constructor
  · intro hlaw
    by_contra hne
    rw [not_or, not_le] at hne
    obtain ⟨m, rfl⟩ : ∃ m, n = m + 2 := ⟨n - 2, by omega⟩
    exact not_ownershipLaw h hne.2 hlaw
  · intro hcond
    have hcase : n = 1 ∨ ∀ op ∈ ops, ¬ op.IsWrite := by
      rcases hcond with hn | hops
      · rcases Nat.le_one_iff_eq_zero_or_eq_one.mp hn with rfl | rfl
        · exact Or.inr (no_writes_of_no_blocks h)
        · exact Or.inl rfl
      · exact Or.inr hops
    rcases hcase with rfl | hops
    · refine ⟨fun ops' d _ hd => (oneBlock_run hd).owned, ?_⟩
      intro ops' i offset mem dataBegin k d s p q _ hd hp hw _ hqp offset' mem' dataBegin' k'
      have hin := (runClient_ok hd).files p (List.mem_of_getElem? (Client.file_eq_ok.mp hp))
      obtain ⟨hnone, hsame⟩ := ((oneBlock_run hd).write hin hw).2 q hqp
      rw [readFile_of_no_block hnone, readFile_of_no_block (by rw [hsame]; exact hnone), hsame]
    · refine ⟨fun ops' d hpre hd => ?_, ?_⟩
      · exact (allFree_run (fun op hop => hops op (hpre.subset hop)) hd).owned
      · intro ops' i offset mem dataBegin k d s p q hpre
        exact absurd trivial (hops (.write i offset mem dataBegin k)
          (hpre.subset (List.mem_append.mpr (Or.inr List.mem_cons_self))))

/-- One block, one file and a read of another. -/
def oneBlockRun : List FsOp :=
  [.open .always [slash, 97], .write 0 3 (fun _ => 7) 0xffff800000100000 5, .open .always [slash, 98],
    .read 1 0 (fun _ => 0) 0xffff800000200000 5]

theorem oneBlockRun_law : OwnershipLaw (fun _ _ => 0) 1 oneBlockRun := by
  have hrun : (do
      let c ← runClient (fun _ _ => 0) 1 oneBlockRun
      .ok c.files.length : Exec ℕ) = .ok 2 := by decide +kernel
  obtain ⟨c, hc, -⟩ := bind_eq_ok.mp hrun
  exact (ownershipLaw_iff hc).mpr (Or.inl (le_refl 1))

/-- A byte in the second block of one file, and then a byte in the first block of another. -/
def sharedBlockRun : List FsOp :=
  [.open .always [slash, 97], .open .always [slash, 98], .write 0 513 (fun _ => 1) 0xffff800000100000 1,
    .write 1 1 (fun _ => 2) 0xffff800000100000 1]

/-- With two blocks the second file is given the block that already continues the first: its write
    replaces the byte that a read of the first file returns. -/
theorem sharedBlockRun_law : (∃ c, runClient (fun _ _ => 0) 2 sharedBlockRun = .ok c) ∧
    ¬ OwnershipLaw (fun _ _ => 0) 2 sharedBlockRun := by
  have hrun : (do
      let c ← runClient (fun _ _ => 0) 2 (sharedBlockRun.take 3)
      let p ← c.file 0
      let q ← c.file 1
      let (m, _) ← readFile c.fs p 513 (fun _ => 0) 0xffff800000200000 1
      let s ← writeFile c.fs q 1 (fun _ => 2) 0xffff800000100000 1
      let (m', _) ← readFile s p 513 (fun _ => 0) 0xffff800000200000 1
      let _ ← runClient (fun _ _ => 0) 2 sharedBlockRun
      .ok (p, q, m 0xffff800000200000, m' 0xffff800000200000) :
        Exec (NodePtr × NodePtr × UInt8 × UInt8)) = .ok ([0], [1], 1, 2) := by decide +kernel
  simp only [bind_eq_ok] at hrun
  obtain ⟨c, hc, p, hp, q, hq, ⟨m, k⟩, hm, s, hs, ⟨m', k'⟩, hm', d, hd, hval⟩ := hrun
  simp only [Except.ok.injEq, Prod.mk.injEq] at hval
  obtain ⟨rfl, rfl, hx, hy⟩ := hval
  refine ⟨⟨d, hd⟩, fun hlaw => ?_⟩
  have hmem : [0] ∈ c.files := List.mem_of_getElem? (Client.file_eq_ok.mp hp)
  have heq := hlaw.separate (sharedBlockRun.take 3) 1 1 (fun _ => 2) 0xffff800000100000 1 c s [1] [0]
    (List.prefix_refl _) hc hq hs hmem (by decide) 513 (fun _ => 0) 0xffff800000200000 1
  rw [hm, hm'] at heq
  simp only [Except.ok.injEq, Prod.mk.injEq] at heq
  rw [heq.1, hx] at hy
  exact absurd hy (by decide)

end FilesKernel.FileSystem
