import FilesKernel.FileSystem.Nodes

/-! One file as an array of bytes.

    A run after `init_file_system` that opens one file and then reads and writes it. The abstract
    file is its history: its size is the largest end of a write, and a byte is what the last write
    over its position put there. The code agrees with it as long as no write crosses a block
    boundary (unless it starts the file) or skips a block to end on a boundary, and no read relies
    on the size being clipped at its offset. -/

namespace FilesKernel.FileSystem
open CExec CWord

/-- The calls on the one open file. -/
inductive FileOp where
  | write (offset : ℕ) (mem : Mem) (dataBegin n : ℕ)
  | read (offset : ℕ) (mem : Mem) (dataBegin n : ℕ)

/-- The size of the abstract file; the history has the latest call first. -/
def fileSize : List FileOp → ℕ
  | [] => 0
  | .write offset _ _ n :: hist => max (offset + n) (fileSize hist)
  | .read .. :: hist => fileSize hist

/-- The byte most recently written to a position. -/
def lastWritten : List FileOp → ℕ → Option UInt8
  | [], _ => none
  | .write offset mem dataBegin n :: hist, pos =>
    if offset ≤ pos ∧ pos < offset + n then some (mem (dataBegin + (pos - offset)))
    else lastWritten hist pos
  | .read .. :: hist, pos => lastWritten hist pos

/-- A `read` agrees with the abstract file: the count is clipped to the bytes from `offset` to the
    end, and every byte with a written position is the last one written there. -/
def ReadRight (s : FsState) (p : NodePtr) (hist : List FileOp) (offset : ℕ) (mem : Mem)
    (dataBegin n : ℕ) : Prop :=
  ∃ mem' k, readFile s p offset mem dataBegin n = .ok (mem', k) ∧
    k = min n (fileSize hist - offset) ∧
    ∀ i < k, ∀ v, lastWritten hist (offset + i) = some v → mem' (dataBegin + i) = v

/-- Every read of the run agrees with the abstract file. -/
def ReadsRight (p : NodePtr) : FsState → List FileOp → List FileOp → Prop
  | _, _, [] => True
  | s, hist, .write offset mem dataBegin n :: ops => ∃ s',
      writeFile s p offset mem dataBegin n = .ok s' ∧
        ReadsRight p s' (.write offset mem dataBegin n :: hist) ops
  | s, hist, .read offset mem dataBegin n :: ops =>
      ReadRight s p hist offset mem dataBegin n ∧
        ReadsRight p s (.read offset mem dataBegin n :: hist) ops

/-- The calls a client may make: `offset + n` below `2 ^ 47`, a buffer in the kernel half. -/
def FileOp.Legal : FileOp → Prop
  | .write offset _ dataBegin n => offset + n < 2 ^ 47 ∧ higherBase ≤ dataBegin
  | .read offset _ dataBegin n => offset + n < 2 ^ 47 ∧ higherBase ≤ dataBegin

/-- The reads that are not affected by the missing offset in the clipping by the file size. With
    `base` the start of the block that holds the offset (its end belonging to it), either nothing is
    asked for, or the read starts the file, or there is nothing from `base` or from the offset on,
    or the read stays in the block and in the file, or the file ends with the block, or the file
    reaches past the block and the read past the file by as much as it starts inside the block. -/
def ReadFits (offset n size : ℕ) : Prop :=
  let base := (offset - 1) / fsBlockSize * fsBlockSize
  n = 0 ∨ offset = 0 ∨ size ≤ base ∨ (offset = base + fsBlockSize ∧ size ≤ offset) ∨
    (offset + n ≤ base + fsBlockSize ∧ offset + n ≤ size) ∨ size = base + fsBlockSize ∨
    (base + fsBlockSize ≤ size ∧ size ≤ base + n)

/-- The calls that reach no defect, in a file system of `blocks` blocks where the history has left
    the file with `size` bytes: they fit in the blocks, and the end addresses that the copy loops
    compare with do not pass the top of the address space. -/
def FileOp.Meets (blocks size : ℕ) : FileOp → Prop
  | .write offset _ dataBegin n => 0 < blocks ∧ offset + n ≤ fsBlockSize * blocks ∧
      WriteFits offset n ∧ dataBegin + n + fsBlockSize < 2 ^ 64
  | .read offset _ dataBegin n => ReadFits offset n size ∧
      dataBegin + n + fsBlockSize < 2 ^ 64 ∧ dataBegin + size < 2 ^ 64

/-- One call, for its effect on the file system. -/
def FileOp.step (p : NodePtr) (s : FsState) : FileOp → Exec FsState
  | .write offset mem dataBegin n => writeFile s p offset mem dataBegin n
  | .read offset mem dataBegin n => do
    let _ ← readFile s p offset mem dataBegin n
    .ok s

/-- Every call of the run is legal and reaches no defect. -/
def StepsMeet (blocks : ℕ) : List FileOp → List FileOp → Prop
  | _, [] => True
  | hist, op :: ops => op.Legal ∧ op.Meets blocks (fileSize hist) ∧ StepsMeet blocks (op :: hist) ops

/-- What the run keeps: all blocks stay in one chain, which belongs to the file from its first write
    on and holds its bytes. -/
structure FileInv (blocks : ℕ) (p : NodePtr) (hist : List FileOp) (s : FsState) : Prop where
  opened : (s.nodes p).opened = true
  size : (s.nodes p).size = fileSize hist
  fits : fileSize hist ≤ fsBlockSize * blocks
  chain : ChainOf s.blocks ((s.nodes p).listHead.or s.fsDescriptorsHead) (List.range blocks).reverse
  unwritten : (s.nodes p).listHead = none → fileSize hist = 0
  content : ∀ pos v, lastWritten hist pos = some v →
    contentAt s.blocks (List.range blocks).reverse pos = v

/-! ### Reads -/

/-- The two parts of a read from `o` in a first block of `c` bytes, with `t` bytes of the file left from
    the start of that block on. -/
theorem clip_eq_iff {o n t c : ℕ} (ho : o ≤ c) (hc : 0 < c) (ht : 0 < t) :
    min n (min (c - o) t) + min (n - c) (t - c) = min n (t - o) ↔
      n = 0 ∨ o = 0 ∨ (o = c ∧ t ≤ c) ∨ (o + n ≤ c ∧ o + n ≤ t) ∨ t = c ∨ (c ≤ t ∧ t ≤ n) := by
  rcases Nat.lt_or_ge c t with hct | htc
  · rw [Nat.min_eq_left (show c - o ≤ t by omega)]
    rcases Nat.lt_or_ge c n with hcn | hnc
    · rw [Nat.min_eq_right (show c - o ≤ n by omega)]
      constructor
      · intro h
        rcases Nat.le_total t n with htn | hnt
        · exact Or.inr (Or.inr (Or.inr (Or.inr (Or.inr ⟨by omega, htn⟩))))
        · rw [Nat.min_eq_left (show n - c ≤ t - c by omega)] at h
          omega
      · intro h
        omega
    · rw [Nat.sub_eq_zero_of_le hnc, Nat.zero_min, Nat.add_zero]
      omega
  · rw [Nat.sub_eq_zero_of_le htc, Nat.min_zero, Nat.add_zero]
    rcases Nat.le_total (c - o) t with h | h
    · rw [Nat.min_eq_left h]
      omega
    · rw [Nat.min_eq_right h]
      omega

/-- The number of bytes returned is right exactly for the reads of `ReadFits`. -/
theorem readCount_eq_iff (offset n size : ℕ) :
    readCount offset n size = min n (size - offset) ↔ ReadFits offset n size := by
  obtain ⟨base, hbase⟩ : ∃ base, base = (offset - 1) / fsBlockSize * fsBlockSize := ⟨_, rfl⟩
  have hlo : base ≤ offset := by simp only [hbase, fsBlockSize]; omega
  have hhi : offset ≤ base + fsBlockSize := by simp only [hbase, fsBlockSize]; omega
  have hpos : 0 < offset → base < offset := by simp only [hbase, fsBlockSize]; omega
  have h512 : 0 < fsBlockSize := by decide
  simp only [readCount, ReadFits, ← hbase]
  generalize fsBlockSize = c at *
  clear hbase
  by_cases hs : size ≤ base
  · simp only [hs, true_or, or_true, iff_true]; omega
  · obtain ⟨t, rfl⟩ : ∃ t, size = base + t := ⟨size - base, by omega⟩
    obtain ⟨o, rfl⟩ : ∃ o, offset = base + o := ⟨offset - base, by omega⟩
    have hleft : (((base + t : ℕ) : ℤ) - base).toNat = t := by omega
    have hrest : (min (n - c : ℤ) (((base + t : ℕ) : ℤ) - base - c)).toNat = min (n - c) (t - c) := by
      omega
    have hzero : base + o = 0 ↔ o = 0 := by omega
    have hfull : base + o = base + c ∧ base + t ≤ base + o ↔ o = c ∧ t ≤ c := by omega
    have hinside : base + o + n ≤ base + c ∧ base + o + n ≤ base + t ↔ o + n ≤ c ∧ o + n ≤ t := by omega
    rw [Nat.add_sub_cancel_left, hleft, hrest, Nat.add_sub_add_left,
      clip_eq_iff (by omega) h512 (by omega), hzero, hfull, hinside, or_iff_right hs,
      Nat.add_left_cancel_iff, Nat.add_le_add_iff_left, Nat.add_le_add_iff_left]

theorem lastWritten_lt_fileSize {hist : List FileOp} {pos : ℕ} {v : UInt8}
    (h : lastWritten hist pos = some v) : pos < fileSize hist := by
  induction hist with
  | nil => cases h
  | cons op hist ih =>
    cases op with
    | write offset mem dataBegin n =>
      rw [lastWritten] at h
      rw [fileSize]
      split at h
      · omega
      · have := ih h; omega
    | read offset mem dataBegin n => exact ih h

/-- Under the invariant a legal read returns `readCount` bytes, each right. -/
theorem readFile_spec {blocks : ℕ} {p : NodePtr} {hist : List FileOp} {s : FsState}
    (hi : FileInv blocks p hist s) {offset dataBegin n : ℕ} (mem : Mem)
    (hoff : offset + n < 2 ^ 47) (hd : higherBase ≤ dataBegin)
    (hn : dataBegin + n + fsBlockSize < 2 ^ 64) (hs : dataBegin + fileSize hist < 2 ^ 64) :
    ∃ mem', readFile s p offset mem dataBegin n =
        .ok (mem', readCount offset n (fileSize hist)) ∧
      ∀ i < readCount offset n (fileSize hist), ∀ v, lastWritten hist (offset + i) = some v →
        mem' (dataBegin + i) = v := by
  have hsz : (s.nodes p).size = u64 (fileSize hist) := by rw [hi.size, u64_natCast (by omega)]
  rw [readFile, bugOn_false (by simp [hi.opened]), ok_bind, hsz]
  cases hh : (s.nodes p).listHead with
  | none =>
    have h0 := hi.unwritten hh
    have hc : readCount offset n (fileSize hist) = 0 := by
      rw [h0]; exact readCount_empty offset n (by omega)
    refine ⟨mem, ?_, fun i hlt => absurd hlt (by rw [hc]; omega)⟩
    obtain ⟨f, hf⟩ : ∃ f, blockSteps offset n = f + 1 :=
      ⟨_, (Nat.succ_pred_eq_of_pos (by have := blockSteps_ge offset n; omega)).symm⟩
    rw [hf, readFromBlock, hc]
  | some b =>
    have hch := hi.chain
    rw [hh, Option.some_or] at hch
    have hlen : ((List.range blocks).reverse).length = blocks := by simp
    refine ⟨_, readFromBlock_spec s _ _ _ offset dataBegin n _ mem hch
      (by rw [hlen]; exact_mod_cast hi.fits) hd hn (by omega) hoff (by omega) (le_refl _), ?_⟩
    · intro i hlt v hv
      rw [pasted, if_pos (by omega), Nat.add_sub_cancel_left]
      exact hi.content _ _ hv

/-! ### Writes -/

/-- `write` up to its walk: the file has grown, and its chain starts at `b`. -/
theorem writeFile_eq {s : FsState} {p : NodePtr} (ho : (s.nodes p).opened = true)
    (offset dataBegin n : ℕ) (mem : Mem) (hoff : offset + n < 2 ^ 64) {b : BlockPtr}
    (hb : (s.nodes p).listHead.or s.fsDescriptorsHead = some b) :
    ∃ t, writeFile s p offset mem dataBegin n =
        writeToBlock mem (blockSteps offset n) t b offset dataBegin n ∧
      (t.nodes p).opened = true ∧ (t.nodes p).size = max (offset + n) (s.nodes p).size ∧
      (t.nodes p).listHead = some b ∧
      ∀ c, (t.blocks c).next = (s.blocks c).next ∧ (t.blocks c).data = (s.blocks c).data := by
  have hw : wrap (offset + n) = offset + n := wrap_of_lt hoff
  rw [writeFile, bugOn_false (by simp [ho]), ok_bind, hw]
  cases hh : (s.nodes p).listHead with
  | some b' =>
    obtain rfl : b' = b := by simpa [hh] using hb
    refine ⟨{ s with nodes := Function.update s.nodes p ((s.nodes p).grow (offset + n)) }, ?_,
      by simp [ho], by simp, by simp [hh], fun c => ⟨rfl, rfl⟩⟩
    simp only [grow_listHead, hh, ok_bind]
  | none =>
    rw [hh, Option.none_or] at hb
    have ht : getFsBlock { s with
        nodes := Function.update s.nodes p ((s.nodes p).grow (offset + n)) } = .ok (_, b) :=
      getFsBlock_eq_ok.mpr ⟨hb, rfl⟩
    refine ⟨{ s.taken b with
      nodes := Function.update s.nodes p { (s.nodes p).grow (offset + n) with listHead := some b } },
      ?_, by simp [ho], by simp, by simp, taken_block s b⟩
    simp only [grow_listHead, hh, ht, ok_bind, FsState.taken, Function.update_idem]

/-- A legal write that reaches no defect returns and extends the abstract file. -/
theorem writeFile_spec {blocks : ℕ} {p : NodePtr} {hist : List FileOp} {s : FsState}
    (hi : FileInv blocks p hist s) {offset dataBegin n : ℕ} (mem : Mem)
    (hoff : offset + n < 2 ^ 47) (hd : higherBase ≤ dataBegin) (h0 : 0 < blocks)
    (hcap : offset + n ≤ fsBlockSize * blocks) (hfit : WriteFits offset n)
    (hn : dataBegin + n + fsBlockSize < 2 ^ 64) :
    ∃ s', writeFile s p offset mem dataBegin n = .ok s' ∧
      FileInv blocks p (.write offset mem dataBegin n :: hist) s' := by
  obtain ⟨m, rfl⟩ : ∃ m, blocks = m + 1 := ⟨blocks - 1, by omega⟩
  have hlist : (List.range (m + 1)).reverse = m :: (List.range m).reverse := by
    rw [List.range_succ, List.reverse_append, List.reverse_singleton, List.singleton_append]
  have hnd : (m :: (List.range m).reverse).Nodup :=
    hlist ▸ List.nodup_reverse.mpr List.nodup_range
  have hch := hi.chain
  rw [hlist] at hch
  obtain ⟨t, ht, hto, htz, hth, htb⟩ := writeFile_eq hi.opened offset dataBegin n
    mem (by omega) hch.1
  have hch' : ChainOf t.blocks (some m) (m :: (List.range m).reverse) :=
    chainOf_congr (fun c _ => (htb c).1) ⟨rfl, hch.2⟩
  obtain ⟨s', hs', hw⟩ := writeToBlock_spec mem _ (blockSteps offset n) t m offset dataBegin n hch'
    hnd (by simpa using hcap) hfit hd hn (by simp only [higherBase]; omega) (le_refl _)
  refine ⟨s', ht.trans hs', ?_⟩
  constructor
  · rw [hw.nodes]; exact hto
  · rw [hw.nodes, htz, hi.size, fileSize]
  · rw [fileSize]; exact max_le hcap hi.fits
  · rw [hw.nodes, hth, hlist]
    exact chainOf_congr (fun c _ => hw.next c) hch'
  · intro hnone
    rw [hw.nodes, hth] at hnone; cases hnone
  · intro pos v hv
    have hpos : pos < fsBlockSize * (m :: (List.range m).reverse).length := by
      have := lastWritten_lt_fileSize hv
      rw [fileSize] at this
      have hf := hi.fits
      simp only [List.length_cons, List.length_reverse, List.length_range]
      omega
    rw [hlist, hw.content pos hpos]
    rw [lastWritten] at hv
    by_cases hin : offset ≤ pos ∧ pos < offset + n
    · rw [if_pos hin] at hv ⊢
      exact Option.some.inj hv
    · rw [if_neg hin] at hv ⊢
      rw [contentAt_congr (fun c _ => (htb c).2), ← hlist]
      exact hi.content pos v hv

/-! ### Runs -/

/-- The invariant holds when the first file has just been opened. -/
theorem fileInv_open {garbage : BlockPtr → ℕ → UInt8} {blocks : ℕ} {s₀ s : FsState}
    {memAlloc : MemAlloc} {fileName : CString} {p : NodePtr}
    (hinit : initFileSystem garbage blocks = .ok s₀)
    (hopen : openFile memAlloc s₀ fileName = .ok (s, p)) : FileInv blocks p [] s := by
  obtain ⟨hch, hnone⟩ := initFileSystem_spec hinit
  obtain ⟨t, hf, -, rfl⟩ := openFile_eq_ok.mp hopen
  obtain ⟨hhead, hblocks, -⟩ := findNode_blocks hf
  obtain ⟨hl, hz⟩ := hnone.findNode hf p
  constructor
  · simp [FsState.setOpened]
  · simpa [FsState.setOpened, fileSize] using hz
  · exact Nat.zero_le _
  · simpa [FsState.setOpened, hl, hhead, hblocks] using hch
  · exact fun _ => rfl
  · intro pos v h; cases h

/-- Reads change neither the file system nor the abstract file. -/
theorem fileInv_read {blocks : ℕ} {p : NodePtr} {hist : List FileOp} {s : FsState}
    (hi : FileInv blocks p hist s) (offset : ℕ) (mem : Mem) (dataBegin n : ℕ) :
    FileInv blocks p (.read offset mem dataBegin n :: hist) s :=
  ⟨hi.opened, hi.size, hi.fits, hi.chain, hi.unwritten, hi.content⟩

/-- The run lemma: calls that reach no defect keep the invariant, and their reads are right. -/
theorem readsRight_of_inv {blocks : ℕ} {p : NodePtr} : ∀ (ops : List FileOp) {hist : List FileOp}
    {s : FsState}, FileInv blocks p hist s → StepsMeet blocks hist ops → ReadsRight p s hist ops
  | [], _, _, _, _ => trivial
  | .write offset mem dataBegin n :: ops, hist, s, hi, ⟨hl, ⟨h0, hcap, hfit, hn⟩, hrest⟩ => by
      obtain ⟨s', hs', hi'⟩ := writeFile_spec hi mem hl.1 hl.2 h0 hcap hfit hn
      exact ⟨s', hs', readsRight_of_inv ops hi' hrest⟩
  | .read offset mem dataBegin n :: ops, hist, s, hi, ⟨hl, ⟨hfit, hn, hs⟩, hrest⟩ => by
      refine ⟨?_, readsRight_of_inv ops (fileInv_read hi offset mem dataBegin n) hrest⟩
      obtain ⟨mem', hr, hbytes⟩ := readFile_spec hi mem hl.1 hl.2 hn hs
      exact ⟨mem', _, hr, (readCount_eq_iff offset n _).mpr hfit, hbytes⟩

/-- A file opened after `init_file_system` and then read and written by calls that reach no defect
    behaves as the abstract file: no call stops, and every read agrees with the history. -/
theorem reads_right_of_steps_meet (garbage : BlockPtr → ℕ → UInt8) (blocks : ℕ) {s₀ s : FsState}
    {memAlloc : MemAlloc} {fileName : CString} {p : NodePtr} (ops : List FileOp)
    (hinit : initFileSystem garbage blocks = .ok s₀)
    (hopen : openFile memAlloc s₀ fileName = .ok (s, p)) (hmeet : StepsMeet blocks [] ops) :
    ReadsRight p s [] ops :=
  readsRight_of_inv ops (fileInv_open hinit hopen) hmeet

/-- A write over the first block's end, one inside the second block and three reads. -/
def goodRun (mem : Mem) : List FileOp :=
  [.write 0 mem 0xffff800000100000 1000, .write 600 mem 0xffff800000300000 20,
    .read 0 mem 0xffff800000200000 2000, .read 530 mem 0xffff800000200000 100,
    .read 1030 mem 0xffff800000200000 7]

theorem goodRun_right : ∃ s₀ s p, initFileSystem (fun _ _ => 0) 4 = .ok s₀ ∧
    openFile .always s₀ [slash, 97] = .ok (s, p) ∧ ReadsRight p s [] (goodRun fun _ => 1) := by
  have hrun : (do
      let s₀ ← initFileSystem (fun _ _ => 0) 4
      let r ← openFile .always s₀ [slash, 97]
      .ok r.2 : Exec NodePtr) = .ok [0] := by decide +kernel
  simp only [bind_eq_ok] at hrun
  obtain ⟨s₀, h₀, ⟨s, p⟩, hopen, -⟩ := hrun
  refine ⟨s₀, s, p, h₀, hopen, reads_right_of_steps_meet _ 4 _ h₀ hopen ?_⟩
  simp [goodRun, StepsMeet, FileOp.Legal, FileOp.Meets, WriteFits, ReadFits, fileSize, fsBlockSize,
    higherBase]

/-- The memory that holds `"abcd"` with its NUL at `0xffff800000100000`. -/
def abcd : Mem := fun a => [97, 98, 99, 100].getD (a - 0xffff800000100000) 0

/-- The write of five bytes, as the kernel's own test makes it, and a read of five from offset 3. -/
def readPastEnd : List FileOp :=
  [.write 0 abcd 0xffff800000100000 5, .read 3 abcd 0xffff800000200000 5]

/-- Two bytes are left from offset 3 on, and `read` returns five: the run is legal and no call of it
    stops, but its read is not right. -/
theorem readPastEnd_not_right : ∃ s₀ s p s', initFileSystem (fun _ _ => 0) 2 = .ok s₀ ∧
    openFile .always s₀ [slash, 97] = .ok (s, p) ∧ (∀ op ∈ readPastEnd, op.Legal) ∧
    runOps (FileOp.step p) s readPastEnd = .ok s' ∧ ¬ ReadsRight p s [] readPastEnd := by
  have hrun : (do
      let s₀ ← initFileSystem (fun _ _ => 0) 2
      let r ← openFile .always s₀ [slash, 97]
      let _ ← runOps (FileOp.step r.2) r.1 readPastEnd
      let t ← writeFile r.1 r.2 0 abcd 0xffff800000100000 5
      let got ← readFile t r.2 3 abcd 0xffff800000200000 5
      .ok got.2 : Exec ℕ) = .ok 5 := by decide +kernel
  simp only [bind_eq_ok] at hrun
  obtain ⟨s₀, h₀, ⟨s, p⟩, hopen, s', hops, t, hwrite, ⟨m, k⟩, hread, hk⟩ := hrun
  refine ⟨s₀, s, p, s', h₀, hopen, by simp [readPastEnd, FileOp.Legal, higherBase], hops, ?_⟩
  rintro ⟨t', hwrite', ⟨m', k', hread', hk', -⟩, -⟩
  cases hwrite.symm.trans hwrite'
  cases hread.symm.trans hread'
  cases hk
  simp [fileSize] at hk'

end FilesKernel.FileSystem
