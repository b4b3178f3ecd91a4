import Mathlib.Data.Int.Basic
import Mathlib.Data.List.Nodup
import FilesKernel.FileSystem.Model
import FilesKernel.Memory

/-! What the recursive walks over a block chain do.

    A chain is the list of descriptors met by following `next_`; `contentAt` reads the bytes of a
    chain as one array. `write_to_block` and `read_from_block` are specified once each, on a buffer
    in the kernel half of the address space: the write for the offsets and lengths that do not
    reach one of its defects, the read for all of them, with the number of bytes it really
    returns. -/

namespace FilesKernel.FileSystem
open CExec CWord

/-- Following `next_` from `b` visits the descriptors of the list and ends in `NULL`. -/
def ChainOf (blocks : BlockPtr → FsDescriptorList) : Option BlockPtr → List BlockPtr → Prop
  | b, [] => b = none
  | b, c :: l => b = some c ∧ ChainOf blocks (blocks c).next l

/-- The byte at a position of the chain read as one array. -/
def contentAt (blocks : BlockPtr → FsDescriptorList) : List BlockPtr → ℕ → UInt8
  | [], _ => 0
  | b :: l, pos =>
    if pos < fsBlockSize then (blocks b).data pos else contentAt blocks l (pos - fsBlockSize)

/-- A chain depends on `next_` only. -/
theorem chainOf_congr {blocks blocks' : BlockPtr → FsDescriptorList} :
    ∀ {l : List BlockPtr} {b : Option BlockPtr}, (∀ c ∈ l, (blocks' c).next = (blocks c).next) →
      ChainOf blocks b l → ChainOf blocks' b l
  | [], _, _, h => h
  | c :: l, b, hn, ⟨hb, h⟩ => by
      refine ⟨hb, ?_⟩
      rw [hn c List.mem_cons_self]
      exact chainOf_congr (fun x hx => hn x (List.mem_cons_of_mem _ hx)) h

theorem contentAt_congr {blocks blocks' : BlockPtr → FsDescriptorList} :
    ∀ {l : List BlockPtr}, (∀ c ∈ l, (blocks' c).data = (blocks c).data) →
      ∀ pos, contentAt blocks' l pos = contentAt blocks l pos
  | [], _, _ => rfl
  | c :: l, h, pos => by
      rw [contentAt, contentAt, h c List.mem_cons_self,
        contentAt_congr (fun x hx => h x (List.mem_cons_of_mem _ hx))]

/-! ### The copy loops -/

/-- The bytes of a block after `m` bytes from address `byte` on were copied to `pos`. -/
def pasted (mem : Mem) (byte pos m : ℕ) (data : ℕ → UInt8) : ℕ → UInt8 :=
  fun i => if pos ≤ i ∧ i < pos + m then mem (byte + (i - pos)) else data i

theorem pasted_zero (mem : Mem) (byte pos : ℕ) (data : ℕ → UInt8) :
    pasted mem byte pos 0 data = data := by
  funext i; rw [pasted, if_neg (by omega)]

/-- Copying one byte and then `m` more is copying `m + 1`. -/
theorem pasted_succ (mem : Mem) (byte pos m : ℕ) (data : ℕ → UInt8) :
    pasted mem (byte + 1) (pos + 1) m (Function.update data pos (mem byte)) =
      pasted mem byte pos (m + 1) data := by
  funext i
  simp only [pasted]
  by_cases hi : i = pos
  · subst hi
    rw [if_neg (by omega), if_pos (by omega), Function.update_self, Nat.sub_self, Nat.add_zero]
  · rw [Function.update_of_ne hi]
    by_cases hin : pos + 1 ≤ i ∧ i < pos + 1 + m
    · rw [if_pos hin, if_pos (by omega)]
      congr 1; omega
    · rw [if_neg hin, if_neg (by omega)]

/-- `copyToBlock` copies up to the nearer of the two end addresses. -/
theorem copyToBlock_spec (mem : Mem) {dataEnd blockEnd : ℕ} (hend : dataEnd < 2 ^ 64) :
    ∀ (m fuel byte pos : ℕ) (data : ℕ → UInt8), m = min dataEnd blockEnd - byte → m < fuel →
      (m = 0 ∨ pos + m ≤ fsBlockSize) →
      copyToBlock mem dataEnd blockEnd fuel byte pos data =
        .ok (pasted mem byte pos m data, byte + m)
  | 0, fuel + 1, byte, pos, data, hm, _, _ => by
      rw [copyToBlock, if_neg (by omega), pasted_zero, Nat.add_zero]
  | m + 1, fuel + 1, byte, pos, data, hm, hfuel, hpos => by
      rw [copyToBlock, if_pos (by omega), if_pos (by omega)]
      have hw : wrap (byte + 1) = byte + 1 := wrap_of_lt (by omega)
      rw [hw, copyToBlock_spec mem hend m fuel (byte + 1) (pos + 1) _ (by omega) (by omega)
        (by omega), pasted_succ]
      congr 2; omega

/-- `copyFromBlock` copies up to the nearest of the three end addresses and counts the bytes. -/
theorem copyFromBlock_spec (data : ℕ → UInt8) {dataEnd blockEnd fileEnd : ℕ}
    (hend : dataEnd < 2 ^ 64) :
    ∀ (m fuel byte pos : ℕ) (mem : Mem) (k : ℕ),
      m = min dataEnd (min blockEnd fileEnd) - byte → m < fuel → pos + m ≤ fsBlockSize →
      k + m < 2 ^ 64 →
      copyFromBlock data dataEnd blockEnd fileEnd fuel byte pos mem k =
        .ok (pasted data pos byte m mem, byte + m, k + m)
  | 0, fuel + 1, byte, pos, mem, k, hm, _, _, _ => by
      rw [copyFromBlock, if_neg (by omega), pasted_zero, Nat.add_zero, Nat.add_zero]
  | m + 1, fuel + 1, byte, pos, mem, k, hm, hfuel, hpos, hk => by
      rw [copyFromBlock, if_pos (by omega), if_pos (by omega)]
      have hw : wrap (byte + 1) = byte + 1 := wrap_of_lt (by omega)
      have hwk : wrap (k + 1) = k + 1 := wrap_of_lt (by omega)
      rw [hw, hwk, copyFromBlock_spec data hend m fuel (byte + 1) (pos + 1) _ (k + 1) (by omega)
        (by omega) (by omega) (by omega), pasted_succ]
      congr 2
      exact Prod.ext (by simp only; omega) (by simp only; omega)

/-! ### Nesting depth -/

theorem blockSteps_ge (offset n : ℕ) : 3 ≤ blockSteps offset n := Nat.le_add_left _ _

theorem blockSteps_skip {offset : ℕ} (h : fsBlockSize < offset) (n : ℕ) :
    blockSteps (offset - fsBlockSize) n + 1 = blockSteps offset n := by
  simp only [blockSteps, fsBlockSize] at *; omega

theorem blockSteps_cross {n : ℕ} (h : fsBlockSize ≤ n) :
    blockSteps 0 (n - fsBlockSize) + 1 = blockSteps 0 n := by
  simp only [blockSteps, fsBlockSize] at *; omega

/-- The bound covers a length in whole blocks, with a block to spare. -/
theorem lt_blockSteps (offset n : ℕ) : n + fsBlockSize < fsBlockSize * (blockSteps offset n - 1) := by
  simp only [blockSteps, fsBlockSize]; omega

/-! ### Writing -/

/-- The offsets and lengths that reach no defect of `write_to_block`: nothing is written, the write
    starts at a block that is not skipped to, or it stays strictly inside one block. -/
def WriteFits (offset n : ℕ) : Prop :=
  n = 0 ∨ offset = 0 ∨ (offset % fsBlockSize ≠ 0 ∧ offset % fsBlockSize + n ≤ fsBlockSize)

/-- `s'` is `s` with the bytes `[offset, offset + n)` of the chain replaced by those at `dataBegin`,
    and nothing else changed. -/
structure Wrote (s s' : FsState) (chain : List BlockPtr) (offset n : ℕ) (mem : Mem)
    (dataBegin : ℕ) : Prop where
  head : s'.fsDescriptorsHead = s.fsDescriptorsHead
  nodes : s'.nodes = s.nodes
  next : ∀ c, (s'.blocks c).next = (s.blocks c).next
  frame : ∀ c, c ∉ chain → s'.blocks c = s.blocks c
  content : ∀ pos, pos < fsBlockSize * chain.length → contentAt s'.blocks chain pos =
    if offset ≤ pos ∧ pos < offset + n then mem (dataBegin + (pos - offset))
    else contentAt s.blocks chain pos

/-- The state after the bytes of one block have been replaced. -/
def FsState.setData (s : FsState) (b : BlockPtr) (data : ℕ → UInt8) : FsState :=
  { s with blocks := Function.update s.blocks b { s.blocks b with data := data } }

theorem setData_self (s : FsState) (b : BlockPtr) : s.setData b (s.blocks b).data = s := by
  rw [FsState.setData, Function.update_eq_self]

theorem setData_next (s : FsState) (b : BlockPtr) (data : ℕ → UInt8) (c : BlockPtr) :
    ((s.setData b data).blocks c).next = (s.blocks c).next := by
  by_cases h : c = b
  · subst h; simp [FsState.setData]
  · simp [FsState.setData, Function.update_of_ne h]

theorem nextBlock_some {s : FsState} {b c : BlockPtr} (h : (s.blocks b).next = some c) :
    nextBlock s b = .ok (s, c) := by
  simp [nextBlock, h]

/-- One call of `write_to_block` on an offset inside the block, up to its second recursion. -/
theorem writeToBlock_inside (mem : Mem) (fuel : ℕ) (s : FsState) (b : BlockPtr)
    {offset dataBegin n : ℕ} (hoff : offset ≤ fsBlockSize) (hd : higherBase ≤ dataBegin)
    (hn : dataBegin + n + fsBlockSize < 2 ^ 64) :
    writeToBlock mem (fuel + 1) s b offset dataBegin n =
      (let s' := s.setData b
        (pasted mem dataBegin offset (min n (fsBlockSize - offset)) (s.blocks b).data)
      if fsBlockSize - offset < n then do
        let (s'', next) ← nextBlock s' b
        writeToBlock mem fuel s'' next 0 (dataBegin + (fsBlockSize - offset)) (wsub n fsBlockSize)
      else .ok s') := by
  have hend : wrap (dataBegin + n) = dataBegin + n := wrap_of_lt (by omega)
  have hblk : wsub (dataBegin + fsBlockSize) offset = dataBegin + (fsBlockSize - offset) := by
    rw [wsub_eq]; simp only [fsBlockSize, higherBase] at *; omega
  rw [writeToBlock, if_neg (by omega)]
  simp only [ok_bind, hend, hblk]
  rw [copyToBlock_spec mem (by omega) (min n (fsBlockSize - offset)) _ _ _ _ (by omega)
    (by omega) (by omega)]
  simp only [ok_bind, FsState.setData]
  by_cases hlt : fsBlockSize - offset < n
  · rw [if_pos (by omega), if_pos hlt, Nat.min_eq_right (by omega)]
  · rw [if_neg (by omega), if_neg hlt]

/-- A call whose length has wrapped below zero does nothing. -/
theorem writeToBlock_idle (mem : Mem) (fuel : ℕ) (s : FsState) (b : BlockPtr) {dataBegin n : ℕ}
    (hd : higherBase ≤ dataBegin) (hn : n ≤ fsBlockSize) (hb : dataBegin + fsBlockSize < 2 ^ 64) :
    writeToBlock mem (fuel + 1) s b 0 dataBegin (wsub n fsBlockSize) = .ok s := by
  have hend : wrap (dataBegin + wsub n fsBlockSize) ≤ dataBegin := by
    rw [wrap_eq, wsub_eq]; simp only [fsBlockSize, higherBase] at *; omega
  rw [writeToBlock, if_neg (by omega)]
  simp only [ok_bind]
  rw [copyToBlock_spec mem (by omega) 0 _ _ _ _ (by omega) (by omega)
    (Or.inl rfl)]
  simp only [ok_bind, pasted_zero, Nat.add_zero]
  rw [if_neg (by omega)]
  exact congrArg Except.ok (setData_self s b)

/-- Replacing bytes of the first block of a chain. -/
theorem contentAt_setData {s : FsState} {b : BlockPtr} {l : List BlockPtr} (hb : b ∉ l)
    (data : ℕ → UInt8) (pos : ℕ) :
    contentAt (s.setData b data).blocks (b :: l) pos =
      if pos < fsBlockSize then data pos else contentAt s.blocks l (pos - fsBlockSize) := by
  rw [contentAt]
  congr 1
  · simp [FsState.setData]
  · refine contentAt_congr (fun c hc => ?_) _
    have hne : c ≠ b := fun h => hb (h ▸ hc)
    simp [FsState.setData, Function.update_of_ne hne]

/-- A write into one block, as a write into the chain it starts. -/
theorem wrote_inside {s : FsState} {b : BlockPtr} {l : List BlockPtr} (hb : b ∉ l)
    {offset n : ℕ} (hfit : offset + n ≤ fsBlockSize) (mem : Mem) (dataBegin : ℕ) :
    Wrote s (s.setData b (pasted mem dataBegin offset n (s.blocks b).data)) (b :: l) offset n mem
      dataBegin where
  head := rfl
  nodes := rfl
  next := setData_next s b _
  frame c hc := by
    have hne : c ≠ b := fun h => hc (h ▸ List.mem_cons_self)
    simp [FsState.setData, Function.update_of_ne hne]
  content pos _ := by
    rw [contentAt_setData hb, contentAt]
    by_cases hpos : pos < fsBlockSize
    · rw [if_pos hpos, if_pos hpos, pasted]
    · rw [if_neg hpos, if_neg hpos, if_neg (by omega)]

/-- A write into the rest of a chain, as a write into the chain. -/
theorem wrote_rest {s s' : FsState} {b : BlockPtr} {l : List BlockPtr} (hb : b ∉ l)
    {offset n : ℕ} {mem : Mem} {dataBegin : ℕ} (h : Wrote s s' l offset n mem dataBegin) :
    Wrote s s' (b :: l) (offset + fsBlockSize) n mem dataBegin where
  head := h.head
  nodes := h.nodes
  next := h.next
  frame c hc := h.frame c (fun hm => hc (List.mem_cons_of_mem _ hm))
  content pos hpos := by
    rw [contentAt, contentAt, h.frame b hb]
    by_cases hp : pos < fsBlockSize
    · rw [if_pos hp, if_pos hp, if_neg (by omega)]
    · rw [List.length_cons] at hpos
      rw [if_neg hp, if_neg hp, h.content (pos - fsBlockSize)
        (by simp only [fsBlockSize] at *; omega)]
      by_cases hin : offset + fsBlockSize ≤ pos ∧ pos < offset + fsBlockSize + n
      · rw [if_pos hin, if_pos (by omega)]
        exact congrArg mem (by omega)
      · rw [if_neg hin, if_neg (by omega)]

/-- Filling the first block and then writing on into the rest of the chain. -/
theorem wrote_append {s s' : FsState} {b : BlockPtr} {l : List BlockPtr} (hb : b ∉ l) {n : ℕ}
    (hn : fsBlockSize < n) {mem : Mem} {dataBegin : ℕ}
    (h : Wrote (s.setData b (pasted mem dataBegin 0 fsBlockSize (s.blocks b).data)) s' l 0
      (n - fsBlockSize) mem (dataBegin + fsBlockSize)) :
    Wrote s s' (b :: l) 0 n mem dataBegin where
  head := h.head
  nodes := h.nodes
  next c := (h.next c).trans (setData_next s b _ c)
  frame c hc := by
    rw [List.mem_cons, not_or] at hc
    rw [h.frame c hc.2]
    simp [FsState.setData, Function.update_of_ne hc.1]
  content pos hpos := by
    have hl : ∀ q, contentAt (s.setData b (pasted mem dataBegin 0 fsBlockSize
        (s.blocks b).data)).blocks l q = contentAt s.blocks l q := by
      refine contentAt_congr (fun c hc => ?_)
      have hne : c ≠ b := fun e => hb (e ▸ hc)
      simp [FsState.setData, Function.update_of_ne hne]
    rw [contentAt, contentAt, h.frame b hb]
    by_cases hp : pos < fsBlockSize
    · rw [if_pos hp, if_pos hp, if_pos (by omega)]
      simp only [FsState.setData, Function.update_self, pasted]
      rw [if_pos (by omega)]
    · rw [List.length_cons] at hpos
      rw [if_neg hp, if_neg hp, h.content (pos - fsBlockSize)
        (by simp only [fsBlockSize] at *; omega), hl]
      by_cases hin : pos < n
      · rw [if_pos (by omega), if_pos (by omega)]
        exact congrArg mem (by omega)
      · rw [if_neg (by omega), if_neg (by omega)]

/-- The write, where it reaches no defect: exactly the given bytes of the chain change. -/
theorem writeToBlock_spec (mem : Mem) : ∀ (l : List BlockPtr) (fuel : ℕ) (s : FsState)
    (b : BlockPtr) (offset dataBegin n : ℕ), ChainOf s.blocks (some b) (b :: l) → (b :: l).Nodup →
    offset + n ≤ fsBlockSize * (l.length + 1) → WriteFits offset n → higherBase ≤ dataBegin →
    dataBegin + n + fsBlockSize < 2 ^ 64 → offset < higherBase → blockSteps offset n ≤ fuel →
    ∃ s', writeToBlock mem fuel s b offset dataBegin n = .ok s' ∧
      Wrote s s' (b :: l) offset n mem dataBegin := by
  intro l
  induction l with
  | nil =>
    intro fuel s b offset dataBegin n _ hnd hcap _ hd hn _ hfuel
    have h3 := blockSteps_ge offset n
    obtain ⟨f, rfl⟩ : ∃ f, fuel = f + 1 := ⟨fuel - 1, by omega⟩
    simp only [List.length_nil, Nat.zero_add, Nat.mul_one] at hcap
    rw [writeToBlock_inside mem f s b (by omega) hd hn]
    refine ⟨_, if_neg (by omega), ?_⟩
    rw [Nat.min_eq_left (by omega)]
    exact wrote_inside (List.nodup_cons.mp hnd).1 hcap mem dataBegin
  | cons c l ih =>
    intro fuel s b offset dataBegin n hch hnd hcap hfit hd hn hlow hfuel
    have h3 := blockSteps_ge offset n
    obtain ⟨f, rfl⟩ : ∃ f, fuel = f + 2 := ⟨fuel - 2, by omega⟩
    obtain ⟨hbl, hnd'⟩ := List.nodup_cons.mp hnd
    obtain ⟨-, hnext, hch'⟩ := hch
    have hch' : ChainOf s.blocks (some c) (c :: l) := ⟨rfl, hch'⟩
    rw [List.length_cons] at hcap
    by_cases hskip : offset > fsBlockSize
    · -- the block is skipped; the code falls through with nothing left to copy here
      have hsub : wsub offset fsBlockSize = offset - fsBlockSize := by
        rw [wsub_eq]; simp only [fsBlockSize, higherBase] at *; omega
      have hfit' : WriteFits (offset - fsBlockSize) n := by
        simp only [WriteFits, fsBlockSize] at *; omega
      obtain ⟨s', hs', hw⟩ := ih (f + 1) s c (offset - fsBlockSize) dataBegin n hch' hnd'
        (by simp only [fsBlockSize] at *; omega) hfit' hd hn (by omega)
        (by have := blockSteps_skip hskip n; omega)
      have hw' := wrote_rest hbl hw
      rw [Nat.sub_add_cancel (by omega)] at hw'
      refine ⟨s', ?_, hw'⟩
      have hend : wrap (dataBegin + n) = dataBegin + n := wrap_of_lt (by omega)
      have hblk : wsub (dataBegin + fsBlockSize) offset ≤ dataBegin := by
        rw [wsub_eq]; simp only [fsBlockSize, higherBase] at *; omega
      rw [writeToBlock, if_pos hskip]
      simp only [nextBlock_some hnext, ok_bind, hsub, hs', hend]
      rw [copyToBlock_spec mem (by omega) 0 _ _ _ _ (by omega) (by omega) (Or.inl rfl)]
      simp only [ok_bind, pasted_zero, Nat.add_zero]
      have hself := setData_self s' b
      rw [FsState.setData] at hself
      rw [hself]
      by_cases hn0 : n = 0
      · rw [if_neg (by omega)]
      · rw [if_pos (by omega), nextBlock_some ((hw.next b).trans hnext)]
        simp only [ok_bind]
        exact writeToBlock_idle mem f s' c hd
          (by simp only [WriteFits, fsBlockSize] at hfit ⊢; omega) (by omega)
    · rw [writeToBlock_inside mem (f + 1) s b (by omega) hd hn]
      by_cases hin : n ≤ fsBlockSize - offset
      · refine ⟨_, if_neg (by omega), ?_⟩
        rw [Nat.min_eq_left hin]
        exact wrote_inside hbl (by omega) mem dataBegin
      · -- only a write from the start of the chain may cross into the next block
        have h0 : offset = 0 := by simp only [WriteFits, fsBlockSize] at *; omega
        subst h0
        rw [if_pos (by omega)]
        have hsub : wsub n fsBlockSize = n - fsBlockSize := by
          rw [wsub_eq]; simp only [fsBlockSize, higherBase] at *; omega
        simp only [Nat.sub_zero] at hin ⊢
        rw [nextBlock_some ((setData_next s b _ b).trans hnext), hsub,
          Nat.min_eq_right (by omega)]
        simp only [ok_bind]
        obtain ⟨s', hs', hw⟩ := ih (f + 1)
          (s.setData b (pasted mem dataBegin 0 fsBlockSize (s.blocks b).data)) c 0
          (dataBegin + fsBlockSize) (n - fsBlockSize)
          (chainOf_congr (fun x _ => setData_next s b _ x) hch') hnd'
          (by simp only [fsBlockSize] at *; omega) (Or.inr (Or.inl rfl)) (by omega) (by omega)
          (by omega) (by have := blockSteps_cross (n := n) (by omega); omega)
        exact ⟨s', hs', wrote_append hbl (by omega) hw⟩

/-! ### Reading -/

/- Lengths that are left may have gone below zero. -/
theorem wsub_u64 (z : ℤ) : wsub (u64 z) fsBlockSize = u64 (z - fsBlockSize) := by
  rw [wsub_eq, u64_eq, u64_eq]; simp only [fsBlockSize]; omega

/-- An address plus such a difference, when the sum is an address. -/
theorem wrap_add_u64 {d : ℕ} {z : ℤ} (h0 : 0 ≤ d + z) (h1 : d + z < 2 ^ 64) :
    (wrap (d + u64 z) : ℤ) = d + z := by
  rw [wrap_eq, u64_eq]; omega

/-- How far the copy loop gets when the room in the block is `room`. -/
theorem copy_length {e f d : ℕ} {n size : ℤ} (hn : (e : ℤ) = d + n)
    (hs : (f : ℤ) = d + size) (room : ℕ) :
    min e (min (d + room) f) - d = min (min n size).toNat room := by
  omega

theorem min_toNat (n : ℕ) (size : ℤ) (room : ℕ) :
    min (min (n : ℤ) size).toNat room = min n (min room size.toNat) := by
  omega

/-- Two adjacent copies out of one array are one copy. -/
theorem pasted_pasted {f g c : ℕ → UInt8} {p d m₁ m₂ : ℕ} {mem : Mem}
    (h₁ : ∀ i < m₁, f (p + i) = c (p + i)) (h₂ : ∀ i < m₂, g i = c (p + m₁ + i)) :
    pasted g 0 (d + m₁) m₂ (pasted f p d m₁ mem) = pasted c p d (m₁ + m₂) mem := by
  funext a
  simp only [pasted, Nat.zero_add]
  by_cases ha : d + m₁ ≤ a ∧ a < d + m₁ + m₂
  · rw [if_pos ha, if_pos (by omega), h₂ _ (by omega)]
    exact congrArg c (by omega)
  · rw [if_neg ha]
    by_cases hb : d ≤ a ∧ a < d + m₁
    · rw [if_pos hb, if_pos (by omega), h₁ _ (by omega)]
    · rw [if_neg hb, if_neg (by omega)]

theorem contentAt_head {blocks : BlockPtr → FsDescriptorList} {b : BlockPtr} {l : List BlockPtr}
    {pos : ℕ} (h : pos < fsBlockSize) : contentAt blocks (b :: l) pos = (blocks b).data pos := by
  rw [contentAt, if_pos h]

theorem contentAt_tail {blocks : BlockPtr → FsDescriptorList} {b : BlockPtr} {l : List BlockPtr}
    {pos : ℕ} (h : fsBlockSize ≤ pos) :
    contentAt blocks (b :: l) pos = contentAt blocks l (pos - fsBlockSize) := by
  rw [contentAt, if_neg (by omega)]

/-- A length is what fits into the first block, and the rest. -/
theorem firstBlock_rest (n size : ℤ) (c : ℕ) :
    min (min n size).toNat c + (min (n - c) (size - c)).toNat = (min n size).toNat := by
  omega

/-- The read from the start of a block: both the length and the file size that is left may have
    gone below zero, and then nothing more is read. -/
theorem readFromBlock_aligned (s : FsState) : ∀ (l : List BlockPtr) (fuel : ℕ)
    (b : Option BlockPtr) (d : ℕ) (n size : ℤ) (mem : Mem) (k : ℕ), ChainOf s.blocks b l →
    size ≤ fsBlockSize * l.length → higherBase ≤ d → d + fsBlockSize < 2 ^ 64 →
    d + n + fsBlockSize < 2 ^ 64 → d + size < 2 ^ 64 → -fsBlockSize ≤ n → -2 ^ 48 ≤ size - n →
    n + fsBlockSize ≤ fsBlockSize * fuel → 0 < fuel → k + (min n size).toNat < 2 ^ 64 →
    readFromBlock s fuel b 0 d (u64 n) (u64 size) mem k =
      .ok (pasted (contentAt s.blocks l) 0 d (min n size).toNat mem, k + (min n size).toNat) := by
  intro l
  induction l with
  | nil =>
    intro fuel b d n size mem k hch hcap _ _ _ _ _ _ _ hfuel _
    obtain ⟨f, rfl⟩ : ∃ f, fuel = f + 1 := ⟨fuel - 1, by omega⟩
    obtain rfl : b = none := hch
    have h0 : (min n size).toNat = 0 := by simp only [List.length_nil] at hcap; omega
    rw [readFromBlock, h0, pasted_zero, Nat.add_zero]
  | cons c l ih =>
    intro fuel b d n size mem k hch hcap hd hb hn hs hn0 hdiff hfuel hpos hk
    obtain ⟨f, rfl⟩ : ∃ f, fuel = f + 1 := ⟨fuel - 1, by omega⟩
    obtain ⟨rfl, hch⟩ := hch
    have hdata : (wrap (d + u64 n) : ℤ) = d + n :=
      wrap_add_u64 (by simp only [fsBlockSize, higherBase] at *; omega)
        (by simp only [fsBlockSize] at *; omega)
    have hfile : (wrap (d + u64 size) : ℤ) = d + size :=
      wrap_add_u64 (by simp only [fsBlockSize, higherBase] at *; omega) hs
    have hblk : wsub (d + fsBlockSize) 0 = d + fsBlockSize := wsub_of_le (by omega) hb
    rw [List.length_cons] at hcap
    obtain ⟨m, hm⟩ : ∃ m, m = min (min n size).toNat fsBlockSize := ⟨_, rfl⟩
    have hlen := copy_length hdata hfile fsBlockSize
    have hrest := firstBlock_rest n size fsBlockSize
    rw [← hm] at hlen hrest
    obtain ⟨hmb, hmn⟩ : m ≤ fsBlockSize ∧ (m : ℤ) ≤ max n 0 := by omega
    have hlast : n ≤ m → (min (n - fsBlockSize) (size - fsBlockSize)).toNat = 0 := by omega
    clear hm
    obtain ⟨rest, hr⟩ : ∃ rest, rest = (min (n - fsBlockSize) (size - fsBlockSize)).toNat := ⟨_, rfl⟩
    rw [← hr] at hrest hlast
    rw [← hrest] at hk ⊢
    have hend : wrap (d + u64 n) < 2 ^ 64 := by omega
    have hpos' : 0 + m ≤ fsBlockSize := by rw [Nat.zero_add]; exact hmb
    have hkm : k + m < 2 ^ 64 := lt_of_le_of_lt (Nat.add_le_add_left (Nat.le_add_right m rest) k) hk
    rw [readFromBlock, if_neg (Nat.not_lt_zero _), hblk,
      copyFromBlock_spec _ hend m _ _ _ _ _ hlen.symm (Nat.lt_succ_of_le hmb) hpos' hkm]
    simp only [ok_bind]
    have hhead : ∀ i < m, (s.blocks c).data (0 + i) = contentAt s.blocks (c :: l) (0 + i) :=
      fun i hi => (contentAt_head (by omega)).symm
    clear hlen
    by_cases hmore : d + m < wrap (d + u64 n)
    · have hgo : (m : ℤ) < n := by omega
      have hnext : d + m + rest < 2 ^ 64 ∧ k + m + rest < 2 ^ 64 := by omega
      rw [if_pos hmore]
      clear hdata hfile hlast hmore hblk
      rw [wsub_u64, wsub_u64, ih f _ _ _ _ _ _ hch
        (by simp only [fsBlockSize] at hcap ⊢; omega) (by omega) (by omega) (by omega) (by omega)
        (by omega) (by omega) (by simp only [fsBlockSize] at hfuel ⊢; omega)
        (by simp only [fsBlockSize] at hfuel hmb; omega) (by rw [← hr]; exact hnext.2), ← hr]
      refine congrArg Except.ok (Prod.ext ?_ (Nat.add_assoc k m rest))
      refine pasted_pasted hhead (fun i hi => ?_)
      have h512 : 0 + m + i - fsBlockSize = i := by simp only [fsBlockSize] at *; omega
      rw [contentAt_tail (by simp only [fsBlockSize] at *; omega), h512]
    · have he : rest = 0 := hlast (by omega)
      rw [if_neg hmore, he, Nat.add_zero]
      refine congrArg Except.ok (Prod.ext ?_ rfl)
      rw [← pasted_zero (contentAt s.blocks l) 0 (d + m) (pasted _ _ _ _ mem)]
      exact pasted_pasted hhead (fun i hi => absurd hi (Nat.not_lt_zero i))

/-- How many bytes `read_from_block` returns. With `base` the start of the block the read ends its
    skipping in, the first part is clipped by the size left from `base` on and not from `offset`
    on, and the second is shortened by a whole block however few bytes the first took. -/
def readCount (offset n : ℕ) (size : ℤ) : ℕ :=
  let base := (offset - 1) / fsBlockSize * fsBlockSize
  min n (min (fsBlockSize - (offset - base)) (size - base).toNat) +
    (min (n - fsBlockSize : ℤ) (size - base - fsBlockSize)).toNat

/-- Skipping a block shifts the offset and the size left. -/
theorem readCount_skip {offset : ℕ} (h : fsBlockSize < offset) (n : ℕ) (size : ℤ) :
    readCount (offset - fsBlockSize) n (size - fsBlockSize) = readCount offset n size := by
  have hbase : (offset - fsBlockSize - 1) / fsBlockSize * fsBlockSize + fsBlockSize =
      (offset - 1) / fsBlockSize * fsBlockSize := by
    simp only [fsBlockSize] at *; omega
  have hoff : offset - fsBlockSize - (offset - fsBlockSize - 1) / fsBlockSize * fsBlockSize =
      offset - ((offset - fsBlockSize - 1) / fsBlockSize * fsBlockSize + fsBlockSize) := by omega
  have hsize : size - fsBlockSize -
      ((offset - fsBlockSize - 1) / fsBlockSize * fsBlockSize : ℕ) =
      size - ((offset - fsBlockSize - 1) / fsBlockSize * fsBlockSize + fsBlockSize : ℕ) := by omega
  simp only [readCount, ← hbase, hoff, hsize]

/-- Nothing is read once no size is left. -/
theorem readCount_empty (offset n : ℕ) {size : ℤ} (h : size ≤ 0) :
    readCount offset n size = 0 := by
  have hs : (size - ((offset - 1) / fsBlockSize * fsBlockSize : ℕ)).toNat = 0 := by omega
  have hm : (min (n - fsBlockSize : ℤ)
      (size - ((offset - 1) / fsBlockSize * fsBlockSize : ℕ) - fsBlockSize)).toNat = 0 := by omega
  simp only [readCount, hs, hm, Nat.min_zero]

/-- The count of a read that starts in the first block. -/
theorem readCount_inside {offset : ℕ} (h : offset ≤ fsBlockSize) (n : ℕ) (size : ℤ) :
    readCount offset n size = min n (min (fsBlockSize - offset) size.toNat) +
      (min (n - fsBlockSize : ℤ) (size - fsBlockSize)).toNat := by
  have hbase : (offset - 1) / fsBlockSize = 0 := by simp only [fsBlockSize] at *; omega
  simp only [readCount, hbase, Nat.zero_mul, Nat.sub_zero, Int.natCast_zero, Int.sub_zero]

/-- The first part of a read, of `m` bytes up to the end of its block, and the rest `r`: what is
    read beyond the block means that the block was read to its end. -/
theorem first_rest {m r n c : ℕ} {size : ℤ} {offset : ℕ}
    (hm : m = min n (min (c - offset) size.toNat)) (hr : r = (min (n - c : ℤ) (size - c)).toNat) :
    m ≤ c - offset ∧ m ≤ n ∧ r ≤ n ∧ (0 < r → m = c - offset) ∧ (m = n → r = 0) := by
  have hmn : m ≤ n := by omega
  have hmc : m ≤ c - offset := by omega
  have hrn : r ≤ n := by omega
  have hcross : 0 < r → m = c - offset := by omega
  exact ⟨hmc, hmn, hrn, hcross, by omega⟩

/-- The read, for every offset and length: `readCount` bytes, each from its place in the chain. -/
theorem readFromBlock_spec (s : FsState) : ∀ (l : List BlockPtr) (fuel : ℕ) (b : Option BlockPtr)
    (offset d n : ℕ) (size : ℤ) (mem : Mem), ChainOf s.blocks b l →
    size ≤ fsBlockSize * l.length → higherBase ≤ d → d + n + fsBlockSize < 2 ^ 64 →
    d + size < 2 ^ 64 → offset + n < 2 ^ 47 → -2 ^ 47 ≤ size - offset →
    blockSteps offset n ≤ fuel →
    readFromBlock s fuel b offset d n (u64 size) mem 0 =
      .ok (pasted (contentAt s.blocks l) offset d (readCount offset n size) mem,
        readCount offset n size) := by
  intro l
  induction l with
  | nil =>
    intro fuel b offset d n size mem hch hcap _ _ _ _ _ hfuel
    have h3 := blockSteps_ge offset n
    obtain ⟨f, rfl⟩ : ∃ f, fuel = f + 1 := ⟨fuel - 1, by omega⟩
    obtain rfl : b = none := hch
    have h0 : readCount offset n size = 0 :=
      readCount_empty offset n (by simpa using hcap)
    rw [readFromBlock, h0, pasted_zero]
  | cons c l ih =>
    intro fuel b offset d n size mem hch hcap hd hn hs hoff hdiff hfuel
    have h3 := blockSteps_ge offset n
    obtain ⟨f, rfl⟩ : ∃ f, fuel = f + 1 := ⟨fuel - 1, by omega⟩
    obtain ⟨rfl, hch⟩ := hch
    rw [List.length_cons] at hcap
    by_cases hskip : offset > fsBlockSize
    · rw [readFromBlock, if_pos hskip, wsub_of_le (by omega) (by omega), wsub_u64,
        ih f _ (offset - fsBlockSize) d n _ mem hch (by simp only [fsBlockSize] at *; omega) hd hn
          (by omega) (by omega) (by omega) (by have := blockSteps_skip hskip n; omega),
        readCount_skip hskip]
      refine congrArg Except.ok (Prod.ext ?_ rfl)
      funext a
      simp only [pasted]
      by_cases ha : d ≤ a ∧ a < d + readCount offset n size
      · have hsub : offset + (a - d) - fsBlockSize = offset - fsBlockSize + (a - d) := by omega
        rw [if_pos ha, if_pos ha, contentAt_tail (by omega), hsub]
      · rw [if_neg ha, if_neg ha]
    · have hdata : wrap (d + n) = d + n := wrap_of_lt (by omega)
      have hfile : (wrap (d + u64 size) : ℤ) = d + size :=
        wrap_add_u64 (by simp only [higherBase] at *; omega) hs
      have hblk : wsub (d + fsBlockSize) offset = d + (fsBlockSize - offset) := by
        rw [wsub_of_le (by omega) (by omega)]; omega
      obtain ⟨m, hm⟩ : ∃ m, m = min n (min (fsBlockSize - offset) size.toNat) := ⟨_, rfl⟩
      have hlen := copy_length (e := d + n) (n := n) (by omega) hfile (fsBlockSize - offset)
      rw [min_toNat n size (fsBlockSize - offset), ← hm] at hlen
      obtain ⟨r, hr⟩ : ∃ r, r = (min (n - fsBlockSize : ℤ) (size - fsBlockSize)).toNat := ⟨_, rfl⟩
      have hcount : readCount offset n size = m + r := by
        rw [readCount_inside (by omega), ← hm, ← hr]
      obtain ⟨hmb, hmn, hrn, hcross, hlast⟩ := first_rest hm hr
      clear hm
      have hpos : offset + m ≤ fsBlockSize := Nat.add_le_of_le_sub' (Nat.le_of_not_lt hskip) hmb
      have hhead : ∀ i < m, (s.blocks c).data (offset + i) =
          contentAt s.blocks (c :: l) (offset + i) := fun i hi =>
        (contentAt_head (lt_of_lt_of_le (Nat.add_lt_add_left hi offset) hpos)).symm
      have hend : d + n < 2 ^ 64 := by omega
      have hm64 : 0 + m < 2 ^ 64 := by omega
      rw [readFromBlock, if_neg hskip, hdata, hblk,
        copyFromBlock_spec _ hend m _ _ _ _ _ hlen.symm (by omega) hpos hm64]
      simp only [ok_bind, Nat.zero_add, hcount]
      clear hdata hfile hblk hlen hcount ih
      by_cases hmore : d + m < d + n
      · have hu : wsub n fsBlockSize = u64 (n - fsBlockSize : ℤ) := by
          rw [← wsub_u64, u64_natCast (by omega)]
        have hmr : m + r < 2 ^ 64 := by omega
        have hsteps := lt_blockSteps offset n
        rw [if_pos hmore, hu, wsub_u64]
        clear hu
        rw [readFromBlock_aligned s l f _ _ _ _ _ _ hch
          (by clear hs hdiff hfuel hsteps; simp only [fsBlockSize] at *; omega) (by omega)
          (by omega) (by omega) (by omega) (by omega) (by omega)
          (by clear hs hdiff hcap hr; simp only [fsBlockSize] at *; omega)
          (by omega) (by rw [← hr]; exact hmr), ← hr]
        clear hr hs hdiff hcap hfuel
        refine congrArg Except.ok (Prod.ext (pasted_pasted hhead (fun i hi => ?_)) rfl)
        have h512 : offset + m + i - fsBlockSize = i := by omega
        rw [contentAt_tail (by omega), h512]
      · have h2 : r = 0 := hlast (by omega)
        rw [if_neg hmore, h2, Nat.add_zero]
        refine congrArg Except.ok (Prod.ext ?_ rfl)
        rw [← pasted_zero (contentAt s.blocks l) 0 (d + m) (pasted _ _ _ _ mem)]
        exact pasted_pasted hhead (fun i hi => absurd hi (Nat.not_lt_zero i))

/-! ### What any write keeps -/

/-- Only bytes of the block itself are replaced. -/
theorem copyToBlock_frame {mem : Mem} {dataEnd blockEnd : ℕ} : ∀ {fuel byte pos : ℕ}
    {data : ℕ → UInt8} {r : (ℕ → UInt8) × ℕ},
    copyToBlock mem dataEnd blockEnd fuel byte pos data = .ok r →
      ∀ i, fsBlockSize ≤ i → r.1 i = data i
  | 0, _, _, _, _, h => by cases h
  | fuel + 1, byte, pos, data, r, h => by
      rw [copyToBlock] at h
      split at h
      · split at h
        · intro i hi
          have hne : i ≠ pos := by omega
          rw [copyToBlock_frame h i hi, Function.update_of_ne hne]
        · cases h
      · cases h
        exact fun i _ => rfl

/-- The second half of a call of `write_to_block`, from the state that the skip left. -/
def writeRest (mem : Mem) (fuel : ℕ) (b : BlockPtr) (offset dataBegin n : ℕ) (s : FsState) :
    Exec FsState := do
  let (data, byte) ← copyToBlock mem (wrap (dataBegin + n)) (wsub (dataBegin + fsBlockSize) offset)
    (fsBlockSize + 1) dataBegin offset (s.blocks b).data
  if byte < wrap (dataBegin + n) then do
    let (s, next) ← nextBlock (s.setData b data) b
    writeToBlock mem fuel s next 0 byte (wsub n fsBlockSize)
  else .ok (s.setData b data)

theorem writeToBlock_eq (mem : Mem) (fuel : ℕ) (s : FsState) (b : BlockPtr)
    (offset dataBegin n : ℕ) : writeToBlock mem (fuel + 1) s b offset dataBegin n = (do
      let s ← (if offset > fsBlockSize then do
          let (s, next) ← nextBlock s b
          writeToBlock mem fuel s next (wsub offset fsBlockSize) dataBegin n
        else .ok s : Exec FsState)
      writeRest mem fuel b offset dataBegin n s) := by
  rw [writeToBlock]
  split
  · rw [bind_assoc]; rfl
  · rfl

/-- The rule for `write_to_block` on any offset and length: what replacing the bytes of a block and
    moving to the next one keep, among blocks that `B` describes, the whole walk keeps. -/
theorem writeToBlock_rule {P : FsState → Prop} {B : FsState → BlockPtr → Prop}
    (hdata : ∀ s b data, P s → B s b → (∀ i, fsBlockSize ≤ i → data i = (s.blocks b).data i) →
      P (s.setData b data) ∧ ∀ x, B s x → B (s.setData b data) x)
    (hnext : ∀ s s' b c, P s → B s b → nextBlock s b = .ok (s', c) →
      P s' ∧ B s' c ∧ ∀ x, B s x → B s' x) (mem : Mem) :
    ∀ (fuel : ℕ) {s s' : FsState} {b : BlockPtr} {offset dataBegin n : ℕ}, P s → B s b →
      writeToBlock mem fuel s b offset dataBegin n = .ok s' → P s' ∧ ∀ x, B s x → B s' x
  | 0, _, _, _, _, _, _, _, _, h => by cases h
  | fuel + 1, s, s', b, offset, dataBegin, n, hs, hb, h => by
      have hrest : ∀ {s₁ : FsState}, P s₁ → B s₁ b →
          writeRest mem fuel b offset dataBegin n s₁ = .ok s' → P s' ∧ ∀ x, B s₁ x → B s' x := by
        intro s₁ hs₁ hb₁ h
        obtain ⟨⟨data, byte⟩, hcopy, h⟩ := bind_eq_ok.mp h
        obtain ⟨hs₂, hkeep⟩ := hdata s₁ b data hs₁ hb₁ (copyToBlock_frame hcopy)
        simp only at h
        split at h
        · obtain ⟨⟨t, c⟩, hn, hw⟩ := bind_eq_ok.mp h
          obtain ⟨ht, hc, hkeep'⟩ := hnext _ t b c hs₂ (hkeep b hb₁) hn
          obtain ⟨hs', hlast⟩ := writeToBlock_rule hdata hnext mem fuel ht hc hw
          exact ⟨hs', fun x hx => hlast x (hkeep' x (hkeep x hx))⟩
        · cases h; exact ⟨hs₂, hkeep⟩
      rw [writeToBlock_eq] at h
      obtain ⟨s₁, hw, h⟩ := bind_eq_ok.mp h
      split at hw
      · obtain ⟨⟨t, c⟩, hn, hw⟩ := bind_eq_ok.mp hw
        obtain ⟨ht, hc, hkeep⟩ := hnext s t b c hs hb hn
        obtain ⟨hs₁, hkeep'⟩ := writeToBlock_rule hdata hnext mem fuel ht hc hw
        obtain ⟨hs', hlast⟩ := hrest hs₁ (hkeep' b (hkeep b hb)) h
        exact ⟨hs', fun x hx => hlast x (hkeep' x (hkeep x hx))⟩
      · cases hw
        exact hrest hs hb h

/-- The state after the first free block `b` has been taken. -/
def FsState.taken (s : FsState) (b : BlockPtr) : FsState :=
  { s with
    fsDescriptorsHead := (s.blocks b).next
    blocks := match (s.blocks b).next with
      | none => s.blocks
      | some h => Function.update s.blocks h { s.blocks h with prev := none } }

theorem getFsBlock_eq_ok {s s' : FsState} {b : BlockPtr} :
    getFsBlock s = .ok (s', b) ↔ s.fsDescriptorsHead = some b ∧ s' = s.taken b := by
  rw [getFsBlock]
  cases hh : s.fsDescriptorsHead with
  | none => simp
  | some r =>
    cases hn : (s.blocks r).next with
    | none =>
      simp only [hn, Except.ok.injEq, Prod.mk.injEq, Option.some.injEq]
      constructor
      · rintro ⟨rfl, rfl⟩; exact ⟨rfl, by simp [FsState.taken, hn]⟩
      · rintro ⟨rfl, rfl⟩; exact ⟨by simp [FsState.taken, hn], rfl⟩
    | some h =>
      simp only [hn, Except.ok.injEq, Prod.mk.injEq, Option.some.injEq]
      constructor
      · rintro ⟨rfl, rfl⟩; exact ⟨rfl, by simp [FsState.taken, hn]⟩
      · rintro ⟨rfl, rfl⟩; exact ⟨by simp [FsState.taken, hn], rfl⟩

/-- Taking a block changes no `next_` and no byte, its own included. -/
theorem taken_block (s : FsState) (b c : BlockPtr) :
    ((s.taken b).blocks c).next = (s.blocks c).next ∧
      ((s.taken b).blocks c).data = (s.blocks c).data := by
  rw [FsState.taken]
  cases (s.blocks b).next with
  | none => exact ⟨rfl, rfl⟩
  | some h =>
    by_cases hc : c = h
    · subst hc; simp
    · simp [Function.update_of_ne hc]

/-- The state after `c` has been appended to `b`. -/
def FsState.link (s : FsState) (b c : BlockPtr) : FsState :=
  let blocks := Function.update s.blocks b { s.blocks b with next := some c }
  { s with blocks := Function.update blocks c { blocks c with prev := some b } }

theorem link_next (s : FsState) (b c d : BlockPtr) :
    ((s.link b c).blocks d).next = if d = b then some c else (s.blocks d).next := by
  have hlink : ((s.link b c).blocks d).next =
      (Function.update s.blocks b { s.blocks b with next := some c } d).next := by
    by_cases hd : d = c
    · subst hd; simp [FsState.link]
    · simp [FsState.link, Function.update_of_ne hd]
  rw [hlink]
  by_cases hd : d = b
  · subst hd; simp
  · simp [hd]

theorem link_data (s : FsState) (b c d : BlockPtr) :
    ((s.link b c).blocks d).data = (s.blocks d).data := by
  by_cases hc : d = c <;> by_cases hb : d = b <;> simp_all [FsState.link, Function.update_apply]

theorem nextBlock_eq_ok {s s' : FsState} {b c : BlockPtr} :
    nextBlock s b = .ok (s', c) ↔ ((s.blocks b).next = some c ∧ s' = s) ∨
      ((s.blocks b).next = none ∧ ∃ t, getFsBlock s = .ok (t, c) ∧ s' = t.link b c) := by
  rw [nextBlock]
  cases hn : (s.blocks b).next with
  | some d =>
    simp only [Except.ok.injEq, Prod.mk.injEq, Option.some.injEq, reduceCtorEq, false_and, or_false]
    constructor <;> rintro ⟨rfl, rfl⟩ <;> exact ⟨rfl, rfl⟩
  | none =>
    simp only [bind_eq_ok, reduceCtorEq, false_and, false_or, true_and]
    constructor
    · rintro ⟨⟨t, d⟩, hg, h⟩
      cases h
      exact ⟨t, hg, rfl⟩
    · rintro ⟨t, hg, rfl⟩
      exact ⟨(t, c), hg, rfl⟩

/-- Moving to the next block changes no node. -/
theorem nextBlock_nodes {s s' : FsState} {b c : BlockPtr} (h : nextBlock s b = .ok (s', c)) :
    s'.nodes = s.nodes := by
  rcases nextBlock_eq_ok.mp h with ⟨-, rfl⟩ | ⟨-, t, hg, rfl⟩
  · rfl
  · obtain ⟨-, rfl⟩ := getFsBlock_eq_ok.mp hg
    rfl

/-- The walk of a write changes no node. -/
theorem writeToBlock_nodes {mem : Mem} {fuel : ℕ} {s s' : FsState} {b : BlockPtr}
    {offset dataBegin n : ℕ} (h : writeToBlock mem fuel s b offset dataBegin n = .ok s') :
    s'.nodes = s.nodes := by
  have h := writeToBlock_rule (P := fun t => t.nodes = s.nodes) (B := fun _ _ => True)
    (fun t b data ht _ _ => ⟨ht, fun _ _ => trivial⟩) (fun t t' b c ht _ hn => ?_) mem fuel rfl
    trivial h
  · exact h.1
  · exact ⟨(nextBlock_nodes hn).trans ht, trivial, fun _ _ => trivial⟩

end FilesKernel.FileSystem
