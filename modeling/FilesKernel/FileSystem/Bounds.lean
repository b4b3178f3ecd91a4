import FilesKernel.FileSystem.Ownership

/-! Reading and writing stay in bounds, and end.

    Nothing is assumed about the chains: they may be cyclic, share blocks with each other or with the
    free list. The ends of the copy loops are compared as addresses: an end that has wrapped lies
    below the buffer, so that the loop does not run, and so does the end of a buffer whose length has
    gone below zero. -/

namespace FilesKernel.FileSystem
open CExec CWord

/-- The block is on the chain of the node. -/
def OnChain (s : FsState) (p : NodePtr) (c : BlockPtr) : Prop :=
  ∃ h, (s.nodes p).listHead = some h ∧ Reach s.blocks h c

/-- For the node `p`, an offset and a buffer: `write` and `read` end, by returning or in an
    assertion, and touch only bytes of blocks on the chain of `p` and only bytes of the buffer. -/
structure StaysInside (s : FsState) (p : NodePtr) (offset dataBegin n : ℕ) : Prop where
  write_ends : ∀ mem, Ends (writeFile s p offset mem dataBegin n)
  write_buffer : ∀ mem mem' : Mem, (∀ a, dataBegin ≤ a → a < dataBegin + n → mem' a = mem a) →
    writeFile s p offset mem' dataBegin n = writeFile s p offset mem dataBegin n
  write_blocks : ∀ mem s', writeFile s p offset mem dataBegin n = .ok s' →
    ∀ c i, (s'.blocks c).data i ≠ (s.blocks c).data i → i < fsBlockSize ∧ OnChain s' p c
  read_ends : ∀ mem, Ends (readFile s p offset mem dataBegin n)
  read_buffer : ∀ mem mem' k, readFile s p offset mem dataBegin n = .ok (mem', k) →
    k ≤ n ∧ ∀ a, mem' a ≠ mem a → dataBegin ≤ a ∧ a < dataBegin + n
  read_blocks : ∀ (t : FsState) mem, t.nodes p = s.nodes p →
    (∀ c, OnChain s p c → (t.blocks c).next = (s.blocks c).next ∧
      ∀ i < fsBlockSize, (t.blocks c).data i = (s.blocks c).data i) →
    readFile t p offset mem dataBegin n = readFile s p offset mem dataBegin n

/-! ### The ends of the loops -/

/-- The end of the block, seen from the buffer, lies below the buffer or leaves room in the block. -/
theorem blockEnd_cases {d offset : ℕ} (hd : 2 ^ 63 ≤ d) (hd' : d < 2 ^ 64)
    (hoff : offset < 2 ^ 63) : wsub (d + fsBlockSize) offset ≤ d ∨
      offset ≤ fsBlockSize ∧ wsub (d + fsBlockSize) offset = d + (fsBlockSize - offset) := by
  rw [wsub_eq, fsBlockSize]
  omega

/-- The end of the buffer, or 0 where it has wrapped. -/
theorem dataEnd_cases {d : ℕ} {z : ℤ} (hd : 2 ^ 63 ≤ d) (hz : -fsBlockSize < z)
    (hend : d + z ≤ 2 ^ 64) : (wrap (d + u64 z) : ℤ) = d + z ∨ wrap (d + u64 z) = 0 := by
  rw [wrap_eq, u64_eq]
  simp only [fsBlockSize] at hz
  omega

theorem wrap_lt (x : ℕ) : wrap x < 2 ^ 64 := by
  rw [wrap_eq]
  exact Nat.mod_lt _ (Nat.two_pow_pos 64)

/-- How many bytes a copy loop takes: none, or as many as fit the block and the buffer. -/
theorem copyToBlock_within {d offset e : ℕ} (hd : 2 ^ 63 ≤ d) (hd' : d < 2 ^ 64)
    (hoff : offset < 2 ^ 63) (he : e < 2 ^ 64) : ∃ m, (m = 0 ∨ m ≤ fsBlockSize ∧ d + m ≤ e) ∧
      ∀ mem data, copyToBlock mem e (wsub (d + fsBlockSize) offset) (fsBlockSize + 1) d offset data =
        .ok (pasted mem d offset m data, d + m) := by
  have hblk := blockEnd_cases hd hd' hoff
  refine ⟨min e (wsub (d + fsBlockSize) offset) - d, by omega, fun mem data => ?_⟩
  exact copyToBlock_spec mem he _ _ _ _ _ rfl (by omega) (by omega)

theorem copyFromBlock_within {d offset e : ℕ} (fileEnd k : ℕ) (hd : 2 ^ 63 ≤ d) (hd' : d < 2 ^ 64)
    (hoff : offset ≤ fsBlockSize) (he : e < 2 ^ 64) (hk : k + fsBlockSize < 2 ^ 64) :
    ∃ m, (m = 0 ∨ m ≤ fsBlockSize ∧ d + m ≤ e) ∧ ∀ mem data, copyFromBlock data e
      (wsub (d + fsBlockSize) offset) fileEnd (fsBlockSize + 1) d offset mem k =
        .ok (pasted data offset d m mem, d + m, k + m) := by
  have hblk := blockEnd_cases hd hd' (show offset < 2 ^ 63 by simp only [fsBlockSize] at *; omega)
  refine ⟨min e (min (wsub (d + fsBlockSize) offset) fileEnd) - d, by omega, fun mem data => ?_⟩
  exact copyFromBlock_spec data he _ _ _ _ _ _ rfl (by omega) (by omega) (by omega)

theorem pasted_congr {mem mem' : Mem} {d pos m : ℕ} {data : ℕ → UInt8}
    (h : ∀ a, d ≤ a → a < d + m → mem' a = mem a) :
    pasted mem' d pos m data = pasted mem d pos m data := by
  funext i
  simp only [pasted]
  split
  · exact h _ (by omega) (by omega)
  · rfl

/-! ### Writing -/

theorem ends_getFsBlock (s : FsState) : Ends (getFsBlock s) := by
  rw [getFsBlock]
  split
  · trivial
  · simp only
    split <;> trivial

theorem ends_nextBlock (s : FsState) (b : BlockPtr) : Ends (nextBlock s b) := by
  rw [nextBlock]
  split
  · trivial
  · exact (ends_getFsBlock s).bind fun _ _ => trivial

/-- The recursion of `write_to_block`: it ends, and depends on the bytes of the buffer only. The
    length `z` may have gone below zero; then nothing is left to do. -/
theorem writeToBlock_ends {mem mem' : Mem} {lo hi : ℕ} (hlo : 2 ^ 63 ≤ lo) (hhi : hi ≤ 2 ^ 64)
    (hmem : ∀ a, lo ≤ a → a < hi → mem' a = mem a) : ∀ (fuel : ℕ) (s : FsState) (b : BlockPtr)
    (offset d : ℕ) (z : ℤ), lo ≤ d → d < 2 ^ 64 → d + z ≤ hi → -fsBlockSize < z →
    offset < 2 ^ 63 → offset + z + fsBlockSize ≤ fsBlockSize * fuel →
    Ends (writeToBlock mem fuel s b offset d (u64 z)) ∧
      writeToBlock mem' fuel s b offset d (u64 z) = writeToBlock mem fuel s b offset d (u64 z)
  | 0, _, _, offset, _, z, _, _, _, hz, _, hfuel => by
      simp only [fsBlockSize] at hz hfuel
      omega
  | fuel + 1, s, b, offset, d, z, hd, hd', hend, hz, hoff, hfuel => by
      have ih := writeToBlock_ends hlo hhi hmem fuel
      have hfuel' : offset + z ≤ fsBlockSize * fuel := by simp only [fsBlockSize] at hfuel ⊢; omega
      obtain ⟨m, hm, hcopy⟩ := copyToBlock_within (Nat.le_trans hlo hd) hd' hoff (wrap_lt (d + u64 z))
      have hdata := dataEnd_cases (Nat.le_trans hlo hd) hz (by omega)
      -- what follows the skip
      have hrest : ∀ s, Ends (writeRest mem fuel b offset d (u64 z) s) ∧
          writeRest mem' fuel b offset d (u64 z) s = writeRest mem fuel b offset d (u64 z) s := by
        intro s
        have hpasted : pasted mem' d offset m (s.blocks b).data =
            pasted mem d offset m (s.blocks b).data :=
          pasted_congr fun a ha ha' => hmem a (by omega) (by omega)
        rw [writeRest, writeRest, hcopy, hcopy, ok_bind, ok_bind, hpasted]
        simp only
        by_cases hmore : d + m < wrap (d + u64 z)
        · have hstep : ∀ r : FsState × BlockPtr,
              Ends (writeToBlock mem fuel r.1 r.2 0 (d + m) (wsub (u64 z) fsBlockSize)) ∧
                writeToBlock mem' fuel r.1 r.2 0 (d + m) (wsub (u64 z) fsBlockSize) =
                  writeToBlock mem fuel r.1 r.2 0 (d + m) (wsub (u64 z) fsBlockSize) := by
            intro r
            have hlt := wrap_lt (d + u64 z)
            rw [wsub_u64]
            exact ih r.1 r.2 0 (d + m) (z - fsBlockSize) (by omega) (by omega) (by omega)
              (by omega) (by decide) (by omega)
          rw [if_pos hmore, if_pos hmore]
          exact ⟨(ends_nextBlock _ _).bind fun r _ => (hstep r).1,
            bind_congr_ok rfl fun r _ => (hstep r).2⟩
        · rw [if_neg hmore, if_neg hmore]
          exact ⟨trivial, rfl⟩
      rw [writeToBlock_eq, writeToBlock_eq]
      by_cases hskip : offset > fsBlockSize
      · have hstep : ∀ r : FsState × BlockPtr,
            Ends (writeToBlock mem fuel r.1 r.2 (wsub offset fsBlockSize) d (u64 z)) ∧
              writeToBlock mem' fuel r.1 r.2 (wsub offset fsBlockSize) d (u64 z) =
                writeToBlock mem fuel r.1 r.2 (wsub offset fsBlockSize) d (u64 z) := by
          intro r
          rw [wsub_of_le (by omega) (by omega)]
          exact ih r.1 r.2 (offset - fsBlockSize) d z hd hd' hend hz (by omega)
            (by omega)
        rw [if_pos hskip, if_pos hskip]
        exact ⟨((ends_nextBlock _ _).bind fun r _ => (hstep r).1).bind fun t _ => (hrest t).1,
          bind_congr_ok (bind_congr_ok rfl fun r _ => (hstep r).2) fun t _ => (hrest t).2⟩
      · rw [if_neg hskip, if_neg hskip, ok_bind, ok_bind]
        exact hrest s

/-- What a walk that starts at `b` changes: links are only added, and bytes only on the chain. -/
structure Walked (b : BlockPtr) (s s' : FsState) : Prop where
  next : ∀ c d, (s.blocks c).next = some d → (s'.blocks c).next = some d
  data : ∀ c i, (s'.blocks c).data i ≠ (s.blocks c).data i →
    i < fsBlockSize ∧ Reach s'.blocks b c

theorem Reach.mono {blocks blocks' : BlockPtr → FsDescriptorList} {b c : BlockPtr}
    (h : Reach blocks b c) (hn : ∀ c d, (blocks c).next = some d → (blocks' c).next = some d) :
    Reach blocks' b c := by
  induction h with
  | refl b => exact .refl b
  | next hbc _ ih => exact .next (hn _ _ hbc) ih

theorem Reach.step {blocks : BlockPtr → FsDescriptorList} {b c d : BlockPtr}
    (h : Reach blocks b c) (hn : (blocks c).next = some d) : Reach blocks b d := by
  induction h with
  | refl b => exact .next hn (.refl d)
  | next hbc _ ih => exact .next hbc (ih hn)

/-- Moving to the next block keeps the bytes and the links, and leads to the next block. -/
theorem nextBlock_walk {s s' : FsState} {b c : BlockPtr} (h : nextBlock s b = .ok (s', c)) :
    (∀ x, (s'.blocks x).data = (s.blocks x).data) ∧ (s'.blocks b).next = some c ∧
      ∀ x y, (s.blocks x).next = some y → (s'.blocks x).next = some y := by
  rcases nextBlock_eq_ok.mp h with ⟨hb, rfl⟩ | ⟨hb, t, hg, rfl⟩
  · exact ⟨fun _ => rfl, hb, fun _ _ hx => hx⟩
  · obtain ⟨-, rfl⟩ := getFsBlock_eq_ok.mp hg
    refine ⟨fun x => ?_, by rw [link_next, if_pos rfl], fun x y hx => ?_⟩
    · rw [link_data, (taken_block s c x).2]
    · have hne : x ≠ b := by
        rintro rfl
        rw [hb] at hx
        cases hx
      rw [link_next, if_neg hne, (taken_block s c x).1, hx]

/-- What any write changes. -/
theorem writeToBlock_walked {mem : Mem} {fuel : ℕ} {s s' : FsState} {b : BlockPtr}
    {offset d n : ℕ} (h : writeToBlock mem fuel s b offset d n = .ok s') : Walked b s s' := by
  refine (writeToBlock_rule (P := Walked b s) (B := fun t x => Reach t.blocks b x)
    (fun t x data ht hx hdata => ⟨⟨fun c e hc => ?_, fun c i hc => ?_⟩, fun y hy => ?_⟩)
    (fun t t' x c ht hx hn => ?_) mem fuel ⟨fun _ _ hc => hc, fun _ _ hc => absurd rfl hc⟩
    (Reach.refl b) h).1
  · rw [setData_next]
    exact ht.next c e hc
  · have hkeep : ∀ y, Reach t.blocks b y → Reach (t.setData x data).blocks b y := fun y hy =>
      hy.mono fun c d hc => by rw [setData_next]; exact hc
    by_cases hcx : c = x
    · subst hcx
      have hnew : ((t.setData c data).blocks c).data = data := by simp [FsState.setData]
      by_cases hi : i < fsBlockSize
      · exact ⟨hi, hkeep c hx⟩
      · rw [hnew, hdata i (by omega)] at hc
        exact absurd (ht.data c i hc).1 hi
    · have hsame : ((t.setData x data).blocks c).data = (t.blocks c).data := by
        simp [FsState.setData, Function.update_of_ne hcx]
      rw [hsame] at hc
      exact ⟨(ht.data c i hc).1, hkeep c (ht.data c i hc).2⟩
  · exact hy.mono fun c d hc => by rw [setData_next]; exact hc
  · obtain ⟨hdata, hnext, hlinks⟩ := nextBlock_walk hn
    refine ⟨⟨fun c e hc => hlinks c e (ht.next c e hc), fun c i hc => ?_⟩,
      (hx.mono hlinks).step hnext, fun y hy => hy.mono hlinks⟩
    rw [hdata] at hc
    exact ⟨(ht.data c i hc).1, (ht.data c i hc).2.mono hlinks⟩

/-! ### Reading -/

/-- The recursion of `read_from_block`: it returns, having counted no more bytes than the buffer is
    long and changed no others, whatever the chain and the size of the file. -/
theorem readFromBlock_ends (s : FsState) {lo hi : ℕ} (hlo : 2 ^ 63 ≤ lo) (hhi : hi ≤ 2 ^ 64) :
    ∀ (fuel : ℕ) (b : Option BlockPtr) (offset d : ℕ) (z : ℤ) (fileSize : ℕ) (mem : Mem) (k : ℕ),
    lo ≤ d → d < 2 ^ 64 → d + z ≤ hi → -fsBlockSize < z → offset < 2 ^ 63 →
    offset + z + fsBlockSize ≤ fsBlockSize * fuel → k + z.toNat < 2 ^ 63 →
    ∃ mem' k', readFromBlock s fuel b offset d (u64 z) fileSize mem k = .ok (mem', k') ∧
      k' ≤ k + z.toNat ∧ ∀ a, mem' a ≠ mem a → lo ≤ a ∧ a < hi
  | 0, _, offset, _, z, _, _, _, _, _, _, hz, _, hfuel, _ => by
      simp only [fsBlockSize] at hz hfuel
      omega
  | fuel + 1, none, offset, d, z, fileSize, mem, k, _, _, _, _, _, _, _ =>
      ⟨mem, k, rfl, Nat.le_add_right k _, fun a ha => absurd rfl ha⟩
  | fuel + 1, some b, offset, d, z, fileSize, mem, k, hd, hd', hend, hz, hoff, hfuel, hk => by
      have ih := readFromBlock_ends s hlo hhi fuel
      have hfuel' : offset + z ≤ fsBlockSize * fuel := by simp only [fsBlockSize] at hfuel ⊢; omega
      rw [readFromBlock]
      by_cases hskip : offset > fsBlockSize
      · rw [if_pos hskip, wsub_of_le (by omega) (by omega)]
        exact ih _ (offset - fsBlockSize) d z _ mem k hd hd' hend hz (by omega) (by omega) hk
      · obtain ⟨m, hm, hcopy⟩ := copyFromBlock_within (wrap (d + fileSize)) k (Nat.le_trans hlo hd) hd'
          (Nat.le_of_not_gt hskip) (wrap_lt (d + u64 z)) (by simp only [fsBlockSize]; omega)
        have hdata := dataEnd_cases (Nat.le_trans hlo hd) hz (by omega)
        have hpasted : ∀ a, pasted (s.blocks b).data offset d m mem a ≠ mem a → lo ≤ a ∧ a < hi := by
          intro a ha
          rw [pasted] at ha
          split at ha
          · omega
          · exact absurd rfl ha
        rw [if_neg hskip, hcopy, ok_bind]
        simp only
        by_cases hmore : d + m < wrap (d + u64 z)
        · have hlt := wrap_lt (d + u64 z)
          obtain ⟨mem', k', hrun, hk', hmem'⟩ := ih (s.blocks b).next 0 (d + m) (z - fsBlockSize)
            (wsub fileSize fsBlockSize) (pasted (s.blocks b).data offset d m mem) (k + m) (by omega)
            (by omega) (by omega) (by omega) (by decide) (by omega) (by omega)
          rw [if_pos hmore, wsub_u64]
          refine ⟨mem', k', hrun, by omega, fun a ha => ?_⟩
          by_cases hpa : mem' a = pasted (s.blocks b).data offset d m mem a
          · rw [hpa] at ha
            exact hpasted a ha
          · exact hmem' a hpa
        · rw [if_neg hmore]
          exact ⟨_, _, rfl, by omega, hpasted⟩

theorem copyFromBlock_congr {data data' : ℕ → UInt8}
    (h : ∀ i < fsBlockSize, data' i = data i) (dataEnd blockEnd fileEnd : ℕ) :
    ∀ (fuel byte pos : ℕ) (mem : Mem) (k : ℕ),
      copyFromBlock data' dataEnd blockEnd fileEnd fuel byte pos mem k =
        copyFromBlock data dataEnd blockEnd fileEnd fuel byte pos mem k
  | 0, _, _, _, _ => rfl
  | fuel + 1, byte, pos, mem, k => by
      rw [copyFromBlock, copyFromBlock]
      split
      · split
        · rename_i hpos
          rw [h pos hpos, copyFromBlock_congr h dataEnd blockEnd fileEnd fuel]
        · rfl
      · rfl

/-- A read depends on the bytes of the blocks on the chain only. -/
theorem readFromBlock_congr {s t : FsState} : ∀ (fuel : ℕ) (b : Option BlockPtr)
    (offset d n fileSize : ℕ) (mem : Mem) (k : ℕ),
    (∀ h, b = some h → ∀ c, Reach s.blocks h c → (t.blocks c).next = (s.blocks c).next ∧
      ∀ i < fsBlockSize, (t.blocks c).data i = (s.blocks c).data i) →
    readFromBlock t fuel b offset d n fileSize mem k = readFromBlock s fuel b offset d n fileSize mem k
  | 0, _, _, _, _, _, _, _, _ => rfl
  | _ + 1, none, _, _, _, _, _, _, _ => rfl
  | fuel + 1, some b, offset, d, n, fileSize, mem, k, h => by
      obtain ⟨hnext, hdata⟩ := h b rfl b (.refl b)
      have hrest : ∀ c, (s.blocks b).next = some c → ∀ x, Reach s.blocks c x →
          (t.blocks x).next = (s.blocks x).next ∧
            ∀ i < fsBlockSize, (t.blocks x).data i = (s.blocks x).data i :=
        fun c hc x hx => h b rfl x (.next hc hx)
      rw [readFromBlock, readFromBlock, hnext]
      split
      · exact readFromBlock_congr fuel _ _ _ _ _ _ _ hrest
      · refine bind_congr_ok (copyFromBlock_congr hdata _ _ _ _ _ _ _ _) fun r _ => ?_
        simp only
        split
        · exact readFromBlock_congr fuel _ _ _ _ _ _ _ hrest
        · rfl

/-! ### The two calls -/

/-- A write ends if its walk does, whatever block it starts with. -/
theorem writeFile_ends {s : FsState} {p : NodePtr} {offset d n : ℕ} {mem : Mem}
    (h : ∀ t b, Ends (writeToBlock mem (blockSteps offset n) t b offset d n)) :
    Ends (writeFile s p offset mem d n) := by
  rw [writeFile]
  refine (ends_bugOn _ _).bind fun _ _ => ?_
  simp only [grow_listHead]
  cases (s.nodes p).listHead with
  | some b => exact h _ _
  | none => exact (ends_getFsBlock _).bind fun r _ => h _ _

/-- Writes agree if their walks do. -/
theorem writeFile_congr {s : FsState} {p : NodePtr} {offset d d' n : ℕ} {mem mem' : Mem}
    (h : ∀ t b, writeToBlock mem' (blockSteps offset n) t b offset d' n =
      writeToBlock mem (blockSteps offset n) t b offset d n) :
    writeFile s p offset mem' d' n = writeFile s p offset mem d n := by
  rw [writeFile, writeFile]
  refine bind_congr_ok rfl fun _ _ => ?_
  simp only [grow_listHead]
  cases (s.nodes p).listHead with
  | some b => exact h _ _
  | none => exact bind_congr_ok rfl fun r _ => h _ _

/-- In every state, however its chains are linked: for a buffer in the upper half of the address
    space that does not wrap, `write` and `read` stay inside, and end. -/
theorem staysInside (s : FsState) (p : NodePtr) {offset dataBegin n : ℕ} (hoff : offset + n < 2 ^ 47)
    (hd : 2 ^ 63 ≤ dataBegin) (hd' : dataBegin < 2 ^ 64) (hend : dataBegin + n ≤ 2 ^ 64) :
    StaysInside s p offset dataBegin n := by
  have hn : u64 n = n := u64_natCast (by omega)
  have hfuel : (offset : ℤ) + n + fsBlockSize ≤ fsBlockSize * (blockSteps offset n : ℕ) := by
    simp only [blockSteps, fsBlockSize]
    omega
  have hwrite : ∀ mem mem' : Mem, (∀ a, dataBegin ≤ a → a < dataBegin + n → mem' a = mem a) →
      ∀ t b, Ends (writeToBlock mem (blockSteps offset n) t b offset dataBegin n) ∧
        writeToBlock mem' (blockSteps offset n) t b offset dataBegin n =
          writeToBlock mem (blockSteps offset n) t b offset dataBegin n := by
    intro mem mem' hmem t b
    have h := writeToBlock_ends hd hend hmem (blockSteps offset n) t b offset dataBegin n
      (Nat.le_refl _) hd' (by omega) (by simp only [fsBlockSize]; omega) (by omega) hfuel
    rwa [hn] at h
  have hread : ∀ mem, ∃ mem' k', readFromBlock s (blockSteps offset n) (s.nodes p).listHead offset
      dataBegin n (s.nodes p).size mem 0 = .ok (mem', k') ∧ k' ≤ n ∧
        ∀ a, mem' a ≠ mem a → dataBegin ≤ a ∧ a < dataBegin + n := by
    intro mem
    have h := readFromBlock_ends s hd hend (blockSteps offset n) (s.nodes p).listHead offset dataBegin
      n (s.nodes p).size mem 0 (Nat.le_refl _) hd' (by omega) (by simp only [fsBlockSize]; omega)
      (by omega) hfuel (by omega)
    rwa [hn, Int.toNat_natCast, Nat.zero_add] at h
  refine ⟨fun mem => ?_, fun mem mem' hmem => ?_, fun mem s' h c i hc => ?_, fun mem => ?_,
    fun mem mem' k h => ?_, fun t mem hnode hblocks => ?_⟩
  · exact writeFile_ends fun t b => (hwrite mem mem (fun _ _ _ => rfl) t b).1
  · exact writeFile_congr fun t b => (hwrite mem mem' hmem t b).2
  · obtain ⟨t, b, ht, hw⟩ := writeFile_eq_ok h
    have hsame : (t.blocks c).data = (s.blocks c).data := by
      rcases ht.first with ⟨-, hb, -⟩ | ⟨-, u, hg, hb, -⟩
      · rw [hb]
      · obtain ⟨-, rfl⟩ := getFsBlock_eq_ok.mp hg
        rw [hb, (taken_block _ _ _).2]
    rw [← hsame] at hc
    have hwalk := (writeToBlock_walked hw).data c i hc
    refine ⟨hwalk.1, b, ?_, hwalk.2⟩
    rw [writeToBlock_nodes hw, ht.nodes, Function.update_self]
  · obtain ⟨mem', k', hrun, -⟩ := hread mem
    rw [readFile, hrun]
    exact (ends_bugOn _ _).bind fun _ _ => trivial
  · obtain ⟨mem₁, k₁, hrun, hk, hmem⟩ := hread mem
    obtain ⟨_, -, h⟩ := bind_eq_ok.mp h
    rw [hrun] at h
    cases h
    exact ⟨hk, hmem⟩
  · rw [readFile, readFile, hnode]
    refine bind_congr_ok rfl fun _ _ => ?_
    exact readFromBlock_congr _ _ _ _ _ _ _ _ fun h hh c hc => hblocks c ⟨h, hh, hc⟩

/-- A cyclic chain: the only block is its own successor, and the first of the node's chain. -/
def cyclicState : FsState where
  fsDescriptorsHead := none
  blocks _ := ⟨some 0, none, fun _ => 0⟩
  nodes _ := ⟨.FILE, [97], none, 0, some 0, 2000, true⟩

theorem cyclicState_staysInside : StaysInside cyclicState [0] 1000 0xffff800000200000 2000 :=
  staysInside cyclicState [0] (by decide) (by decide) (by decide) (by decide)

end FilesKernel.FileSystem
