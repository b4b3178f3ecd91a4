import FilesKernel.Initramfs.Objects

/-! Archives in the newc format, and how `load_cpio` reads them.

    An entry is a header of 110 bytes with numbers in 8 hex digits, the name with its NUL, padding to
    a multiple of 4, the data, and padding. The path of an entry is also the format of a `printf`, so
    a name with `%s` in it has the kernel read a string from nowhere. -/

namespace FilesKernel.Initramfs
open CExec CWord FileSystem Print

variable {m : Machine} {mem : Mem} {e : Entry} {s s' : State} {a h p v : ℕ}

/-! ### The format -/

structure Entry where
  dir : Bool
  mode : ℕ
  name : CString
  data : List UInt8

/-- A regular file or a directory, with any permissions. -/
structure Entry.Valid (e : Entry) : Prop where
  mode : e.mode &&& S_IFMT = if e.dir then S_IFDIR else S_IFREG
  name : e.name ≠ [] ∧ 0 ∉ e.name ∧ e.name ≠ endOfArchive
  data : e.dir → e.data = []

def roundUp (n : ℕ) : ℕ := (n + 3) / 4 * 4

/-- Where the data of an entry begins, and where the next entry. -/
def Entry.dataOffset (e : Entry) : ℕ := roundUp (sizeofCpioHeader + (e.name.length + 1))
def Entry.span (e : Entry) : ℕ := e.dataOffset + roundUp e.data.length

/-- An entry is laid out at `a`; the other fields of the header and the padding hold anything. -/
structure EntryAt (mem : Mem) (a : ℕ) (e : Entry) : Prop where
  mode : HexAt mem (a + modeOffs) e.mode
  fileSize : HexAt mem (a + filesizeOffs) e.data.length
  nameSize : HexAt mem (a + namesizeOffs) (e.name.length + 1)
  name : bytesAt mem (a + sizeofCpioHeader) (e.name.length + 1) = e.name ++ [0]
  data : bytesAt mem (a + e.dataOffset) e.data.length = e.data

structure TrailerAt (mem : Mem) (a : ℕ) : Prop where
  fileSize : HexAt mem (a + filesizeOffs) 0
  nameSize : HexAt mem (a + namesizeOffs) 11
  name : bytesAt mem (a + sizeofCpioHeader) 11 = endOfArchive ++ [0]

/-- The entries are laid out from `a` on, and behind them the trailer and padding up to `last`. -/
def ArchiveAt (mem : Mem) (last : ℕ) : ℕ → List Entry → Prop
  | a, [] => TrailerAt mem a ∧ a + sizeofCpioHeader + 11 ≤ last
  | a, e :: es => EntryAt mem a e ∧ ArchiveAt mem last (a + e.span) es

/-! ### What loading does -/

/-- `/` and the name; of a directory without a `/` at the end. -/
def Entry.path (e : Entry) : CString :=
  slash :: if e.dir ∧ e.name.getLast? = some slash then e.name.dropLast else e.name

/-- The data of a file, in a buffer for themselves. -/
def bufferOf (data : List UInt8) : Mem := fun v => data.getD (v - higherBase) 0

/-- The calls for an entry, and their record. -/
def Entry.perform (e : Entry) (memAlloc : MemAlloc) (fs : FsState) :
    Exec (FsState × List FsCall) :=
  if e.dir then do
    let fs ← mkdir memAlloc fs e.path
    .ok (fs, [.mkdir e.path])
  else do
    let (fs, file) ← storeFile memAlloc fs e.path (bufferOf e.data) higherBase e.data.length
    .ok (fs, [.open e.path, .write file 0 e.data e.data.length, .close file])

/-- The calls for the entries, in their order, with the answers of `mem_alloc` from the `k`-th on. -/
def performAll (fsAlloc : ℕ → MemAlloc) :
    ℕ → FsState → List Entry → Exec (FsState × List FsCall)
  | _, fs, [] => .ok (fs, [])
  | k, fs, e :: es => do
    let (fs, calls) ← e.perform (fsAlloc k) fs
    let (fs, rest) ← performAll fsAlloc (k + 1) fs es
    .ok (fs, calls ++ rest)

/-- `load_cpio` ends, after exactly the calls for the entries, whatever `printf` finds in place of
    arguments. -/
def LoadsRight (m : Machine) (es : List Entry) : Prop :=
  ∀ junk filesCount, ∃ s', loadCpio { m with junk } (m.start filesCount) = .ok s' ∧
    performAll m.fsAlloc 1 m.fs es = .ok (s'.fs, s'.trace)

/-- From the `k`-th call on, `mem_alloc` returns memory for the names and paths. -/
def Allocates (memAlloc : ℕ → ℕ → Bool) : ℕ → List Entry → Prop
  | k, [] => memAlloc k 12
  | k, e :: es => memAlloc k (e.name.length + 2) ∧ memAlloc (k + 1) (e.name.length + 3) ∧
      Allocates memAlloc (k + 2) es

/-! ### Names -/

theorem cString_concat {l r : List UInt8} (hl : 0 ∉ l) : cString (l ++ 0 :: r) = l := by
  induction l with
  | nil => rfl
  | cons c l ih =>
    rw [List.mem_cons, not_or] at hl
    rw [cString, List.cons_append, List.takeWhile_cons_of_pos (by simpa using Ne.symm hl.1)]
    exact congrArg _ (ih hl.2)

/-- The name is not taken for the one of the trailer. -/
theorem Entry.Valid.not_trailer (hv : e.Valid) :
    ¬ (e.name.length + 1 = 11 ∧ streq e.name endOfArchive = true) := fun ⟨hlen, hs⟩ =>
  hv.name.2.2 ((streq_iff.mp hs).eq_of_length (Nat.succ.inj hlen))

/-- The path as `handle_one_cpio_object` makes it, by index. -/
theorem Entry.Valid.pathAt_eq (hv : e.Valid) (hdir : isDir e.mode = e.dir)
    (hbuf : pathBuffer m h (e.name.length + 1) = slash :: e.name ++ [0] ++ [0]) :
    pathAt m h (e.name.length + 1) e.mode = e.path := by
  obtain ⟨A, x, hname⟩ : ∃ A x, e.name = A ++ [x] := by
    rcases List.eq_nil_or_concat e.name with h | ⟨A, x, h⟩
    · exact absurd h hv.name.1
    · exact ⟨A, x, h.trans List.concat_eq_append⟩
  have hnul : 0 ∉ slash :: e.name := by
    rw [List.mem_cons, not_or]
    exact ⟨by decide, hv.name.2.1⟩
  have hsplit : slash :: e.name ++ [0] ++ [0] = (slash :: A) ++ x :: [0, 0] := by
    rw [hname]; simp
  have hlen : e.name.length = (slash :: A).length := by rw [hname]; simp
  have hget : (slash :: e.name ++ [0] ++ [0])[e.name.length]? = some x := by
    rw [hsplit, hlen, List.getElem?_append_right (Nat.le_refl _), Nat.sub_self]
    rfl
  have hlast : e.name.getLast? = some x := by rw [hname]; simp
  rw [pathAt, hbuf, hdir, Nat.add_sub_cancel, hget, Entry.path, hlast]
  by_cases hcut : e.dir ∧ some x = some slash
  · have hA : 0 ∉ slash :: A := fun hm => hnul (by
      rw [hname, ← List.cons_append]
      exact List.mem_append_left _ hm)
    rw [if_pos hcut, if_pos hcut, hsplit, hlen, List.set_append_right _ _ (Nat.le_refl _),
      Nat.sub_self, hname, List.dropLast_concat]
    exact cString_concat hA
  · rw [if_neg hcut, if_neg hcut, List.append_assoc]
    exact cString_concat hnul

/-! ### One entry -/

theorem roundUp_le (n : ℕ) : n ≤ roundUp n ∧ roundUp n ≤ n + 3 := by
  rw [roundUp]; omega

/-- The header that is found from `h` on. -/
theorem aligned_eq (hh : h < 2 ^ 34) : wrap (h + 3) / 4 * 4 = roundUp h := by
  rw [wrap_of_lt (by omega)]
  rfl

theorem roundUp_dvd (n : ℕ) : 4 ∣ roundUp n := Nat.dvd_mul_left 4 _

theorem roundUp_add (ha : 4 ∣ a) (n : ℕ) : roundUp (a + n) = a + roundUp n := by
  obtain ⟨k, rfl⟩ := ha
  rw [roundUp, roundUp]
  omega

/-- Where the next header is looked for. -/
def Entry.next (e : Entry) : ℕ :=
  if e.dir then sizeofCpioHeader + (e.name.length + 1) else e.dataOffset + e.data.length

theorem Entry.Valid.next_roundUp (hv : e.Valid) : roundUp e.next = e.span := by
  rw [Entry.next, Entry.span]
  split
  · rename_i hd
    rw [hv.data hd]
    rfl
  · rw [Entry.dataOffset, roundUp_add (roundUp_dvd _)]

/-- Where the data of an entry are taken from. -/
theorem Entry.dataAt_eq (e : Entry) (ha : 4 ∣ headerAt h) (hlt : headerAt h < 2 ^ 32)
    (hlen : e.name.length + 1 < 2 ^ 31) :
    dataAt h (e.name.length + 1) = headerAt h + e.dataOffset := by
  rw [dataAt, wrap_of_lt (by rw [sizeofCpioHeader]; omega), headerAt,
    aligned_eq (by rw [sizeofCpioHeader]; omega), Nat.add_assoc, roundUp_add ha]
  rfl

/-- The calls for an entry and the `printf` of its path. -/
def Entry.handle (e : Entry) (junk : Junk) (memAlloc : MemAlloc) (fs : FsState) :
    Exec (FsState × List FsCall) :=
  if e.dir then do
    printf junk e.path
    e.perform memAlloc fs
  else do
    let r ← e.perform memAlloc fs
    printf junk e.path
    .ok r

theorem mapped_eq (hp : p < 2 ^ 47) : m.mapped (higherBase + p) = m.mem p := by
  have hpa : pa (higherBase + p) = p := by
    rw [pa, wsub_of_le (Nat.le_add_right _ _) (by rw [higherBase]; omega), Nat.add_sub_cancel_left]
  rw [Machine.mapped, hpa]

/-- The data are the same in the archive as in a buffer for themselves. -/
theorem storeFile_archive {memAlloc : MemAlloc} {fs : FsState} {path : CString}
    {data : List UInt8} (hdata : bytesAt m.mem p data.length = data) (hp : p < 2 ^ 34)
    (hlen : data.length < 2 ^ 31) :
    storeFile memAlloc fs path m.mapped (va p) data.length =
      storeFile memAlloc fs path (bufferOf data) higherBase data.length := by
  have hva : va p = higherBase + p := by
    rw [va, wrap_of_lt (by rw [higherBase]; omega), Nat.add_comm]
  rw [hva]
  refine storeFile_moved (Nat.le_refl _) (Nat.le_add_right _ _) ?_ ?_ fun i hi => ?_
  · simp only [higherBase, fsBlockSize]
    omega
  · simp only [higherBase, fsBlockSize]
    omega
  · have hbyte := congrArg (fun l => l[i]?) hdata
    simp only [bytesAt, List.getElem?_map, List.getElem?_range hi, Option.map_some] at hbyte
    rw [wrap_of_lt (by omega)] at hbyte
    rw [bufferOf, Nat.add_sub_cancel_left, List.getD_eq_getElem?_getD, ← hbyte, Option.getD_some,
      Nat.add_assoc, mapped_eq (by omega)]

/-- An entry is handled by two allocations, its calls, and a `printf` of its path. -/
theorem handleOne_entry (he : EntryAt m.mem a e) (hv : e.Valid) (ha : 4 ∣ a) (hlt : a < 2 ^ 32)
    (hend : a < m.initramfsEnd) (hh : h < 2 ^ 34) (hha : roundUp h = a) :
    handleOneCpioObject m s h = (do
      let s ← twoBuffers m s (e.name.length + 1)
      let (fs, calls) ← e.handle (m.junk s.filesCount) (m.fsAlloc s.filesCount) s.fs
      .ok ({ s with fs, trace := s.trace ++ calls }, a + e.next)) := by
  have hlen := he.nameSize.1
  have hdata := he.fileSize.1
  obtain rfl : headerAt h = a := (aligned_eq hh).trans hha
  have hstart : wrap (headerAt h + sizeofCpioHeader) = headerAt h + sizeofCpioHeader :=
    wrap_of_lt (by rw [sizeofCpioHeader]; omega)
  have hname : nameBuffer m h (e.name.length + 1) = e.name ++ [0] ++ [0] := by
    rw [nameBuffer, hstart, he.name]
  have hstring : cString (nameBuffer m h (e.name.length + 1)) = e.name := by
    rw [hname, List.append_assoc]
    exact cString_concat hv.name.2.1
  have hentry : IsEntry m h e.data.length (e.name.length + 1) e.mode := by
    refine ⟨⟨hend, parseStrToHex_spec he.fileSize, parseStrToHex_spec he.nameSize⟩, ?_,
      parseStrToHex_spec he.mode⟩
    rw [IsTrailer, hstring]
    exact hv.not_trailer
  have hbuf : pathBuffer m h (e.name.length + 1) = slash :: e.name ++ [0] ++ [0] := by
    rw [pathBuffer, hname, List.take_append_of_le_length (by simp), List.take_of_length_le (by simp)]
    rfl
  have hoff := e.dataAt_eq ha hlt hlen
  have hoffLt : e.dataOffset < 2 ^ 32 := by
    have := (roundUp_le (sizeofCpioHeader + (e.name.length + 1))).2
    rw [Entry.dataOffset]
    rw [sizeofCpioHeader] at *
    omega
  have hdir : isDir e.mode = e.dir ∧ isReg e.mode = !e.dir := by
    have hmode := hv.mode
    rw [isDir, isReg, hmode]
    cases e.dir <;> decide
  have hnext : nextObject h e.data.length (e.name.length + 1) e.mode = headerAt h + e.next := by
    rw [nextObject, hdir.2, Entry.next, hoff]
    cases e.dir
    · exact (wrap_of_lt (by omega)).trans (Nat.add_assoc _ _ _)
    · exact (wrap_of_lt (by rw [sizeofCpioHeader]; omega)).trans (Nat.add_assoc _ _ _)
  have hcalls : ∀ k fs, callsAt m k fs h e.data.length (e.name.length + 1) e.mode =
      e.perform (m.fsAlloc k) fs := by
    intro k fs
    rw [callsAt, hv.pathAt_eq hdir.1 hbuf, hdir.2, Entry.perform, hoff, he.data,
      storeFile_archive he.data (by omega) hdata]
    cases e.dir <;> simp
  have hhandled : ∀ k fs, handledAt m k fs h e.data.length (e.name.length + 1) e.mode =
      e.handle (m.junk k) (m.fsAlloc k) fs := by
    intro k fs
    rw [handledAt, hcalls, hv.pathAt_eq hdir.1 hbuf, hdir.2, Entry.handle]
    cases e.dir <;> simp
  rw [handleOne_entry_eq hentry (fun _ => Nat.succ_ne_zero _), hnext]
  · simp only [hhandled]
  · rw [hdir.1, hdir.2]
    cases e.dir
    · exact Or.inl rfl
    · exact Or.inr rfl

/-- At the trailer, the end of the archive is reached. -/
theorem handleOne_trailer (ht : TrailerAt m.mem a) (hlt : a < 2 ^ 32) (hend : a < m.initramfsEnd)
    (hh : h < 2 ^ 34) (hha : roundUp h = a) : handleOneCpioObject m s h = (do
      let s ← newBuffer m { s with filesCount := s.filesCount + 1 } (wrap (11 + 1)) 11
      .ok (s, m.initramfsEnd)) := by
  obtain rfl : headerAt h = a := (aligned_eq hh).trans hha
  refine handleOne_last ⟨hend, parseStrToHex_spec ht.fileSize, parseStrToHex_spec ht.nameSize⟩
    ⟨rfl, ?_⟩
  rw [nameBuffer, wrap_of_lt (by rw [sizeofCpioHeader]; omega), ht.name]
  decide

/-! ### The archive -/

theorem ArchiveAt.lt {last : ℕ} : ∀ {es : List Entry} {a : ℕ}, ArchiveAt mem last a es → a < last
  | [], a, h => by have := h.2; omega
  | e :: es, a, h => Nat.lt_of_le_of_lt (Nat.le_add_right a e.span) h.2.lt

theorem Entry.span_pos (e : Entry) : 110 ≤ e.span := by
  have := (roundUp_le (sizeofCpioHeader + (e.name.length + 1))).1
  rw [Entry.span, Entry.dataOffset]
  rw [sizeofCpioHeader] at *
  omega

/-- What is read at `h` lies at `a`, with the archive behind it. -/
structure At (m : Machine) (h a : ℕ) (es : List Entry) : Prop where
  found : roundUp h = a
  dvd : 4 ∣ a
  laid : ArchiveAt m.mem m.initramfsEnd a es
  valid : ∀ e ∈ es, e.Valid

theorem At.ne {es : List Entry} (ht : At m h a es) : h ≠ m.initramfsEnd := by
  have hle := (roundUp_le h).1
  have hlt := ht.laid.lt
  rw [ht.found] at hle
  omega

theorem At.next {es : List Entry} (ht : At m h a (e :: es)) : At m (a + e.next) (a + e.span) es where
  found := by rw [roundUp_add ht.dvd, (ht.valid e List.mem_cons_self).next_roundUp]
  dvd := Nat.dvd_add ht.dvd (Nat.dvd_add (roundUp_dvd _) (roundUp_dvd _))
  laid := ht.laid.2
  valid e' he' := ht.valid e' (List.mem_cons_of_mem e he')

/-- An iteration at an entry. -/
theorem load_entry {es : List Entry} {fuel : ℕ} (ht : At m h a (e :: es))
    (hend : m.initramfsEnd < 2 ^ 32) : loop (loadBody m) (fuel + 1) (s, h) = (do
      let s ← twoBuffers m s (e.name.length + 1)
      let (fs, calls) ← e.handle (m.junk s.filesCount) (m.fsAlloc s.filesCount) s.fs
      loop (loadBody m) fuel ({ s with fs, trace := s.trace ++ calls }, a + e.next)) := by
  have hlt := ht.laid.lt
  have hle := (roundUp_le h).1
  rw [ht.found] at hle
  rw [load_step ht.ne, handleOne_entry ht.laid.1 (ht.valid e List.mem_cons_self) ht.dvd (by omega) hlt
    (by omega) ht.found, bind_assoc]
  congr 1
  funext s₁
  rw [bind_assoc]
  rfl

theorem load_trailer {fuel : ℕ} (ht : At m h a []) (hend : m.initramfsEnd < 2 ^ 32) :
    loop (loadBody m) (fuel + 2) (s, h) =
      newBuffer m { s with filesCount := s.filesCount + 1 } (wrap (11 + 1)) 11 := by
  have hlt := ht.laid.lt
  have hle := (roundUp_le h).1
  rw [ht.found] at hle
  rw [load_step ht.ne, handleOne_trailer ht.laid.1 (by omega) hlt (by omega) ht.found, bind_assoc]
  simp only [ok_bind, load_end]
  exact bind_pure _

/-- An entry is handled where its calls return and its path can be printed. -/
theorem Entry.handle_ok {junk : Junk} {memAlloc : MemAlloc} {fs : FsState}
    {r : FsState × List FsCall} (hs : .str ∉ formats e.path) (h : e.perform memAlloc fs = .ok r) :
    e.handle junk memAlloc fs = .ok r := by
  rw [Entry.handle, printf_ok hs, h]
  cases e.dir <;> rfl

theorem Entry.handle_needs {junk : Junk} {memAlloc : MemAlloc} {fs : FsState}
    {r : FsState × List FsCall} (h : e.handle junk memAlloc fs = .ok r) :
    e.perform memAlloc fs = .ok r ∧ printf junk e.path = .ok () := by
  rw [Entry.handle] at h
  split at h
  · obtain ⟨_, hprint, h⟩ := bind_eq_ok.mp h
    exact ⟨h, hprint⟩
  · obtain ⟨_, hcalls, h⟩ := bind_eq_ok.mp h
    obtain ⟨_, hprint, h⟩ := bind_eq_ok.mp h
    cases h
    exact ⟨hcalls, hprint⟩

theorem performAll_cons {fsAlloc : ℕ → MemAlloc} {k : ℕ} {fs fs' : FsState} {es : List Entry}
    {trace : List FsCall} : performAll fsAlloc k fs (e :: es) = .ok (fs', trace) ↔
      ∃ fs₁ calls rest, e.perform (fsAlloc k) fs = .ok (fs₁, calls) ∧
        performAll fsAlloc (k + 1) fs₁ es = .ok (fs', rest) ∧ trace = calls ++ rest := by
  rw [performAll]
  simp only [bind_eq_ok, Prod.exists, Except.ok.injEq, Prod.mk.injEq]
  constructor
  · rintro ⟨fs₁, calls, hcalls, fs₂, rest, hrest, rfl, rfl⟩
    exact ⟨fs₁, calls, rest, hcalls, hrest, rfl⟩
  · rintro ⟨fs₁, calls, rest, hcalls, hrest, rfl⟩
    exact ⟨fs₁, calls, hcalls, fs', rest, hrest, rfl, rfl⟩

/-- Where memory is allocated, every path can be printed and the calls return, the archive is
    loaded. -/
theorem load_ok (hend : m.initramfsEnd < 2 ^ 32) : ∀ {es : List Entry} {s : State} {h a fuel : ℕ}
    {fs : FsState} {calls : List FsCall}, At m h a es → es.length + 2 ≤ fuel →
    Allocates m.memAlloc s.allocs es → (∀ e ∈ es, .str ∉ formats e.path) →
    performAll m.fsAlloc (s.filesCount + 1) s.fs es = .ok (fs, calls) →
    ∃ s', loop (loadBody m) fuel (s, h) = .ok s' ∧ s'.fs = fs ∧ s'.trace = s.trace ++ calls
  | [], s, h, a, fuel + 2, _, _, ht, _, halloc, _, hcalls => by
      cases hcalls
      rw [load_trailer ht hend]
      exact ⟨_, newBuffer_ok ⟨halloc, by decide⟩, rfl, (List.append_nil _).symm⟩
  | e :: es, s, h, a, fuel + 1, fs, _, ht, hfuel, halloc, hs, hcalls => by
      obtain ⟨fs₁, calls, rest, hfirst, hrest, rfl⟩ := performAll_cons.mp hcalls
      have hlen := ht.laid.1.nameSize.1
      have hbuffers : twoBuffers m s (e.name.length + 1) =
          .ok ⟨s.filesCount + 1, s.allocs + 2, s.fs, s.trace⟩ :=
        twoBuffers_eq_ok.mpr ⟨⟨⟨halloc.1, by omega⟩, ⟨halloc.2.1, by omega⟩⟩, rfl⟩
      rw [load_entry ht hend, bind_of_ok hbuffers,
        bind_of_ok (Entry.handle_ok (hs e List.mem_cons_self) hfirst)]
      obtain ⟨s', hok, hfs, htrace⟩ := load_ok hend
        (s := ⟨s.filesCount + 1, s.allocs + 2, fs₁, s.trace ++ calls⟩) ht.next
        (Nat.le_of_succ_le_succ hfuel) halloc.2.2
        (fun e' he' => hs e' (List.mem_cons_of_mem e he')) hrest
      exact ⟨s', hok, hfs, htrace.trans (List.append_assoc _ _ _)⟩

/-- Where an archive is loaded, memory was allocated, the calls returned, and no path has a `%s` that
    finds null. -/
theorem load_needs (hend : m.initramfsEnd < 2 ^ 32) : ∀ {es : List Entry} {s : State} {h a fuel : ℕ},
    At m h a es → es.length + 2 ≤ fuel → loop (loadBody m) fuel (s, h) = .ok s' →
    Allocates m.memAlloc s.allocs es ∧
      (∃ r, performAll m.fsAlloc (s.filesCount + 1) s.fs es = .ok r) ∧
      ((∀ k i, (m.junk k).arg i = 0) → ∀ e ∈ es, .str ∉ formats e.path)
  | [], s, h, a, fuel + 2, ht, _, hok => by
      rw [load_trailer ht hend] at hok
      exact ⟨(newBuffer_eq_ok.mp hok).1.1, ⟨_, rfl⟩, nofun⟩
  | e :: es, s, h, a, fuel + 1, ht, hfuel, hok => by
      rw [load_entry ht hend] at hok
      obtain ⟨s₁, hbuffers, hok⟩ := bind_eq_ok.mp hok
      obtain ⟨⟨fs₁, calls⟩, hhandle, hok⟩ := bind_eq_ok.mp hok
      obtain ⟨⟨halloc₁, halloc₂⟩, rfl⟩ := twoBuffers_eq_ok.mp hbuffers
      obtain ⟨hperform, hprint⟩ := Entry.handle_needs hhandle
      obtain ⟨halloc, ⟨⟨fs', rest⟩, hrest⟩, hs⟩ :=
        load_needs hend ht.next (Nat.le_of_succ_le_succ hfuel) hok
      refine ⟨⟨halloc₁.1, halloc₂.1, halloc⟩,
        ⟨_, performAll_cons.mpr ⟨fs₁, calls, rest, hperform, hrest, rfl⟩⟩, fun hnull e' he' => ?_⟩
      rcases List.mem_cons.mp he' with rfl | he'
      · intro hstr
        rw [printf_null (hnull _) hstr] at hprint
        cases hprint
      · exact hs hnull e' he'

theorem ArchiveAt.length {last : ℕ} : ∀ {es : List Entry} {a : ℕ}, ArchiveAt mem last a es →
    a + es.length * 110 < last
  | [], a, h => by have := h.lt; simpa using this
  | e :: es, a, h => by
      have hlen := h.2.length
      have := e.span_pos
      rw [List.length_cons]
      omega

theorem ArchiveAt.fuel {last : ℕ} {es : List Entry} (h : ArchiveAt mem last a es)
    (hlast : last < 2 ^ 32) : es.length + 2 ≤ maxSteps := by
  have := h.length
  unfold maxSteps
  omega

theorem loadsRight_needs {es : List Entry} (hstart : 4 ∣ m.initramfsStart)
    (hend : m.initramfsEnd < 2 ^ 32) (hlaid : ArchiveAt m.mem m.initramfsEnd m.initramfsStart es)
    (hvalid : ∀ e ∈ es, e.Valid) (hloads : LoadsRight m es) :
    Allocates m.memAlloc 0 es ∧ (∀ e ∈ es, .str ∉ formats e.path) ∧
      ∃ r, performAll m.fsAlloc 1 m.fs es = .ok r := by
  let null : ℕ → Junk := fun _ => ⟨fun _ => 0, fun _ => false⟩
  obtain ⟨s', hok, -⟩ := hloads null 0
  have hat : At { m with junk := null } m.initramfsStart m.initramfsStart es :=
    ⟨roundUp_add hstart 0, hstart, hlaid, hvalid⟩
  obtain ⟨halloc, hcalls, hs⟩ := load_needs (m := { m with junk := null }) hend hat
    (hlaid.fuel hend) hok
  exact ⟨halloc, hs fun _ _ => rfl, hcalls⟩

/-- For every archive that is laid out from an aligned address on, `load_cpio` ends after exactly the
    calls for its entries, if and only if `mem_alloc` returns memory every time, no path has a
    directive `%s`, and the calls return when they are made one after the other. -/
theorem loadsRight_iff (m : Machine) (es : List Entry) (hstart : 4 ∣ m.initramfsStart)
    (hend : m.initramfsEnd < 2 ^ 32) (hlaid : ArchiveAt m.mem m.initramfsEnd m.initramfsStart es)
    (hvalid : ∀ e ∈ es, e.Valid) : LoadsRight m es ↔
      Allocates m.memAlloc 0 es ∧ (∀ e ∈ es, .str ∉ formats e.path) ∧
        ∃ r, performAll m.fsAlloc 1 m.fs es = .ok r := by
  refine ⟨loadsRight_needs hstart hend hlaid hvalid, ?_⟩
  rintro ⟨halloc, hs, ⟨fs, calls⟩, hcalls⟩ junk filesCount
  have hat : At { m with junk } m.initramfsStart m.initramfsStart es :=
    ⟨roundUp_add hstart 0, hstart, hlaid, hvalid⟩
  obtain ⟨s', hok, rfl, htrace⟩ := load_ok (m := { m with junk }) (s := ⟨0, 0, m.fs, []⟩) hend hat
    (hlaid.fuel hend) halloc hs hcalls
  exact ⟨s', hok, by rw [hcalls, htrace]; rfl⟩

/-! ### Two archives -/

def hexOf (v : ℕ) : List UInt8 := (List.range 8).map fun i =>
  let d := v / 16 ^ (7 - i) % 16
  UInt8.ofNat (if d < 10 then 48 + d else 55 + d)

/-- A header with magic number, and zeros in the fields that are not read. -/
def headerOf (mode fileSize nameSize : ℕ) : List UInt8 :=
  [48, 55, 48, 55, 48, 49] ++ hexOf 0 ++ hexOf mode ++ (List.replicate 4 (hexOf 0)).flatten ++
    hexOf fileSize ++ (List.replicate 4 (hexOf 0)).flatten ++ hexOf nameSize ++ hexOf 0

def padding (n : ℕ) : List UInt8 := List.replicate (roundUp n - n) 0

def Entry.image (e : Entry) : List UInt8 :=
  headerOf e.mode e.data.length (e.name.length + 1) ++ e.name ++ [0] ++
    padding (sizeofCpioHeader + (e.name.length + 1)) ++ e.data ++ padding e.data.length

def archiveImage (es : List Entry) : List UInt8 :=
  es.flatMap Entry.image ++ headerOf 0 0 11 ++ endOfArchive ++ [0]

/-- What `init_file_system(4)` leaves. -/
def initialFs : FsState :=
  { allocateFsBlocks (fun _ _ => 0) 4 (blankState fun _ _ => 0) with
    nodes := Function.update (blankState fun _ _ => 0).nodes [] (freshNode .always [] [slash] .DIR) }

/-- A machine with the archive at address 0, and memory for everything. -/
def machineOf (es : List Entry) : Machine where
  mem a := (archiveImage es).getD a 0
  initramfsStart := 0
  initramfsEnd := (archiveImage es).length
  memAlloc _ _ := true
  fs := initialFs
  tree := initFileSystem_tree (initFileSystem_eq (fun _ _ => 0) 4)
  fsAlloc _ := .always
  junk _ := ⟨fun _ => 0, fun _ => false⟩

instance (c : UInt8) (d : ℕ) : Decidable (IsDigit c d) := by
  unfold IsDigit; infer_instance

instance (mem : Mem) (p v : ℕ) : Decidable (HexAt mem p v) := by
  unfold HexAt; infer_instance

/-- `d/`, and in it `a` with three bytes -/
def smallArchive : List Entry :=
  [⟨true, 0x41ED, [100, 47], []⟩, ⟨false, 0x81A4, [100, 47, 97], [1, 2, 3]⟩]

theorem smallArchive_laid : ArchiveAt (machineOf smallArchive).mem
    (machineOf smallArchive).initramfsEnd (machineOf smallArchive).initramfsStart smallArchive := by
  refine ⟨⟨?_, ?_, ?_, ?_, ?_⟩, ⟨?_, ?_, ?_, ?_, ?_⟩, ⟨?_, ?_, ?_⟩, ?_⟩
  iterate 14 decide +kernel

theorem smallArchive_valid : ∀ e ∈ smallArchive, e.Valid := by
  rintro e he
  rcases List.mem_cons.mp he with rfl | he
  · exact ⟨by decide, by decide, fun _ => rfl⟩
  · rw [List.mem_singleton.mp he]
    exact ⟨by decide, by decide, nofun⟩

/-- `d` is made and then `d/a`, the first child of the first child of the root. -/
theorem smallArchive_calls : (do
    let r ← performAll (machineOf smallArchive).fsAlloc 1 (machineOf smallArchive).fs smallArchive
    .ok r.2 : Exec (List FsCall)) = .ok [.mkdir [slash, 100], .open [slash, 100, slash, 97],
      .write [0, 0] 0 [1, 2, 3] 3, .close [0, 0]] := by decide +kernel

theorem smallArchive_loads : LoadsRight (machineOf smallArchive) smallArchive := by
  obtain ⟨r, hr, -⟩ := bind_eq_ok.mp smallArchive_calls
  exact (loadsRight_iff (machineOf smallArchive) smallArchive ⟨0, rfl⟩ (by decide +kernel)
    smallArchive_laid smallArchive_valid).mpr ⟨⟨rfl, rfl, rfl, rfl, rfl⟩, by decide +kernel, r, hr⟩

/-- One file, named `%s`, with one byte -/
def formatArchive : List Entry := [⟨false, 0x81A4, [37, 115], [1]⟩]

/-- A `%s` in a name has `printf` read a string from nowhere, although the calls return. -/
theorem formatArchive_not_loads : ¬ ∀ (m : Machine) (es : List Entry), 4 ∣ m.initramfsStart →
    m.initramfsEnd < 2 ^ 32 → ArchiveAt m.mem m.initramfsEnd m.initramfsStart es →
    (∀ e ∈ es, e.Valid) → (∀ k n, m.memAlloc k n) →
    (∃ r, performAll m.fsAlloc 1 m.fs es = .ok r) → LoadsRight m es := by
  intro hall
  have hstart : 4 ∣ (machineOf formatArchive).initramfsStart := ⟨0, rfl⟩
  have hend : (machineOf formatArchive).initramfsEnd < 2 ^ 32 := by decide +kernel
  have hlaid : ArchiveAt (machineOf formatArchive).mem (machineOf formatArchive).initramfsEnd
      (machineOf formatArchive).initramfsStart formatArchive := by
    refine ⟨⟨?_, ?_, ?_, ?_, ?_⟩, ⟨?_, ?_, ?_⟩, ?_⟩
    iterate 9 decide +kernel
  have hvalid : ∀ e ∈ formatArchive, e.Valid := by
    intro e he
    rw [List.mem_singleton.mp he]
    exact ⟨by decide, by decide, nofun⟩
  have hcalls : (do
      let r ← performAll (machineOf formatArchive).fsAlloc 1 (machineOf formatArchive).fs
        formatArchive
      .ok r.2 : Exec (List FsCall)) = .ok [.open [slash, 37, 115], .write [0] 0 [1] 1,
        .close [0]] := by decide +kernel
  obtain ⟨r, hr, -⟩ := bind_eq_ok.mp hcalls
  have hneeds := loadsRight_needs hstart hend hlaid hvalid
    (hall _ _ hstart hend hlaid hvalid (fun _ _ => rfl) ⟨r, hr⟩)
  exact hneeds.2.1 _ List.mem_cons_self (by decide +kernel)

end FilesKernel.Initramfs
