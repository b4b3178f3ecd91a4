import FilesKernel.Initramfs.Loading

/-! Which memory `load_cpio` reads.

    That a header begins inside the module is checked, and nothing more: not that it ends there, nor
    that the name and the data do. Where the copy of a name fails, bytes of it have been read before. -/

namespace FilesKernel.Initramfs
open CExec CWord FileSystem Print

variable {m : Machine} {mem mem' : Mem} {s s' : State} {a f h h' k n p type x : ℕ}

/-! ### What is read -/

/-- `parse_str_to_hex` reads a byte of a field only behind digits. -/
def FieldReads (mem : Mem) (p x : ℕ) : Prop :=
  ∃ i < 8, x = p + i ∧ ∀ j < i, ∃ d, IsDigit (mem (p + j)) d

/-- The loop that copies the name comes to its byte `i`. For a size of `2 ^ 64 - 1` the buffer has no
    byte at all; and in a null pointer so large a size indexes the kernel, so that the NUL is stored and
    only the first byte of the copy is not. -/
def NameRead (m : Machine) (k n i : ℕ) : Prop :=
  m.memAlloc k (wrap (n + 1)) ∨ i = 0 ∧ 2 ^ 63 ≤ n

/-- What is read at the object `h`, or passed to `write`. -/
inductive Touches (m : Machine) (s : State) (h x : ℕ) : Prop
  | fileSize : headerAt h < m.initramfsEnd → FieldReads m.mem (headerAt h + filesizeOffs) x →
      Touches m s h x
  | nameSize {f : ℕ} : headerAt h < m.initramfsEnd →
      parseStrToHex m.mem (headerAt h + filesizeOffs) = .ok f →
      FieldReads m.mem (headerAt h + namesizeOffs) x → Touches m s h x
  | name {f n i : ℕ} : Sizes m h f n → i < n → NameRead m s.allocs n i →
      x = wrap (wrap (headerAt h + sizeofCpioHeader) + i) → Touches m s h x
  | mode {f n : ℕ} : Sizes m h f n → RoomFor m s.allocs n → ¬ IsTrailer m h n →
      RoomFor m (s.allocs + 1) (n + 1) → FieldReads m.mem (headerAt h + modeOffs) x → Touches m s h x
  | data {f n type i : ℕ} {r : FsState × NodePtr} : IsEntry m h f n type → RoomFor m s.allocs n →
      RoomFor m (s.allocs + 1) (n + 1) → isReg type →
      openFile (m.fsAlloc (s.filesCount + 1)) s.fs (pathAt m h n type) = .ok r → i < f →
      x = wrap (dataAt h n + i) → Touches m s h x

/-- The iterations of the loop. -/
inductive Visited (m : Machine) : State → ℕ → Prop
  | start : Visited m (m.start 0) m.initramfsStart
  | next {s s' : State} {h h' : ℕ} : Visited m s h → h ≠ m.initramfsEnd →
      handleOneCpioObject m s h = .ok (s', h') → Visited m s' h'

/-- Everything that is read, or passed to `write`, lies inside the module. -/
def StaysInside (m : Machine) : Prop := ∀ s h x, Visited m s h → h ≠ m.initramfsEnd →
  Touches m s h x → m.initramfsStart ≤ x ∧ x < m.initramfsEnd

/-- A field ends inside the module, or a byte inside the module ends the reading of it. -/
def FieldInside (m : Machine) (p : ℕ) : Prop :=
  p + 8 ≤ m.initramfsEnd ∨ ∃ i < 8, p + i < m.initramfsEnd ∧ ∀ d, ¬ IsDigit (m.mem (p + i)) d

/-- The header, the name and the data of the object `h` end inside the module, as far as they are
    come to. -/
structure Contained (m : Machine) (s : State) (h : ℕ) : Prop where
  fileSize : headerAt h < m.initramfsEnd → FieldInside m (headerAt h + filesizeOffs)
  nameSize : headerAt h < m.initramfsEnd →
    ∀ f, parseStrToHex m.mem (headerAt h + filesizeOffs) = .ok f →
    FieldInside m (headerAt h + namesizeOffs)
  name : ∀ f n, Sizes m h f n → m.memAlloc s.allocs (wrap (n + 1)) →
    n = 0 ∨ headerAt h + sizeofCpioHeader + n ≤ m.initramfsEnd
  firstByte : ∀ f n, Sizes m h f n → 2 ^ 63 ≤ n →
    headerAt h + sizeofCpioHeader < m.initramfsEnd
  data : ∀ f n type, IsEntry m h f n type → RoomFor m s.allocs n →
    RoomFor m (s.allocs + 1) (n + 1) → isReg type →
    (∃ r, openFile (m.fsAlloc (s.filesCount + 1)) s.fs (pathAt m h n type) = .ok r) →
    f = 0 ∨ dataAt h n + f ≤ m.initramfsEnd

/-! ### Nothing else is read -/

theorem parseLoop_agree : ∀ {n i : ℕ}, i + n = 8 →
    (∀ j < i, ∃ d, IsDigit (mem (p + j)) d) → (∀ x, FieldReads mem p x → mem' x = mem x) → ∀ {res},
    parseLoop mem' p n i res = parseLoop mem p n i res
  | 0, _, _, _, _, _ => rfl
  | n + 1, i, hi, hdigits, hsame, res => by
      rw [parseLoop, parseLoop, hsame (p + i) ⟨i, by omega, rfl, hdigits⟩]
      cases hd : hexDigit (mem (p + i)) with
      | none => rfl
      | some d =>
        refine parseLoop_agree (by omega) (fun j hj => ?_) hsame
        rcases Nat.lt_succ_iff_lt_or_eq.mp hj with hj | rfl
        · exact hdigits j hj
        · exact ⟨d, hexDigit_eq_some.mp hd⟩

theorem parseStrToHex_agree (hsame : ∀ x, FieldReads mem p x → mem' x = mem x) :
    parseStrToHex mem' p = parseStrToHex mem p :=
  parseLoop_agree rfl (fun _ hj => absurd hj (Nat.not_lt_zero _)) hsame

theorem bytesAt_agree (hsame : ∀ i < n, mem' (wrap (a + i)) = mem (wrap (a + i))) :
    bytesAt mem' a n = bytesAt mem a n :=
  List.map_congr_left fun i hi => hsame i (List.mem_range.mp hi)

/-- A machine with another memory. -/
abbrev Machine.withMem (m : Machine) (mem : Mem) : Machine := { m with mem }

/-- A name that is copied has been read. -/
theorem RoomFor.read {i : ℕ} (h : RoomFor m k n) : NameRead m k n i := by
  refine Or.inl ?_
  rw [wrap_of_lt h.2]
  exact h.1

/-- A mode is that of one kind of file. -/
theorem not_isDir (hr : isReg type) : ¬ isDir type := by
  rw [isReg, decide_eq_true_iff] at hr
  rw [isDir, decide_eq_true_iff, hr]
  decide

/-- What `write` stores is what it is passed. -/
theorem writeFile_agree (hend : m.initramfsEnd < 2 ^ 32) (hz : Sizes m h f n) (fs : FsState)
    (file : NodePtr)
    (hsame : ∀ i < f, mem' (wrap (dataAt h n + i)) = m.mem (wrap (dataAt h n + i))) :
    writeFile fs file 0 (m.withMem mem').mapped (va (dataAt h n)) f =
      writeFile fs file 0 m.mapped (va (dataAt h n)) f := by
  obtain ⟨hd, hd', hf⟩ := va_dataAt_bounds hend hz
  refine (writeFile_anyLength fs file hd hd' hf fun i hi => ?_).2
  rw [Machine.mapped, Machine.mapped, pa_va_add]
  exact hsame i hi

/-- How an object is handled depends on nothing but what it is said to touch. -/
theorem handleOne_agree (hend : m.initramfsEnd < 2 ^ 32)
    (hsame : ∀ x, Touches m s h x → mem' x = m.mem x) :
    handleOneCpioObject (m.withMem mem') s h = handleOneCpioObject m s h := by
  rcases Nat.lt_or_ge (headerAt h) m.initramfsEnd with hlt | hge
  · simp only [handleOneCpioObject]
    rw [← headerAt, if_neg (Nat.not_le_of_lt hlt), if_neg (Nat.not_le_of_lt hlt)]
    refine bind_congr_ok (parseStrToHex_agree fun x hx => hsame x (.fileSize hlt hx)) fun f hf => ?_
    refine bind_congr_ok (parseStrToHex_agree fun x hx => hsame x (.nameSize hlt hf hx)) fun n hn => ?_
    refine bind_congr_ok rfl fun s₁ h₁ => ?_
    have hz : Sizes m h f n := ⟨hlt, hf, hn⟩
    obtain ⟨hroom, rfl⟩ := newBuffer_eq_ok.mp h₁
    rw [show bytesAt mem' _ n = bytesAt m.mem _ n from
      bytesAt_agree fun i hi => hsame _ (.name hz hi hroom.read rfl)]
    by_cases ht : IsTrailer m h n
    · exact (if_pos ht).trans (if_pos ht).symm
    · refine (if_neg ht).trans (Eq.trans ?_ (if_neg ht).symm)
      refine bind_congr_ok rfl fun s₂ h₂ => ?_
      obtain ⟨hroom', rfl⟩ := newBuffer_eq_ok.mp h₂
      refine bind_congr_ok
        (parseStrToHex_agree fun x hx => hsame x (.mode hz hroom ht hroom' hx)) fun type htype => ?_
      have he : IsEntry m h f n type := ⟨hz, ht, htype⟩
      refine bind_congr_ok rfl fun path hpath => ?_
      by_cases hr : isReg type
      · have hpathAt : cString path = pathAt m h n type := by
          have hlt' : n < 2 ^ 64 := by rcases parseStrToHex_range hn with h | h <;> omega
          rw [← nameBuffer, ← pathBuffer, path_eq hlt' fun hd => (not_isDir hr hd).elim] at hpath
          exact congrArg cString (Except.ok.inj hpath).symm
        rw [if_pos hr, if_pos hr, ← headerAt, ← dataAt]
        refine bind_congr_ok rfl ?_
        rintro ⟨fs, file⟩ hopen
        rw [hpathAt] at hopen
        have hbytes : ∀ i < f, mem' (wrap (dataAt h n + i)) = m.mem (wrap (dataAt h n + i)) :=
          fun i hi => hsame _ (.data he hroom hroom' hr hopen hi rfl)
        rw [bytesAt_agree hbytes]
        exact bind_congr_ok (writeFile_agree hend hz _ _ hbytes) fun _ _ => rfl
      · rw [if_neg hr, if_neg hr]
  · exact (handleOne_past (m := m.withMem mem') hge).trans (handleOne_past hge).symm

theorem load_agree (hend : m.initramfsEnd < 2 ^ 32)
    (hsame : ∀ s h x, Visited m s h → h ≠ m.initramfsEnd → Touches m s h x → mem' x = m.mem x) :
    ∀ {fuel : ℕ} {s : State} {h : ℕ}, Visited m s h →
    loop (loadBody (m.withMem mem')) fuel (s, h) = loop (loadBody m) fuel (s, h)
  | 0, _, _, _ => by rw [loop, loop]
  | fuel + 1, s, h, hv => by
      by_cases hne : h = m.initramfsEnd
      · subst hne
        exact (load_end (m := m.withMem mem')).trans load_end.symm
      · refine (load_step (m := m.withMem mem') hne).trans (Eq.trans ?_ (load_step hne).symm)
        refine bind_congr_ok (handleOne_agree hend fun x hx => hsame s h x hv hne hx) ?_
        rintro ⟨s', h'⟩ hok
        exact load_agree hend hsame (hv.next hne hok)

/-- If loading stays inside the module, it does not depend on what lies outside. -/
theorem StaysInside.loadCpio_eq (hend : m.initramfsEnd < 2 ^ 32) (hi : StaysInside m)
    (hsame : ∀ x, m.initramfsStart ≤ x → x < m.initramfsEnd → mem' x = m.mem x) (filesCount : ℕ) :
    loadCpio (m.withMem mem') (m.start filesCount) = loadCpio m (m.start filesCount) :=
  load_agree hend
    (fun s h x hv hne hx => hsame x (hi s h x hv hne hx).1 (hi s h x hv hne hx).2) .start

/-! ### Where it ends -/

theorem FieldInside.lt (hf : FieldInside m p) (hx : FieldReads m.mem p x) : x < m.initramfsEnd := by
  obtain ⟨i, hi, rfl, hdigits⟩ := hx
  rcases hf with hin | ⟨j, -, hj, hno⟩
  · omega
  · rcases Nat.lt_or_ge j i with hlt | hge
    · obtain ⟨d, hd⟩ := hdigits j hlt
      exact absurd hd (hno d)
    · omega

theorem fieldInside_of_reads (hreads : ∀ x, FieldReads m.mem p x → x < m.initramfsEnd) :
    FieldInside m p := by
  by_contra hout
  simp only [FieldInside, not_or, not_exists, not_and, not_forall, not_not] at hout
  obtain ⟨hend, hdigits⟩ := hout
  -- all bytes of the field inside the module are digits, and so the first outside is read
  have hread : FieldReads m.mem p (p + (m.initramfsEnd - p)) := by
    refine ⟨m.initramfsEnd - p, by omega, rfl, fun j hj => hdigits j (by omega) (by omega)⟩
  have := hreads _ hread
  omega

/-- A field that can be read is read to its end. -/
theorem FieldInside.of_ok {v : ℕ} (hf : FieldInside m p) (hv : parseStrToHex m.mem p = .ok v) :
    p + 8 ≤ m.initramfsEnd := by
  rcases hf with hin | ⟨i, hi, -, hno⟩
  · exact hin
  · rw [parseStrToHex, parseLoop_stops ⟨i, Nat.zero_le i, by omega, hexDigit_eq_none.mpr hno⟩] at hv
    cases hv

/-- Bytes that all lie before the end, without wrapping around. -/
theorem end_le_of_bytes {last : ℕ} (ha : a < 2 ^ 64) (hlast : last < 2 ^ 32)
    (hin : ∀ i < n, wrap (a + i) < last) : n = 0 ∨ a + n ≤ last := by
  by_contra hout
  have hout' : 0 < n ∧ last < a + n := by omega
  have hbyte := hin (last - a) (by
    by_contra hge
    have hfirst := hin 0 hout'.1
    rw [Nat.add_zero, wrap_of_lt ha] at hfirst
    omega)
  rw [wrap_eq] at hbyte
  omega

theorem headerAt_lt (h : ℕ) : headerAt h < 2 ^ 64 := by
  rw [headerAt, wrap_eq]
  omega

theorem contained_of_touches (hend : m.initramfsEnd < 2 ^ 32)
    (hin : ∀ x, Touches m s h x → x < m.initramfsEnd) : Contained m s h := by
  have hstart : ∀ {f n}, Sizes m h f n →
      wrap (headerAt h + sizeofCpioHeader) = headerAt h + sizeofCpioHeader := by
    intro f n hz
    have hbefore := hz.before
    exact wrap_of_lt (by rw [sizeofCpioHeader]; omega)
  refine ⟨fun hlt => fieldInside_of_reads fun x hx => hin x (.fileSize hlt hx),
    fun hlt f hf => fieldInside_of_reads fun x hx => hin x (.nameSize hlt hf hx),
    fun f n hz halloc => ?_, fun f n hz hn => ?_, fun f n type he hroom hroom' hr hopen => ?_⟩
  · have hbefore := hz.before
    refine end_le_of_bytes (by rw [sizeofCpioHeader]; omega) hend fun i hi => ?_
    have hbyte := hin _ (.name hz hi (Or.inl halloc) rfl)
    rwa [hstart hz] at hbyte
  · have hbefore := hz.before
    have hbyte := hin _ (.name (i := 0) hz (by omega) (Or.inr ⟨rfl, hn⟩) rfl)
    rwa [hstart hz, Nat.add_zero, hstart hz] at hbyte
  · obtain ⟨r, hopen⟩ := hopen
    exact end_le_of_bytes (headerAt_lt _) hend fun i hi =>
      hin _ (.data he hroom hroom' hr hopen hi rfl)

/-- The name ends where the addresses do not wrap around yet. -/
theorem Contained.name_wrap (hc : Contained m s h) (hend : m.initramfsEnd < 2 ^ 32)
    (hz : Sizes m h f n) (hroom : RoomFor m s.allocs n) :
    wrap (headerAt h + sizeofCpioHeader + n) = headerAt h + sizeofCpioHeader + n ∧
      headerAt h + sizeofCpioHeader + n < 2 ^ 33 := by
  have hbefore := hz.before
  have hname := hc.name f n hz (by rw [wrap_of_lt hroom.2]; exact hroom.1)
  have hlt : headerAt h + sizeofCpioHeader + n < 2 ^ 33 := by
    rw [sizeofCpioHeader] at *
    omega
  exact ⟨wrap_of_lt (by omega), hlt⟩

theorem Contained.touches (hc : Contained m s h) (hend : m.initramfsEnd < 2 ^ 32)
    (hh : m.initramfsStart ≤ h ∧ h < 2 ^ 34) (ht : Touches m s h x) :
    m.initramfsStart ≤ x ∧ x < m.initramfsEnd := by
  have hle := (headerAt_bounds hh.2).1
  have hfield : ∀ {p y}, FieldReads m.mem (headerAt h + p) y → m.initramfsStart ≤ y := by
    rintro p y ⟨i, -, rfl, -⟩
    omega
  cases ht with
  | fileSize hlt hx => exact ⟨hfield hx, (hc.fileSize hlt).lt hx⟩
  | nameSize hlt hf hx => exact ⟨hfield hx, (hc.nameSize hlt _ hf).lt hx⟩
  | @name f n i hz hi hread hx =>
    have hbefore := hz.before
    have hlast : headerAt h + sizeofCpioHeader + i < m.initramfsEnd := by
      rcases hread with halloc | ⟨rfl, hn⟩
      · have hname := hc.name f n hz halloc
        omega
      · exact hc.firstByte f n hz hn
    rw [wrap_of_lt (show headerAt h + sizeofCpioHeader < 2 ^ 64 by omega),
      wrap_of_lt (by omega)] at hx
    omega
  | mode hz hroom _ _ hx =>
    have hsize := (hc.fileSize hz.before).of_ok hz.fileSize
    refine ⟨hfield hx, ?_⟩
    obtain ⟨i, hi, rfl, -⟩ := hx
    rw [filesizeOffs] at hsize
    rw [modeOffs]
    omega
  | @data f n type i r he hroom hroom' hr hopen hi hx =>
    have hdata := hc.data f n type he hroom hroom' hr ⟨r, hopen⟩
    obtain ⟨hwrap, hlt⟩ := hc.name_wrap hend he.toSizes hroom
    have hup := (headerAt_bounds (h := headerAt h + sizeofCpioHeader + n) (by omega)).1
    rw [dataAt, hwrap] at hx hdata
    rw [wrap_of_lt (by omega)] at hx
    omega

/-- A file that calls have returned for has been opened. -/
theorem exists_openFile {fs : FsState} {r : FsState × List FsCall} (hr : isReg type)
    (hcalls : callsAt m k fs h f n type = .ok r) :
    ∃ r, openFile (m.fsAlloc k) fs (pathAt m h n type) = .ok r := by
  rw [callsAt, if_pos hr] at hcalls
  obtain ⟨_, hstore, -⟩ := bind_eq_ok.mp hcalls
  obtain ⟨r, hopen, -⟩ := bind_eq_ok.mp hstore
  exact ⟨r, hopen⟩

/-- From an object that is contained the loop goes up, or to the end. -/
theorem Contained.next (hc : Contained m s h) (hend : m.initramfsEnd < 2 ^ 32)
    (hle : m.initramfsStart ≤ m.initramfsEnd) (hh : m.initramfsStart ≤ h ∧ h < 2 ^ 34)
    (hok : handleOneCpioObject m s h = .ok (s', h')) : m.initramfsStart ≤ h' ∧ h' < 2 ^ 34 := by
  have hnext : Handled m s h h' := handled_of_ok hok
  cases hnext with
  | past | last => omega
  | @entry f n type fs calls he _ hroom hroom' hcalls =>
    obtain ⟨hwrap, hlt⟩ := hc.name_wrap hend he.toSizes hroom
    have hup := (headerAt_bounds hh.2).1
    rw [nextObject]
    split
    · rename_i hr
      have hdata := hc.data f n type he hroom hroom' hr (exists_openFile hr hcalls)
      have hup' := headerAt_bounds (h := headerAt h + sizeofCpioHeader + n) (by omega)
      rw [dataAt, hwrap] at hdata ⊢
      rw [wrap_of_lt (by omega)]
      omega
    · rw [hwrap]
      omega

theorem Visited.bounds (hle : m.initramfsStart ≤ m.initramfsEnd) (hend : m.initramfsEnd < 2 ^ 32)
    (hall : ∀ s h, Visited m s h → h ≠ m.initramfsEnd → Contained m s h)
    (hv : Visited m s h) : m.initramfsStart ≤ h ∧ h < 2 ^ 34 := by
  induction hv with
  | start => omega
  | next hv hne hok ih => exact (hall _ _ hv hne).next hend hle ih hok

theorem staysInside_of_contained (hle : m.initramfsStart ≤ m.initramfsEnd)
    (hend : m.initramfsEnd < 2 ^ 32)
    (hall : ∀ s h, Visited m s h → h ≠ m.initramfsEnd → Contained m s h) :
    StaysInside m := fun s h _ hv hne ht =>
  (hall s h hv hne).touches hend (hv.bounds hle hend hall) ht

/-- Nothing outside the module is read or passed on if and only if the header, the name and the data of
    every object that the loop comes to end inside it. -/
theorem staysInside_iff (m : Machine) (hle : m.initramfsStart ≤ m.initramfsEnd)
    (hend : m.initramfsEnd < 2 ^ 32) : StaysInside m ↔
      ∀ s h, Visited m s h → h ≠ m.initramfsEnd → Contained m s h :=
  ⟨fun hi s h hv hne => contained_of_touches hend fun x ht => (hi s h x hv hne ht).2,
    staysInside_of_contained hle hend⟩

/-! ### Archives in the newc format -/

/-- What lies at the end of the list of entries, or is one of them, ends inside the module. -/
theorem At.contained {es : List Entry} (ht : At m h a es) (hend : m.initramfsEnd < 2 ^ 32) :
    Contained m s h := by
  have hlt := ht.laid.lt
  have hle := (roundUp_le h).1
  rw [ht.found] at hle
  have hh : h < 2 ^ 34 := by omega
  obtain rfl : headerAt h = a := (aligned_eq hh).trans ht.found
  cases es with
  | nil =>
    obtain ⟨htrail, hlast⟩ := ht.laid
    rw [sizeofCpioHeader] at hlast
    refine ⟨fun _ => Or.inl ?_, fun _ _ _ => Or.inl ?_, fun f n hz _ => Or.inr ?_, fun _ _ _ _ => ?_,
      ?_⟩
    · rw [filesizeOffs]; omega
    · rw [namesizeOffs]; omega
    · have hn := hz.nameSize
      rw [parseStrToHex_spec htrail.nameSize, Except.ok.injEq] at hn
      rw [sizeofCpioHeader]
      omega
    · rw [sizeofCpioHeader]; omega
    · intro f n type he _ _ _ _
      have hf := he.fileSize
      rw [parseStrToHex_spec htrail.fileSize, Except.ok.injEq] at hf
      exact Or.inl hf.symm
  | cons e es =>
    obtain ⟨hentry, hrest⟩ := ht.laid
    have hspan := hrest.lt
    have hoff := roundUp_le (sizeofCpioHeader + (e.name.length + 1))
    have hround := (roundUp_le e.data.length).1
    have hlen := hentry.nameSize.1
    rw [Entry.span, Entry.dataOffset] at hspan
    have hsize : ∀ {f n}, Sizes m h f n → f = e.data.length ∧ n = e.name.length + 1 := by
      intro f n hz
      have hf := hz.fileSize
      have hn := hz.nameSize
      rw [parseStrToHex_spec hentry.fileSize, Except.ok.injEq] at hf
      rw [parseStrToHex_spec hentry.nameSize, Except.ok.injEq] at hn
      exact ⟨hf.symm, hn.symm⟩
    refine ⟨fun _ => Or.inl ?_, fun _ _ _ => Or.inl ?_, fun f n hz _ => Or.inr ?_, fun _ _ _ _ => ?_,
      ?_⟩
    · rw [filesizeOffs]; rw [sizeofCpioHeader] at *; omega
    · rw [namesizeOffs]; rw [sizeofCpioHeader] at *; omega
    · obtain ⟨-, rfl⟩ := hsize hz
      omega
    · omega
    · intro f n type he _ _ _ _
      obtain ⟨rfl, rfl⟩ := hsize he.toSizes
      rw [e.dataAt_eq ht.dvd (by omega) hlen, Entry.dataOffset]
      exact Or.inr (by omega)

/-- Every iteration finds an entry, the trailer, or the end. -/
theorem Visited.at {es : List Entry} (hstart : 4 ∣ m.initramfsStart) (hend : m.initramfsEnd < 2 ^ 32)
    (hlaid : ArchiveAt m.mem m.initramfsEnd m.initramfsStart es) (hvalid : ∀ e ∈ es, e.Valid)
    (hv : Visited m s h) : h = m.initramfsEnd ∨ ∃ a es, At m h a es := by
  induction hv with
  | start => exact Or.inr ⟨_, es, roundUp_add hstart 0, hstart, hlaid, hvalid⟩
  | @next s s' h h' hv hne hok ih =>
    obtain ⟨a, es, hat⟩ := ih.resolve_left hne
    have hlt := hat.laid.lt
    have hle := (roundUp_le h).1
    rw [hat.found] at hle
    cases es with
    | nil =>
      rw [handleOne_trailer hat.laid.1 (by omega) hlt (by omega) hat.found] at hok
      obtain ⟨_, -, hok⟩ := bind_eq_ok.mp hok
      exact Or.inl (congrArg Prod.snd (Except.ok.inj hok)).symm
    | cons e es =>
      rw [handleOne_entry hat.laid.1 (hat.valid e List.mem_cons_self) hat.dvd (by omega) hlt
        (by omega) hat.found] at hok
      obtain ⟨_, -, hok⟩ := bind_eq_ok.mp hok
      obtain ⟨_, -, hok⟩ := bind_eq_ok.mp hok
      obtain rfl : a + e.next = h' := congrArg Prod.snd (Except.ok.inj hok)
      exact Or.inr ⟨_, es, hat.next⟩

/-- An archive in the format is read without leaving the module. -/
theorem ArchiveAt.contained {es : List Entry} (hstart : 4 ∣ m.initramfsStart)
    (hend : m.initramfsEnd < 2 ^ 32) (hlaid : ArchiveAt m.mem m.initramfsEnd m.initramfsStart es)
    (hvalid : ∀ e ∈ es, e.Valid) (hv : Visited m s h) (hne : h ≠ m.initramfsEnd) :
    Contained m s h := by
  obtain ⟨a, es, hat⟩ := (hv.at hstart hend hlaid hvalid).resolve_left hne
  exact hat.contained hend

theorem smallArchive_inside : StaysInside (machineOf smallArchive) :=
  (staysInside_iff (machineOf smallArchive) (Nat.zero_le _) (by decide +kernel)).mpr
    fun _ _ => ArchiveAt.contained ⟨0, rfl⟩ (by decide +kernel) smallArchive_laid smallArchive_valid

/-- A file `x` of 4096 bytes, of which none are in the archive. -/
def oversizedImage : List UInt8 := headerOf 0x81A4 4096 2 ++ [120, 0]

def oversizedMachine : Machine := { machineOf [] with
  mem := fun a => oversizedImage.getD a 0
  initramfsEnd := oversizedImage.length }

/-- What lies behind the module is written into the file. -/
theorem oversizedMachine_not_inside : ¬ ∀ m : Machine, m.initramfsStart ≤ m.initramfsEnd →
    m.initramfsEnd < 2 ^ 32 → StaysInside m := by
  intro hall
  have hi := hall oversizedMachine (Nat.zero_le _) (by decide +kernel)
  have he : IsEntry oversizedMachine 0 4096 2 0x81A4 := by
    refine ⟨⟨by decide +kernel, parseStrToHex_spec ?_, parseStrToHex_spec ?_⟩,
      fun ht => absurd ht.1 (by decide), parseStrToHex_spec ?_⟩
    iterate 3 decide +kernel
  have hopen : (do
      let r ← openFile .always initialFs (pathAt oversizedMachine 0 2 0x81A4)
      .ok r.2 : Exec NodePtr) = .ok [0] := by decide +kernel
  obtain ⟨r, hopen, -⟩ := bind_eq_ok.mp hopen
  have ht : Touches oversizedMachine (oversizedMachine.start 0) 0 (wrap (dataAt 0 2 + 0)) :=
    .data he ⟨rfl, by decide⟩ ⟨rfl, by decide⟩ (by decide) hopen (by decide) rfl
  have hlt := (hi (oversizedMachine.start 0) 0 _ .start (by decide +kernel) ht).2
  exact absurd hlt (by decide +kernel)

end FilesKernel.Initramfs
