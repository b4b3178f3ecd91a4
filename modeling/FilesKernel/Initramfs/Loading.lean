import FilesKernel.Initramfs.Archive
import FilesKernel.Lib.Cycles

/-! That the loop of `load_cpio` ends.

    It ends at `initramfs_end` only, and every object says itself where the next one is. Sizes below
    `2 ^ 31` lead upwards. A size with the upper bits set is an addition that wraps around, and leads
    back: to anywhere, the object it is found at included. The calls of the file system stop the loop
    at most the first time: an entry that has been stored is stored again when it is come back to. -/

namespace FilesKernel.Initramfs
open CExec CWord FileSystem Print Relation

variable {m : Machine} {s s' : State} {f h h' k n type : ℕ}

/-- `load_cpio` reaches `initramfs_end`, or is stopped by an assertion. -/
def LoadEnds (m : Machine) : Prop := ∀ filesCount, Ends (loadCpio m (m.start filesCount))

/-- Where the loop is: `files_count`, the object, and the file system. -/
structure Place where
  filesCount : ℕ
  object : ℕ
  fs : FsState

def Machine.first (m : Machine) : Place := ⟨0, m.initramfsStart, m.fs⟩

/-- An iteration that returns, by what the archive says, if the calls for the entry return. -/
inductive Leads (m : Machine) : Place → Place → Prop
  | past {k h : ℕ} {fs : FsState} : h ≠ m.initramfsEnd → m.initramfsEnd ≤ headerAt h →
      Leads m ⟨k, h, fs⟩ ⟨k + 1, m.initramfsEnd, fs⟩
  | last {k h f n : ℕ} {fs : FsState} : h ≠ m.initramfsEnd → Sizes m h f n → IsTrailer m h n →
      Leads m ⟨k, h, fs⟩ ⟨k + 1, m.initramfsEnd, fs⟩
  | entry {k h f n type : ℕ} {fs fs' : FsState} {calls : List FsCall} : h ≠ m.initramfsEnd →
      IsEntry m h f n type → isReg type ∨ isDir type →
      callsAt m (k + 1) fs h f n type = .ok (fs', calls) →
      Leads m ⟨k, h, fs⟩ ⟨k + 1, nextObject h f n type, fs'⟩

/-- What the loop comes to. -/
def Reached (m : Machine) : Place → Prop := ReflTransGen (Leads m) m.first

/-- What the handling of an object needs from around it: memory for the name and for the path, of a
    directory a name, of the path that its lookup stays within the limits, and for `printf` something
    to print wherever the path has a `%s`. -/
structure Served (m : Machine) (c : Place) : Prop where
  name : ∀ f n, Sizes m c.object f n → RoomFor m (2 * c.filesCount) n
  path : ∀ f n, Sizes m c.object f n → ¬ IsTrailer m c.object n →
    RoomFor m (2 * c.filesCount + 1) (n + 1)
  dir : ∀ f n type, IsEntry m c.object f n type → isDir type → n ≠ 0
  limits : ∀ f n type, IsEntry m c.object f n type → isReg type ∨ isDir type →
    MeetsLimits (m.fsAlloc (c.filesCount + 1)) c.fs (pathAt m c.object n type)
  text : ∀ f n type, IsEntry m c.object f n type → isReg type ∨ isDir type →
    (isReg type → ∃ r, callsAt m (c.filesCount + 1) c.fs c.object f n type = .ok r) →
    printf (m.junk (c.filesCount + 1)) (pathAt m c.object n type) = .ok ()

/-- One of the sizes is decoded with the upper bits set. -/
def SignedSize (m : Machine) (h : ℕ) : Prop := ∃ f n, Sizes m h f n ∧ (2 ^ 31 ≤ f ∨ 2 ^ 31 ≤ n)

/-! ### An iteration -/

theorem room_of_ends (h : Ends (newBuffer m s (wrap (n + 1)) n)) : RoomFor m s.allocs n := by
  by_contra hno
  rw [newBuffer_fault hno] at h
  exact h

theorem rooms_of_ends (h : Ends (twoBuffers m s n)) :
    RoomFor m s.allocs n ∧ RoomFor m (s.allocs + 1) (n + 1) := by
  by_contra hno
  rw [twoBuffers_fault hno] at h
  exact h

/-- Everything but the trailer is handled behind both buffers. -/
theorem handleOne_buffers (hz : Sizes m h f n) (ht : ¬ IsTrailer m h n) :
    ∃ g : State → Exec (State × ℕ), handleOneCpioObject m s h = twoBuffers m s n >>= g := by
  rcases parseStrToHex_ok_or_bug m.mem (headerAt h + modeOffs) with ⟨type, hmode⟩ | hbug
  · have he : IsEntry m h f n type := ⟨hz, ht, hmode⟩
    by_cases hnl : isDir type ∧ n = 0
    · obtain ⟨hd, rfl⟩ := hnl
      exact ⟨_, handleOne_nameless he hd⟩
    · by_cases hkind : isReg type ∨ isDir type
      · exact ⟨_, handleOne_entry_eq he (fun hd hn => hnl ⟨hd, hn⟩) hkind⟩
      · rw [not_or] at hkind
        exact ⟨_, handleOne_other he hkind.2 hkind.1⟩
  · exact ⟨_, handleOne_modeless hz ht hbug⟩

theorem not_ends_nameless (he : IsEntry m h f 0 type) (hd : isDir type) :
    ¬ Ends (handleOneCpioObject m s h) := by
  rw [handleOne_nameless he hd]
  intro hends
  have hbuffers := twoBuffers_eq_ok.mpr ⟨rooms_of_ends hends.left, rfl⟩
  rw [bind_of_ok hbuffers] at hends
  exact hends

/-- Where data are taken from, as `write` gets them. -/
theorem va_dataAt_bounds (hend : m.initramfsEnd < 2 ^ 32) (hz : Sizes m h f n) :
    2 ^ 63 ≤ va (dataAt h n) ∧ va (dataAt h n) < 2 ^ 64 ∧ f < 2 ^ 64 := by
  have hbefore := hz.before
  have hf := parseStrToHex_range hz.fileSize
  have hn := parseStrToHex_range hz.nameSize
  rw [va, dataAt, headerAt, sizeofCpioHeader, higherBase]
  simp only [wrap_eq]
  omega

/-- The calls for an entry end where its path stays within the limits. -/
theorem ends_callsAt_iff {fs : FsState} (hend : m.initramfsEnd < 2 ^ 32) (hfs : TreeOk fs)
    (hz : Sizes m h f n) : Ends (callsAt m k fs h f n type) ↔
      MeetsLimits (m.fsAlloc k) fs (pathAt m h n type) := by
  obtain ⟨hd, hd', hf⟩ := va_dataAt_bounds hend hz
  rw [callsAt]
  split
  · rw [← ends_storeFile_iff hfs hd hd' hf]
    exact ⟨fun h => h.left, fun h => h.bind fun _ _ => trivial⟩
  · rw [← ends_mkdir_iff hfs]
    exact ⟨fun h => h.left, fun h => h.bind fun _ _ => trivial⟩

theorem callsAt_later {fs fs' : FsState} {calls : List FsCall} (hfs : TreeOk fs)
    (hok : callsAt m k fs h f n type = .ok (fs', calls)) : TreeOk fs' ∧ Later fs fs' := by
  rw [callsAt] at hok
  split at hok
  · obtain ⟨⟨t, p⟩, hstore, hok⟩ := bind_eq_ok.mp hok
    cases hok
    exact hfs.storeFile hstore
  · obtain ⟨t, hmkdir, hok⟩ := bind_eq_ok.mp hok
    cases hok
    exact hfs.mkdir hmkdir

/-- Calls that have returned return again. -/
theorem callsAt_again {k' : ℕ} {fs fs' t : FsState} {calls : List FsCall} (hfs : TreeOk fs)
    (hok : callsAt m k fs h f n type = .ok (fs', calls)) (ht : TreeOk t) (hl : Later fs' t)
    (hends : Ends (callsAt m k' t h f n type)) :
    ∃ r, callsAt m k' t h f n type = .ok r := by
  rw [callsAt] at hok hends ⊢
  split at hok
  · rename_i hr
    rw [if_pos hr] at hends ⊢
    obtain ⟨⟨u, p⟩, hstore, hok⟩ := bind_eq_ok.mp hok
    cases hok
    obtain ⟨r, hr⟩ := storeFile_again hfs hstore ht hl hends.left
    exact ⟨_, bind_of_ok hr _⟩
  · rename_i hr
    rw [if_neg hr] at hends ⊢
    obtain ⟨u, hmkdir, hok⟩ := bind_eq_ok.mp hok
    cases hok
    obtain ⟨r, hr⟩ := mkdir_again hfs hmkdir ht hl hends.left
    exact ⟨_, bind_of_ok hr _⟩

theorem handledAt_eq_ok {fs : FsState} {r : FsState × List FsCall} :
    handledAt m k fs h f n type = .ok r ↔ callsAt m k fs h f n type = .ok r ∧
      printf (m.junk k) (pathAt m h n type) = .ok () := by
  rw [handledAt]
  split
  · rw [bind_eq_ok]
    constructor
    · rintro ⟨r', hcalls, hok⟩
      obtain ⟨_, hprint, hok⟩ := bind_eq_ok.mp hok
      cases hok
      exact ⟨hcalls, hprint⟩
    · rintro ⟨hcalls, hprint⟩
      exact ⟨r, hcalls, bind_of_ok hprint _⟩
  · rw [bind_eq_ok]
    constructor
    · rintro ⟨_, hprint, hcalls⟩
      exact ⟨hcalls, hprint⟩
    · rintro ⟨hcalls, hprint⟩
      exact ⟨(), hprint, hcalls⟩

/-- The path of a file is printed where its calls return, that of a directory before. -/
theorem ends_handledAt_iff {fs : FsState} : Ends (handledAt m k fs h f n type) ↔
    Ends (callsAt m k fs h f n type) ∧
      ((isReg type → ∃ r, callsAt m k fs h f n type = .ok r) →
        printf (m.junk k) (pathAt m h n type) = .ok ()) := by
  rw [handledAt]
  split
  · rename_i hr
    constructor
    · intro hends
      refine ⟨hends.left, fun hcalls => ?_⟩
      obtain ⟨r, hcalls⟩ := hcalls hr
      rw [bind_of_ok hcalls] at hends
      exact printf_of_ends hends.left
    · rintro ⟨hends, hprint⟩
      refine hends.bind fun r hcalls => ?_
      rw [hprint fun _ => ⟨r, hcalls⟩]
      trivial
  · rename_i hr
    constructor
    · intro hends
      have hprint := printf_of_ends hends.left
      rw [bind_of_ok hprint] at hends
      exact ⟨hends, fun _ => hprint⟩
    · rintro ⟨hends, hprint⟩
      rw [bind_of_ok (hprint fun hreg => absurd hreg hr)]
      exact hends

/-- The place of the loop in a state. -/
def place (t : State × ℕ) : Place := ⟨t.1.filesCount, t.2, t.1.fs⟩

/-- There were two allocations for each object, but at the end. -/
def Counted (m : Machine) (t : State × ℕ) : Prop :=
  t.2 = m.initramfsEnd ∨ t.1.allocs = 2 * t.1.filesCount

/-- An iteration that ends where the archive leads on, leads there. -/
theorem Leads.of_ends {c : Place} (hl : Leads m (place (s, h)) c)
    (hends : Ends (handleOneCpioObject m s h)) :
    ∃ t, handleOneCpioObject m s h = .ok t ∧ place t = c ∧
      (Counted m (s, h) → Counted m t) := by
  generalize hp : place (s, h) = p at hl
  cases hl with
  | past _ hpast =>
    cases hp
    exact ⟨_, handleOne_past hpast, rfl, fun _ => Or.inl rfl⟩
  | last _ hz ht =>
    cases hp
    rw [handleOne_last hz ht] at hends ⊢
    rw [newBuffer_ok (room_of_ends hends.left)]
    exact ⟨_, rfl, rfl, fun _ => Or.inl rfl⟩
  | @entry k h f n type fs fs' calls hne he hkind hcalls =>
    cases hp
    have hdir : isDir type → n ≠ 0 := by
      rintro hd rfl
      exact not_ends_nameless he hd hends
    rw [handleOne_entry_eq he hdir hkind] at hends ⊢
    have hbuffers := twoBuffers_eq_ok.mpr ⟨rooms_of_ends hends.left, rfl⟩
    rw [bind_of_ok hbuffers] at hends ⊢
    have hprint := (ends_handledAt_iff.mp hends.left).2 fun _ => ⟨_, hcalls⟩
    rw [bind_of_ok (handledAt_eq_ok.mpr ⟨hcalls, hprint⟩)]
    refine ⟨_, rfl, rfl, fun hcount => Or.inr ?_⟩
    have hallocs : s.allocs = 2 * s.filesCount := hcount.resolve_left hne
    show s.allocs + 2 = 2 * (s.filesCount + 1)
    omega

/-- How an iteration that returns goes on. -/
inductive Handled (m : Machine) (s : State) (h : ℕ) : ℕ → Prop
  | past : m.initramfsEnd ≤ headerAt h → Handled m s h m.initramfsEnd
  | last {f n : ℕ} : Sizes m h f n → IsTrailer m h n → Handled m s h m.initramfsEnd
  | entry {f n type : ℕ} {fs : FsState} {calls : List FsCall} : IsEntry m h f n type →
      isReg type ∨ isDir type → RoomFor m s.allocs n → RoomFor m (s.allocs + 1) (n + 1) →
      callsAt m (s.filesCount + 1) s.fs h f n type = .ok (fs, calls) →
      Handled m s h (nextObject h f n type)

theorem handled_of_ok {t : State × ℕ} (hok : handleOneCpioObject m s h = .ok t) :
    Handled m s h t.2 := by
  cases found m h with
  | past hp =>
    rw [handleOne_past hp] at hok
    cases hok
    exact .past hp
  | unread hlt hno =>
    rw [handleOne_unread hlt hno] at hok
    cases hok
  | last hz ht =>
    rw [handleOne_last hz ht] at hok
    obtain ⟨_, -, hok⟩ := bind_eq_ok.mp hok
    cases hok
    exact .last hz ht
  | modeless hz ht hbug =>
    rw [handleOne_modeless hz ht hbug] at hok
    obtain ⟨_, -, hok⟩ := bind_eq_ok.mp hok
    cases hok
  | nameless he hd =>
    rw [handleOne_nameless he hd] at hok
    obtain ⟨_, -, hok⟩ := bind_eq_ok.mp hok
    cases hok
  | other he hd hr =>
    rw [handleOne_other he hd hr] at hok
    obtain ⟨_, -, hok⟩ := bind_eq_ok.mp hok
    cases hok
  | entry he hdir hkind =>
    rw [handleOne_entry_eq he hdir hkind] at hok
    obtain ⟨s₁, hbuffers, hok⟩ := bind_eq_ok.mp hok
    obtain ⟨⟨fs, calls⟩, hhandled, hok⟩ := bind_eq_ok.mp hok
    cases hok
    obtain ⟨⟨hroom, hroom'⟩, rfl⟩ := twoBuffers_eq_ok.mp hbuffers
    exact .entry he hkind hroom hroom' (handledAt_eq_ok.mp hhandled).1

/-- An iteration that returns goes where the archive leads. -/
theorem leads_of_ok {t : State × ℕ} (hne : h ≠ m.initramfsEnd)
    (hok : handleOneCpioObject m s h = .ok t) :
    Leads m (place (s, h)) (place t) ∧ (Counted m (s, h) → Counted m t) := by
  have hlead : ∃ c, Leads m (place (s, h)) c := by
    obtain ⟨s', h'⟩ := t
    have hnext : Handled m s h h' := handled_of_ok hok
    cases hnext with
    | past hp => exact ⟨_, .past hne hp⟩
    | last hz ht => exact ⟨_, .last hne hz ht⟩
    | entry he hkind _ _ hcalls => exact ⟨_, .entry hne he hkind hcalls⟩
  obtain ⟨c, hlead⟩ := hlead
  obtain ⟨t', hok', rfl, hcount⟩ := hlead.of_ends (by rw [hok]; trivial)
  rw [hok, Except.ok.injEq] at hok'
  subst hok'
  exact ⟨hlead, hcount⟩

/-- Where it is served, an iteration ends. -/
theorem Served.ends (hend : m.initramfsEnd < 2 ^ 32) (hs : Served m (place (s, h)))
    (hfs : TreeOk s.fs) (halloc : s.allocs = 2 * s.filesCount) :
    Ends (handleOneCpioObject m s h) := by
  have hname : ∀ {f n}, Sizes m h f n → RoomFor m s.allocs n := by
    intro f n hz
    rw [halloc]
    exact hs.name f n hz
  have hbuffers : ∀ {f n}, Sizes m h f n → ¬ IsTrailer m h n →
      twoBuffers m s n = .ok ⟨s.filesCount + 1, s.allocs + 2, s.fs, s.trace⟩ := by
    intro f n hz ht
    refine twoBuffers_eq_ok.mpr ⟨⟨hname hz, ?_⟩, rfl⟩
    rw [halloc]
    exact hs.path f n hz ht
  cases found m h with
  | past hp =>
    rw [handleOne_past hp]
    trivial
  | unread hlt hno =>
    rw [handleOne_unread hlt hno]
    trivial
  | last hz ht =>
    rw [handleOne_last hz ht,
      bind_of_ok (newBuffer_ok (s := { s with filesCount := s.filesCount + 1 }) (hname hz))]
    trivial
  | modeless hz ht hbug =>
    rw [handleOne_modeless hz ht hbug, bind_of_ok (hbuffers hz ht)]
    trivial
  | nameless he hd => exact absurd rfl (hs.dir _ _ _ he hd)
  | other he hd hr =>
    rw [handleOne_other he hd hr, bind_of_ok (hbuffers he.toSizes he.named)]
    trivial
  | entry he hdir hkind =>
    rw [handleOne_entry_eq he hdir hkind, bind_of_ok (hbuffers he.toSizes he.named)]
    have hcalls := (ends_callsAt_iff hend hfs he.toSizes).mpr (hs.limits _ _ _ he hkind)
    exact (ends_handledAt_iff.mpr ⟨hcalls, hs.text _ _ _ he hkind⟩).bind fun _ _ => trivial

/-- The calls and the `printf` of an iteration that ends do so. -/
theorem handledAt_of_ends (he : IsEntry m h f n type) (hkind : isReg type ∨ isDir type)
    (hends : Ends (handleOneCpioObject m s h)) :
    Ends (handledAt m (s.filesCount + 1) s.fs h f n type) := by
  have hdir : isDir type → n ≠ 0 := by
    rintro hd rfl
    exact not_ends_nameless he hd hends
  rw [handleOne_entry_eq he hdir hkind] at hends
  rw [bind_of_ok (twoBuffers_eq_ok.mpr ⟨rooms_of_ends hends.left, rfl⟩)] at hends
  exact hends.left

/-- Where an iteration ends, it was served. -/
theorem served_of_ends (hend : m.initramfsEnd < 2 ^ 32) (hfs : TreeOk s.fs)
    (halloc : s.allocs = 2 * s.filesCount) (hends : Ends (handleOneCpioObject m s h)) :
    Served m (place (s, h)) := by
  have hrooms : ∀ f n, Sizes m h f n → ¬ IsTrailer m h n →
      RoomFor m (2 * s.filesCount) n ∧ RoomFor m (2 * s.filesCount + 1) (n + 1) := by
    intro f n hz ht
    obtain ⟨g, hg⟩ := handleOne_buffers (s := s) hz ht
    rw [hg] at hends
    rw [← halloc]
    exact rooms_of_ends hends.left
  have hname : ∀ f n, Sizes m h f n → RoomFor m (2 * s.filesCount) n := by
    intro f n hz
    by_cases ht : IsTrailer m h n
    · rw [handleOne_last hz ht] at hends
      rw [← halloc]
      exact room_of_ends (s := { s with filesCount := s.filesCount + 1 }) hends.left
    · exact (hrooms f n hz ht).1
  refine ⟨hname, fun f n hz ht => (hrooms f n hz ht).2, ?_, fun f n type he hkind => ?_,
    fun f n type he hkind => (ends_handledAt_iff.mp (handledAt_of_ends he hkind hends)).2⟩
  · rintro f n type he hd rfl
    exact not_ends_nameless he hd hends
  · exact (ends_callsAt_iff hend hfs he.toSizes).mp
      (ends_handledAt_iff.mp (handledAt_of_ends he hkind hends)).1

/-! ### Upwards -/

theorem headerAt_bounds (hh : h < 2 ^ 34) : h ≤ headerAt h ∧ headerAt h ≤ h + 3 := by
  rw [headerAt, wrap_of_lt (by omega)]
  omega

theorem not_sizes_end (hend : m.initramfsEnd < 2 ^ 32) : ¬ Sizes m m.initramfsEnd f n := fun hz =>
  Nat.not_le_of_lt hz.before (headerAt_bounds (by omega)).1

/-- Sizes without the upper bits lead to a header further up. -/
theorem Leads.up {c d : Place} (hl : Leads m c d) (hend : m.initramfsEnd < 2 ^ 32)
    (hne : d.object ≠ m.initramfsEnd) (hsize : ¬ SignedSize m c.object) :
    headerAt c.object < headerAt d.object := by
  cases hl with
  | past => exact absurd rfl hne
  | last => exact absurd rfl hne
  | @entry k h f n type _ _ _ _ he _ _ =>
    have hlt : f < 2 ^ 31 ∧ n < 2 ^ 31 := by
      by_contra hge
      exact hsize ⟨f, n, he.toSizes, by omega⟩
    have hbefore := he.before
    have hname : wrap (headerAt h + sizeofCpioHeader + n) = headerAt h + sizeofCpioHeader + n :=
      wrap_of_lt (by rw [sizeofCpioHeader]; omega)
    have hdata := headerAt_bounds (h := headerAt h + sizeofCpioHeader + n)
      (by rw [sizeofCpioHeader]; omega)
    simp only
    rw [nextObject, dataAt, hname]
    rw [sizeofCpioHeader] at hdata ⊢
    split
    · rw [wrap_of_lt (by omega)]
      have := headerAt_bounds (h := headerAt (headerAt h + 110 + n) + f) (by omega)
      omega
    · have := headerAt_bounds (h := headerAt h + 110 + n) (by omega)
      omega

theorem Leads.lt {c d : Place} (hl : Leads m c d) (hend : m.initramfsEnd < 2 ^ 32) :
    d.object < 2 ^ 64 := by
  cases hl with
  | past =>
    show m.initramfsEnd < 2 ^ 64
    omega
  | last =>
    show m.initramfsEnd < 2 ^ 64
    omega
  | entry =>
    simp only [nextObject]
    split <;> rw [wrap_eq] <;> exact Nat.mod_lt _ (by decide)

theorem Leads.ne {c d : Place} (hl : Leads m c d) : c.object ≠ m.initramfsEnd := by
  cases hl <;> assumption

/-! ### Round and round -/

theorem Leads.later {c d : Place} (hl : Leads m c d) (hfs : TreeOk c.fs) :
    TreeOk d.fs ∧ Later c.fs d.fs := by
  cases hl with
  | past => exact ⟨hfs, .refl _⟩
  | last => exact ⟨hfs, .refl _⟩
  | entry _ _ _ hcalls => exact callsAt_later hfs hcalls

theorem later_of_chain {c d : Place} (hc : ReflTransGen (Leads m) c d) (hfs : TreeOk c.fs) :
    TreeOk d.fs ∧ Later c.fs d.fs := by
  induction hc with
  | refl => exact ⟨hfs, .refl _⟩
  | tail _ hl ih =>
    have hnext := hl.later ih.1
    exact ⟨hnext.1, ih.2.trans hnext.2⟩

theorem Reached.tree {c : Place} (hr : Reached m c) : TreeOk c.fs := (later_of_chain hr m.tree).1

/-- When an object is come back to, its entry is stored again. -/
theorem Leads.again {c d t : Place} (hl : Leads m c d) (hfs : TreeOk c.fs)
    (hc : ReflTransGen (Leads m) d t) (hobject : t.object = c.object)
    (hends : ∀ f n type, IsEntry m t.object f n type → isReg type ∨ isDir type →
      Ends (callsAt m (t.filesCount + 1) t.fs t.object f n type)) :
    ∃ u, Leads m t u ∧ u.object = d.object := by
  obtain ⟨k, h, fs⟩ := t
  have hlater := later_of_chain hc (hl.later hfs).1
  simp only at hobject
  subst hobject
  cases hl with
  | past hne hp => exact ⟨_, .past hne hp, rfl⟩
  | last hne hz ht => exact ⟨_, .last hne hz ht, rfl⟩
  | entry hne he hkind hcalls =>
    obtain ⟨⟨fs', calls⟩, hagain⟩ := callsAt_again hfs hcalls hlater.1 hlater.2
      (hends _ _ _ he hkind)
    exact ⟨_, .entry hne he hkind hagain, rfl⟩

/-- Coming back to an object takes one with a signed size, which is come back to as well. -/
theorem signedSize_of_comesBack {c : Place} (hend : m.initramfsEnd < 2 ^ 32)
    (hrep : Repeats (Leads m) Place.object c) (hback : ComesBack (Leads m) Place.object c) :
    ∃ x, ReflTransGen (Leads m) c x ∧ SignedSize m x.object ∧
      ComesBack (Leads m) Place.object x := by
  obtain ⟨t, hct, hobject⟩ := hback
  obtain ⟨x, y, hx, hl, hy, hle⟩ := exists_step_back (φ := fun d => headerAt (Place.object d)) hct
    (Nat.le_of_eq (congrArg headerAt hobject))
  have hne : y.object ≠ m.initramfsEnd := by
    intro hyend
    rcases ReflTransGen.cases_head hy with rfl | ⟨z, hl', -⟩
    · obtain ⟨z, hl', -⟩ := TransGen.head'_iff.mp hct
      exact hl'.ne (hobject.symm.trans hyend)
    · exact hl'.ne hyend
  refine ⟨x, hx, ?_, .of_chain hrep hobject hx hl hy⟩
  by_contra hsize
  exact Nat.not_le_of_lt (hl.up hend hne hsize) hle

/-- Where an object was come back to, the loop goes round for as long as it does not fail. -/
theorem not_ends_of_back {fuel : ℕ} {c : Place} (hfs : TreeOk c.fs)
    (hc : TransGen (Leads m) c (place (s, h))) (hobject : h = c.object) :
    ¬ Ends (loop (loadBody m) fuel (s, h)) := by
  refine not_ends_loop (I := fun t : State × ℕ => ∃ c : Place, TreeOk c.fs ∧
    TransGen (Leads m) c (place t) ∧ t.2 = c.object) ?_ ⟨c, hfs, hc, hobject⟩
  rintro ⟨t, x⟩ ⟨c, hfs, hc, hobject⟩
  obtain ⟨d, hl, hd⟩ := TransGen.head'_iff.mp hc
  have hne : x ≠ m.initramfsEnd := fun hx => hl.ne (hobject.symm.trans hx)
  by_cases hends : Ends (handleOneCpioObject m t x)
  · obtain ⟨u, hlead, hu⟩ := hl.again hfs hd hobject fun f n type he hkind =>
      (ends_handledAt_iff.mp (handledAt_of_ends he hkind hends)).1
    obtain ⟨t', hok, rfl, -⟩ := hlead.of_ends hends
    refine Or.inl ⟨t', ?_, d, (hl.later hfs).1, TransGen.tail' hd hlead, hu⟩
    rw [loadBody, if_neg hne, hok]
    rfl
  · refine Or.inr fun hbody => hends ?_
    rw [loadBody, if_neg hne] at hbody
    exact hbody.left

/-! ### The loop -/

/-- A loop that ends comes to every object that the archive leads to. -/
theorem Reached.of_ends {c : Place} (hr : Reached m c) {filesCount : ℕ}
    (hends : Ends (loadCpio m (m.start filesCount))) :
    ∃ t fuel, place t = c ∧ Counted m t ∧ Ends (loop (loadBody m) fuel t) := by
  induction hr with
  | refl => exact ⟨_, _, rfl, Or.inr rfl, hends⟩
  | tail _ hl ih =>
    obtain ⟨⟨s, h⟩, fuel, rfl, hcount, hloop⟩ := ih
    have hne : h ≠ m.initramfsEnd := hl.ne
    cases fuel with
    | zero => exact hloop.elim
    | succ fuel =>
      rw [load_step hne] at hloop
      obtain ⟨t, hok, hplace, hcounted⟩ := hl.of_ends hloop.left
      rw [bind_of_ok hok] at hloop
      exact ⟨t, fuel, hplace, hcounted hcount, hloop⟩

/-- What is found at an object that the loop comes to is handled in an iteration. -/
theorem Reached.served {c : Place} (hend : m.initramfsEnd < 2 ^ 32) (hr : Reached m c)
    (hne : c.object ≠ m.initramfsEnd) (hends : LoadEnds m) : Served m c := by
  obtain ⟨⟨s, h⟩, fuel, rfl, hcount, hloop⟩ := hr.of_ends (hends 0)
  have hne : h ≠ m.initramfsEnd := hne
  cases fuel with
  | zero => exact hloop.elim
  | succ fuel =>
    rw [load_step hne] at hloop
    exact served_of_ends hend hr.tree (hcount.resolve_left hne) hloop.left

theorem Reached.not_comesBack {c : Place} (hr : Reached m c)
    (hends : LoadEnds m) : ¬ ComesBack (Leads m) Place.object c := by
  rintro ⟨t, hct, hobject⟩
  obtain ⟨⟨s, h⟩, fuel, rfl, -, hloop⟩ :=
    Reached.of_ends (hr.trans hct.to_reflTransGen) (hends 0)
  exact not_ends_of_back hr.tree hct hobject hloop

theorem served_end {c : Place} (hend : m.initramfsEnd < 2 ^ 32)
    (hc : c.object = m.initramfsEnd) : Served m c := by
  have hno : ∀ {f n}, ¬ Sizes m c.object f n := hc ▸ not_sizes_end hend
  exact ⟨fun _ _ hz => (hno hz).elim, fun _ _ hz => (hno hz).elim,
    fun _ _ _ he => (hno he.toSizes).elim, fun _ _ _ he => (hno he.toSizes).elim,
    fun _ _ _ he => (hno he.toSizes).elim⟩

theorem ends_of_served (hle : m.initramfsStart ≤ m.initramfsEnd) (hend : m.initramfsEnd < 2 ^ 32)
    (hall : ∀ c, Reached m c → Served m c ∧
      (SignedSize m c.object → ¬ ComesBack (Leads m) Place.object c)) : LoadEnds m := by
  have hrep : ∀ c, Reached m c → Repeats (Leads m) Place.object c := by
    intro c hr x y t hx hxy hy hobject
    have hrx : Reached m x := hr.trans hx
    have hrt : Reached m t := (hrx.tail hxy).trans hy
    exact hxy.again hrx.tree hy hobject fun f n type he hkind =>
      (ends_callsAt_iff hend hrt.tree he.toSizes).mpr ((hall t hrt).1.limits f n type he hkind)
  intro filesCount
  refine ends_loop_of_acyclic (I := fun t => Reached m (place t) ∧ Counted m t) place
    (fun c d (hl : Leads m c d) => hl.lt hend) (by unfold maxSteps; exact Nat.le_refl _) ?_ ?_ ?_ ?_ ?_
  · rintro ⟨s, h⟩ ⟨hr, hcount⟩
    rw [loadBody]
    split
    · trivial
    · rename_i hne
      exact ((hall _ hr).1.ends hend hr.tree (hcount.resolve_left hne)).bind fun _ _ => trivial
  · rintro ⟨s, h⟩ ⟨hr, -⟩ hback
    obtain ⟨x, hx, hsize, hback'⟩ := signedSize_of_comesBack hend (hrep _ hr) hback
    exact (hall x (hr.trans hx)).2 hsize hback'
  · rintro ⟨s, h⟩ t ⟨hr, hcount⟩ hbody
    rw [loadBody] at hbody
    split at hbody
    · cases hbody
    · rename_i hne
      obtain ⟨t', hok, ht⟩ := bind_eq_ok.mp hbody
      obtain rfl : t' = t := Sum.inl.inj (Except.ok.inj ht)
      obtain ⟨hl, hcounted⟩ := leads_of_ok hne hok
      exact ⟨⟨hr.tail hl, hcounted hcount⟩, hl⟩
  · exact ⟨.refl, Or.inr rfl⟩
  · show m.initramfsStart < 2 ^ 64
    omega

/-- Loading ends if and only if every object that the loop comes to is served, and none with a size
    of `2 ^ 31` or more is come back to. -/
theorem loadEnds_iff (m : Machine) (hle : m.initramfsStart ≤ m.initramfsEnd)
    (hend : m.initramfsEnd < 2 ^ 32) : LoadEnds m ↔ ∀ c, Reached m c → Served m c ∧
      (SignedSize m c.object → ¬ ComesBack (Leads m) Place.object c) := by
  refine ⟨fun hends c hr => ⟨?_, fun _ => hr.not_comesBack hends⟩, ends_of_served hle hend⟩
  by_cases hne : c.object = m.initramfsEnd
  · exact served_end hend hne
  · exact hr.served hend hne hends

theorem smallArchive_ends : LoadEnds (machineOf smallArchive) ∧
    ∀ c, Reached (machineOf smallArchive) c → Served (machineOf smallArchive) c := by
  have hends : LoadEnds (machineOf smallArchive) := by
    intro filesCount
    have hat : At (machineOf smallArchive) 0 0 smallArchive :=
      ⟨rfl, ⟨0, rfl⟩, smallArchive_laid, smallArchive_valid⟩
    have hfuel := smallArchive_laid.fuel (by decide +kernel)
    obtain ⟨⟨fs, calls⟩, hcalls, -⟩ := bind_eq_ok.mp smallArchive_calls
    obtain ⟨s', hok, -⟩ := load_ok (s := ⟨0, 0, (machineOf smallArchive).fs, []⟩)
      (by decide +kernel) hat hfuel ⟨rfl, rfl, rfl, rfl, rfl⟩ (by decide +kernel) hcalls
    have hload : loadCpio (machineOf smallArchive) ((machineOf smallArchive).start filesCount) =
      .ok s' := hok
    rw [hload]
    trivial
  exact ⟨hends, fun c hr =>
    ((loadEnds_iff (machineOf smallArchive) (Nat.zero_le _) (by decide +kernel)).mp hends c hr).1⟩

/-- A file `x` of `2 ^ 32 - 112` bytes, which come out as `2 ^ 64 - 112`. -/
def cyclicImage : List UInt8 := headerOf 0x81A4 0xFFFFFF90 2 ++ [120, 0]

def cyclicMachine : Machine := { machineOf [] with
  mem := fun a => cyclicImage.getD (a - 4096) 0
  initramfsStart := 4096
  initramfsEnd := 4096 + cyclicImage.length }

/-- `write` is given an end that wraps around, and returns. -/
theorem cyclicMachine_calls : (do
    let r ← callsAt cyclicMachine 1 cyclicMachine.fs 4096 (2 ^ 64 - 112) 2 0x81A4
    .ok (r.2.take 1) : Exec (List FsCall)) = .ok [.open [slash, 120]] := by decide +kernel

/-- The header of the file says that the next one is where it is itself. -/
theorem cyclicMachine_leads :
    ∃ fs, Leads cyclicMachine ⟨0, 4096, cyclicMachine.fs⟩ ⟨1, 4096, fs⟩ := by
  have hds : ∀ i < 8, IsDigit (cyclicMachine.mem (headerAt 4096 + filesizeOffs + i))
      ([15, 15, 15, 15, 15, 15, 9, 0].getD i 0) := by decide +kernel
  have he : IsEntry cyclicMachine 4096 (2 ^ 64 - 112) 2 0x81A4 := by
    refine ⟨⟨by decide +kernel, parseStrToHex_digits hds, parseStrToHex_spec ?_⟩,
      fun ht => absurd ht.1 (by decide), parseStrToHex_spec ?_⟩
    · decide +kernel
    · decide +kernel
  have hnext : nextObject 4096 (2 ^ 64 - 112) 2 0x81A4 = 4096 := by decide +kernel
  obtain ⟨⟨fs, calls⟩, hcalls, -⟩ := bind_eq_ok.mp cyclicMachine_calls
  have hl := Leads.entry (k := 0) (by decide +kernel) he (Or.inl (by decide)) hcalls
  rw [hnext] at hl
  exact ⟨fs, hl⟩

/-- An archive that is loaded for ever. -/
theorem cyclicMachine_not_ends : ¬ ∀ m : Machine, m.initramfsStart ≤ m.initramfsEnd →
    m.initramfsEnd < 2 ^ 32 → (∀ k n, m.memAlloc k n) → LoadEnds m := by
  intro hall
  have hends := hall cyclicMachine (by decide +kernel) (by decide +kernel) fun _ _ => rfl
  obtain ⟨fs, hl⟩ := cyclicMachine_leads
  have hr : Reached cyclicMachine ⟨0, 4096, cyclicMachine.fs⟩ := .refl
  exact hr.not_comesBack hends ⟨_, TransGen.single hl, rfl⟩

end FilesKernel.Initramfs
