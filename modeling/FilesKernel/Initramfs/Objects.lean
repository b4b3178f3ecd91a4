import FilesKernel.FileSystem.Again
import FilesKernel.Initramfs.Numbers

/-! What `handle_one_cpio_object` does with whatever it finds in memory.

    The header is looked for at the next multiple of 4. Every number in it comes from the archive, so
    nothing is known of the sizes, of the name or of the mode; what is found decides where the next
    object is looked for, and every other condition only decides whether the step returns. -/

namespace FilesKernel.Initramfs
open CExec CWord FileSystem Print

variable {m : Machine} {s s' : State} {h h' f n type : ℕ}

/-! ### What is found at an object -/

/-- The header of the object `h`. -/
def headerAt (h : ℕ) : ℕ := wrap (h + 3) / 4 * 4

/-- There is a header, with sizes that can be read. -/
structure Sizes (m : Machine) (h f n : ℕ) : Prop where
  before : headerAt h < m.initramfsEnd
  fileSize : parseStrToHex m.mem (headerAt h + filesizeOffs) = .ok f
  nameSize : parseStrToHex m.mem (headerAt h + namesizeOffs) = .ok n

/-- The buffer with the name, and the one with the path. -/
def nameBuffer (m : Machine) (h n : ℕ) : List UInt8 :=
  bytesAt m.mem (wrap (headerAt h + sizeofCpioHeader)) n ++ [0]

def pathBuffer (m : Machine) (h n : ℕ) : List UInt8 := slash :: (nameBuffer m h n).take n ++ [0]

def IsTrailer (m : Machine) (h n : ℕ) : Prop :=
  n = 11 ∧ streq (cString (nameBuffer m h n)) endOfArchive

/-- An entry with a mode that can be read. -/
structure IsEntry (m : Machine) (h f n type : ℕ) : Prop extends Sizes m h f n where
  named : ¬ IsTrailer m h n
  mode : parseStrToHex m.mem (headerAt h + modeOffs) = .ok type

/-- The path of an entry; of a directory without a `/` at the end. -/
def pathAt (m : Machine) (h n type : ℕ) : CString :=
  cString (if isDir type ∧ (pathBuffer m h n)[n - 1]? = some slash
    then (pathBuffer m h n).set (n - 1) 0 else pathBuffer m h n)

/-- Where the data of an entry begin. -/
def dataAt (h n : ℕ) : ℕ := headerAt (wrap (headerAt h + sizeofCpioHeader + n))

def nextObject (h f n type : ℕ) : ℕ :=
  if isReg type then wrap (dataAt h n + f) else wrap (headerAt h + sizeofCpioHeader + n)

/-- The calls of the file system for an entry, where `files_count` is `k`. -/
def callsAt (m : Machine) (k : ℕ) (fs : FsState) (h f n type : ℕ) :
    Exec (FsState × List FsCall) :=
  if isReg type then do
    let (fs, file) ← storeFile (m.fsAlloc k) fs (pathAt m h n type) m.mapped (va (dataAt h n)) f
    .ok (fs, [.open (pathAt m h n type), .write file 0 (bytesAt m.mem (dataAt h n) f) f,
      .close file])
  else do
    let fs ← mkdir (m.fsAlloc k) fs (pathAt m h n type)
    .ok (fs, [.mkdir (pathAt m h n type)])

/-- They come before the `printf` of a file, and behind that of a directory. -/
def handledAt (m : Machine) (k : ℕ) (fs : FsState) (h f n type : ℕ) :
    Exec (FsState × List FsCall) :=
  if isReg type then do
    let r ← callsAt m k fs h f n type
    printf (m.junk k) (pathAt m h n type)
    .ok r
  else do
    printf (m.junk k) (pathAt m h n type)
    callsAt m k fs h f n type

/-! ### Buffers -/

/-- The `k`-th call of `mem_alloc` returns room for `n` bytes and a NUL. -/
def RoomFor (m : Machine) (k n : ℕ) : Prop := m.memAlloc k (n + 1) ∧ n + 1 < 2 ^ 64

theorem newBuffer_eq_ok : newBuffer m s (wrap (n + 1)) n = .ok s' ↔
    RoomFor m s.allocs n ∧ s' = { s with allocs := s.allocs + 1 } := by
  have hroom : (m.memAlloc s.allocs (wrap (n + 1)) ∧ n < wrap (n + 1)) ↔ RoomFor m s.allocs n := by
    rw [RoomFor]
    by_cases hn : n + 1 < 2 ^ 64
    · rw [wrap_of_lt hn]
      exact and_congr_right fun _ => ⟨fun _ => hn, fun _ => Nat.lt_succ_self n⟩
    · have hlt : wrap (n + 1) < 2 ^ 64 := by rw [wrap_eq]; omega
      constructor <;> rintro ⟨-, h⟩ <;> omega
  rw [newBuffer]
  split
  · rename_i h
    exact ⟨fun e => ⟨hroom.mp h, (Except.ok.inj e).symm⟩, fun e => congrArg _ e.2.symm⟩
  · rename_i h
    exact ⟨nofun, fun e => absurd (hroom.mpr e.1) h⟩

theorem newBuffer_ok (h : RoomFor m s.allocs n) :
    newBuffer m s (wrap (n + 1)) n = .ok { s with allocs := s.allocs + 1 } :=
  newBuffer_eq_ok.mpr ⟨h, rfl⟩

theorem newBuffer_fault (h : ¬ RoomFor m s.allocs n) :
    newBuffer m s (wrap (n + 1)) n = .error .fault := by
  cases hx : newBuffer m s (wrap (n + 1)) n with
  | ok s' => exact absurd (newBuffer_eq_ok.mp hx).1 h
  | error e =>
    rw [newBuffer] at hx
    split at hx
    · cases hx
    · exact hx.symm

/-- The buffers for the name and for the path, one after the other. -/
def twoBuffers (m : Machine) (s : State) (n : ℕ) : Exec State := do
  let s ← newBuffer m { s with filesCount := s.filesCount + 1 } (wrap (n + 1)) n
  newBuffer m s (wrap (n + 2)) (n + 1)

theorem twoBuffers_eq_ok : twoBuffers m s n = .ok s' ↔
    (RoomFor m s.allocs n ∧ RoomFor m (s.allocs + 1) (n + 1)) ∧
      s' = ⟨s.filesCount + 1, s.allocs + 2, s.fs, s.trace⟩ := by
  rw [twoBuffers, bind_eq_ok]
  constructor
  · rintro ⟨s₁, h₁, h₂⟩
    obtain ⟨hname, rfl⟩ := newBuffer_eq_ok.mp h₁
    obtain ⟨hpath, rfl⟩ := newBuffer_eq_ok.mp h₂
    exact ⟨⟨hname, hpath⟩, rfl⟩
  · rintro ⟨⟨hname, hpath⟩, rfl⟩
    exact ⟨_, newBuffer_ok hname, newBuffer_ok hpath⟩

theorem twoBuffers_fault (h : ¬ (RoomFor m s.allocs n ∧ RoomFor m (s.allocs + 1) (n + 1))) :
    twoBuffers m s n = .error .fault := by
  rw [twoBuffers]
  by_cases hname : RoomFor m s.allocs n
  · rw [bind_of_ok (newBuffer_ok (s := { s with filesCount := s.filesCount + 1 }) hname)]
    exact newBuffer_fault fun hpath => h ⟨hname, hpath⟩
  · rw [newBuffer_fault (s := { s with filesCount := s.filesCount + 1 }) hname, error_bind]

/-! ### One object -/

theorem handleOne_past (hp : m.initramfsEnd ≤ headerAt h) : handleOneCpioObject m s h =
    .ok ({ s with filesCount := s.filesCount + 1 }, m.initramfsEnd) := by
  simp only [handleOneCpioObject]
  exact if_pos hp

/-- A header with sizes that cannot be read. -/
theorem handleOne_unread (hlt : headerAt h < m.initramfsEnd) (hno : ∀ f n, ¬ Sizes m h f n) :
    handleOneCpioObject m s h = .error (.bug "1") := by
  simp only [handleOneCpioObject]
  rw [← headerAt, if_neg (Nat.not_le_of_lt hlt)]
  rcases parseStrToHex_ok_or_bug m.mem (headerAt h + filesizeOffs) with ⟨f, hf⟩ | hbug
  · rcases parseStrToHex_ok_or_bug m.mem (headerAt h + namesizeOffs) with ⟨n, hn⟩ | hbug
    · exact absurd ⟨hlt, hf, hn⟩ (hno f n)
    · rw [bind_of_ok hf, hbug, error_bind]
  · rw [hbug, error_bind]

theorem handleOne_last (hz : Sizes m h f n) (ht : IsTrailer m h n) : handleOneCpioObject m s h = (do
    let s ← newBuffer m { s with filesCount := s.filesCount + 1 } (wrap (n + 1)) n
    .ok (s, m.initramfsEnd)) := by
  simp only [handleOneCpioObject]
  rw [← headerAt, if_neg (Nat.not_le_of_lt hz.before), bind_of_ok hz.fileSize,
    bind_of_ok hz.nameSize]
  exact bind_congr_ok rfl fun s₁ _ => if_pos ht

/-- A header with a mode that cannot be read. -/
theorem handleOne_modeless {e : Stop} (hz : Sizes m h f n) (ht : ¬ IsTrailer m h n)
    (he : parseStrToHex m.mem (headerAt h + modeOffs) = .error e) :
    handleOneCpioObject m s h = twoBuffers m s n >>= fun _ => .error e := by
  simp only [handleOneCpioObject, twoBuffers, bind_assoc]
  rw [← headerAt, if_neg (Nat.not_le_of_lt hz.before), bind_of_ok hz.fileSize,
    bind_of_ok hz.nameSize]
  refine bind_congr_ok rfl fun s₁ _ => (if_neg ht).trans ?_
  rw [he]
  rfl

/-- `path[name_size-1]` of a directory without a name. -/
theorem handleOne_nameless (he : IsEntry m h f 0 type) (hd : isDir type) :
    handleOneCpioObject m s h = twoBuffers m s 0 >>= fun _ => .error .fault := by
  have hfetch : fetch (slash :: (bytesAt m.mem (wrap (headerAt h + sizeofCpioHeader)) 0 ++ [0]).take 0
      ++ [0]) (wsub 0 1) = .error .fault := by
    rw [fetch, List.getElem?_eq_none (by rw [wsub_eq, List.take_zero]; decide)]
  simp only [handleOneCpioObject, twoBuffers, bind_assoc]
  rw [← headerAt, if_neg (Nat.not_le_of_lt he.before), bind_of_ok he.fileSize,
    bind_of_ok he.nameSize]
  refine bind_congr_ok rfl fun s₁ _ => (if_neg he.named).trans ?_
  refine bind_congr_ok rfl fun s₂ _ => ?_
  rw [bind_of_ok he.mode, if_pos hd, hfetch]
  rfl

theorem pathBuffer_length : (pathBuffer m h n).length = n + 2 := by
  simp [pathBuffer, nameBuffer, bytesAt]

/-- A `/` behind the path of a directory is cut off. -/
theorem path_eq (hn : n < 2 ^ 64) (hdir : isDir type → n ≠ 0) :
    ((if isDir type then do
        let last ← fetch (pathBuffer m h n) (wsub n 1)
        if last = slash then store (pathBuffer m h n) (wsub n 1) 0 else .ok (pathBuffer m h n)
      else .ok (pathBuffer m h n) : Exec (List UInt8)) =
    .ok (if isDir type ∧ (pathBuffer m h n)[n - 1]? = some slash
      then (pathBuffer m h n).set (n - 1) 0 else pathBuffer m h n)) := by
  by_cases hd : isDir type
  · have hpos := hdir hd
    have hlt : n - 1 < (pathBuffer m h n).length := by rw [pathBuffer_length]; omega
    have hget := List.getElem?_eq_getElem hlt
    rw [if_pos hd, wsub_of_le (by omega) hn, fetch, hget, ok_bind]
    by_cases hlast : (pathBuffer m h n)[n - 1] = slash
    · rw [if_pos hlast, if_pos ⟨hd, congrArg some hlast⟩, store, if_pos hlt]
    · rw [if_neg hlast, if_neg fun h => hlast (Option.some.inj h.2)]
  · rw [if_neg hd, if_neg fun h => hd h.1]

/-- An entry that is neither a file nor a directory. -/
theorem handleOne_other (he : IsEntry m h f n type) (hd : ¬ isDir type) (hr : ¬ isReg type) :
    handleOneCpioObject m s h = twoBuffers m s n >>= fun _ => .error (.bug "1") := by
  simp only [handleOneCpioObject, twoBuffers, bind_assoc]
  rw [← headerAt, if_neg (Nat.not_le_of_lt he.before), bind_of_ok he.fileSize,
    bind_of_ok he.nameSize]
  refine bind_congr_ok rfl fun s₁ _ => (if_neg he.named).trans ?_
  refine bind_congr_ok rfl fun s₂ _ => ?_
  rw [bind_of_ok he.mode, if_neg hd, ok_bind, if_neg hr, if_neg hd]

/-- A file or a directory, with a name. -/
theorem handleOne_entry_eq (he : IsEntry m h f n type) (hdir : isDir type → n ≠ 0)
    (hkind : isReg type ∨ isDir type) :
    handleOneCpioObject m s h = (do
      let s ← twoBuffers m s n
      let (fs, calls) ← handledAt m s.filesCount s.fs h f n type
      .ok ({ s with fs, trace := s.trace ++ calls }, nextObject h f n type)) := by
  have hn : n < 2 ^ 64 := by rcases parseStrToHex_range he.nameSize with h | h <;> omega
  simp only [handleOneCpioObject, twoBuffers, bind_assoc]
  rw [← headerAt, if_neg (Nat.not_le_of_lt he.before), bind_of_ok he.fileSize,
    bind_of_ok he.nameSize]
  refine bind_congr_ok rfl fun s₁ _ => (if_neg he.named).trans ?_
  refine bind_congr_ok rfl fun s₂ _ => ?_
  rw [bind_of_ok he.mode, ← nameBuffer, ← pathBuffer, path_eq hn hdir, ok_bind, ← pathAt, handledAt,
    callsAt, nextObject]
  by_cases hr : isReg type
  · rw [if_pos hr, if_pos hr, if_pos hr, if_pos hr, storeFile]
    simp only [State.call, bind_assoc, ok_bind, List.append_assoc, List.cons_append, List.nil_append]
    rfl
  · rw [if_neg hr, if_pos (hkind.resolve_left hr), if_neg hr, if_neg hr, if_neg hr]
    simp only [State.call, bind_assoc, ok_bind]

/-- What is found at an object. -/
inductive Found (m : Machine) (h : ℕ) : Prop
  | past : m.initramfsEnd ≤ headerAt h → Found m h
  | unread : headerAt h < m.initramfsEnd → (∀ f n, ¬ Sizes m h f n) → Found m h
  | last {f n : ℕ} : Sizes m h f n → IsTrailer m h n → Found m h
  | modeless {f n : ℕ} : Sizes m h f n → ¬ IsTrailer m h n →
      parseStrToHex m.mem (headerAt h + modeOffs) = .error (.bug "1") → Found m h
  | nameless {f type : ℕ} : IsEntry m h f 0 type → isDir type → Found m h
  | other {f n type : ℕ} : IsEntry m h f n type → ¬ isDir type → ¬ isReg type → Found m h
  | entry {f n type : ℕ} : IsEntry m h f n type → (isDir type → n ≠ 0) → isReg type ∨ isDir type →
      Found m h

theorem found (m : Machine) (h : ℕ) : Found m h := by
  rcases Nat.lt_or_ge (headerAt h) m.initramfsEnd with hlt | hge
  · by_cases hz : ∃ f n, Sizes m h f n
    · obtain ⟨f, n, hz⟩ := hz
      by_cases ht : IsTrailer m h n
      · exact .last hz ht
      · rcases parseStrToHex_ok_or_bug m.mem (headerAt h + modeOffs) with ⟨type, hmode⟩ | hbug
        · have he : IsEntry m h f n type := ⟨hz, ht, hmode⟩
          by_cases hd : isDir type
          · rcases Nat.eq_zero_or_pos n with rfl | hn
            · exact .nameless he hd
            · exact .entry he (fun _ => Nat.ne_of_gt hn) (Or.inr hd)
          · by_cases hr : isReg type
            · exact .entry he (fun h => absurd h hd) (Or.inl hr)
            · exact .other he hd hr
        · exact .modeless hz ht hbug
    · exact .unread hlt fun f n hfn => hz ⟨f, n, hfn⟩
  · exact .past hge

/-! ### The loop -/

/-- An iteration that does not find the end. -/
theorem load_step {fuel : ℕ} (hne : h ≠ m.initramfsEnd) :
    loop (loadBody m) (fuel + 1) (s, h) = (do
      let next ← handleOneCpioObject m s h
      loop (loadBody m) fuel next) := by
  rw [loop, loadBody, if_neg hne]
  cases handleOneCpioObject m s h <;> rfl

theorem load_end {fuel : ℕ} :
    loop (loadBody m) (fuel + 1) (s, m.initramfsEnd) = .ok s := by
  rw [loop, loadBody, if_pos rfl]
  rfl

end FilesKernel.Initramfs
