import FilesKernel.FileSystem.Tree
import FilesKernel.Print.Format

/-! Loading the initial file system from a cpio archive (`initramfs.c`).

    The archive is read by physical address, through `va`. All of physical memory is taken to be mapped
    there, with something to read at every address, so that no read fails by itself, and what is read
    is taken to stay as it is: the module is reserved memory, and nothing is stored in it. The files are
    stored by the calls of the file system, of which a record is kept. Of the memory allocator only
    matters whether it returns memory, here and within these calls. -/

namespace FilesKernel.Initramfs
open CExec CWord FileSystem Print

def S_IFMT : ℕ := 0xF000
def S_IFDIR : ℕ := 0x4000
def S_IFREG : ℕ := 0x8000

def isDir (mode : ℕ) : Bool := mode &&& S_IFMT = S_IFDIR
def isReg (mode : ℕ) : Bool := mode &&& S_IFMT = S_IFREG

/-- `"TRAILER!!!"` -/
def endOfArchive : CString := [84, 82, 65, 73, 76, 69, 82, 33, 33, 33]

/-- `sizeof(cpio_header_t)`, and the offsets of the fields that are read. -/
def sizeofCpioHeader : ℕ := 110
def modeOffs : ℕ := 14
def filesizeOffs : ℕ := 54
def namesizeOffs : ℕ := 94

/-- A call to the file system. -/
inductive FsCall where
  | open (path : CString)
  | write (node : NodePtr) (offset : ℕ) (data : List UInt8) (size : ℕ)
  | close (node : NodePtr)
  | mkdir (path : CString)
  deriving DecidableEq, Repr

/-- What the code finds around it. -/
structure Machine where
  /-- physical memory, all of it mapped, as it is while the archive is loaded -/
  mem : Mem
  initramfsStart : ℕ
  initramfsEnd : ℕ
  /-- whether `mem_alloc` returns memory when it is called for the `k`-th time, for so many bytes -/
  memAlloc : ℕ → ℕ → Bool
  fs : FsState
  tree : TreeOk fs
  /-- what `mem_alloc` answers to a call of the file system, by `files_count` -/
  fsAlloc : ℕ → MemAlloc
  /-- what `printf` finds in place of arguments, by `files_count` -/
  junk : ℕ → Junk

/-- The memory that `va` leads to. -/
def Machine.mapped (m : Machine) : Mem := fun v => m.mem (pa v)

structure State where
  filesCount : ℕ
  allocs : ℕ
  fs : FsState
  trace : List FsCall

def Machine.start (m : Machine) (filesCount : ℕ) : State := ⟨filesCount, 0, m.fs, []⟩

/-- The call has been made, and has left `fs`. -/
def State.call (s : State) (c : FsCall) (fs : FsState) : State :=
  { s with fs, trace := s.trace ++ [c] }

/-- The buffer of `size` bytes that `mem_alloc` returns, of which all bytes up to `last` are about
    to be written. -/
def newBuffer (m : Machine) (s : State) (size last : ℕ) : Exec State :=
  if m.memAlloc s.allocs size ∧ last < size then .ok { s with allocs := s.allocs + 1 }
  else .error .fault

/-- The `n` bytes at `a`. -/
def bytesAt (mem : Mem) (a n : ℕ) : List UInt8 := (List.range n).map fun i => mem (wrap (a + i))

/-- The string at the front of a buffer. -/
def cString (buf : List UInt8) : CString := buf.takeWhile (· ≠ 0)

/-- `(c - d) * (1 << (4*(size-i-1)))`, multiplied in an `int` and widened. -/
def hexTerm (digit i : ℕ) : ℕ :=
  let term := digit * 2 ^ (4 * (8 - i - 1)) % 2 ^ 32
  if term < 2 ^ 31 then term else 2 ^ 64 - 2 ^ 32 + term

/-- The digits that `parse_str_to_hex` knows. -/
def hexDigit (c : UInt8) : Option ℕ :=
  if c ≤ 57 ∧ 48 ≤ c then some (c.toNat - 48)
  else if c ≤ 70 ∧ 65 ≤ c then some (c.toNat - 65 + 10)
  else if c ≤ 102 ∧ 97 ≤ c then some (c.toNat - 97 + 10)
  else none

/-- The loop of `parse_str_to_hex`, with `n` iterations left. -/
def parseLoop (mem : Mem) (start : ℕ) : ℕ → ℕ → ℕ → Exec ℕ
  | 0, _, res => .ok res
  | n + 1, i, res =>
    match hexDigit (mem (start + i)) with
    | some digit => parseLoop mem start n (i + 1) (wrap (res + hexTerm digit i))
    | none => .error (.bug "1")

def parseStrToHex (mem : Mem) (start : ℕ) : Exec ℕ := parseLoop mem start 8 0 0

def fetch (buf : List UInt8) (i : ℕ) : Exec UInt8 :=
  match buf[i]? with
  | some c => .ok c
  | none => .error .fault

/-- `buf[i] = c` -/
def store (buf : List UInt8) (i : ℕ) (c : UInt8) : Exec (List UInt8) :=
  if i < buf.length then .ok (buf.set i c) else .error .fault

def handleOneCpioObject (m : Machine) (s : State) (headerStart : ℕ) : Exec (State × ℕ) := do
  let s := { s with filesCount := s.filesCount + 1 }
  let headerStart := wrap (headerStart + 3) / 4 * 4
  if m.initramfsEnd ≤ headerStart then .ok (s, m.initramfsEnd)
  else do
    let nameStart := wrap (headerStart + sizeofCpioHeader)
    let fileSize ← parseStrToHex m.mem (headerStart + filesizeOffs)
    let nameSize ← parseStrToHex m.mem (headerStart + namesizeOffs)
    let s ← newBuffer m s (wrap (nameSize + 1)) nameSize
    let name := bytesAt m.mem nameStart nameSize ++ [0]
    if nameSize = 11 ∧ streq (cString name) endOfArchive then .ok (s, m.initramfsEnd)
    else do
      let s ← newBuffer m s (wrap (nameSize + 2)) (nameSize + 1)
      let path := slash :: name.take nameSize ++ [0]
      let type ← parseStrToHex m.mem (headerStart + modeOffs)
      let path ← (if isDir type then do
          let last ← fetch path (wsub nameSize 1)
          if last = slash then store path (wsub nameSize 1) 0 else .ok path
        else .ok path : Exec (List UInt8))
      let physDataStart := wrap (headerStart + sizeofCpioHeader + nameSize)
      let physDataStart := wrap (physDataStart + 3) / 4 * 4
      if isReg type then do
        let (fs, file) ← openFile (m.fsAlloc s.filesCount) s.fs (cString path)
        let s := s.call (.open (cString path)) fs
        let fs ← writeFile s.fs file 0 m.mapped (va physDataStart) fileSize
        let s := s.call (.write file 0 (bytesAt m.mem physDataStart fileSize) fileSize) fs
        let s := s.call (.close file) (closeFile s.fs file)
        printf (m.junk s.filesCount) (cString path)
        .ok (s, wrap (physDataStart + fileSize))
      else if isDir type then do
        printf (m.junk s.filesCount) (cString path)
        let fs ← mkdir (m.fsAlloc s.filesCount) s.fs (cString path)
        let s := s.call (.mkdir (cString path)) fs
        .ok (s, wrap (headerStart + sizeofCpioHeader + nameSize))
      else .error (.bug "1")

/-- An iteration of the loop of `load_cpio`. -/
def loadBody (m : Machine) : State × ℕ → Exec ((State × ℕ) ⊕ State)
  | (s, object) =>
    if object = m.initramfsEnd then .ok (.inr s)
    else do
      let next ← handleOneCpioObject m s object
      .ok (.inl next)

def loadCpio (m : Machine) (s : State) : Exec State :=
  loop (loadBody m) maxSteps ({ s with filesCount := 0 }, m.initramfsStart)

end FilesKernel.Initramfs
