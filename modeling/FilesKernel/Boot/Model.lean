import FilesKernel.Lib.Exec
import FilesKernel.Lib.Words

/-! What the boot loader leaves in memory: the multiboot information, the memory map, and the list
    of modules, out of which `initramfs` picks the archive (`initramfs.c`). All of it is read, never
    written. -/

namespace FilesKernel.Boot
open CExec CWord

/-- The bytes of the boot loader's data, by physical address. -/
abbrev BootMem := ℕ → UInt8

/-- `n` bytes as a little-endian number. -/
def loadBytes (mem : BootMem) : ℕ → ℕ → ℕ
  | 0, _ => 0
  | n + 1, a => (mem a).toNat + 256 * loadBytes mem n (a + 1)

theorem loadBytes_lt (mem : BootMem) : ∀ n a, loadBytes mem n a < 256 ^ n
  | 0, a => Nat.one_pos
  | n + 1, a => by
      have h := loadBytes_lt mem n (a + 1)
      have hb : (mem a).toNat < 256 := (mem a).toNat_lt
      rw [loadBytes, Nat.pow_succ]
      omega

/-- The fields of `struct mboot_info` that are read, by both of its definitions. -/
structure MbootInfo where
  flags : ℕ
  modsCount : ℕ
  modsAddr : ℕ
  mmapSize : ℕ
  mmapAddr : ℕ

def mbootInfo (mem : BootMem) (info : ℕ) : MbootInfo where
  flags := loadBytes mem 4 info
  modsCount := loadBytes mem 4 (info + 20)
  modsAddr := loadBytes mem 4 (info + 24)
  mmapSize := loadBytes mem 4 (info + 44)
  mmapAddr := loadBytes mem 4 (info + 48)

/-- `struct mboot_mmap_entry`, packed. -/
structure MmapEntry where
  size : ℕ
  addr : ℕ
  length : ℕ
  type : ℕ

/-- `sizeof(struct mboot_mmap_entry)` -/
def mmapEntrySize : ℕ := 24

def mmapEntry (mem : BootMem) (ptr : ℕ) : MmapEntry where
  size := loadBytes mem 4 ptr
  addr := loadBytes mem 8 (ptr + 4)
  length := loadBytes mem 8 (ptr + 12)
  type := loadBytes mem 4 (ptr + 20)

/-! ### The archive -/

/-- The condition on a module: `magic+smth` fits, and one byte of the magic is in its place. -/
def isArchive (mem : BootMem) (first second : ℕ) : Bool :=
  decide (wsub second first ≥ 7 ∧ (mem first = 48 ∨ mem (first + 1) = 55 ∨ mem (first + 2) = 48 ∨
    mem (first + 3) = 55 ∨ mem (first + 4) = 48 ∨ mem (first + 5) = 49))

/-- The loop of `initramfs` over the `count` module descriptors from `desc` on. -/
def findArchive (mem : BootMem) : ℕ → ℕ → Exec (ℕ × ℕ)
  | 0, _ => .error (.bug "1")
  | count + 1, desc =>
    let first := loadBytes mem 4 desc
    let second := loadBytes mem 4 (desc + 4)
    if isArchive mem first second then .ok (first, second)
    else findArchive mem count (desc + 16)

/-- `initramfs`: the range of the archive. The test of the flags is against decimal 1000. -/
def initramfs (mem : BootMem) (info : ℕ) : Exec (ℕ × ℕ) := do
  let mbt := mbootInfo mem info
  bugOn (mbt.flags &&& 1000 = 0) "!(mbt->flags & 1000)"
  findArchive mem mbt.modsCount mbt.modsAddr

end FilesKernel.Boot
