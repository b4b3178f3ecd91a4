import FilesKernel.Lib.Words

/-! The constants and the address arithmetic of `memory.h`. -/

namespace FilesKernel
open CWord

def virtualBase : ℕ := 0xffffffff80000000
def higherBase : ℕ := 0xffff800000000000

/-- `MAX_PMEM_SIZE`, the physical memory that `paging_setup` maps from `HIGHER_BASE` on -/
def maxPmemSize : ℕ := 0x00007fff00000000

def kmapSize : ℕ := 0x080000000
def pageShift : ℕ := 12
def pageSize : ℕ := 2 ^ 12

def va (phys : ℕ) : ℕ := wrap (phys + higherBase)

def pa (virt : ℕ) : ℕ := wsub virt higherBase

/-- What lies behind a mapped address lies behind the physical one. -/
theorem pa_va_add (phys i : ℕ) : pa (wrap (va phys + i)) = wrap (phys + i) := by
  rw [pa, va, wsub_eq, wrap_eq, wrap_eq, wrap_eq, higherBase]
  omega

end FilesKernel
