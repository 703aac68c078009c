import Leg.Word

/-! The addresses fixed by `memory.h`, `process.h`, `mmu.h` and `linker.ld`, and the
conversion between the kernel's virtual and physical addresses. -/
namespace Leg

def kernelVa : ℕ := 0xC0000000

def kphysOffset : ℕ := 0x200000

/-- `STACK_BOTTOM` of `linker.ld`: the stacks grow downward from it. -/
def stackBottom : ℕ := 0xC0100000

/-- `PROC_VA_MB`: the 1 MB slots of a process table. -/
def procVaMb : ℕ := 32

def procUserVaTop : ℕ := 0x02000000

/-- `PROC_STACK_TOP`: one guard page below the top of the user range. -/
def procStackTop : ℕ := 0x01FFF000

def procStackInitPages : ℕ := 4

def procHeapStart : ℕ := 0x00200000

def kheapSize : ℕ := 2 * 1024 * 1024

def virtToPhys (kernelPhysBase va : ℕ) : ℕ :=
  if kernelVa ≤ va then u32 (kernelPhysBase + (va - kernelVa)) else va

theorem virtToPhys_lt (kernelPhysBase va : ℕ) : virtToPhys kernelPhysBase va < 4294967296 := by
  unfold virtToPhys
  split
  · exact u32_lt _
  next h =>
    unfold kernelVa at h
    omega

def physToVirt (kernelPhysBase pa : ℕ) : ℕ := u32 (wsub pa kernelPhysBase + kernelVa)

end Leg
