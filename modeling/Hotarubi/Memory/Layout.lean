import Mathlib.Algebra.Group.Nat.Defs

/-! Page size, address ranges, and the address macros shared by the physical,
virtual, and object memory managers. Addresses are 64-bit words and wrap. -/

namespace Hotarubi.Memory

abbrev VirtAddr := UInt64
abbrev PhysAddr := UInt64

/-- `PAGE_SIZE` and `PAGE_SHIFT` of page.h. -/
def pageSize : UInt64 := 0x1000
def pageShift : UInt64 := 12

def kVMRangePhysMemBase : UInt64 := 0xffff880000000000
def kVMRangePhysMemEnd : UInt64 := 0xffffc7ffffffffff
def kVMRangeIOMapBase : UInt64 := 0xffffe90000000000
def kVMRangeKernelBase : UInt64 := 0xffffffff80000000

theorem pageSize_toNat : pageSize.toNat = 4096 := rfl
theorem page_toNat (addr : UInt64) : (addr / pageSize).toNat = addr.toNat / 4096 := by
  rw [UInt64.toNat_div, pageSize_toNat]

private theorem pageShift_mod : pageShift.toNat % 64 = 12 := rfl

theorem shift_page (x : UInt64) : (x >>> pageShift).toNat = x.toNat / 4096 := by
  rw [UInt64.toNat_shiftRight, pageShift_mod, Nat.shiftRight_eq_div_pow]
theorem physMemBase_toNat : kVMRangePhysMemBase.toNat = 0xffff880000000000 := rfl
theorem ioMapBase_toNat : kVMRangeIOMapBase.toNat = 0xffffe90000000000 := rfl
theorem kernelBase_toNat : kVMRangeKernelBase.toNat = 0xffffffff80000000 := rfl

/-- `__PA`: kernel image addresses lose the kernel base, every other address
loses the bits of the direct map's base. -/
def pa (x : UInt64) : UInt64 :=
  if x ≥ kVMRangeKernelBase then x - kVMRangeKernelBase else x &&& ~~~kVMRangePhysMemBase

/-- `__VA` -/
def va (x : UInt64) : UInt64 := x + kVMRangePhysMemBase

/-- The page loops advance by one page in each pass. -/
theorem addr_succ (addr : UInt64) (k : Nat) :
    addr + pageSize + UInt64.ofNat k * pageSize = addr + UInt64.ofNat (k + 1) * pageSize := by
  rw [UInt64.ofNat_add]
  grind

end Hotarubi.Memory
