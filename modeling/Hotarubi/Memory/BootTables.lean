import Hotarubi.Proofs.VirtmmSystem

/-! The page tables that boot.S enters long mode with. One table of 2 MiB pages is
hooked in twice, below 1 GiB and at `KERNEL_VMA`. -/

namespace Hotarubi.Memory.Boot
open Virtmm

/-- `_BOOT_PDT` -/
def bootPdt : List UInt64 := (List.range 512).map fun i => UInt64.ofNat i * 0x200000 ||| 0x83

/-- `_BOOT_PML4` -/
def bootPml4 (pdpt1 pdpt2 : UInt64) : List UInt64 := (pdpt1 + 3) :: List.replicate 510 0 ++ [pdpt2 + 3]

/-- `_BOOT_PDPT_1` -/
def bootPdpt1 (pdt : UInt64) : List UInt64 := (pdt + 3) :: List.replicate 511 0

/-- `_BOOT_PDPT_2` -/
def bootPdpt2 (pdt : UInt64) : List UInt64 := List.replicate 510 0 ++ [pdt + 3, 0]

/-- The symbols, each of which starts a page. -/
structure Symbols where
  pdt : UInt64
  pml4 : UInt64
  pdpt1 : UInt64
  pdpt2 : UInt64

def Symbols.tables (symbols : Symbols) : List UInt64 := [symbols.pdt, symbols.pml4, symbols.pdpt1, symbols.pdpt2]

/-- link.ld puts boot.S at 1 MiB, before the kernel. -/
def Symbols.Linked (symbols : Symbols) (image : Image) : Prop :=
  ∀ t ∈ symbols.tables, 0x100000 ≤ t.toNat ∧ kVMRangeKernelBase.toNat + t.toNat + 4096 ≤ image.text.toNat

/-- The tables are in memory where the symbols say. -/
structure Loaded (mem : UInt64 → UInt64) (symbols : Symbols) : Prop where
  frames : ∀ t ∈ symbols.tables, IsFrame t
  pdt : ∀ i : Fin 512, bootPdt[i.val]? = some (mem (slot symbols.pdt i))
  pml4 : ∀ i : Fin 512, (bootPml4 symbols.pdpt1 symbols.pdpt2)[i.val]? = some (mem (slot symbols.pml4 i))
  pdpt1 : ∀ i : Fin 512, (bootPdpt1 symbols.pdt)[i.val]? = some (mem (slot symbols.pdpt1 i))
  pdpt2 : ∀ i : Fin 512, (bootPdpt2 symbols.pdt)[i.val]? = some (mem (slot symbols.pdpt2 i))

/-- The frame of a 2 MiB page. -/
def frame2M (entry : UInt64) : UInt64 := entry &&& 0x000fffffffe00000

/-- The processor's translation where the third level may hold large pages. -/
def largeWalk (mem : UInt64 → UInt64) (root : UInt64) (v : VirtAddr) : Option (PhysAddr × Bool) := do
  let pml4e ← presentTable mem root (pml4Index v)
  let pdpte ← presentTable mem (frame pml4e) (pdptIndex v)
  let pdte ← presentPage mem (frame pdpte) (pdtIndex v)
  if pdte &&& kSizeExtend ≠ 0 then
    some (frame2M pdte + (v &&& 0x1fffff), (pml4e &&& pdpte &&& pdte) &&& kWritable != 0)
  else do
    let pte ← presentPage mem (frame pdte) (ptIndex v)
    some (frame pte + (v &&& 0xfff), (pml4e &&& pdpte &&& pdte &&& pte) &&& kWritable != 0)

end Hotarubi.Memory.Boot
