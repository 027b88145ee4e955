import Hotarubi.Memory.Physmm
import Hotarubi.Processor.Interrupts

/-! The stacks that tss.cc gives to a processor. -/

namespace Hotarubi.Tss
open Memory Idt

/-- The top of a new stack. The answer of `alloc_page` is not checked: a null pointer
counts as address 0. -/
def newStack (m : Physmm.State) : UInt64 × Physmm.State :=
  (pageSize + (Physmm.allocPage m Physmm.kLocked).1.getD 0, (Physmm.allocPage m Physmm.kLocked).2)

/-- `init`. A gate selects `ist[0]` by the number 1. -/
def init (m : Physmm.State) : Stacks × Physmm.State :=
  let rsp0 := newStack m
  let ist0 := newStack rsp0.2
  let ist1 := newStack ist0.2
  let ist2 := newStack ist1.2
  let ist3 := newStack ist2.2
  ({ rsp0 := rsp0.1
     ist := fun n =>
       if n = 1 then ist0.1 else if n = 2 then ist1.1 else if n = 3 then ist2.1 else if n = 4 then ist3.1 else 0 },
    ist3.2)

end Hotarubi.Tss
