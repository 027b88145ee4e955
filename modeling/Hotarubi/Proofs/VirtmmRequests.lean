import Hotarubi.Base.Runs
import Hotarubi.Proofs.VirtmmCapacity
import Hotarubi.Proofs.VirtmmRollback

/-! The running kernel's address space. Whatever is mapped and unmapped, and whoever
takes pages and gives back his own, a processor finds what was asked for last. -/

namespace Hotarubi.Memory.Virtmm
open Base Radix

/-- A call of the interface or of physmm by some part of the kernel. -/
inductive Request where
  | mapFixed (vaddr : VirtAddr) (paddr : PhysAddr) (flags : UInt64)
  | mapAddress (vaddr : VirtAddr) (flags : UInt64)
  | unmapFixed (vaddr : VirtAddr)
  | physmm (call : Physmm.Call)

/-- The state with two accounts: the pages that callers of physmm have, and the entries
that the calls amount to. -/
structure World where
  virt : State Physmm.State
  lent : Nat → Prop
  space : Space

def Space.set (space : Space) (vaddr : VirtAddr) (entry : UInt64) : Space :=
  Function.update space (pageNumber vaddr) entry

/-- What a mapping call amounts to. -/
def World.map (w : World) (vaddr : VirtAddr) (entry : UInt64) (result : Bool × State Physmm.State) : Bool × World :=
  (result.1, { w with
    virt := result.2
    space := if result.1 then w.space.set vaddr entry else w.space })

/-- `map_address` maps what `alloc_page` returned, and `unmap_fixed` leaves an entry
without a frame as it is. -/
def Request.exec (w : World) : Request → Option (Bool × World)
  | .mapFixed vaddr paddr flags =>
    some (w.map vaddr (paddr ||| (kPresent ||| flags)) (Virtmm.mapFixed physmmSource w.virt vaddr paddr flags))
  | .mapAddress vaddr flags =>
    some (w.map vaddr ((Physmm.allocPage w.virt.physmm Physmm.kActive).1.getD 0 ||| (kPresent ||| flags))
      (Virtmm.mapAddress physmmSource w.virt vaddr flags))
  | .unmapFixed vaddr =>
    some (true, { w with
      virt := Virtmm.unmapFixed physmmSource w.virt vaddr
      space := if frame (w.space (pageNumber vaddr)) = 0 then w.space else w.space.set vaddr 0 })
  | .physmm call =>
    some (true, { w with
      virt := { w.virt with physmm := (call.exec w.virt.physmm).2 }
      lent := Kmalloc.lentAfter w.virt.physmm call w.lent })

/-- Callers of physmm give back only what they have. -/
def Request.Permitted (w : World) : Request → Prop
  | .physmm call => Kmalloc.Entitled w.virt.physmm w.lent call
  | _ => True

/-- The page that a call is about, by its number. -/
def Request.page : Request → Option Nat
  | .mapFixed vaddr _ _ | .mapAddress vaddr _ | .unmapFixed vaddr => some (pageNumber vaddr)
  | .physmm _ => none

section Walk

variable {σ : Type} {base : UInt64} {valid : σ → Prop} {live : σ → UInt64 → Prop} {root : UInt64} {s : State σ}

end Walk

section Runs

variable {bits : Nat} {w w' : World} {request : Request} {granted : Bool}

/-- The tables are in order in pages of nobody else, and hold the entries of the account. -/
structure World.Tracks (bits : Nat) (w : World) : Prop where
  good : Good kVMRangePhysMemBase (Lending kVMRangePhysMemBase bits w.lent) (Unlent bits w.lent) w.virt.cr3 w.virt
  entries : ∀ v, pte kVMRangePhysMemBase w.virt.mem w.virt.cr3 v = w.space (pageNumber v)

theorem World.Tracks.map (tracks : w.Tracks bits) {vaddr : VirtAddr} {entry : UInt64} {result : Bool × State Physmm.State}
    (mapped : Mapped kVMRangePhysMemBase (Lending kVMRangePhysMemBase bits w.lent) (Unlent bits w.lent) w.virt.cr3 w.virt
      vaddr entry result) : (w.map vaddr entry result).2.Tracks bits := by
  have same := mapped.registers.cr3
  constructor
  · rw [World.map, same]
    exact mapped.good
  · intro v
    simp only [World.map, same, mapped.ptes, indices_eq_iff_pageNumber, tracks.entries]
    cases result.1 with
    | false => rfl
    | true => simp only [Space.set, true_and, if_true, Function.update_apply]

/-- Every permitted call keeps the account. -/
theorem World.Tracks.exec (tracks : w.Tracks bits) (permitted : request.Permitted w)
    (ran : request.exec w = some (granted, w')) : w'.Tracks bits := by
  have offset : BaseOffset kVMRangePhysMemBase := .inr rfl
  have supply := physmm_lending kVMRangePhysMemBase bits w.lent
  have good := tracks.good
  cases request with
  | mapFixed vaddr paddr flags =>
    cases ran
    have mapped := mapPage_spec supply offset good vaddr paddr flags
    rw [← mapFixed_eq supply offset good] at mapped
    exact tracks.map mapped
  | mapAddress vaddr flags =>
    cases ran
    exact tracks.map (mapAddress_spec supply offset good vaddr flags)
  | unmapFixed vaddr =>
    cases ran
    have once : (pageCount pageSize - 1).toNat = 0 := by decide
    have pass : Virtmm.unmapFixed physmmSource w.virt vaddr =
        (unmapPage physmmSource w.virt (w.virt.cr3 + kVMRangePhysMemBase) vaddr false).2 := by
      simp only [Virtmm.unmapFixed, unmapRegion, pml4_eq supply good.valid good.root,
        add_base_ne_zero offset good.root, once,
        if_false, unmapPages]
    obtain ⟨same, cleared⟩ := unmapPage_spec supply offset good vaddr
    rw [← pass] at same cleared
    constructor
    · rw [same.cr3]
      exact cleared.good
    · intro v
      simp only [same.cr3, cleared.ptes, indices_eq_iff_pageNumber, tracks.entries]
      by_cases empty : frame (w.space (pageNumber vaddr)) = 0
      · simp only [empty, ne_eq, not_true_eq_false, and_false, if_false, if_true]
      · simp only [empty, ne_eq, not_false_eq_true, and_true, if_false, Space.set, Function.update_apply]
  | physmm call =>
    cases ran
    have lending := good.valid
    refine ⟨⟨⟨good.tables.unshared, fun t reached => ?_, good.tables.directory⟩, lending.exec call⟩, tracks.entries⟩
    obtain ⟨inside, unlent⟩ := good.tables.frames t reached
    exact ⟨inside, unlent.exec lending permitted⟩

theorem World.Tracks.run (tracks : w.Tracks bits) {requests : List Request}
    (permitted : EachStep Request.exec (fun w request => request.Permitted w) w requests)
    (ran : runCalls Request.exec w requests = some w') : w'.Tracks bits :=
  run_keeps (fun _ _ _ _ tracks allowed ran => tracks.exec allowed ran) tracks permitted ran

end Runs

section Boot

variable {m : Physmm.State} {image : Image} {info : Physmm.BootInfo} {b : Physmm.Booted}

/-- The accounts when both managers have started. -/
def World.start (s : State Physmm.State) (image : Image) (memoryUpperBound : PhysAddr) : World :=
  ⟨s, fun _ => False, systemSpace image memoryUpperBound⟩

end Boot

end Hotarubi.Memory.Virtmm
