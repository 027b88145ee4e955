import Hotarubi.Proofs.PhysmmProcessors
import Hotarubi.Proofs.PhysmmProtection

/-! From the boot to any schedule of calls: what a processor is handed was available to
the loader and holds neither the kernel, a module, nor the map itself. -/

namespace Hotarubi.Memory.Physmm
open Base

section Granted
variable {τ : Type} {m : State} {held : Nat → Option τ} {trace : List (Shown τ Call (Option UInt64))}

/-- What is handed out was free at the start. -/
theorem Exclusive.granted (exclusive : Exclusive m held trace) {thread : τ} {ptr : UInt64}
    (returned : .ret thread (some ptr) ∈ trace) : grantedPage m ptr < m.mapBits ∧ m.used (grantedPage m ptr) = false := by
  induction trace generalizing held with
  | nil => cases returned
  | cons shown trace ih =>
    cases shown with
    | call other call =>
      rcases List.mem_cons.mp returned with same | later
      · cases same
      · exact ih exclusive later
    | ret other answer =>
      cases answer with
      | none =>
        rcases List.mem_cons.mp returned with same | later
        · cases same
        · exact ih exclusive later
      | some ptr' =>
        obtain ⟨⟨_, inside, fresh, _⟩, rest⟩ := exclusive
        rcases List.mem_cons.mp returned with same | later
        · cases same
          exact ⟨inside, fresh⟩
        · exact ih rest later

end Granted

section Boot
variable {m : State} {ending : VirtAddr} {info : BootInfo} {b : Booted}

/-- No entry frees a page below the boot structures. -/
theorem Started.first (started : Started m ending info b) (real : 0 < info.size.toNat) : b.state.used 0 = true := by
  have inside : 0 < b.state.mapBits := by
    rw [started.mapBits]
    omega
  rw [← Bool.not_eq_false]
  intro free
  obtain ⟨entry, _, frees⟩ := (started.used 0 inside).mp free
  have byte : Frees (info.usable ending) (trim (info.usable ending) entry) (0 / 4096) := frees
  have low := (freed_byte started.placed.aligned byte).1
  have above := started.placed.above
  omega

theorem relocated_accounted {m : State} (balanced : m.Accounted) (offset : PhysAddr) :
    (setPhysicalBaseOffset m offset).Accounted := balanced

variable {τ : Type} [DecidableEq τ]

/-- No schedule hands out memory of the kernel, of a module, of the map or of what the
loader did not list as available. -/
theorem boot_memory_never_granted (linked : kVMRangeKernelBase ≤ ending) (booted : init m ending info = some b)
    (real : 0 < info.size.toNat) (cleared : Cleared ending info) (offset : PhysAddr) {moves : List (Move τ Call)}
    {trace : List (Shown τ Call (Option UInt64))} {w : Threads τ State (Option UInt64)}
    (ran : runTrace (Threads.step Call.code) (Threads.start (setPhysicalBaseOffset b.state offset)) moves = some (trace, w))
    (respects : Respects (setPhysicalBaseOffset b.state offset) (fun _ => none) trace) {thread : τ} {ptr : UInt64}
    (returned : .ret thread (some ptr) ∈ trace) (x : Nat)
    (inside : x / 4096 = grantedPage (setPhysicalBaseOffset b.state offset) ptr) :
    info.Available x ∧ ¬ InKernel ending x ∧ (∀ mod ∈ info.modList, ¬ mod.Holds x) ∧ ¬ b.Holds x := by
  have started := init_started linked booted
  have sound : (setPhysicalBaseOffset b.state offset).Sound := .inr (relocated_accounted started.accounted offset)
  obtain ⟨turns, o, stage, shown, _⟩ := interleaving_refines ran
  obtain ⟨exclusive, _⟩ := (Tenancy.start sound (started.first real)).run shown respects
  obtain ⟨bound, free⟩ := exclusive.granted returned
  rw [← inside] at bound free
  exact (started.protected cleared).free x bound free

end Boot

section Example

/-- 16 MiB with little memory in them, and one module. -/
def scarce : BootInfo :=
  ⟨multibootInfoMods, [firstModule], ⟨0, 0x9fc00, 1⟩,
    [⟨0x9fc00, 0x400, 2⟩, ⟨0x100000, 0x50000, 1⟩, ⟨0xfff000, 0x1000, 1⟩]⟩

private theorem scarce_cleared : Cleared kernelImage scarce := by
  refine ⟨fun _ => by decide +kernel, ?_⟩
  intro entry member available _ _ _ x before page
  simp only [BootInfo.mmap, scarce, List.mem_cons, List.not_mem_nil, or_false] at member
  obtain rfl | rfl | rfl | rfl := member
  · exact absurd before (Nat.not_lt_zero x)
  · exact absurd available (by decide)
  · rw [show UInt64.toNat 0x100000 = 0x100000 from rfl] at before page
    omega
  · rw [show UInt64.toNat 0xfff000 = 0xfff000 from rfl] at before page
    omega

def scarceBoot : Booted := (init (setMemoryMap [] 0) kernelImage scarce).get (by decide +kernel)

private theorem scarceBoot_init : init (setMemoryMap [] 0) kernelImage scarce = some scarceBoot := (Option.some_get _).symm

def firstAllocation : List (Move Bool Call) := .call true (.allocPage kActive) :: List.replicate 53 (.go true)

theorem boot_memory_never_granted_witness :
    scarce.Available 0x149000 ∧ ¬ InKernel kernelImage 0x149000 ∧ (∀ mod ∈ scarce.modList, ¬ mod.Holds 0x149000) ∧
      ¬ scarceBoot.Holds 0x149000 := by
  have shown : (runTrace (Threads.step Call.code)
      (Threads.start (setPhysicalBaseOffset scarceBoot.state kVMRangePhysMemBase)) firstAllocation).map Prod.fst =
        some [.call true (.allocPage kActive), .ret true (some 0xffff880000149000)] := by decide +kernel
  obtain ⟨⟨trace, w⟩, ran, same⟩ := Option.map_eq_some_iff.mp shown
  dsimp only at same
  have respects : Respects (setPhysicalBaseOffset scarceBoot.state kVMRangePhysMemBase) (fun _ => none) trace := by
    rw [same]
    exact ⟨⟨_, rfl, nofun⟩, trivial⟩
  have returned : Shown.ret true (some 0xffff880000149000) ∈ trace := by
    rw [same]
    exact List.mem_cons_of_mem _ List.mem_cons_self
  exact boot_memory_never_granted (by decide) scarceBoot_init (by decide +kernel) scarce_cleared kVMRangePhysMemBase
    ran respects returned 0x149000 (by decide +kernel)

end Example

end Hotarubi.Memory.Physmm
