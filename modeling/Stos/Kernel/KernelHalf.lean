import Stos.Kernel.AddressSpaces

/-!
# The kernel half of the address spaces

Directory entry 0 and the entries from 256 on are meant to be the same in every directory:
`paging_clone_directory` copies them. Their tables are created by `paging_map_page` when an
address is first mapped, in the directory that is current at that moment. This module adds
the kernel's own mappings to the runs of the address spaces.
-/

namespace Stos.Kernel

/-- The addresses outside user space. -/
def KernelAddr (virt : Nat) : Prop := virt < 2 ^ 32 ∧ ¬ UserAddr virt

instance (virt : Nat) : Decidable (KernelAddr virt) := inferInstanceAs (Decidable (_ ∧ _))

/-- The indices of a directory outside user space. -/
def KernelIndex (i : Nat) : Prop := i < 1024 ∧ (i = 0 ∨ 256 ≤ i)

/-- The page that `virt` resolves to in directory `d`. -/
def Machine.resolve (s : Machine) (d virt : Nat) : Option Nat :=
  let pde := s.entry (d * 4096) (pagingGetPdIndex virt)
  if !pde.present then none
  else
    let pte := s.entry pde.addr (pagingGetPtIndex virt)
    if !pte.present then none else some pte.page

/-- All live directories resolve every kernel address to the same page. -/
def KernelAgree (σ : Spaces) : Prop :=
  ∀ d ∈ σ.2, ∀ d' ∈ σ.2, ∀ virt, KernelAddr virt → σ.1.resolve d virt = σ.1.resolve d' virt

/-- An operation on the address spaces, or a mapping of the kernel. -/
inductive KernelEvent where
  | space (ev : SpaceEvent)
  | map (virt : Nat)
  | unmap (virt : Nat)

/-- One operation. The kernel's mappings are made in whichever directory is current. -/
inductive KernelStep : Spaces → KernelEvent → Spaces → Prop where
  | space {σ ev τ} (step : SpaceStep σ ev τ) : KernelStep σ (.space ev) τ
  | map {s : Machine} {dirs virt phys flags} (haddr : KernelAddr virt) :
      KernelStep (s, dirs) (.map virt) ((s.pagingMapPage virt phys flags).2, dirs)
  | unmap {s : Machine} {dirs virt} (haddr : KernelAddr virt) :
      KernelStep (s, dirs) (.unmap virt) (s.pagingUnmapPage virt, dirs)

/-- Sequences of operations, each of which was allowed when it was done. -/
inductive KernelRun (allowed : Spaces → KernelEvent → Prop) : Spaces → Spaces → Prop where
  | nil (σ : Spaces) : KernelRun allowed σ σ
  | snoc {σ τ υ : Spaces} {ev : KernelEvent} (run : KernelRun allowed σ τ)
      (hallowed : allowed τ ev) (step : KernelStep τ ev υ) (unsaturated : Unsaturated υ) :
      KernelRun allowed σ υ

/-- A mapping of the kernel finds its table in the current directory, or the current
directory is the only one. -/
def TableShared (σ : Spaces) : KernelEvent → Prop
  | .map virt =>
      (σ.1.tableOf σ.1.current (pagingGetPdIndex virt)).isSome ∨ σ.2 = {σ.1.current}
  | _ => True

/-- The state after boot: the tables of the kernel half were taken from the allocator. -/
structure KernelBooted (s : Machine) (blk : Blocks) (d : Nat) : Prop extends Booted s blk d where
  tables : ∀ i, KernelIndex i → ∀ t, s.tableOf d i = some t → IsPage blk t ∧ t ≠ d

end Stos.Kernel
