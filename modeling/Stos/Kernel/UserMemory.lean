import Mathlib

/-!
# User memory

The range of addresses that belongs to user programs (`include/kernel/memory/vmm.h`), and results of
functions that access it. The kernel accesses user memory directly, at 32-bit addresses that wrap
around.
-/

namespace Stos.Kernel

/-- `VMM_USER_START`. -/
def vmmUserStart : Nat := 0x00400000

/-- `VMM_USER_END`. -/
def vmmUserEnd : Nat := 0x40000000

/-- The addresses of `n` bytes from `base + offset` on. -/
def userBytes (base offset n : Nat) : List Nat :=
  (List.range n).map fun i => (base + offset + i) % 2 ^ 32

/-- The result of a function that accesses user memory: the task is terminated by `task_exit`, or
the function returns and has accessed some addresses. -/
inductive UserAccess (α : Type) where
  | exits (exitCode : Int)
  | returns (result : α) (accessed : List Nat)

namespace UserAccess

/-- The result with `f` applied to it. -/
def map {α β : Type} (f : α → β) : UserAccess α → UserAccess β
  | exits exitCode => exits exitCode
  | returns result accessed => returns (f result) accessed

/-- The addresses that have been accessed. -/
def accessed {α : Type} : UserAccess α → List Nat
  | exits _ => []
  | returns _ accessed => accessed

/-- All accesses are to user memory. -/
def InUser {α : Type} (r : UserAccess α) : Prop :=
  ∀ a ∈ r.accessed, vmmUserStart ≤ a ∧ a < vmmUserEnd

end UserAccess

variable {a base offset n : Nat}

theorem mem_userBytes : a ∈ userBytes base offset n ↔ ∃ i < n, (base + offset + i) % 2 ^ 32 = a := by
  simp [userBytes]

theorem userBytes_ne_nil (hn : 0 < n) : userBytes base offset n ≠ [] := by
  simp only [userBytes, ne_eq, List.map_eq_nil_iff, List.range_eq_nil]
  omega

/-- A range of bytes that does not wrap around. -/
theorem mem_userBytes_of_le (h : base + offset + n ≤ 2 ^ 32) :
    a ∈ userBytes base offset n ↔ base + offset ≤ a ∧ a < base + offset + n := by
  rw [mem_userBytes]
  constructor
  · rintro ⟨i, hi, rfl⟩
    omega
  · intro ha
    refine ⟨a - (base + offset), by omega, ?_⟩
    omega

theorem self_mem_userBytes (h : base < 2 ^ 32) (hn : 0 < n) : base ∈ userBytes base 0 n :=
  mem_userBytes.mpr ⟨0, hn, Nat.mod_eq_of_lt h⟩

end Stos.Kernel
