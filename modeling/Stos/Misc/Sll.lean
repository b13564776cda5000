import Mathlib

/-!
# Intrusive singly linked lists

Nodes carry a `next` link and a list is named by its first node, with a null node `nil` for the
empty list. `IsSll` ties the links to the Lean list of the nodes; it only depends on the links of
the nodes themselves, so it survives every other change to the memory the links are kept in.
-/

namespace Stos

variable {α : Type} {nil : α} {next next' : α → α} {head x y : α} {xs : List α}

/-- Following `next` from `head` visits exactly `xs` and ends in `nil`. -/
def IsSll (nil : α) (next : α → α) : α → List α → Prop
  | head, [] => head = nil
  | head, x :: xs => head = x ∧ x ≠ nil ∧ IsSll nil next (next x) xs

/-- The loop that looks for `target` along the links, for at most `fuel` nodes. -/
def sllFind [DecidableEq α] (nil : α) (next : α → α) (target : α) : Nat → α → Bool
  | 0, _ => false
  | fuel + 1, current =>
      if current = nil then false
      else if current = target then true
      else sllFind nil next target fuel (next current)

namespace IsSll

theorem congr (h : IsSll nil next head xs) (hnext : ∀ y ∈ xs, next' y = next y) :
    IsSll nil next' head xs := by
  induction xs generalizing head with
  | nil => exact h
  | cons z zs ih =>
    obtain ⟨hhead, hz, hrest⟩ := h
    refine ⟨hhead, hz, ?_⟩
    rw [hnext z List.mem_cons_self]
    exact ih hrest fun y hy => hnext y (List.mem_cons_of_mem _ hy)

/-- A node that is linked to the head becomes the head. -/
theorem push (h : IsSll nil next head xs) (hx : x ≠ nil) (hlink : next' x = head)
    (hnext : ∀ y ∈ xs, next' y = next y) : IsSll nil next' x (x :: xs) := by
  refine ⟨rfl, hx, ?_⟩
  rw [hlink]
  exact h.congr hnext

theorem sllFind_iff [DecidableEq α] {target : α} {fuel : Nat} (h : IsSll nil next head xs)
    (hfuel : xs.length < fuel) : sllFind nil next target fuel head = true ↔ target ∈ xs := by
  induction fuel generalizing head xs with
  | zero => exact absurd hfuel (Nat.not_lt_zero _)
  | succ fuel ih =>
    unfold sllFind
    cases xs with
    | nil =>
      have hnil : head = nil := h
      rw [if_pos hnil]
      simp
    | cons z zs =>
      obtain ⟨rfl, hz, hrest⟩ := h
      rw [if_neg hz]
      by_cases htarget : head = target
      · simp [htarget]
      · rw [if_neg htarget, ih hrest (Nat.lt_of_succ_lt_succ hfuel)]
        simp [Ne.symm htarget]

end IsSll

end Stos
