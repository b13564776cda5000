import Mathlib

/-!
# Lists of intervals that tile a range

`Tiles lo hi a b xs` says that the half-open intervals `[lo x, hi x)` of the list follow each
other without gap or overlap from `a` to `b`. Splitting, joining and relabelling intervals are
read off `tiles_append`.
-/

namespace Stos

variable {α : Type} {lo hi : α → Nat} {a b c v : Nat} {x y : α} {xs ys : List α}

def Tiles (lo hi : α → Nat) : Nat → Nat → List α → Prop
  | a, b, [] => a = b
  | a, b, x :: xs => lo x = a ∧ a < hi x ∧ Tiles lo hi (hi x) b xs

theorem Tiles.le (h : Tiles lo hi a b xs) : a ≤ b := by
  induction xs generalizing a with
  | nil => exact Nat.le_of_eq h
  | cons x xs ih =>
    obtain ⟨-, hlt, hrest⟩ := h
    exact Nat.le_trans (Nat.le_of_lt hlt) (ih hrest)

theorem tiles_append :
    Tiles lo hi a c (xs ++ ys) ↔ ∃ b, Tiles lo hi a b xs ∧ Tiles lo hi b c ys := by
  induction xs generalizing a with
  | nil =>
    constructor
    · intro h
      exact ⟨a, rfl, h⟩
    · rintro ⟨b, rfl, h⟩
      exact h
  | cons x xs ih =>
    constructor
    · rintro ⟨hlo, hlt, hrest⟩
      obtain ⟨b, hxs, hys⟩ := ih.mp hrest
      exact ⟨b, ⟨hlo, hlt, hxs⟩, hys⟩
    · rintro ⟨b, ⟨hlo, hlt, hxs⟩, hys⟩
      exact ⟨hlo, hlt, ih.mpr ⟨b, hxs, hys⟩⟩

/-- An interval of the list, with what stands before and after it. -/
theorem tiles_middle :
    Tiles lo hi a b (xs ++ x :: ys) ↔
      Tiles lo hi a (lo x) xs ∧ lo x < hi x ∧ Tiles lo hi (hi x) b ys := by
  rw [tiles_append]
  constructor
  · rintro ⟨m, hxs, hlo, hlt, hys⟩
    subst hlo
    exact ⟨hxs, hlt, hys⟩
  · rintro ⟨hxs, hlt, hys⟩
    exact ⟨lo x, hxs, rfl, hlt, hys⟩

theorem Tiles.mem (h : Tiles lo hi a b xs) (hx : x ∈ xs) : a ≤ lo x ∧ lo x < hi x ∧ hi x ≤ b := by
  obtain ⟨before, after, rfl⟩ := List.append_of_mem hx
  obtain ⟨hbefore, hlt, hafter⟩ := tiles_middle.mp h
  exact ⟨hbefore.le, hlt, hafter.le⟩

/-- A search for the interval that contains `v` passes the intervals before it. -/
theorem Tiles.replaceF_middle {f : α → Option α} (h : Tiles lo hi a (lo x) xs)
    (hnone : ∀ z, hi z ≤ lo x → f z = none) (hsome : f x = some y) :
    (xs ++ x :: ys).replaceF f = xs ++ y :: ys := by
  induction xs generalizing a with
  | nil => simp [hsome]
  | cons z zs ih =>
    obtain ⟨-, -, hrest⟩ := h
    have hz : f z = none := hnone z hrest.le
    simp [hz, ih hrest]

theorem Tiles.find?_middle {p : α → Bool} (h : Tiles lo hi a (lo x) xs)
    (hfalse : ∀ z, hi z ≤ lo x → p z = false) (htrue : p x = true) :
    (xs ++ x :: ys).find? p = some x := by
  induction xs generalizing a with
  | nil => simp [htrue]
  | cons z zs ih =>
    obtain ⟨-, -, hrest⟩ := h
    have hz : p z = false := hfalse z hrest.le
    simp [hz, ih hrest]

end Stos
