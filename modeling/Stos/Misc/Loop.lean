import Mathlib

/-!
# Loops

`for (i = m; i < m + n; i++)` as a fold over the indices, with a body that may stop the
machine (`none`). An invariant indexed by the next value of the counter is carried from the
first turn to the end: `foldlM_range_inv` assumes that the loop ran to its end,
`foldlM_range_total` proves that it does. `while` loops are given a bound on the number of their
turns; `whileLoop_inv` proves from a variant that the bound was large enough.
-/

namespace Stos

open List Option

variable {α : Type} {f : α → Nat → Option α} {P : Nat → α → Prop} {m n : Nat} {a a' : α}

theorem foldlM_range_inv (run : (range' m n).foldlM f a = some a') (start : P m a)
    (turn : ∀ k b b', m ≤ k → k < m + n → P k b → f b k = some b' → P (k + 1) b') :
    P (m + n) a' := by
  induction n generalizing m a with
  | zero =>
    obtain rfl := some.inj run
    exact start
  | succ n ih =>
    obtain ⟨b, hb, run⟩ := bind_eq_some_iff.mp run
    have next := turn m a b (Nat.le_refl m) (by omega) start hb
    rw [show m + (n + 1) = m + 1 + n by omega]
    exact ih run next fun k b b' h1 h2 => turn k b b' (by omega) (by omega)

theorem foldlM_range_total (start : P m a)
    (turn : ∀ k b, m ≤ k → k < m + n → P k b → ∃ b', f b k = some b' ∧ P (k + 1) b') :
    ∃ a', (range' m n).foldlM f a = some a' ∧ P (m + n) a' := by
  induction n generalizing m a with
  | zero => exact ⟨a, rfl, start⟩
  | succ n ih =>
    obtain ⟨b, hb, next⟩ := turn m a (Nat.le_refl m) (by omega) start
    obtain ⟨a', run, last⟩ := ih next fun k b h1 h2 => turn k b (by omega) (by omega)
    refine ⟨a', ?_, by rwa [show m + (n + 1) = m + 1 + n by omega]⟩
    rw [range'_succ, foldlM_cons, hb]
    exact run

/-- A loop with one turn that changes anything. -/
theorem foldlM_range_one {i : Nat} (hi : m ≤ i ∧ i < m + n)
    (before : ∀ k, m ≤ k → k < i → f a k = some a) (turn : f a i = some a')
    (after : ∀ k, i < k → k < m + n → f a' k = some a') :
    (range' m n).foldlM f a = some a' := by
  have step : ∀ k b, m ≤ k → k < m + n → (b = if k ≤ i then a else a') →
      ∃ b', f b k = some b' ∧ b' = if k + 1 ≤ i then a else a' := by
    rintro k b hm hn rfl
    rcases Nat.lt_trichotomy k i with hk | rfl | hk
    · rw [if_pos (by omega), if_pos (by omega)]
      exact ⟨a, before k hm hk, rfl⟩
    · rw [if_pos (Nat.le_refl k), if_neg (by omega)]
      exact ⟨a', turn, rfl⟩
    · rw [if_neg (by omega), if_neg (by omega)]
      exact ⟨a', after k hk hn, rfl⟩
  obtain ⟨b, run, last⟩ := foldlM_range_total (P := fun k b => b = if k ≤ i then a else a')
    (if_pos hi.1).symm step
  rw [run, last, if_neg (by omega)]

/-- The same rule for a body that always runs. -/
theorem foldl_range_inv {g : α → Nat → α} (start : P m a)
    (turn : ∀ k b, m ≤ k → k < m + n → P k b → P (k + 1) (g b k)) :
    P (m + n) ((range' m n).foldl g a) := by
  induction n generalizing m a with
  | zero => exact start
  | succ n ih =>
    rw [show m + (n + 1) = m + 1 + n by omega]
    exact ih (turn m a (Nat.le_refl m) (by omega) start)
      fun k b h1 h2 => turn k b (by omega) (by omega)

/-! ## Loops over a list -/

section

variable {β : Type} {f g : α → β → Option α} {Q : α → Prop} {l : List β}

theorem foldlM_total (start : Q a) (turn : ∀ b, ∀ x ∈ l, Q b → ∃ b', f b x = some b' ∧ Q b') :
    ∃ a', l.foldlM f a = some a' ∧ Q a' := by
  induction l generalizing a with
  | nil => exact ⟨a, rfl, start⟩
  | cons x l ih =>
    obtain ⟨b, hb, next⟩ := turn a x mem_cons_self start
    obtain ⟨a', run, last⟩ := ih next fun b y hy => turn b y (mem_cons_of_mem x hy)
    refine ⟨a', ?_, last⟩
    rw [foldlM_cons, hb]
    exact run

/-- A body that does at least as much. -/
theorem foldlM_mono (le : ∀ b x b', f b x = some b' → g b x = some b') (run : l.foldlM f a = some a') :
    l.foldlM g a = some a' := by
  induction l generalizing a with
  | nil => exact run
  | cons x l ih =>
    rw [foldlM_cons] at run ⊢
    obtain ⟨b, hb, run⟩ := bind_eq_some_iff.mp run
    rw [le a x b hb]
    exact ih run

end

/-! ## `while` loops -/

section

variable {σ : Type}

/-- `while (c) f`, with at most `n` turns. -/
def whileLoop (c : σ → Bool) (f : σ → σ) : Nat → σ → σ
  | 0, s => s
  | n + 1, s => if c s then whileLoop c f n (f s) else s

/-- The loop ends if a variant goes down, and an invariant holds at its end. -/
theorem whileLoop_inv {c : σ → Bool} {f : σ → σ} {I : σ → Prop} {v : σ → Nat} {n : Nat} {s : σ}
    (start : I s) (bound : v s ≤ n)
    (turn : ∀ s, I s → c s = true → I (f s) ∧ v (f s) < v s) :
    I (whileLoop c f n s) ∧ c (whileLoop c f n s) = false := by
  induction n generalizing s with
  | zero =>
    refine ⟨start, ?_⟩
    cases on : c s with
    | true =>
      have := (turn s start on).2
      omega
    | false => exact on
  | succ n ih =>
    rw [whileLoop]
    cases on : c s with
    | true =>
      obtain ⟨next, less⟩ := turn s start on
      exact ih next (by omega)
    | false => exact ⟨start, on⟩

end

end Stos
