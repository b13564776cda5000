import Mathlib

/-!
# Naturally aligned blocks

A block of order `o` is a run of `2 ^ o` units whose first unit is a multiple of `2 ^ o`;
two units lie in the same block of that order when their quotients by `2 ^ o` agree. A
`BlockMap` cuts (part of) the units into such blocks by giving every unit the order and
the label of its block. Blocks of one map can therefore not overlap, and every change an
allocator makes to it (relabelling a block, splitting it, merging two buddies) is an
instance of `retag`.
-/

namespace Stos

open Nat Option Prod

/-! ## Arithmetic of aligned blocks -/

variable {o p q r : Nat}

theorem sameBlock_mono {w : Nat} (h : q / 2 ^ o = p / 2 ^ o) (hle : o ≤ w) :
    q / 2 ^ w = p / 2 ^ w := by
  obtain ⟨d, rfl⟩ := Nat.exists_eq_add_of_le hle
  rw [Nat.pow_add, ← Nat.div_div_eq_div_mul, ← Nat.div_div_eq_div_mul, h]

/-- The block of order `o` that starts at `p` holds the units `p, …, p + 2 ^ o - 1`. -/
theorem sameBlock_iff (head : 2 ^ o ∣ p) : q / 2 ^ o = p / 2 ^ o ↔ p ≤ q ∧ q < p + 2 ^ o := by
  obtain ⟨a, rfl⟩ := head
  have hpos : 0 < 2 ^ o := Nat.two_pow_pos o
  rw [Nat.mul_div_cancel_left a hpos, Nat.div_eq_iff hpos]
  rw [Nat.mul_comm a (2 ^ o)]
  omega

theorem div_two_pow_succ (o q : Nat) : q / 2 ^ (o + 1) = q / 2 ^ o / 2 := by
  rw [Nat.pow_succ, Nat.div_div_eq_div_mul]

/-- The first unit of the block of order `o` around `q`. -/
theorem blockHead_sameBlock (o q : Nat) : (q / 2 ^ o * 2 ^ o) / 2 ^ o = q / 2 ^ o :=
  Nat.mul_div_cancel _ (Nat.two_pow_pos o)

/-! ### The buddy of a block -/

section Buddy

variable {o p : Nat}

theorem buddy_div (o p : Nat) : (p ^^^ 2 ^ o) / 2 ^ o = (p / 2 ^ o) ^^^ 1 := by
  rw [Nat.xor_div_two_pow, Nat.div_self (Nat.two_pow_pos o)]

theorem dvd_buddy (head : 2 ^ o ∣ p) : 2 ^ o ∣ p ^^^ 2 ^ o := by
  apply dvd_of_mod_eq_zero
  rw [Nat.xor_mod_two_pow, Nat.mod_self, Nat.mod_eq_zero_of_dvd head, Nat.xor_self]

theorem xor_one_cases (a : Nat) : a % 2 = 0 ∧ a ^^^ 1 = a + 1 ∨ a % 2 = 1 ∧ a ^^^ 1 = a - 1 := by
  rcases mod_two_eq_zero_or_one a with h | h
  · exact .inl ⟨h, xor_one_of_even (even_iff.mpr h)⟩
  · exact .inr ⟨h, xor_one_of_odd (odd_iff.mpr h)⟩

theorem buddy_sameParent (o p : Nat) :
    (p ^^^ 2 ^ o) / 2 ^ (o + 1) = p / 2 ^ (o + 1) := by
  rw [div_two_pow_succ, div_two_pow_succ, buddy_div]
  generalize p / 2 ^ o = a
  rcases xor_one_cases a with ⟨h, e⟩ | ⟨h, e⟩ <;> rw [e] <;> omega

theorem buddy_notSameBlock (o p : Nat) : (p ^^^ 2 ^ o) / 2 ^ o ≠ p / 2 ^ o := by
  rw [buddy_div]
  generalize p / 2 ^ o = a
  rcases xor_one_cases a with ⟨h, e⟩ | ⟨h, e⟩ <;> rw [e] <;> omega

/-- A block and its buddy make up the whole block of the next order. -/
theorem sameParent_cases (h : r / 2 ^ (o + 1) = p / 2 ^ (o + 1)) :
    r / 2 ^ o = p / 2 ^ o ∨ r / 2 ^ o = (p ^^^ 2 ^ o) / 2 ^ o := by
  rw [div_two_pow_succ, div_two_pow_succ] at h
  rw [buddy_div]
  generalize p / 2 ^ o = a at h ⊢
  rcases xor_one_cases a with ⟨hm, e⟩ | ⟨hm, e⟩ <;> rw [e] <;> omega

private theorem eq_div_mul (head : 2 ^ o ∣ p) : p = p / 2 ^ o * 2 ^ o :=
  (Nat.div_mul_cancel head).symm

/-- The lower of two buddies starts the merged block. -/
theorem dvd_of_lt_buddy (head : 2 ^ o ∣ p) (h : p < p ^^^ 2 ^ o) : 2 ^ (o + 1) ∣ p := by
  have hlt : p / 2 ^ o < (p ^^^ 2 ^ o) / 2 ^ o := by
    by_contra hge
    have := mul_le_mul_right (2 ^ o) (not_lt.mp hge)
    rw [← eq_div_mul head, ← eq_div_mul (dvd_buddy head)] at this
    omega
  rw [buddy_div] at hlt
  have even : 2 ∣ p / 2 ^ o := by
    generalize p / 2 ^ o = a at hlt
    rcases xor_one_cases a with ⟨hm, -⟩ | ⟨hm, e⟩ <;> omega
  rw [eq_div_mul head, pow_succ, mul_comm (p / 2 ^ o)]
  exact mul_dvd_mul_left _ even

theorem dvd_of_buddy_lt (head : 2 ^ o ∣ p) (h : p ^^^ 2 ^ o < p) :
    2 ^ (o + 1) ∣ p ^^^ 2 ^ o := by
  refine dvd_of_lt_buddy (dvd_buddy head) ?_
  rwa [Nat.xor_assoc, Nat.xor_self, Nat.xor_zero]

theorem buddy_ne (o p : Nat) : p ^^^ 2 ^ o ≠ p := fun e =>
  buddy_notSameBlock o p (by rw [e])

end Buddy

/-! ### The upper half of a block -/

section UpperHalf

variable {o p : Nat}

theorem upperHalf_div (o p : Nat) : (p + 2 ^ o) / 2 ^ o = p / 2 ^ o + 1 := by
  rw [Nat.add_div_right _ (Nat.two_pow_pos o)]

section

variable (head : 2 ^ (o + 1) ∣ p)
include head

theorem dvd_half : 2 ^ o ∣ p :=
  dvd_trans (pow_dvd_pow 2 (le_succ o)) head

theorem div_half_even : p / 2 ^ o % 2 = 0 := by
  obtain ⟨a, rfl⟩ := head
  rw [Nat.pow_succ, Nat.mul_assoc, Nat.mul_div_cancel_left _ (Nat.two_pow_pos o)]
  omega

theorem dvd_upperHalf : 2 ^ o ∣ p + 2 ^ o :=
  Nat.dvd_add (dvd_half head) (Nat.dvd_refl _)

theorem upperHalf_sameParent : (p + 2 ^ o) / 2 ^ (o + 1) = p / 2 ^ (o + 1) := by
  have := div_half_even head
  rw [div_two_pow_succ, div_two_pow_succ, upperHalf_div]
  omega

theorem upperHalf_cases (h : r / 2 ^ (o + 1) = p / 2 ^ (o + 1)) :
    r / 2 ^ o = p / 2 ^ o ∨ r / 2 ^ o = (p + 2 ^ o) / 2 ^ o := by
  have := div_half_even head
  rw [div_two_pow_succ, div_two_pow_succ] at h
  rw [upperHalf_div]
  omega

end

end UpperHalf

/-! ## Block maps -/

/-- The order and the label of the block around each unit; `none` outside all blocks. -/
abbrev BlockMap (κ : Type) := Nat → Option (Nat × κ)

namespace BlockMap

variable {κ : Type} {blk : BlockMap κ} {p q w o o' : Nat} {k k' : κ}

/-- All units of a block carry the order and the label of the block. -/
def Aligned (blk : BlockMap κ) : Prop :=
  ∀ q o k, blk q = some (o, k) → ∀ r, r / 2 ^ o = q / 2 ^ o → blk r = some (o, k)

/-- Unit `p` starts a block of order `o` with label `k`. -/
def HasBlock (blk : BlockMap κ) (p o : Nat) (k : κ) : Prop :=
  2 ^ o ∣ p ∧ blk p = some (o, k)

/-- Every unit of the block of order `w` around `p` gets order `o` and label `k`. -/
def retag (blk : BlockMap κ) (p w o : Nat) (k : κ) : BlockMap κ := fun q =>
  if q / 2 ^ w = p / 2 ^ w then some (o, k) else blk q

theorem retag_of_mem (h : q / 2 ^ w = p / 2 ^ w) : blk.retag p w o k q = some (o, k) := if_pos h

theorem retag_of_notMem (h : q / 2 ^ w ≠ p / 2 ^ w) : blk.retag p w o k q = blk q := if_neg h

theorem retag_eq_some (h : blk.retag p w o k q = some (o', k')) :
    q / 2 ^ w = p / 2 ^ w ∧ o' = o ∧ k' = k ∨ q / 2 ^ w ≠ p / 2 ^ w ∧ blk q = some (o', k') := by
  unfold retag at h
  split at h
  · next hmem =>
    cases h
    exact .inl ⟨hmem, rfl, rfl⟩
  · next hmem => exact .inr ⟨hmem, h⟩

theorem retag_eq_none (h : blk.retag p w o k q = none) : q / 2 ^ w ≠ p / 2 ^ w ∧ blk q = none := by
  have hmem : q / 2 ^ w ≠ p / 2 ^ w := fun e => by
    rw [retag_of_mem e] at h
    cases h
  exact ⟨hmem, (retag_of_notMem hmem).symm.trans h⟩

@[simp] theorem retag_self : blk.retag p w o k p = some (o, k) := if_pos rfl

/-- The blocks of the map that meet the block of order `w` around `p` lie inside it. -/
def Covers (blk : BlockMap κ) (p w : Nat) : Prop :=
  ∀ q, q / 2 ^ w = p / 2 ^ w → ∀ o k, blk q = some (o, k) → o ≤ w

theorem Aligned.retag (h : blk.Aligned) (hle : o ≤ w) (covers : blk.Covers p w) :
    (blk.retag p w o k).Aligned := by
  intro q o2 k2 hq r hr
  rcases retag_eq_some hq with ⟨hmem, rfl, rfl⟩ | ⟨hmem, hq⟩
  · exact retag_of_mem ((sameBlock_mono hr hle).trans hmem)
  · have hblk : blk r = some (o2, k2) := h q o2 k2 hq r hr
    rw [retag_of_notMem, hblk]
    -- a unit of a block outside the retagged one does not reach into it
    intro hrm
    exact hmem ((sameBlock_mono hr.symm (covers r hrm o2 k2 hblk)).trans hrm)

/-- The block around any unit of a map. -/
theorem Aligned.hasBlock (h : blk.Aligned) (hq : blk q = some (o, k)) :
    blk.HasBlock (q / 2 ^ o * 2 ^ o) o k :=
  ⟨dvd_mul_left _ _, h q o k hq _ (blockHead_sameBlock o q)⟩

theorem Aligned.covers_self (h : blk.Aligned) (hp : blk p = some (o, k)) : blk.Covers p o := by
  intro q hq o2 k2 hq2
  rw [h p o k hp q hq] at hq2
  exact le_of_eq (mk.inj (some.inj hq2)).1.symm

/-- Blocks of one map that share a unit are the same block. -/
theorem Aligned.eq_of_mem (h : blk.Aligned) {p' : Nat} (hb : blk.HasBlock p o k)
    (hb' : blk.HasBlock p' o' k') (hq : q / 2 ^ o = p / 2 ^ o) (hq' : q / 2 ^ o' = p' / 2 ^ o') :
    p = p' ∧ o = o' := by
  have e := h p o k hb.2 q hq
  have e' := h p' o' k' hb'.2 q hq'
  rw [e] at e'
  obtain ⟨rfl, rfl⟩ := mk.inj (some.inj e')
  refine ⟨?_, rfl⟩
  rw [← Nat.div_mul_cancel hb.1, ← Nat.div_mul_cancel hb'.1, ← hq, hq']

theorem eq_head_of_sameBlock (hp : 2 ^ o ∣ p) (hq : 2 ^ o ∣ q) (h : q / 2 ^ o = p / 2 ^ o) :
    q = p := by
  rw [← Nat.div_mul_cancel hq, h, Nat.div_mul_cancel hp]

/-- The blocks after relabelling the block at `p`. -/
theorem hasBlock_retag_iff (hp : 2 ^ o ∣ p) :
    (blk.retag p o o k).HasBlock q o' k' ↔
      (q = p ∧ o' = o ∧ k' = k) ∨ (q / 2 ^ o ≠ p / 2 ^ o ∧ blk.HasBlock q o' k') := by
  constructor
  · rintro ⟨hd, e⟩
    rcases retag_eq_some e with ⟨hmem, rfl, rfl⟩ | ⟨hmem, e⟩
    · exact .inl ⟨eq_head_of_sameBlock hp hd hmem, rfl, rfl⟩
    · exact .inr ⟨hmem, hd, e⟩
  · rintro (⟨rfl, rfl, rfl⟩ | ⟨hmem, hd, e⟩)
    · exact ⟨hp, retag_self⟩
    · exact ⟨hd, (retag_of_notMem hmem).trans e⟩

/-- Splitting or merging blocks of one label leaves the blocks of every other label. -/
theorem hasBlock_retag_of_ne (label : ∀ q, q / 2 ^ w = p / 2 ^ w → ∃ o', blk q = some (o', k))
    (hne : k' ≠ k) : (blk.retag p w o k).HasBlock q o' k' ↔ blk.HasBlock q o' k' := by
  unfold HasBlock
  by_cases hmem : q / 2 ^ w = p / 2 ^ w
  · obtain ⟨o2, e⟩ := label q hmem
    rw [retag_of_mem hmem, e]
    simp [hne.symm]
  · rw [retag_of_notMem hmem]

/-! ### Merged blocks -/

/-- No two buddies of an order below `n` both have the label `k`. -/
def Merged (blk : BlockMap κ) (k : κ) (n : Nat) : Prop :=
  ∀ p o, o < n → blk.HasBlock p o k → ¬ blk.HasBlock (p ^^^ 2 ^ o) o k

namespace Merged

variable {n : Nat} {blk' : BlockMap κ}

theorem mono (h : blk.Merged k n) (sub : ∀ p o, blk'.HasBlock p o k → blk.HasBlock p o k) :
    blk'.Merged k n :=
  fun p o ho hp hb => h p o ho (sub p o hp) (sub _ o hb)

theorem retag_of_ne (h : blk.Merged k n) (hp : 2 ^ o ∣ p) (hne : k' ≠ k) :
    (blk.retag p o o k').Merged k n := by
  refine h.mono fun q j hq => ?_
  rcases (hasBlock_retag_iff hp).mp hq with ⟨-, -, e⟩ | ⟨-, hq⟩
  · exact absurd e.symm hne
  · exact hq

/-- A block may get the label if its buddy does not have it. -/
theorem retag (h : blk.Merged k n) (hp : 2 ^ o ∣ p)
    (buddy : o < n → ¬ blk.HasBlock (p ^^^ 2 ^ o) o k) : (blk.retag p o o k).Merged k n := by
  intro q j hj hq hb
  rcases (hasBlock_retag_iff hp).mp hq with ⟨rfl, rfl, -⟩ | ⟨-, hold⟩
  · rcases (hasBlock_retag_iff hp).mp hb with ⟨e, -, -⟩ | ⟨-, hb⟩
    · exact buddy_ne _ _ e
    · exact buddy hj hb
  · rcases (hasBlock_retag_iff hp).mp hb with ⟨rfl, rfl, -⟩ | ⟨-, hb⟩
    · rw [Nat.xor_assoc, Nat.xor_self, Nat.xor_zero] at buddy
      exact buddy hj hold
    · exact h q j hj hold hb

/-- A block of a merged map does not lie inside a larger block of the same units. -/
theorem le_order (h : blk.Merged k n) (aligned : blk.Aligned) (aligned' : blk'.Aligned)
    (same : ∀ q, (∃ o, blk' q = some (o, k)) → ∃ o, blk q = some (o, k)) (hn : o' ≤ n)
    (hq : blk q = some (o, k)) (hq' : blk' q = some (o', k)) : o' ≤ o := by
  -- the buddy of the block has the label, too, and a block there is not smaller
  induction o using Nat.strong_induction_on generalizing q with
  | _ o ih =>
    by_contra hlt
    have hhead := aligned.hasBlock hq
    have hpq := blockHead_sameBlock o q
    generalize q / 2 ^ o * 2 ^ o = p at hhead hpq
    have hbuddy : (p ^^^ 2 ^ o) / 2 ^ o' = q / 2 ^ o' :=
      (sameBlock_mono (buddy_sameParent o p) (by omega)).trans (sameBlock_mono hpq (by omega))
    have hb' := aligned' q o' k hq' _ hbuddy
    obtain ⟨j, hj⟩ := same _ ⟨o', hb'⟩
    rcases lt_trichotomy j o with hjo | rfl | hjo
    · have := ih j hjo hj hb'
      omega
    · exact h p j (by omega) hhead ⟨dvd_buddy hhead.1, hj⟩
    · have hout := aligned _ j k hj p (sameBlock_mono (buddy_sameParent o p) hjo).symm
      rw [hhead.2] at hout
      have := (mk.inj (some.inj hout)).1
      omega

/-- The units of a label determine its blocks. -/
theorem hasBlock (h : blk.Merged k n) (h' : blk'.Merged k n) (aligned : blk.Aligned)
    (aligned' : blk'.Aligned) (le : ∀ q o, blk q = some (o, k) → o ≤ n)
    (le' : ∀ q o, blk' q = some (o, k) → o ≤ n)
    (same : ∀ q, (∃ o, blk' q = some (o, k)) ↔ ∃ o, blk q = some (o, k))
    (hp' : blk'.HasBlock p o k) : blk.HasBlock p o k := by
  obtain ⟨i, hp⟩ := (same p).mp ⟨o, hp'.2⟩
  obtain rfl : i = o := le_antisymm
    (h'.le_order aligned' aligned (fun q => (same q).mpr) (le p i hp) hp'.2 hp)
    (h.le_order aligned aligned' (fun q => (same q).mp) (le' p o hp'.2) hp hp'.2)
  exact ⟨hp'.1, hp⟩

end Merged

end BlockMap

end Stos
