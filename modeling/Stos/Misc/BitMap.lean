import Mathlib

/-!
# Packed bit maps

Arrays of bits and of 4-bit fields stored in 32-bit words, and of bits stored in bytes, with the
shift-and-mask code C programs use for them. Reading after a write gives the value written at that index and
the old value at every other index.
-/

namespace Stos

open BitVec Nat

/-- An array of 32-bit words. -/
abbrev Words := Nat → BitVec 32

/-- `(m[i / 32] & (1 << (i % 32))) != 0`. -/
def bitGet (m : Words) (i : Nat) : Bool := (m (i / 32) &&& (1#32 <<< (i % 32))) != 0#32

/-- `m[i / 32] |= (1 << (i % 32))`. -/
def bitSet (m : Words) (i : Nat) : Words := fun j =>
  if j = i / 32 then m j ||| (1#32 <<< (i % 32)) else m j

/-- `m[i / 32] &= ~(1 << (i % 32))`. -/
def bitClear (m : Words) (i : Nat) : Words := fun j =>
  if j = i / 32 then m j &&& ~~~(1#32 <<< (i % 32)) else m j

/-- `(m[(i * 4) / 32] >> ((i * 4) % 32)) & 0xF`. -/
def nibbleGet (m : Words) (i : Nat) : BitVec 32 :=
  (m (i * 4 / 32) >>> (i * 4 % 32)) &&& 0xF#32

/-- Clear the four bits of entry `i`, then or in `v << ((i * 4) % 32)`. -/
def nibbleSet (m : Words) (i : Nat) (v : BitVec 32) : Words := fun j =>
  if j = i * 4 / 32 then
    (m j &&& ~~~(0xF#32 <<< (i * 4 % 32))) ||| (v <<< (i * 4 % 32))
  else m j

private theorem getLsbD_one_shiftLeft {w : Nat} (b i : Nat) (hi : i < w) :
    (1#w <<< b).getLsbD i = decide (i = b) := by
  rw [getLsbD_shiftLeft, getLsbD_one]
  by_cases h : i < b
  · simp [hi, h, show i ≠ b by omega]
  · simp [hi, h, show i - b = 0 ↔ i = b by omega]
    omega

private theorem and_one_shiftLeft_ne_zero {w : Nat} (v : BitVec w) (b : Nat) (hb : b < w) :
    ((v &&& (1#w <<< b)) != 0#w) = v.getLsbD b := by
  have bits : ∀ i < w, (v &&& (1#w <<< b)).getLsbD i = (v.getLsbD i && decide (i = b)) := by
    intro i hi
    rw [getLsbD_and, getLsbD_one_shiftLeft b i hi]
  cases hv : v.getLsbD b with
  | false =>
    have hz : v &&& (1#w <<< b) = 0#w := by
      apply eq_of_getLsbD_eq
      intro i hi
      rw [bits i hi]
      by_cases h : i = b
      · subst h; simp [hv]
      · simp [h]
    simp [hz]
  | true =>
    have hz : v &&& (1#w <<< b) ≠ 0#w := by
      intro e
      have := bits b hb
      rw [e, hv] at this
      simp at this
    simpa using hz

theorem bitGet_eq (m : Words) (i : Nat) : bitGet m i = (m (i / 32)).getLsbD (i % 32) :=
  and_one_shiftLeft_ne_zero _ _ (mod_lt _ (by omega))

@[simp] theorem bitGet_bitSet (m : Words) (i j : Nat) :
    bitGet (bitSet m i) j = if j = i then true else bitGet m j := by
  have hj : j % 32 < 32 := mod_lt _ (by omega)
  rw [bitGet_eq, bitGet_eq]
  unfold bitSet
  by_cases hw : j / 32 = i / 32
  · rw [if_pos hw, getLsbD_or, getLsbD_one_shiftLeft _ _ hj]
    by_cases h : j = i
    · subst h; simp
    · simp [h, show j % 32 ≠ i % 32 by omega]
  · rw [if_neg hw, if_neg (fun h => hw (by rw [h]))]

@[simp] theorem bitGet_bitClear (m : Words) (i j : Nat) :
    bitGet (bitClear m i) j = if j = i then false else bitGet m j := by
  have hj : j % 32 < 32 := mod_lt _ (by omega)
  rw [bitGet_eq, bitGet_eq]
  unfold bitClear
  by_cases hw : j / 32 = i / 32
  · rw [if_pos hw, getLsbD_and, getLsbD_not, getLsbD_one_shiftLeft _ _ hj]
    by_cases h : j = i
    · subst h; simp
    · simp [h, hj, show j % 32 ≠ i % 32 by omega]
  · rw [if_neg hw, if_neg (fun h => hw (by rw [h]))]

/-! ## Bits of bytes -/

variable (m : Nat → BitVec 8)

/-- `(m[i / 8] & (1 << (i % 8))) != 0`. -/
def byteBit (i : Nat) : Bool := (m (i / 8) &&& (1#8 <<< (i % 8))) != 0#8

/-- `m[i / 8] |= (1 << (i % 8))`. -/
def setByteBit (i : Nat) : Nat → BitVec 8 := fun j =>
  if j = i / 8 then m j ||| (1#8 <<< (i % 8)) else m j

/-- `m[i / 8] &= ~(1 << (i % 8))`. -/
def clearByteBit (i : Nat) : Nat → BitVec 8 := fun j =>
  if j = i / 8 then m j &&& ~~~(1#8 <<< (i % 8)) else m j

theorem byteBit_eq (i : Nat) : byteBit m i = (m (i / 8)).getLsbD (i % 8) :=
  and_one_shiftLeft_ne_zero _ _ (mod_lt _ (by omega))

theorem byteBit_congr {m m' : Nat → BitVec 8} {i : Nat} (same : m' (i / 8) = m (i / 8)) :
    byteBit m' i = byteBit m i := by
  rw [byteBit, byteBit, same]

@[simp] theorem byteBit_setByteBit (i j : Nat) :
    byteBit (setByteBit m i) j = if j = i then true else byteBit m j := by
  have hj : j % 8 < 8 := mod_lt _ (by omega)
  rw [byteBit_eq, byteBit_eq]
  unfold setByteBit
  by_cases hw : j / 8 = i / 8
  · rw [if_pos hw, getLsbD_or, getLsbD_one_shiftLeft _ _ hj]
    by_cases h : j = i
    · subst h; simp
    · simp [h, show j % 8 ≠ i % 8 by omega]
  · rw [if_neg hw, if_neg (fun h => hw (by rw [h]))]

@[simp] theorem byteBit_clearByteBit (i j : Nat) :
    byteBit (clearByteBit m i) j = if j = i then false else byteBit m j := by
  have hj : j % 8 < 8 := mod_lt _ (by omega)
  rw [byteBit_eq, byteBit_eq]
  unfold clearByteBit
  by_cases hw : j / 8 = i / 8
  · rw [if_pos hw, getLsbD_and, getLsbD_not, getLsbD_one_shiftLeft _ _ hj]
    by_cases h : j = i
    · subst h; simp
    · simp [h, hj, show j % 8 ≠ i % 8 by omega]
  · rw [if_neg hw, if_neg (fun h => hw (by rw [h]))]

/-! ## Fields of four bits -/

private theorem getLsbD_fifteen (i : Nat) : (0xF#32).getLsbD i = decide (i < 4) := by
  rcases Nat.lt_or_ge i 4 with h | h
  · have : i = 0 ∨ i = 1 ∨ i = 2 ∨ i = 3 := by omega
    rcases this with rfl | rfl | rfl | rfl <;> rfl
  · rw [show (0xF#32) = BitVec.ofNat 32 (2 ^ 4 - 1) by rfl, getLsbD_ofNat,
      Nat.testBit_two_pow_sub_one]
    simp [show ¬ i < 4 by omega]

private theorem getLsbD_nibbleGet (m : Words) (j t : Nat) :
    (nibbleGet m j).getLsbD t = (decide (t < 4) && (m (j * 4 / 32)).getLsbD (j * 4 % 32 + t)) := by
  unfold nibbleGet
  rw [getLsbD_and, getLsbD_fifteen, getLsbD_ushiftRight, Bool.and_comm]

/-- The bits of a word after a field store at offset `o`. -/
private theorem getLsbD_fieldStore (w v : BitVec 32) (o s : Nat) (hv : v.toNat < 16) (hs : s < 32) :
    ((w &&& ~~~(0xF#32 <<< o)) ||| (v <<< o)).getLsbD s =
      if o ≤ s ∧ s < o + 4 then v.getLsbD (s - o) else w.getLsbD s := by
  have hbig : ∀ t, 4 ≤ t → v.getLsbD t = false := by
    intro t ht
    apply testBit_lt_two_pow
    calc v.toNat < 2 ^ 4 := hv
      _ ≤ 2 ^ t := Nat.pow_le_pow_right (by omega) ht
  simp only [getLsbD_or, getLsbD_and, getLsbD_not, getLsbD_shiftLeft,
    getLsbD_fifteen, hs, decide_true, Bool.true_and]
  by_cases hlow : s < o
  · rw [if_neg (by omega)]
    simp [hlow]
  · by_cases hfield : s < o + 4
    · rw [if_pos ⟨by omega, hfield⟩]
      simp [hlow, show s - o < 4 by omega]
    · rw [if_neg (by omega), hbig (s - o) (by omega)]
      simp [show ¬ s - o < 4 by omega]

/-- A 4-bit field reads back what was stored, and every other field is unchanged. -/
@[simp] theorem nibbleGet_nibbleSet (m : Words) (i j : Nat) (v : BitVec 32) (hv : v.toNat < 16) :
    nibbleGet (nibbleSet m i v) j = if j = i then v else nibbleGet m j := by
  apply eq_of_getLsbD_eq
  intro t ht
  rw [getLsbD_nibbleGet]
  by_cases h4 : t < 4
  · have hs : j * 4 % 32 + t < 32 := by omega
    by_cases hw : j * 4 / 32 = i * 4 / 32
    · simp only [nibbleSet, hw, if_true, getLsbD_fieldStore _ _ _ _ hv hs]
      by_cases h : j = i
      · subst h
        simp [h4]
      · -- different fields of one word: the offsets are at least four bits apart
        rw [if_neg (by omega), if_neg h, getLsbD_nibbleGet, hw]
    · simp only [nibbleSet, hw, if_false]
      rw [if_neg (fun h => hw (by rw [h])), getLsbD_nibbleGet]
  · by_cases h : j = i
    · have hzero : v.getLsbD t = false := by
        apply testBit_lt_two_pow
        calc v.toNat < 2 ^ 4 := hv
          _ ≤ 2 ^ t := Nat.pow_le_pow_right (by omega) (by omega)
      simp [h4, h, hzero]
    · rw [if_neg h, getLsbD_nibbleGet]
      simp [h4]

end Stos
