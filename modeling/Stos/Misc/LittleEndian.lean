import Stos.Misc.Bytes

/-!
# Numbers and sequences of bytes in memory

Little-endian numbers of any number of bytes, and the bytes from an address on as a list. A number
that was stored is read back, and stores and loads of other bytes do not matter.
-/

namespace Stos

variable {m m' : Mem} {a b n k v : Nat}

/-- The little-endian number of `n` bytes at `a`. -/
def readLE (m : Mem) (a : Nat) : Nat → Nat
  | 0 => 0
  | n + 1 => (m a).toNat + 256 * readLE m (a + 1) n

/-- The store of the lowest `n` bytes of a number. -/
def writeLE (m : Mem) (a n v : Nat) : Mem := fun b =>
  if a ≤ b ∧ b < a + n then BitVec.ofNat 8 (v / 256 ^ (b - a)) else m b

/-- The bytes from an address on. -/
def takeBytes (m : Mem) (a n : Nat) : List (BitVec 8) := (List.range n).map fun j => m (a + j)

/-- The bytes of a list as the memory that a pointer points to. -/
def listMem (bytes : List (BitVec 8)) : Mem := fun j => bytes.getD j 0

/-! ## Numbers -/

theorem readLE_lt (m : Mem) (a n : Nat) : readLE m a n < 256 ^ n := by
  induction n generalizing a with
  | zero => simp [readLE]
  | succ n ih =>
    have hrest := ih (a + 1)
    rw [readLE, pow_succ]
    omega

theorem readLE_congr (same : ∀ b, a ≤ b → b < a + n → m' b = m b) : readLE m' a n = readLE m a n := by
  induction n generalizing a with
  | zero => rfl
  | succ n ih =>
    rw [readLE, readLE, same a (by omega) (by omega), ih fun b hlo hhi => same b (by omega) (by omega)]

theorem writeLE_of_outside (outside : b < a ∨ a + n ≤ b) : writeLE m a n v b = m b := by
  rw [writeLE, if_neg (by omega)]

/-- The number whose lowest bytes are in memory. -/
theorem readLE_eq_mod (bytes : ∀ j < n, m (a + j) = BitVec.ofNat 8 (v / 256 ^ j)) :
    readLE m a n = v % 256 ^ n := by
  induction n generalizing a v with
  | zero => rw [readLE, Nat.pow_zero, Nat.mod_one]
  | succ n ih =>
    have hfirst : (m a).toNat = v % 256 := by
      have := bytes 0 (by omega)
      rw [Nat.add_zero, Nat.pow_zero, Nat.div_one] at this
      rw [this, BitVec.toNat_ofNat]
    have hrest : readLE m (a + 1) n = v / 256 % 256 ^ n := by
      refine ih fun j hj => ?_
      rw [show a + 1 + j = a + (j + 1) by omega, bytes (j + 1) (by omega), pow_succ,
        Nat.mul_comm, Nat.div_div_eq_div_mul]
    rw [readLE, hfirst, hrest, Nat.pow_succ, Nat.mul_comm (256 ^ n), Nat.mod_mul]

/-- The number whose bytes are in memory. -/
theorem readLE_eq (hv : v < 256 ^ n) (bytes : ∀ j < n, m (a + j) = BitVec.ofNat 8 (v / 256 ^ j)) :
    readLE m a n = v := (readLE_eq_mod bytes).trans (Nat.mod_eq_of_lt hv)

theorem readLE_writeLE (m : Mem) (a : Nat) (hv : v < 256 ^ n) : readLE (writeLE m a n v) a n = v := by
  refine readLE_eq hv fun j hj => ?_
  rw [writeLE, if_pos (by omega), Nat.add_sub_cancel_left]

theorem readLE_writeLE_of_disjoint (disjoint : b + k ≤ a ∨ a + n ≤ b) :
    readLE (writeLE m a n v) b k = readLE m b k :=
  readLE_congr fun _ _ _ => writeLE_of_outside (by omega)

/-! ## Sequences of bytes -/

@[simp] theorem takeBytes_length (m : Mem) (a n : Nat) : (takeBytes m a n).length = n := by
  simp [takeBytes]

theorem takeBytes_getElem? (hk : k < n) : (takeBytes m a n)[k]? = some (m (a + k)) := by
  simp [takeBytes, hk]

theorem takeBytes_congr (same : ∀ b, a ≤ b → b < a + n → m' b = m b) :
    takeBytes m' a n = takeBytes m a n := by
  refine List.map_congr_left fun j hj => ?_
  have := List.mem_range.mp hj
  exact same (a + j) (by omega) (by omega)

end Stos
