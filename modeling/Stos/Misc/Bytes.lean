import Mathlib

/-!
# Little-endian byte memory

A byte-addressed memory and the four accesses compiled C code makes to it: 32-bit loads
and stores (little-endian), `memcpy` between disjoint ranges and `memset`. The lemmas say
which bytes an access reads and which it leaves alone; clients never unfold the accesses.
-/

namespace Stos

open List

/-- A byte-addressed memory. -/
abbrev Mem := Nat → BitVec 8

/-- The little-endian 32-bit load. -/
def read32 (m : Mem) (a : Nat) : BitVec 32 :=
  (m (a + 3) ++ m (a + 2) ++ m (a + 1) ++ m a : BitVec 32)

/-- The little-endian 32-bit store. -/
def write32 (m : Mem) (a : Nat) (v : BitVec 32) : Mem := fun b =>
  if b = a then v.extractLsb' 0 8
  else if b = a + 1 then v.extractLsb' 8 8
  else if b = a + 2 then v.extractLsb' 16 8
  else if b = a + 3 then v.extractLsb' 24 8
  else m b

/-- The byte store. -/
def write8 (m : Mem) (a : Nat) (v : BitVec 8) : Mem := fun b => if b = a then v else m b

/-- `memcpy (dst, src, n)` of ranges that do not overlap. -/
def copyBytes (m : Mem) (dst src n : Nat) : Mem := fun b =>
  if dst ≤ b ∧ b < dst + n then m (src + (b - dst)) else m b

/-- `memset (dst, v, n)`. -/
def fillBytes (m : Mem) (dst : Nat) (v : BitVec 8) (n : Nat) : Mem := fun b =>
  if dst ≤ b ∧ b < dst + n then v else m b

/-- `memcpy (dst, bytes, n)` from a source outside this memory. -/
def writeBytes (m : Mem) (dst : Nat) (bytes : Nat → BitVec 8) (n : Nat) : Mem := fun b =>
  if dst ≤ b ∧ b < dst + n then bytes (b - dst) else m b

/-- A string without its terminating zero. -/
abbrev CString := List (BitVec 8)

/-- The bytes of a word, lowest first. -/
def wordBytes (v : BitVec 32) : List (BitVec 8) :=
  [v.extractLsb' 0 8, v.extractLsb' 8 8, v.extractLsb' 16 8, v.extractLsb' 24 8]

/-- The bytes of a sequence of words. -/
def wordsBytes (ws : List (BitVec 32)) : List (BitVec 8) := ws.flatMap wordBytes

/-- Storing a sequence of bytes at `a`, at addresses that wrap around after 32 bits. -/
def storeBytes (m : Mem) (a : Nat) (bytes : List (BitVec 8)) : Mem := fun b =>
  (bytes[(b + 2 ^ 32 - a) % 2 ^ 32]?).getD (m b)

/-- The little-endian load at addresses that wrap around after 32 bits. -/
def loadWord (m : Mem) (a : Nat) : BitVec 32 := read32 (fun b => m (b % 2 ^ 32)) a

/-- A sequence of bytes is in memory from `a` on. -/
def BytesInMemory (m : Mem) : Nat → List (BitVec 8) → Prop
  | _, [] => True
  | a, x :: xs => m a = x ∧ BytesInMemory m (a + 1) xs

/-- The string of bytes up to a zero, at most `n` of them. -/
def readString (m : Mem) : Nat → Nat → List (BitVec 8)
  | 0, _ => []
  | n + 1, a => if m a = 0 then [] else m a :: readString m n (a + 1)

/-- The words up to a zero, at most `n` of them. -/
def readWords (m : Mem) : Nat → Nat → List (BitVec 32)
  | 0, _ => []
  | n + 1, a => if loadWord m a = 0 then [] else loadWord m a :: readWords m n (a + 4)

variable {m m' : Mem} {a b dst src n i j k : Nat} {v : BitVec 32} {bytes : List (BitVec 8)}
  {ws : List (BitVec 32)}

theorem read32_congr (same : ∀ b, a ≤ b → b < a + 4 → m' b = m b) : read32 m' a = read32 m a := by
  unfold read32
  rw [same a (by omega) (by omega), same (a + 1) (by omega) (by omega),
    same (a + 2) (by omega) (by omega), same (a + 3) (by omega) (by omega)]

theorem write32_of_outside (outside : b < a ∨ a + 4 ≤ b) : write32 m a v b = m b := by
  unfold write32
  rw [if_neg (by omega), if_neg (by omega), if_neg (by omega), if_neg (by omega)]

theorem write32_byte (m : Mem) (a : Nat) (v : BitVec 32) (hj : j < 4) :
    write32 m a v (a + j) = v.extractLsb' (8 * j) 8 := by
  match j, hj with
  | 0, _ | 1, _ | 2, _ | 3, _ => simp [write32]

/-- A word is read if its bytes are there. -/
theorem read32_eq (bytes : ∀ j < 4, m (a + j) = v.extractLsb' (8 * j) 8) : read32 m a = v := by
  have h0 : m a = v.extractLsb' 0 8 := bytes 0 (by decide)
  rw [read32, bytes 3 (by decide), bytes 2 (by decide), bytes 1 (by decide), h0,
    BitVec.extractLsb'_append_extractLsb'_eq_extractLsb' (show 8 * 3 = 8 * 2 + 8 from rfl),
    BitVec.extractLsb'_append_extractLsb'_eq_extractLsb' (show 8 * 2 = 8 * 1 + 8 from rfl),
    BitVec.extractLsb'_append_extractLsb'_eq_extractLsb' (show 8 * 1 = 0 + 8 from rfl)]
  exact BitVec.extractLsb'_eq_self

@[simp] theorem read32_write32 (m : Mem) (a : Nat) (v : BitVec 32) :
    read32 (write32 m a v) a = v := read32_eq fun _ hj => write32_byte m a v hj

/-- The bytes of a loaded word. -/
theorem read32_byte (m : Mem) (a : Nat) (hj : j < 4) :
    (read32 m a).extractLsb' (8 * j) 8 = m (a + j) := by
  apply BitVec.eq_of_getLsbD_eq
  intro i hi
  simp only [read32, BitVec.getLsbD_extractLsb', BitVec.getLsbD_append, hi, decide_true, Bool.true_and]
  match j, hj with
  | 0, _ => rw [if_pos (by omega), Nat.mul_zero, Nat.zero_add, Nat.add_zero]
  | 1, _ => rw [if_neg (by omega), if_pos (by omega), show 8 * 1 + i - 8 = i by omega]
  | 2, _ =>
    rw [if_neg (by omega), if_neg (by omega), if_pos (by omega), show 8 * 2 + i - 8 - 8 = i by omega]
  | 3, _ =>
    rw [if_neg (by omega), if_neg (by omega), if_neg (by omega),
      show 8 * 3 + i - 8 - 8 - 8 = i by omega]

theorem read32_write32_of_disjoint (disjoint : b + 4 ≤ a ∨ a + 4 ≤ b) :
    read32 (write32 m a v) b = read32 m b :=
  read32_congr fun c _ _ => write32_of_outside (by omega)

theorem copyBytes_of_outside (outside : b < dst ∨ dst + n ≤ b) :
    copyBytes m dst src n b = m b := by
  unfold copyBytes
  rw [if_neg (by omega)]

theorem copyBytes_of_inside (inside : i < n) :
    copyBytes m dst src n (dst + i) = m (src + i) := by
  unfold copyBytes
  rw [if_pos (by omega), show dst + i - dst = i by omega]

/-- Storing a byte that was loaded copies one byte. -/
theorem write8_eq_copyBytes (m : Mem) (dst src : Nat) : write8 m dst (m src) = copyBytes m dst src 1 := by
  funext b
  by_cases hb : b = dst
  · subst hb
    rw [write8, if_pos rfl]
    exact (copyBytes_of_inside (i := 0) (by omega)).symm
  · rw [write8, if_neg hb, copyBytes_of_outside (by omega)]

/-- Storing a word that was loaded copies four bytes, also between ranges that overlap. -/
theorem write32_eq_copyBytes (m : Mem) (dst src : Nat) :
    write32 m dst (read32 m src) = copyBytes m dst src 4 := by
  funext b
  by_cases hb : b < dst ∨ dst + 4 ≤ b
  · rw [write32_of_outside hb, copyBytes_of_outside hb]
  · obtain ⟨j, rfl⟩ := Nat.exists_eq_add_of_le (show dst ≤ b by omega)
    rw [copyBytes_of_inside (by omega), write32_byte _ _ _ (by omega), read32_byte _ _ (by omega)]

/-- A copy to lower addresses can go on upwards. -/
theorem copyBytes_up (m : Mem) (k n : Nat) (h : dst ≤ src) :
    copyBytes (copyBytes m dst src k) (dst + k) (src + k) n = copyBytes m dst src (k + n) := by
  funext b
  by_cases hb : b < dst + k ∨ dst + k + n ≤ b
  · rw [copyBytes_of_outside hb]
    by_cases hlow : dst ≤ b ∧ b < dst + k
    · obtain ⟨j, rfl⟩ := Nat.exists_eq_add_of_le hlow.1
      rw [copyBytes_of_inside (by omega), copyBytes_of_inside (by omega)]
    · rw [copyBytes_of_outside (by omega), copyBytes_of_outside (by omega)]
  · obtain ⟨j, rfl⟩ := Nat.exists_eq_add_of_le (show dst + k ≤ b by omega)
    rw [copyBytes_of_inside (by omega), copyBytes_of_outside (by omega), Nat.add_assoc, Nat.add_assoc,
      copyBytes_of_inside (by omega)]

/-- A copy to higher addresses can go on downwards. -/
theorem copyBytes_down (m : Mem) (k n : Nat) (h : src ≤ dst) :
    copyBytes (copyBytes m (dst + n) (src + n) k) dst src n = copyBytes m dst src (n + k) := by
  funext b
  by_cases hb : b < dst ∨ dst + n ≤ b
  · rw [copyBytes_of_outside hb]
    by_cases hhigh : dst + n ≤ b ∧ b < dst + n + k
    · obtain ⟨j, rfl⟩ := Nat.exists_eq_add_of_le hhigh.1
      rw [copyBytes_of_inside (by omega), Nat.add_assoc, Nat.add_assoc, copyBytes_of_inside (by omega)]
    · rw [copyBytes_of_outside (by omega), copyBytes_of_outside (by omega)]
  · obtain ⟨j, rfl⟩ := Nat.exists_eq_add_of_le (show dst ≤ b by omega)
    rw [copyBytes_of_inside (by omega), copyBytes_of_outside (by omega), copyBytes_of_inside (by omega)]

theorem fillBytes_of_outside {v : BitVec 8}
    (outside : b < dst ∨ dst + n ≤ b) : fillBytes m dst v n b = m b := by
  unfold fillBytes
  rw [if_neg (by omega)]

theorem writeBytes_of_outside {bytes : Nat → BitVec 8}
    (outside : b < dst ∨ dst + n ≤ b) : writeBytes m dst bytes n b = m b := by
  unfold writeBytes
  rw [if_neg (by omega)]

theorem read32_fillBytes_zero (low : dst ≤ a) (high : a + 4 ≤ dst + n) :
    read32 (fillBytes m dst 0 n) a = 0 := by
  unfold read32 fillBytes
  rw [if_pos (by omega), if_pos (by omega), if_pos (by omega), if_pos (by omega)]
  decide

/-! ## Sequences of bytes -/

theorem wordsBytes_append (ws vs : List (BitVec 32)) :
    wordsBytes (ws ++ vs) = wordsBytes ws ++ wordsBytes vs := flatMap_append

@[simp] theorem wordsBytes_length (ws : List (BitVec 32)) :
    (wordsBytes ws).length = 4 * ws.length := by
  induction ws with
  | nil => rfl
  | cons v ws ih =>
    rw [wordsBytes, flatMap_cons, length_append, length_cons]
    rw [wordsBytes] at ih
    rw [ih, wordBytes]
    simp only [length_cons, length_nil]
    omega

/-- Byte `j` of word `k`. -/
theorem wordsBytes_getElem? (ws : List (BitVec 32)) (k : Nat) (hj : j < 4) :
    (wordsBytes ws)[4 * k + j]? = (ws[k]?).map fun v => v.extractLsb' (8 * j) 8 := by
  induction ws generalizing k with
  | nil => simp [wordsBytes]
  | cons v ws ih =>
    rw [wordsBytes, flatMap_cons]
    cases k with
    | zero =>
      match j, hj with
      | 0, _ | 1, _ | 2, _ | 3, _ => rfl
    | succ k =>
      rw [getElem?_append_right (by simp [wordBytes]; omega), getElem?_cons_succ, ← ih k,
        wordsBytes]
      congr 1
      simp only [wordBytes, length_cons, length_nil]
      omega

theorem storeBytes_of_inside {v : BitVec 8} (fits : a + i < 2 ^ 32) (inside : bytes[i]? = some v) :
    storeBytes m a bytes (a + i) = v := by
  unfold storeBytes
  rw [show a + i + 2 ^ 32 - a = i + 2 ^ 32 by omega, Nat.add_mod_right,
    Nat.mod_eq_of_lt (by omega), inside, Option.getD_some]

theorem storeBytes_of_outside (hb : b < 2 ^ 32) (fits : a + bytes.length ≤ 2 ^ 32)
    (outside : b < a ∨ a + bytes.length ≤ b) : storeBytes m a bytes b = m b := by
  have hlen : bytes.length ≤ (b + 2 ^ 32 - a) % 2 ^ 32 := by
    rcases outside with h | h
    · omega
    · omega
  unfold storeBytes
  rw [getElem?_eq_none hlen, Option.getD_none]

theorem loadWord_congr (fits : a + 4 ≤ 2 ^ 32)
    (same : ∀ b, a ≤ b → b < a + 4 → m' b = m b) : loadWord m' a = loadWord m a := by
  refine read32_congr fun b hlo hhi => ?_
  rw [Nat.mod_eq_of_lt (by omega)]
  exact same b hlo hhi

/-- A word of a sequence that has been stored is read back. -/
theorem loadWord_storeBytes {rest : List (BitVec 8)} (hk : ws[k]? = some v)
    (fits : a + 4 * ws.length ≤ 2 ^ 32) :
    loadWord (storeBytes m a (wordsBytes ws ++ rest)) (a + 4 * k) = v := by
  have hlen : k < ws.length := (List.getElem?_eq_some_iff.mp hk).1
  have hbyte : ∀ j < 4, storeBytes m a (wordsBytes ws ++ rest) ((a + 4 * k + j) % 2 ^ 32) =
      v.extractLsb' (8 * j) 8 := by
    intro j hj
    rw [Nat.mod_eq_of_lt (by omega), Nat.add_assoc]
    refine storeBytes_of_inside (by omega) ?_
    rw [getElem?_append_left (by rw [wordsBytes_length]; omega), wordsBytes_getElem? ws k hj, hk]
    rfl
  exact read32_eq hbyte

namespace BytesInMemory

variable {xs ys : List (BitVec 8)}

theorem append_iff : BytesInMemory m a (xs ++ ys) ↔
    BytesInMemory m a xs ∧ BytesInMemory m (a + xs.length) ys := by
  induction xs generalizing a with
  | nil => simp [BytesInMemory]
  | cons x xs ih =>
    simp only [cons_append, BytesInMemory, length_cons]
    rw [ih, and_assoc, Nat.add_assoc, Nat.add_comm 1]

theorem congr (h : BytesInMemory m a xs) (same : ∀ b, a ≤ b → b < a + xs.length → m' b = m b) :
    BytesInMemory m' a xs := by
  induction xs generalizing a with
  | nil => trivial
  | cons x xs ih =>
    rw [length_cons] at same
    exact ⟨(same a (by omega) (by omega)).trans h.1,
      ih h.2 fun b hlo hhi => same b (by omega) (by omega)⟩

theorem of_getElem? (h : ∀ j v, xs[j]? = some v → m (a + j) = v) : BytesInMemory m a xs := by
  induction xs generalizing a with
  | nil => trivial
  | cons x xs ih =>
    refine ⟨h 0 x rfl, ih fun j v hv => ?_⟩
    rw [Nat.add_assoc, Nat.add_comm 1]
    exact h (j + 1) v hv

theorem storeBytes (m : Mem) (fits : a + xs.length ≤ 2 ^ 32) :
    BytesInMemory (storeBytes m a xs) a xs := by
  refine of_getElem? fun j v hv => storeBytes_of_inside ?_ hv
  have := (List.getElem?_eq_some_iff.mp hv).1
  omega

/-- The string is read back. -/
theorem readString_eq (h : BytesInMemory m a (xs ++ [0])) (nonzero : ∀ x ∈ xs, x ≠ 0)
    (hn : xs.length < n) : readString m n a = xs := by
  induction xs generalizing a n with
  | nil =>
    obtain ⟨n, rfl⟩ := Nat.exists_eq_add_of_lt hn
    rw [readString, if_pos h.1]
  | cons x xs ih =>
    rw [length_cons] at hn
    obtain ⟨n, rfl⟩ : ∃ k, n = k + 1 := ⟨n - 1, by omega⟩
    have hx : m a = x := h.1
    rw [readString, hx, if_neg (nonzero x mem_cons_self),
      ih h.2 (fun y hy => nonzero y (mem_cons_of_mem x hy)) (by omega)]

/-- The first word of a sequence. -/
theorem loadWord_eq (h : BytesInMemory m a (wordBytes v)) (fits : a + 4 ≤ 2 ^ 32) :
    loadWord m a = v := by
  obtain ⟨h0, h1, h2, h3, -⟩ := h
  refine read32_eq fun j hj => ?_
  rw [Nat.mod_eq_of_lt (by omega)]
  match j, hj with
  | 0, _ => exact h0
  | 1, _ => exact h1
  | 2, _ => exact h2
  | 3, _ => exact h3

/-- The words are read back. -/
theorem readWords_eq (h : BytesInMemory m a (wordsBytes (ws ++ [0])))
    (fits : a + 4 * (ws.length + 1) ≤ 2 ^ 32) (nonzero : ∀ w ∈ ws, w ≠ 0) (hn : ws.length < n) :
    readWords m n a = ws := by
  induction ws generalizing a n with
  | nil =>
    obtain ⟨n, rfl⟩ := Nat.exists_eq_add_of_lt hn
    have h0 : BytesInMemory m a (wordBytes 0) := h
    rw [readWords, loadWord_eq h0 (by simpa using fits), if_pos rfl]
  | cons w ws ih =>
    rw [length_cons] at hn fits
    obtain ⟨n, rfl⟩ : ∃ k, n = k + 1 := ⟨n - 1, by omega⟩
    rw [cons_append, wordsBytes, flatMap_cons, append_iff] at h
    have hrest : BytesInMemory m (a + 4) (wordsBytes (ws ++ [0])) := h.2
    rw [readWords, loadWord_eq h.1 (by omega), if_neg (nonzero w mem_cons_self),
      ih hrest (by omega) (fun y hy => nonzero y (mem_cons_of_mem w hy)) (by omega)]

end BytesInMemory

end Stos
