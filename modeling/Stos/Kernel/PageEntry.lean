import Stos.Misc.Bytes

/-!
# Page table and page directory entries

The bit fields of `arch/i386/paging/paging.h:70-125`. Directory and table entries have the
same layout; bits 6 to 8 (`reserved`, `page_size` and `ignored` in a directory entry) carry
the names they have in a table entry.
-/

namespace Stos.Kernel

open BitVec

/-- `page_table_entry_t` and `page_directory_entry_t`. -/
structure PageEntry where
  present : Bool
  rw : Bool
  user : Bool
  pwt : Bool
  pcd : Bool
  accessed : Bool
  dirty : Bool
  pat : Bool
  global : Bool
  available : BitVec 3
  frame : BitVec 20
  deriving DecidableEq, Repr

namespace PageEntry

/-- A one-bit field at bit `i` of the word. -/
def bit (b : Bool) (i : Nat) : BitVec 32 := (BitVec.ofBool b).setWidth 32 <<< i

/-- The entry as the 32-bit word in memory. -/
def encode (e : PageEntry) : BitVec 32 :=
  bit e.present 0 ||| bit e.rw 1 ||| bit e.user 2 ||| bit e.pwt 3 ||| bit e.pcd 4 |||
    bit e.accessed 5 ||| bit e.dirty 6 ||| bit e.pat 7 ||| bit e.global 8 |||
    e.available.setWidth 32 <<< 9 ||| e.frame.setWidth 32 <<< 12

/-- The fields of a 32-bit word. -/
def decode (w : BitVec 32) : PageEntry where
  present := w.getLsbD 0
  rw := w.getLsbD 1
  user := w.getLsbD 2
  pwt := w.getLsbD 3
  pcd := w.getLsbD 4
  accessed := w.getLsbD 5
  dirty := w.getLsbD 6
  pat := w.getLsbD 7
  global := w.getLsbD 8
  available := w.extractLsb' 9 3
  frame := w.extractLsb' 12 20

/-- The copy-on-write mark, `available & 1`. -/
def cow (e : PageEntry) : Bool := e.available.getLsbD 0

theorem getLsbD_bit (b : Bool) (i j : Nat) (hj : j < 32) :
    (bit b i).getLsbD j = (decide (i = j) && b) := by
  unfold bit
  by_cases h : i = j
  · subst h
    simp [hj]
  · by_cases hlt : j < i
    · simp [hlt, h]
    · simp [h, show j - i ≠ 0 by omega]

theorem getLsbD_encode (e : PageEntry) (j : Nat) (hj : j < 32) :
    e.encode.getLsbD j =
      (decide (0 = j) && e.present || decide (1 = j) && e.rw || decide (2 = j) && e.user ||
        decide (3 = j) && e.pwt || decide (4 = j) && e.pcd || decide (5 = j) && e.accessed ||
        decide (6 = j) && e.dirty || decide (7 = j) && e.pat || decide (8 = j) && e.global ||
        decide (9 ≤ j) && e.available.getLsbD (j - 9) ||
        decide (12 ≤ j) && e.frame.getLsbD (j - 12)) := by
  have hge : ∀ i, (!decide (j < i)) = decide (i ≤ j) := fun i => by
    rw [← decide_not]
    exact decide_eq_decide.mpr Nat.not_lt
  have hlow : ∀ i, decide (j - i < 32) = true := fun i => decide_eq_true (by omega)
  unfold encode
  simp only [getLsbD_or, getLsbD_bit _ _ j hj, getLsbD_shiftLeft,
    getLsbD_setWidth, hj, hlow, hge, decide_true, Bool.true_and]

theorem decode_encode (e : PageEntry) : decode e.encode = e := by
  have hframe : e.encode.extractLsb' 12 20 = e.frame := by
    apply eq_of_getLsbD_eq
    intro i hi
    have hne : ∀ k < 12, decide (k = 12 + i) = false := fun k hk => decide_eq_false (by omega)
    rw [getLsbD_extractLsb', getLsbD_encode e _ (by omega),
      getLsbD_of_ge e.available _ (by omega), Nat.add_sub_cancel_left]
    simp only [hi, decide_true, Bool.true_and, hne, Nat.reduceLT, Bool.false_and, Bool.and_false,
      Bool.false_or, Nat.le_add_right]
  have havailable : e.encode.extractLsb' 9 3 = e.available := by
    apply eq_of_getLsbD_eq
    intro i hi
    have hne : ∀ k < 9, decide (k = 9 + i) = false := fun k hk => decide_eq_false (by omega)
    have hhigh : decide (12 ≤ 9 + i) = false := decide_eq_false (by omega)
    rw [getLsbD_extractLsb', getLsbD_encode e _ (by omega), Nat.add_sub_cancel_left]
    simp only [hi, decide_true, Bool.true_and, hne, hhigh, Nat.reduceLT, Bool.false_and,
      Bool.false_or, Bool.or_false, Nat.le_add_right]
  unfold decode
  rw [hframe, havailable, getLsbD_encode e 0 (by decide), getLsbD_encode e 1 (by decide),
    getLsbD_encode e 2 (by decide), getLsbD_encode e 3 (by decide), getLsbD_encode e 4 (by decide),
    getLsbD_encode e 5 (by decide), getLsbD_encode e 6 (by decide), getLsbD_encode e 7 (by decide),
    getLsbD_encode e 8 (by decide)]
  simp

end PageEntry

/-- Entry `i` of the table or directory at address `base`. -/
def readEntry (m : Mem) (base i : Nat) : PageEntry := .decode (read32 m (base + 4 * i))

/-- Storing entry `i` of the table or directory at address `base`. -/
def writeEntry (m : Mem) (base i : Nat) (e : PageEntry) : Mem := write32 m (base + 4 * i) e.encode

end Stos.Kernel
