import Stos.Libc.String

/-!
# `memmove` copies a snapshot

Going upwards, the bytes below the two pointers are copied and no byte of the source above its
pointer was touched, since the destination lies below the source; going downwards it is the other
way round. A word store hits only bytes of the source that this word load, or an earlier load, has
read already, so an overlap shorter than a word does no harm.
-/

namespace Stos.Libc

open Move

variable {m : Mem} {a : Nat}

theorem loadWord_eq_read32 (fits : a + 4 ≤ 2 ^ 32) : loadWord m a = read32 m a :=
  read32_congr fun b _ _ => by rw [Nat.mod_eq_of_lt (show b < 2 ^ 32 by omega)]

namespace Move

variable {s : Move}

/-- What each byte step and each word step keeps holds at the end, with no byte left. -/
theorem run_inv (byte word : Move → Move) {I : Move → Prop} (start : I s)
    (hbyte : ∀ s, I s → 0 < s.size → I (byte s) ∧ (byte s).size = s.size - 1)
    (hword : ∀ s, I s → 4 ≤ s.size → I (word s) ∧ (word s).size = s.size - 4) :
    I (run byte word s) ∧ (run byte word s).size = 0 := by
  have head := whileLoop_inv (c := fun s => 0 < s.size && s.dst % 4 != 0) (v := size) start
    (Nat.le_refl _) fun s hs on => by
      simp only [Bool.and_eq_true, decide_eq_true_eq] at on
      obtain ⟨next, less⟩ := hbyte s hs on.1
      exact ⟨next, by omega⟩
  have body := whileLoop_inv (c := fun s => 4 ≤ s.size) (v := size) head.1
    (Nat.le_refl _) fun s hs on => by
      simp only [decide_eq_true_eq] at on
      obtain ⟨next, less⟩ := hword s hs on
      exact ⟨next, by omega⟩
  have tail := whileLoop_inv (c := fun s => s.size != 0) (v := size) body.1
    (Nat.le_refl _) fun s hs on => by
      simp only [bne_iff_ne] at on
      obtain ⟨next, less⟩ := hbyte s hs (by omega)
      exact ⟨next, by omega⟩
  refine ⟨tail.1, ?_⟩
  have off := tail.2
  simp only [bne_eq_false_iff_eq] at off
  exact off

/-- A step upwards that copies `w` bytes at once. -/
def up (w : Nat) (s : Move) : Move where
  mem := copyBytes s.mem s.dst s.src w
  dst := (s.dst + w) % 2 ^ 32
  src := (s.src + w) % 2 ^ 32
  size := s.size - w

/-- A step downwards that copies `w` bytes at once. -/
def down (w : Nat) (s : Move) : Move :=
  let dst := (s.dst + 2 ^ 32 - w) % 2 ^ 32
  let src := (s.src + 2 ^ 32 - w) % 2 ^ 32
  { mem := copyBytes s.mem dst src w, dst, src, size := s.size - w }

theorem byteUp_eq (s : Move) : s.byteUp = up 1 s := by
  rw [byteUp, up, write8_eq_copyBytes]

theorem wordUp_eq (fits : s.src + 4 ≤ 2 ^ 32) : s.wordUp = up 4 s := by
  rw [wordUp, up, loadWord_eq_read32 fits, write32_eq_copyBytes]

theorem byteDown_eq (s : Move) : s.byteDown = down 1 s := by
  simp only [byteDown, down, write8_eq_copyBytes]

theorem wordDown_eq (fits : (s.src + 2 ^ 32 - 4) % 2 ^ 32 + 4 ≤ 2 ^ 32) :
    s.wordDown = down 4 s := by
  simp only [wordDown, down, loadWord_eq_read32 fits, write32_eq_copyBytes]

/-- The bytes below the pointers are copied. -/
structure Up (m : Mem) (dst src size : Nat) (s : Move) : Prop where
  left : s.size ≤ size
  dst_eq : s.dst = (dst + (size - s.size)) % 2 ^ 32
  src_eq : s.src = (src + (size - s.size)) % 2 ^ 32
  mem_eq : s.mem = copyBytes m dst src (size - s.size)

/-- The bytes above the pointers are copied. -/
structure Down (m : Mem) (dst src size : Nat) (s : Move) : Prop where
  left : s.size ≤ size
  dst_eq : s.dst = (dst + s.size) % 2 ^ 32
  src_eq : s.src = (src + s.size) % 2 ^ 32
  mem_eq : s.mem = copyBytes m (dst + s.size) (src + s.size) (size - s.size)

variable {m : Mem} {dst src size w : Nat} {s : Move}

theorem Up.src_lt (h : Up m dst src size s) (fits : src + size ≤ 2 ^ 32) (pos : 0 < s.size) :
    s.src = src + (size - s.size) := by
  have := h.left
  rw [h.src_eq, Nat.mod_eq_of_lt (by omega)]

theorem Up.step (h : Up m dst src size s) (below : dst ≤ src) (fits : src + size ≤ 2 ^ 32)
    (pos : 0 < w) (hw : w ≤ s.size) : Up m dst src size (s.up w) := by
  have hleft := h.left
  have hsrc := h.src_lt fits (by omega)
  have hdst : s.dst = dst + (size - s.size) := by rw [h.dst_eq, Nat.mod_eq_of_lt (by omega)]
  have hsize : size - (s.size - w) = size - s.size + w := by omega
  constructor
  · show s.size - w ≤ size
    omega
  · show (s.dst + w) % 2 ^ 32 = (dst + (size - (s.size - w))) % 2 ^ 32
    rw [hsize, hdst, Nat.add_assoc]
  · show (s.src + w) % 2 ^ 32 = (src + (size - (s.size - w))) % 2 ^ 32
    rw [hsize, hsrc, Nat.add_assoc]
  · show copyBytes s.mem s.dst s.src w = copyBytes m dst src (size - (s.size - w))
    rw [hsize, hdst, hsrc, h.mem_eq, copyBytes_up m _ _ below]

/-- A pointer moved down inside a range that may end at the end of the address space. -/
theorem pred_mod {r k : Nat} (fits : a + r ≤ 2 ^ 32) (hk : k ≤ r) (pos : 0 < k) :
    ((a + r) % 2 ^ 32 + 2 ^ 32 - k) % 2 ^ 32 = a + (r - k) := by
  rcases Nat.lt_or_eq_of_le fits with hlt | heq
  · omega
  · omega

theorem Down.src_pred (h : Down m dst src size s) (fits : src + size ≤ 2 ^ 32) (pos : 0 < w)
    (hw : w ≤ s.size) : (s.src + 2 ^ 32 - w) % 2 ^ 32 = src + (s.size - w) := by
  have := h.left
  rw [h.src_eq, pred_mod (by omega) hw pos]

theorem Down.step (h : Down m dst src size s) (above : src ≤ dst) (fits : dst + size ≤ 2 ^ 32)
    (pos : 0 < w) (hw : w ≤ s.size) : Down m dst src size (s.down w) := by
  have hleft := h.left
  have hsrc := h.src_pred (by omega) pos hw
  have hdst : (s.dst + 2 ^ 32 - w) % 2 ^ 32 = dst + (s.size - w) := by
    rw [h.dst_eq, pred_mod (by omega) hw pos]
  constructor
  · show s.size - w ≤ size
    omega
  · show (s.dst + 2 ^ 32 - w) % 2 ^ 32 = (dst + (s.size - w)) % 2 ^ 32
    rw [hdst, Nat.mod_eq_of_lt (by omega)]
  · show (s.src + 2 ^ 32 - w) % 2 ^ 32 = (src + (s.size - w)) % 2 ^ 32
    rw [hsrc, Nat.mod_eq_of_lt (by omega)]
  · show copyBytes s.mem ((s.dst + 2 ^ 32 - w) % 2 ^ 32) ((s.src + 2 ^ 32 - w) % 2 ^ 32) w =
      copyBytes m (dst + (s.size - w)) (src + (s.size - w)) (size - (s.size - w))
    rw [hdst, hsrc, h.mem_eq, show dst + s.size = dst + (s.size - w) + w by omega,
      show src + s.size = src + (s.size - w) + w by omega, copyBytes_down m _ _ (by omega),
      show w + (size - s.size) = size - (s.size - w) by omega]

/-- The three loops upwards copy the whole range. -/
theorem run_up (below : dst ≤ src) (fits : src + size ≤ 2 ^ 32) :
    (run byteUp wordUp { mem := m, dst, src, size }).mem = copyBytes m dst src size := by
  rcases Nat.eq_zero_or_pos size with rfl | pos
  · -- no turn: the pointers need not be addresses
    funext b
    exact (copyBytes_of_outside (by omega)).symm
  have start : Up m dst src size { mem := m, dst, src, size } := by
    refine ⟨Nat.le_refl _, ?_, ?_, ?_⟩
    · exact (by omega : dst = (dst + (size - size)) % 2 ^ 32)
    · exact (by omega : src = (src + (size - size)) % 2 ^ 32)
    · funext b
      exact (copyBytes_of_outside (by dsimp only; omega)).symm
  obtain ⟨last, none_left⟩ := run_inv byteUp wordUp start
    (fun s hs some_ => by
      rw [byteUp_eq]
      exact ⟨hs.step below fits Nat.one_pos some_, rfl⟩)
    (fun s hs four => by
      have hleft := hs.left
      have hsrc := hs.src_lt fits (by omega)
      rw [wordUp_eq (by omega)]
      exact ⟨hs.step below fits (by omega) four, rfl⟩)
  rw [last.mem_eq, none_left, Nat.sub_zero]

/-- The three loops downwards copy the whole range. -/
theorem run_down (above : src ≤ dst) (fits : dst + size ≤ 2 ^ 32) :
    (run byteDown wordDown
      { mem := m, dst := (dst + size) % 2 ^ 32, src := (src + size) % 2 ^ 32, size }).mem =
      copyBytes m dst src size := by
  have start : Down m dst src size
      { mem := m, dst := (dst + size) % 2 ^ 32, src := (src + size) % 2 ^ 32, size } := by
    refine ⟨Nat.le_refl _, rfl, rfl, ?_⟩
    funext b
    exact (copyBytes_of_outside (by dsimp only; omega)).symm
  obtain ⟨last, none_left⟩ := run_inv byteDown wordDown start
    (fun s hs some_ => by
      rw [byteDown_eq]
      exact ⟨hs.step above fits Nat.one_pos some_, rfl⟩)
    (fun s hs four => by
      have hleft := hs.left
      have hsrc := hs.src_pred (w := 4) (by omega) (by omega) four
      rw [wordDown_eq (by omega)]
      exact ⟨hs.step above fits (by omega) four, rfl⟩)
  rw [last.mem_eq, none_left, Nat.sub_zero, Nat.add_zero, Nat.add_zero]

end Move

/-- `memmove` is the copy of a snapshot, wherever the two ranges lie. -/
theorem memmove_eq {dst src size : Nat} (fitsDst : dst + size ≤ 2 ^ 32)
    (fitsSrc : src + size ≤ 2 ^ 32) : memmove m dst src size = (copyBytes m dst src size, dst) := by
  simp only [memmove]
  by_cases below : dst < src
  · rw [if_pos below, run_up (Nat.le_of_lt below) fitsSrc]
  · rw [if_neg below, run_down (Nat.le_of_not_lt below) fitsDst]

/-- `memmove` leaves at the destination what the source range held before the call and changes no
other byte, for all ranges of the address space, whatever their overlap and alignment; it returns
the destination. -/
theorem memmove_moves (m : Mem) (dst src size : Nat) (fitsDst : dst + size ≤ 2 ^ 32)
    (fitsSrc : src + size ≤ 2 ^ 32) :
    (∀ i < size, (memmove m dst src size).1 (dst + i) = m (src + i)) ∧
      (∀ b, b < dst ∨ dst + size ≤ b → (memmove m dst src size).1 b = m b) ∧
      (memmove m dst src size).2 = dst := by
  rw [memmove_eq fitsDst fitsSrc]
  exact ⟨fun _ hi => copyBytes_of_inside hi, fun _ hb => copyBytes_of_outside hb, rfl⟩

/-- Ten bytes move up by two, to the last bytes of the address space. -/
theorem memmove_moves_overlap :
    (∀ i < 10, (memmove (BitVec.ofNat 8) (2 ^ 32 - 10) (2 ^ 32 - 12) 10).1 (2 ^ 32 - 10 + i) =
      BitVec.ofNat 8 (2 ^ 32 - 12 + i)) ∧
      (memmove (BitVec.ofNat 8) (2 ^ 32 - 10) (2 ^ 32 - 12) 10).2 = 2 ^ 32 - 10 :=
  have h := memmove_moves (BitVec.ofNat 8) (2 ^ 32 - 10) (2 ^ 32 - 12) 10 (by decide) (by decide)
  ⟨h.1, h.2.2⟩

end Stos.Libc
