import Stos.Libc.Malloc

/-!
# The heap of a user program: proofs

Each step of `malloc` and `free` replaces one or two neighbouring blocks by blocks with the same bytes, or
adds an area at the end. It stores only to the bytes of these blocks, so all others stay as they are.
-/

namespace Stos.Libc

open List Option UserHeap Nat Block HasHeader Laid

variable {m m' : Mem} {a c d e n v l fuel size : Nat} {b p : Block} {xs ys blocks : List Block}
  {s : UserHeap} {area : Option Mem}

/-! ## Headers -/

theorem setFlags_of_ne (f : BitVec 8) (h : v ≠ a) : setFlags m a f v = m v := by
  rw [setFlags, write8, if_neg h]

theorem setFlags_of_outside (f : BitVec 8) (h : v < a ∨ a + 12 ≤ v) : setFlags m a f v = m v :=
  setFlags_of_ne f (by omega)

theorem setLength_of_outside (l : Nat) (h : v < a ∨ a + 12 ≤ v) : setLength m a l v = m v :=
  writeLE_of_outside (by omega)

theorem setNext_of_outside (l : Nat) (h : v < a ∨ a + 12 ≤ v) : setNext m a l v = m v :=
  writeLE_of_outside (by omega)

namespace HasHeader

section

variable (h : HasHeader m b n)
include h

theorem congr (same : ∀ v, b.addr ≤ v → v < b.addr + 12 → m' v = m v) : HasHeader m' b n where
  present := by
    rw [← h.present, isPresent, isPresent, same b.addr le_rfl (by omega)]
  length := by
    rw [← h.length, lengthAt, lengthAt]
    exact readLE_congr fun v hlo hhi => same v (by omega) (by omega)
  next := by
    rw [← h.next, nextAt, nextAt]
    exact readLE_congr fun v hlo hhi => same v (by omega) (by omega)

theorem setFlags (f : BitVec 8) :
    HasHeader (setFlags m b.addr f) { b with present := f &&& 1 ≠ 0 } n where
  present := by
    simp [isPresent, Libc.setFlags, write8]
  length := by
    rw [← h.length, lengthAt, lengthAt]
    exact readLE_congr fun v hlo hhi => setFlags_of_ne f (by dsimp only at hlo; omega)
  next := by
    rw [← h.next, nextAt, nextAt]
    exact readLE_congr fun v hlo hhi => setFlags_of_ne f (by dsimp only at hlo; omega)

theorem setLength (hl : l < 2 ^ 32) : HasHeader (setLength m b.addr l) { b with length := l } n where
  present := by
    rw [← h.present, isPresent, isPresent, Libc.setLength, writeLE_of_outside (.inl (by simp))]
  length := readLE_writeLE m (b.addr + 4) (by simpa using hl)
  next := by
    rw [← h.next]
    exact readLE_writeLE_of_disjoint (.inr le_rfl)

theorem setNext (hl : l < 2 ^ 32) : HasHeader (setNext m b.addr l) b l where
  present := by
    rw [← h.present, isPresent, isPresent, Libc.setNext, writeLE_of_outside (by omega)]
  length := by
    rw [← h.length]
    exact readLE_writeLE_of_disjoint (by omega)
  next := readLE_writeLE m (b.addr + 8) (by simpa using hl)

end

/-- Any memory has some header at an address. -/
theorem exists_at (m : Mem) (a : Nat) : HasHeader m ⟨a, lengthAt m a, isPresent m a⟩ (nextAt m a) :=
  ⟨rfl, rfl, rfl⟩

/-- The header of a new free block. -/
theorem new (m : Mem) (a : Nat) (hl : l < 2 ^ 32) (hn : n < 2 ^ 32) :
    HasHeader (Libc.setNext (Libc.setLength (Libc.setFlags m a 0) a l) a n) ⟨a, l, false⟩ n := by
  have h := (((exists_at m a).setFlags 0).setLength hl).setNext hn
  simpa using h

end HasHeader

/-- The stores of a new header do not reach other bytes. -/
theorem newHeader_of_outside (h : v < a ∨ a + 12 ≤ v) :
    setNext (setLength (setFlags m a 0) a l) a n v = m v := by
  rw [setNext_of_outside _ h, setLength_of_outside _ h, setFlags_of_outside _ h]

/-! ## Laid blocks -/

theorem Block.stop_eq (b : Block) : b.stop = b.addr + 12 + b.length := rfl

theorem firstAddr_append (n : Nat) (xs ys : List Block) :
    firstAddr n (xs ++ ys) = firstAddr (firstAddr n ys) xs := by
  cases xs <;> rfl

theorem laid_cons :
    Laid m a e n (b :: xs) ↔ b.addr = a ∧ HasHeader m b (firstAddr n xs) ∧ Laid m b.stop e n xs :=
  Iff.rfl

theorem laid_append :
    Laid m a e n (xs ++ ys) ↔ ∃ c, Laid m a c (firstAddr n ys) xs ∧ Laid m c e n ys := by
  induction xs generalizing a with
  | nil =>
    constructor
    · intro h
      exact ⟨a, rfl, h⟩
    · rintro ⟨c, rfl, h⟩
      exact h
  | cons x xs ih =>
    rw [cons_append, laid_cons, firstAddr_append]
    constructor
    · rintro ⟨haddr, hheader, hrest⟩
      obtain ⟨c, hxs, hys⟩ := ih.mp hrest
      exact ⟨c, ⟨haddr, hheader, hxs⟩, hys⟩
    · rintro ⟨c, ⟨haddr, hheader, hxs⟩, hys⟩
      exact ⟨haddr, hheader, ih.mpr ⟨c, hxs, hys⟩⟩

/-- A block of the heap, with what is before and behind it. -/
theorem laid_middle :
    Laid m a e n (xs ++ b :: ys) ↔
      Laid m a b.addr b.addr xs ∧ HasHeader m b (firstAddr n ys) ∧ Laid m b.stop e n ys := by
  rw [laid_append]
  constructor
  · rintro ⟨c, hxs, rfl, hheader, hys⟩
    exact ⟨hxs, hheader, hys⟩
  · rintro ⟨hxs, hheader, hys⟩
    exact ⟨b.addr, hxs, rfl, hheader, hys⟩

namespace Laid

section

variable (h : Laid m a e n xs)

include h

theorem le : a + 12 * xs.length ≤ e := by
  induction xs generalizing a with
  | nil =>
    have : a = e := h
    simp [this]
  | cons x xs ih =>
    obtain ⟨rfl, -, hrest⟩ := h
    have := ih hrest
    rw [x.stop_eq] at this
    rw [length_cons]
    omega

/-- Blocks whose bytes stay the same. -/
theorem congr (same : ∀ v, a ≤ v → v < e → m' v = m v) : Laid m' a e n xs := by
  induction xs generalizing a with
  | nil => exact h
  | cons x xs ih =>
    obtain ⟨rfl, hheader, hrest⟩ := h
    have hle := hrest.le
    rw [x.stop_eq] at hle
    refine ⟨rfl, hheader.congr fun v hlo hhi => same v hlo (by omega), ?_⟩
    refine ih hrest fun v hlo hhi => same v ?_ hhi
    rw [x.stop_eq] at hlo
    omega

theorem mem (hb : b ∈ xs) : a ≤ b.addr ∧ b.stop ≤ e := by
  obtain ⟨before, after, rfl⟩ := append_of_mem hb
  obtain ⟨hbefore, -, hafter⟩ := laid_middle.mp h
  have := hbefore.le
  have := hafter.le
  constructor <;> omega

/-- The first block is at the start of the heap. -/
theorem firstAddr_eq (hne : xs ≠ []) : firstAddr n xs = a := by
  cases xs with
  | nil => exact absurd rfl hne
  | cons x xs => exact h.1

/-- Different blocks have no byte in common. -/
theorem apart : xs.Pairwise fun x y => x.stop ≤ y.addr := by
  induction xs generalizing a with
  | nil => exact List.Pairwise.nil
  | cons x xs ih =>
    obtain ⟨-, -, hrest⟩ := h
    exact pairwise_cons.mpr ⟨fun y hy => (hrest.mem hy).1, ih hrest⟩

/-- Two blocks are the same, or one is behind the other. -/
theorem eq_or_apart {c : Block} (hb : b ∈ xs) (hc : c ∈ xs) :
    b = c ∨ b.stop ≤ c.addr ∨ c.stop ≤ b.addr :=
  List.Pairwise.forall_of_forall_of_flip (R := fun x y => x = y ∨ x.stop ≤ y.addr ∨ y.stop ≤ x.addr)
    (fun _ _ => .inl rfl) (h.apart.imp fun hxy => .inr (.inl hxy))
    (h.apart.imp fun hxy => .inr (.inr hxy)) hb hc

theorem eq_of_addr {c : Block} (hb : b ∈ xs) (hc : c ∈ xs) (haddr : b.addr = c.addr) : b = c := by
  have hstopb := b.stop_eq
  have hstopc := c.stop_eq
  rcases h.eq_or_apart hb hc with heq | hle | hle
  · exact heq
  · omega
  · omega

/-- The bytes of a block are in no header. -/
theorem bytes_apart {c : Block} (hb : b ∈ xs) (hc : c ∈ xs) (hlo : c.addr + 12 ≤ v)
    (hhi : v < c.stop) : v < b.addr ∨ b.addr + 12 ≤ v := by
  have hstopb := b.stop_eq
  rcases h.eq_or_apart hb hc with rfl | hle | hle
  · exact .inr hlo
  · omega
  · omega

end

/-- New blocks in place of the middle ones. Only their bytes change. -/
theorem edit {mid : List Block} (hxs : Laid m a c c xs) (hmid : Laid m' c d (firstAddr n ys) mid)
    (hys : Laid m d e n ys) (hne : mid ≠ []) (same : ∀ v, v < c ∨ d ≤ v → m' v = m v) :
    Laid m' a e n (xs ++ (mid ++ ys)) := by
  refine laid_append.mpr ⟨c, ?_, laid_append.mpr ⟨d, hmid, ?_⟩⟩
  · rw [firstAddr_append, hmid.firstAddr_eq hne]
    exact hxs.congr fun v _ hhi => same v (.inl hhi)
  · exact hys.congr fun v hlo _ => same v (.inr hlo)

/-- One new block in place of the middle ones. -/
theorem editOne (hxs : Laid m a b.addr b.addr xs) (hb : HasHeader m' b (firstAddr n ys))
    (hys : Laid m b.stop e n ys) (same : ∀ v, v < b.addr ∨ b.stop ≤ v → m' v = m v) :
    Laid m' a e n (xs ++ b :: ys) := by
  have hmid : Laid m' b.addr b.stop (firstAddr n ys) [b] := ⟨rfl, hb, rfl⟩
  exact hxs.edit hmid hys (cons_ne_nil b []) same

end Laid

/-! ## Loops -/

/-- The first free block that is large enough. -/
theorem findFit_spec (h : Laid m a e 0 xs) (ha : 0 < a) (size : Nat) (hfuel : xs.length < fuel) :
    findFit m size fuel (firstAddr 0 xs) = some 0 ∨
    ∃ before b after, xs = before ++ b :: after ∧ b.present = false ∧ size ≤ b.length ∧
      findFit m size fuel (firstAddr 0 xs) = some b.addr := by
  induction xs generalizing a fuel with
  | nil =>
    obtain ⟨fuel, rfl⟩ := Nat.exists_eq_add_of_lt hfuel
    left
    rfl
  | cons x xs ih =>
    obtain ⟨rfl, hheader, hrest⟩ := h
    cases fuel with
    | zero => omega
    | succ fuel =>
      rw [firstAddr, findFit, if_neg (by omega), hheader.present, hheader.length, hheader.next]
      by_cases hskip : x.present ∨ x.length < size
      · rw [if_pos hskip]
        rcases ih hrest (by rw [x.stop_eq]; omega) (Nat.lt_of_succ_lt_succ hfuel) with
          hnone | ⟨before, b, after, rfl, hfree, hlarge, hfind⟩
        · exact .inl hnone
        · exact .inr ⟨x :: before, b, after, rfl, hfree, hlarge, hfind⟩
      · rw [if_neg hskip]
        rw [not_or, Bool.not_eq_true, Nat.not_lt] at hskip
        exact .inr ⟨[], x, xs, rfl, hskip.1, hskip.2, rfl⟩

theorem lastEntry_spec (h : Laid m a e 0 (xs ++ [b])) (ha : 0 < a) (hfuel : xs.length < fuel) :
    lastEntry m fuel (firstAddr 0 (xs ++ [b])) = some b.addr := by
  induction xs generalizing a fuel with
  | nil =>
    obtain ⟨-, hheader, -⟩ := h
    obtain ⟨fuel, rfl⟩ := Nat.exists_eq_add_of_lt hfuel
    rw [nil_append, firstAddr, lastEntry, hheader.next]
    simp [firstAddr]
  | cons x xs ih =>
    rw [cons_append, laid_cons] at h
    obtain ⟨rfl, hheader, hrest⟩ := h
    cases fuel with
    | zero => omega
    | succ fuel =>
      have hfirst : firstAddr 0 (xs ++ [b]) ≠ 0 := by
        rw [hrest.firstAddr_eq (by simp), x.stop_eq]
        omega
      rw [cons_append, firstAddr, lastEntry, hheader.next, if_pos hfirst]
      exact ih hrest (by rw [x.stop_eq]; omega) (Nat.lt_of_succ_lt_succ hfuel)

/-- The first block has no previous one. -/
theorem getPrevious_none (h : Laid m a e 0 xs) (ha : 0 < a) {entry : Nat} (hentry : entry ≤ a)
    (hpos : 0 < entry) (hfuel : xs.length < fuel) :
    getPrevious m entry fuel (firstAddr 0 xs) = some 0 := by
  induction xs generalizing a fuel with
  | nil =>
    obtain ⟨fuel, rfl⟩ := Nat.exists_eq_add_of_lt hfuel
    rfl
  | cons x xs ih =>
    obtain ⟨rfl, hheader, hrest⟩ := h
    have hstop := x.stop_eq
    cases fuel with
    | zero => omega
    | succ fuel =>
      have hnext : firstAddr 0 xs ≠ entry := by
        cases xs with
        | nil => exact Nat.ne_of_lt hpos
        | cons y ys =>
          rw [hrest.firstAddr_eq (by simp)]
          omega
      rw [firstAddr, getPrevious, if_neg (by omega), hheader.next, if_neg hnext]
      exact ih hrest (by omega) (by omega) (Nat.lt_of_succ_lt_succ hfuel)

/-- The previous block of a block behind another one. -/
theorem getPrevious_some (h : Laid m a e 0 (xs ++ p :: b :: ys)) (ha : 0 < a)
    (hfuel : xs.length < fuel) :
    getPrevious m b.addr fuel (firstAddr 0 (xs ++ p :: b :: ys)) = some p.addr := by
  induction xs generalizing a fuel with
  | nil =>
    obtain ⟨rfl, hheader, -⟩ := h
    obtain ⟨fuel, rfl⟩ := Nat.exists_eq_add_of_lt hfuel
    rw [nil_append, firstAddr, getPrevious, if_neg (by omega), hheader.next, firstAddr, if_pos rfl]
  | cons x xs ih =>
    rw [cons_append, laid_cons] at h
    obtain ⟨rfl, hheader, hrest⟩ := h
    have hstop := x.stop_eq
    cases fuel with
    | zero => omega
    | succ fuel =>
      have hnext : firstAddr 0 (xs ++ p :: b :: ys) ≠ b.addr := by
        rw [hrest.firstAddr_eq (by simp)]
        obtain ⟨hxs, -, hb⟩ := laid_middle.mp hrest
        have := hxs.le
        have := p.stop_eq
        have := hb.1
        omega
      rw [cons_append, firstAddr, getPrevious, if_neg (by omega), hheader.next, if_neg hnext]
      exact ih hrest (by omega) (Nat.lt_of_succ_lt_succ hfuel)

/-! ## Neighbours -/

/-- No two neighbours are free. -/
abbrev Spaced (blocks : List Block) : Prop := blocks.IsChain fun b c => b.present ∨ c.present

theorem spaced_middle : Spaced (xs ++ b :: ys) ↔
    Spaced xs ∧ (∀ p ∈ xs.getLast?, p.present ∨ b.present) ∧
      (∀ c ∈ ys.head?, b.present ∨ c.present) ∧ Spaced ys := by
  rw [Spaced, isChain_append, isChain_cons]
  simp only [List.head?_cons, mem_def, some.injEq, forall_eq']
  tauto

theorem spaced_of_present (hb : b.present = true) : Spaced (xs ++ b :: ys) ↔ Spaced xs ∧ Spaced ys := by
  rw [spaced_middle]
  simp [hb]

/-- A free block has no free neighbour. -/
theorem spaced_of_free (hb : b.present = false) : Spaced (xs ++ b :: ys) ↔
    Spaced xs ∧ (∀ p ∈ xs.getLast?, p.present) ∧ (∀ c ∈ ys.head?, c.present) ∧ Spaced ys := by
  rw [spaced_middle]
  simp [hb]

theorem spaced_cons_of_free (hb : b.present = false) :
    Spaced (b :: ys) ↔ (∀ c ∈ ys.head?, c.present) ∧ Spaced ys := by
  rw [Spaced, isChain_cons]
  simp [hb]

/-! ## Splitting a block -/

theorem firstAddr_lt (h : Laid m a e n ys) (hn : n < 2 ^ 32) (he : e < 2 ^ 32) :
    firstAddr n ys < 2 ^ 32 := by
  cases ys with
  | nil => exact hn
  | cons y ys =>
    have := (h.mem mem_cons_self).2
    rw [y.stop_eq] at this
    rw [firstAddr]
    omega

theorem or_one_and_one (x : BitVec 8) : (x ||| 1) &&& 1 ≠ 0 := by
  intro h
  have := congrArg (fun y => y.getLsbD 0) h
  simp at this

/-- The flag of a block that is given to the program. -/
theorem HasHeader.mark (h : HasHeader m b n) :
    HasHeader (Libc.setFlags m b.addr (m b.addr ||| 1)) { b with present := true } n := by
  have := h.setFlags (m b.addr ||| 1)
  rwa [decide_eq_true (or_one_and_one _)] at this

/-- A free block is split, or given as it is. Only its bytes change. -/
theorem splitBlock_spec (h : Laid m a e n (xs ++ b :: ys)) (hfree : b.present = false)
    (hsize : size ≤ b.length) (he : e < 2 ^ 32) (hn : n < 2 ^ 32) :
    ∃ m1 length rest, splitBlock m b.addr size = some m1 ∧ size ≤ length ∧
      (rest = [] ∨ ∃ c : Block, rest = [c] ∧ c.present = false) ∧
      Laid (setFlags m1 b.addr (m1 b.addr ||| 1)) a e n
        (xs ++ (⟨b.addr, length, true⟩ :: rest ++ ys)) ∧
      ∀ v, v < b.addr ∨ b.stop ≤ v → setFlags m1 b.addr (m1 b.addr ||| 1) v = m v := by
  obtain ⟨hxs, hb, hys⟩ := laid_middle.mp h
  have hstop := b.stop_eq
  have hend := hys.le
  have hrem : (b.length + 2 ^ 32 - size) % 2 ^ 32 = b.length - size := by omega
  have hnext := firstAddr_lt hys hn he
  unfold splitBlock
  rw [hb.present, hfree, if_neg Bool.false_ne_true, hb.length, hrem]
  dsimp only
  by_cases hsmall : b.length - size < headerSize + minAlloc
  · rw [if_pos hsmall]
    have hsame : ∀ v, v < b.addr ∨ b.stop ≤ v → setFlags m b.addr (m b.addr ||| 1) v = m v :=
      fun v hv => setFlags_of_ne _ (by omega)
    refine ⟨m, b.length, [], rfl, hsize, .inl rfl, ?_, hsame⟩
    exact hxs.edit ⟨rfl, hb.mark, rfl⟩ hys (by simp) hsame
  · rw [if_neg hsmall]
    generalize hq : b.addr + headerSize + size = q
    have hq' : b.addr + 12 + size = q := hq
    have hb1 := hb.setLength (l := size) (by omega)
    -- the header of the remainder is behind the bytes that are kept
    have hb2 : HasHeader (setLength (setFlags (setLength m b.addr size) q 0) q
        (b.length - size - headerSize)) { b with length := size } (firstAddr n ys) := by
      refine hb1.congr fun v hlo hhi => ?_
      dsimp only at hlo hhi
      rw [setLength_of_outside _ (by omega), setFlags_of_outside _ (by omega)]
    rw [hb2.next]
    have hrest := new (setLength m b.addr size) q (l := b.length - size - headerSize)
      (n := firstAddr n ys) (by omega) hnext
    set m4 := setNext (setLength (setFlags (setLength m b.addr size) q 0) q
      (b.length - size - headerSize)) q (firstAddr n ys) with hm4
    have hb4 : HasHeader m4 { b with length := size } (firstAddr n ys) := by
      refine hb2.congr fun v hlo hhi => ?_
      dsimp only at hlo hhi
      rw [hm4, setNext_of_outside _ (by omega)]
    have hsame : ∀ v, v < b.addr ∨ b.addr + 12 ≤ v → setFlags (setNext m4 b.addr q) b.addr
        (setNext m4 b.addr q b.addr ||| 1) v = m4 v := by
      intro v hv
      rw [setFlags_of_outside _ hv, setNext_of_outside _ hv]
    have hsame' : ∀ v, v < b.addr ∨ b.stop ≤ v → setFlags (setNext m4 b.addr q) b.addr
        (setNext m4 b.addr q b.addr ||| 1) v = m v := by
      intro v hv
      rw [hsame v (by omega), hm4, newHeader_of_outside (by omega), setLength_of_outside _ (by omega)]
    refine ⟨_, size, [⟨q, b.length - size - headerSize, false⟩], rfl, le_rfl,
      .inr ⟨_, rfl, rfl⟩, ?_, hsame'⟩
    refine hxs.edit (d := b.stop) ⟨rfl, ?_, ?_⟩ hys (by simp) hsame'
    · exact (hb4.setNext (l := q) (by omega)).mark
    · refine ⟨hq.symm, ?_, ?_⟩
      · refine hrest.congr fun v hlo hhi => ?_
        dsimp only at hlo hhi
        exact hsame v (by omega)
      · show stop _ = b.stop
        rw [stop_eq, hstop]
        dsimp only [headerSize]
        omega

/-! ## Extending the heap -/

/-- The blocks of an initialised heap. -/
structure Inv (s : UserHeap) (blocks : List Block) : Prop where
  start : 0 < s.heapStart
  laid : Laid s.mem s.heapStart s.heapEnd 0 blocks
  nonempty : blocks ≠ []
  stop : s.heapEnd = s.brk
  bound : s.brk < 2 ^ 32

namespace Inv

variable {s : UserHeap} {blocks : List Block}

theorem firstAddr (h : Inv s blocks) : firstAddr 0 blocks = s.heapStart :=
  h.laid.firstAddr_eq h.nonempty

theorem length_lt_fuel (h : Inv s blocks) : blocks.length < s.fuel := by
  have := h.laid.le
  rw [fuel]
  omega

/-- Stores to the bytes of one block. -/
theorem store (h : Inv s blocks) (hb : b ∈ blocks)
    (same : ∀ v, v < b.addr + 12 ∨ b.stop ≤ v → m' v = s.mem v) : Inv { s with mem := m' } blocks := by
  refine { h with laid := ?_ }
  obtain ⟨xs, ys, rfl⟩ := append_of_mem hb
  obtain ⟨hxs, hheader, hys⟩ := laid_middle.mp h.laid
  have hmid : Laid m' b.addr b.stop (Libc.firstAddr 0 ys) [b] :=
    ⟨rfl, hheader.congr fun v _ hhi => same v (.inl hhi), rfl⟩
  exact hxs.edit hmid hys (by simp) fun v hv => same v (by omega)

end Inv

/-- The area is large enough for the block with its header. -/
theorem totalSize_spec (hsize : size < 2 ^ 31) : size + 12 ≤ totalSize size := by
  rw [totalSize, headerSize, allocPageSize, mod_eq_of_lt (by omega)]
  split <;> omega

/-- A new area becomes the last block, or a part of it. Only the header of the last block before it
changes. -/
theorem linkEntry_spec {last : Block} (h : Inv s (xs ++ [last])) {total : Nat} (hlarge : 12 ≤ total)
    (hroom : s.brk + total < 2 ^ 32) (fresh : Mem) : ∃ s' ys b,
      ({ s with mem := writeBytes s.mem s.brk fresh total, brk := s.brk + total } :
        UserHeap).linkEntry s.brk total = some (s', b.addr) ∧
      Inv s' (ys ++ [b]) ∧ b.present = false ∧ total ≤ b.length + 12 ∧ s.heapStart ≤ b.addr ∧
      (last.present = true ∧ ys = xs ++ [last] ∧ s.brk ≤ b.addr ∨
        last.present = false ∧ ys = xs ∧ b.addr = last.addr) ∧
      ∀ v < s.brk, v < last.addr ∨ last.addr + 12 ≤ v → s'.mem v = s.mem v := by
  unfold linkEntry
  dsimp only
  -- the memory with the new area and the new header in it
  have hnew := new (writeBytes s.mem s.brk fresh total) s.brk (l := total - headerSize)
    (n := 0) (by omega) (by omega)
  set m1 := setNext (setLength (setFlags (writeBytes s.mem s.brk fresh total) s.brk 0) s.brk
    (total - headerSize)) s.brk 0 with hm1
  have hsame : ∀ v < s.brk, m1 v = s.mem v := by
    intro v hv
    rw [hm1, newHeader_of_outside (.inl hv), writeBytes_of_outside (.inl hv)]
  have hstart := h.start
  have hbound := h.bound
  have hlaid := h.laid
  rw [h.stop] at hlaid
  have hle := hlaid.le
  obtain ⟨hxs, hlast, hlaststop⟩ := laid_middle.mp hlaid
  have hlaststop : last.stop = s.brk := hlaststop
  have hstop := last.stop_eq
  have hxsle := hxs.le
  have hlaid1 : Laid m1 s.heapStart s.brk 0 (xs ++ [last]) :=
    hlaid.congr fun v _ hhi => hsame v hhi
  have hlast1 : HasHeader m1 last 0 := (laid_middle.mp hlaid1).2.1
  have hentry : lastEntry m1 (s.brk + total - s.heapStart + 1) s.heapStart = some last.addr := by
    have hfuel : xs.length < s.brk + total - s.heapStart + 1 := by omega
    have := lastEntry_spec hlaid1 hstart hfuel
    rwa [hlaid1.firstAddr_eq (by simp)] at this
  rw [if_neg (by omega), fuel]
  rw [hentry, bind_eq_bind, bind_some, hlast1.present, hlast1.length]
  cases hpresent : last.present with
  | true =>
    have hsame2 : ∀ v, v < last.addr ∨ last.addr + 12 ≤ v → setNext m1 last.addr s.brk v = m1 v :=
      fun v hv => setNext_of_outside _ hv
    refine ⟨_, xs ++ [last], ⟨s.brk, total - headerSize, false⟩, rfl, ?_, rfl, ?_, ?_,
      .inl ⟨rfl, rfl, le_rfl⟩, fun v hv hout => ?_⟩
    · refine ⟨hstart, ?_, by simp, rfl, hroom⟩
      refine laid_append.mpr ⟨s.brk, ?_, ⟨rfl, ?_, ?_⟩⟩
      · refine laid_middle.mpr ⟨?_, hlast1.setNext hbound, hlaststop⟩
        exact hxs.congr fun v _ hhi => (hsame2 v (.inl hhi)).trans (hsame v (by omega))
      · exact hnew.congr fun v hlo hhi => hsame2 v (.inr (by dsimp only at hlo; omega))
      · show stop _ = _
        rw [stop_eq]
        dsimp only [headerSize]
        omega
    · dsimp only [headerSize]
      omega
    · dsimp only
      omega
    · dsimp only
      rw [hsame2 v hout, hsame v hv]
  | false =>
    rw [if_neg Bool.false_ne_true, mod_eq_of_lt (by omega)]
    have hsame2 : ∀ v, v < last.addr ∨ last.addr + 12 ≤ v →
        setLength m1 last.addr (last.length + total) v = m1 v := fun v hv => setLength_of_outside _ hv
    refine ⟨_, xs, { last with length := last.length + total }, rfl, ?_, hpresent, ?_, ?_,
      .inr ⟨rfl, rfl, rfl⟩, fun v hv hout => ?_⟩
    · refine ⟨hstart, ?_, by simp, rfl, hroom⟩
      refine laid_middle.mpr ⟨?_, hlast1.setLength (by omega), ?_⟩
      · exact hxs.congr fun v _ hhi => (hsame2 v (.inl hhi)).trans (hsame v (by omega))
      · show stop _ = _
        rw [stop_eq]
        dsimp only
        omega
    · dsimp only
      omega
    · dsimp only
      omega
    · dsimp only
      rw [hsame2 v hout, hsame v hv]

/-! ## `malloc` -/

/-- Blocks of the program that are still there, with what is in them. -/
def Keeps (kept blocks : List Block) (m m' : Mem) : Prop :=
  ∀ c ∈ kept, c.present = true → c ∈ blocks ∧ ∀ v, c.addr + 12 ≤ v → v < c.stop → m' v = m v

theorem Keeps.refl (blocks : List Block) (m : Mem) : Keeps blocks blocks m m :=
  fun _ hc _ => ⟨hc, fun _ _ _ => rfl⟩

theorem Keeps.trans {kept blocks' : List Block} {m'' : Mem} (h : Keeps kept blocks m m')
    (h' : Keeps blocks blocks' m' m'') : Keeps kept blocks' m m'' := by
  intro c hc hpresent
  obtain ⟨hmem, hbytes⟩ := h c hc hpresent
  obtain ⟨hmem', hbytes'⟩ := h' c hmem hpresent
  exact ⟨hmem', fun v hlo hhi => (hbytes' v hlo hhi).trans (hbytes v hlo hhi)⟩

/-- A pointer to a block that the program did not have, or `NULL`. -/
def Given (blocks blocks' : List Block) (size ret : Nat) : Prop :=
  ret = 0 ∨ ∃ c ∈ blocks', c.present = true ∧ ret = c.addr + 12 ∧ size ≤ c.length ∧
    ∀ b ∈ blocks, b.present = true → b.addr ≠ c.addr

/-- The blocks before and behind a free one. -/
theorem mem_of_present {c : Block} (hfree : b.present = false) (hc : c ∈ xs ++ b :: ys)
    (hpresent : c.present = true) : c ∈ xs ∨ c ∈ ys := by
  rcases mem_append.mp hc with hc | hc
  · exact .inl hc
  · rcases mem_cons.mp hc with rfl | hc
    · rw [hfree] at hpresent
      cases hpresent
    · exact .inr hc

/-- A free block is given to the program, and the rest of it stays free. -/
theorem give_spec (h : Inv s (xs ++ b :: ys)) (hspaced : Spaced (xs ++ b :: ys))
    (hfree : b.present = false) (hsize : size ≤ b.length) :
    ∃ s' blocks', s.give b.addr size = some (s', b.addr + 12) ∧ Inv s' blocks' ∧ Spaced blocks' ∧
      Keeps (xs ++ b :: ys) blocks' s.mem s'.mem ∧
      ∃ c ∈ blocks', c.present = true ∧ c.addr = b.addr ∧ size ≤ c.length := by
  have hend : s.heapEnd < 2 ^ 32 := h.stop ▸ h.bound
  obtain ⟨m1, length, rest, hsplit, hlength, hrest, hlaid, hsame⟩ :=
    splitBlock_spec h.laid hfree hsize hend (by omega)
  obtain ⟨hspacedxs, -, hhead, hspacedys⟩ := (spaced_of_free hfree).mp hspaced
  rw [give, hsplit]
  refine ⟨_, _, rfl, ⟨h.start, hlaid, by simp, h.stop, h.bound⟩, ?_, ?_,
    ⟨b.addr, length, true⟩, by simp, rfl, rfl, hlength⟩
  · rw [cons_append, spaced_of_present rfl]
    refine ⟨hspacedxs, ?_⟩
    rcases hrest with rfl | ⟨c, rfl, hc⟩
    · exact hspacedys
    · exact (spaced_cons_of_free hc).mpr ⟨hhead, hspacedys⟩
  · intro c hc hpresent
    obtain ⟨hxs, -, hys⟩ := laid_middle.mp h.laid
    rcases mem_of_present hfree hc hpresent with hc | hc
    · refine ⟨mem_append_left _ hc, fun v hlo hhi => hsame v (.inl ?_)⟩
      have := (hxs.mem hc).2
      omega
    · refine ⟨mem_append_right _ (mem_append_right _ hc), fun v hlo hhi => hsame v (.inr ?_)⟩
      have := (hys.mem hc).1
      omega

/-- After an extension the program's blocks are still there. -/
theorem extendHeap_spec (h : Inv s blocks) (hspaced : Spaced blocks)
    (hsize : size < 2 ^ 31 ∨ area = none) : s.extendHeap size area = some (s, 0) ∨
    ∃ s' ys b, s.extendHeap size area = some (s', b.addr) ∧ Inv s' (ys ++ [b]) ∧ Spaced (ys ++ [b]) ∧
      Keeps blocks (ys ++ [b]) s.mem s'.mem ∧ b.present = false ∧ size ≤ b.length ∧ 0 < b.addr ∧
      ∀ c ∈ blocks, c.present = true → c.addr ≠ b.addr := by
  rw [extendHeap]
  rcases area with _ | fresh
  · exact .inl rfl
  have hlarge := totalSize_spec (hsize.resolve_right (some_ne_none fresh))
  rw [sbrk]
  by_cases hroom : s.brk + totalSize size < 2 ^ 32
  swap
  · left
    rw [if_neg hroom]
  right
  rw [if_pos hroom]
  obtain ⟨xs, last, rfl⟩ : ∃ xs last, blocks = xs ++ [last] :=
    ⟨_, _, (dropLast_append_getLast h.nonempty).symm⟩
  obtain ⟨s', ys, b, hlink, hinv, hfree, htotal, haddr, hlast, hsame⟩ :=
    linkEntry_spec h (by omega) hroom fresh
  have hbytes : ∀ c ∈ xs ++ [last], ∀ v, c.addr + 12 ≤ v → v < c.stop → s'.mem v = s.mem v := by
    intro c hc v hlo hhi
    have := (h.laid.mem hc).2
    have := h.stop
    exact hsame v (by omega) (h.laid.bytes_apart (by simp) hc hlo hhi)
  refine ⟨s', ys, b, hlink, hinv, ?_, ?_, hfree, by omega, lt_of_lt_of_le h.start haddr, ?_⟩
  · rcases hlast with ⟨hpresent, rfl, -⟩ | ⟨hpresent, rfl, -⟩
    · refine (spaced_of_free hfree).mpr ⟨hspaced, ?_, by simp, isChain_nil⟩
      simpa using hpresent
    · obtain ⟨hxs, hbefore, -, -⟩ := (spaced_of_free hpresent).mp hspaced
      exact (spaced_of_free hfree).mpr ⟨hxs, hbefore, by simp, isChain_nil⟩
  · intro c hc hpresent
    refine ⟨?_, hbytes c hc⟩
    rcases hlast with ⟨-, rfl, -⟩ | ⟨hfreelast, rfl, -⟩
    · exact mem_append_left _ hc
    · rcases mem_of_present hfreelast hc hpresent with hc | hc
      · exact mem_append_left _ hc
      · cases hc
  · intro c hc hpresent heq
    have hcstop := c.stop_eq
    rcases hlast with ⟨-, -, hbrk⟩ | ⟨hfreelast, -, hsameaddr⟩
    · have := (h.laid.mem hc).2
      have := h.stop
      omega
    · rcases mem_of_present hfreelast hc hpresent with hc | hc
      · have := ((laid_middle.mp h.laid).1.mem hc).2
        omega
      · cases hc

/-- `sbrk` is asked for an area of less than 2^31 bytes and a header, or it fails, or it is not called. -/
def Asks (s : UserHeap) (area : Option Mem) (size : Nat) : Prop :=
  size < 2 ^ 31 ∨ area = none ∨ findFit s.mem size s.fuel s.heapStart ≠ some 0

theorem mallocBlock_spec (h : Inv s blocks) (hspaced : Spaced blocks) (hsize : Asks s area size) :
    ∃ s' ret blocks', s.mallocBlock size area = some (s', ret) ∧ Inv s' blocks' ∧ Spaced blocks' ∧
      Keeps blocks blocks' s.mem s'.mem ∧ Given blocks blocks' size ret := by
  rw [mallocBlock]
  by_cases hzero : size = 0
  · rw [if_pos hzero]
    exact ⟨s, 0, blocks, rfl, h, hspaced, Keeps.refl _ _, .inl rfl⟩
  rw [if_neg hzero]
  dsimp only
  obtain ⟨large, hlarge, hle, hasks⟩ : ∃ large, (if size < minAlloc then minAlloc else size) = large ∧
      size ≤ large ∧ Asks s area large := by
    refine ⟨_, rfl, ?_⟩
    rw [minAlloc]
    split
    · exact ⟨by omega, .inl (by omega)⟩
    · exact ⟨le_rfl, hsize⟩
  rw [hlarge]
  have hstart := h.start
  rcases findFit_spec h.laid hstart large h.length_lt_fuel with
    hnone | ⟨xs, b, ys, rfl, hfree, hfit, hfind⟩
  · rw [h.firstAddr] at hnone
    rw [hnone, bind_some, if_pos rfl]
    have hasks : large < 2 ^ 31 ∨ area = none := hasks.imp_right (Or.resolve_right · (absurd hnone))
    rcases extendHeap_spec h hspaced hasks with
      hfail | ⟨s1, ys, b, hextend, h1, hspaced1, hkeeps, hfree, hfit, hpos, hne⟩
    · rw [hfail]
      exact ⟨s, 0, blocks, rfl, h, hspaced, Keeps.refl _ _, .inl rfl⟩
    · obtain ⟨s', blocks', hgive, h', hspaced', hkeeps', c, hc, hpresent, haddr, hlen⟩ :=
        give_spec h1 hspaced1 hfree hfit
      rw [hextend, bind_some, if_neg (by omega), hgive, ← haddr]
      rw [← haddr] at hne
      exact ⟨_, _, blocks', rfl, h', hspaced', hkeeps.trans hkeeps',
        .inr ⟨c, hc, hpresent, rfl, le_trans hle hlen, hne⟩⟩
  · have hmem : b ∈ xs ++ b :: ys := mem_append_right xs mem_cons_self
    have hb := (h.laid.mem hmem).1
    obtain ⟨s', blocks', hgive, h', hspaced', hkeeps', c, hc, hpresent, haddr, hlen⟩ :=
      give_spec h hspaced hfree hfit
    rw [h.firstAddr] at hfind
    rw [hfind, bind_some, if_neg (by omega), hgive, ← haddr]
    refine ⟨_, _, blocks', rfl, h', hspaced', hkeeps',
      .inr ⟨c, hc, hpresent, rfl, le_trans hle hlen, fun d hd hdpresent heq => ?_⟩⟩
    rw [h.laid.eq_of_addr hd hmem (heq.trans haddr), hfree] at hdpresent
    cases hdpresent

/-- A heap that has not been used yet, or one with blocks. -/
def Ready (s : UserHeap) (blocks : List Block) : Prop :=
  (s.heapStart = 0 ∧ blocks = [] ∧ 0 < s.brk ∧ s.brk + allocPageSize < 2 ^ 32) ∨
    Inv s blocks ∧ Spaced blocks

/-- The first page is one free block. -/
theorem mallocInit_spec (hpos : 0 < s.brk) (hroom : s.brk + allocPageSize < 2 ^ 32) (page : Mem) :
    ∃ s', s.mallocInit (some page) = (s', true) ∧
      Inv s' [⟨s.brk, allocPageSize - headerSize, false⟩] := by
  rw [mallocInit, sbrk]
  rw [if_pos hroom]
  refine ⟨_, rfl, hpos, ⟨rfl, new _ _ (by decide) (by decide), rfl⟩, by simp, rfl, hroom⟩

theorem malloc_spec (h : Ready s blocks) (page area : Option Mem)
    (hpage : s.heapStart = 0 → page.isSome) (hsize : Asks s area size) :
    ∃ s' ret blocks', s.malloc page area size = some (s', ret) ∧ Inv s' blocks' ∧
      Spaced blocks' ∧ Keeps blocks blocks' s.mem s'.mem ∧ Given blocks blocks' size ret := by
  rw [malloc]
  rcases h with ⟨hstart, rfl, hpos, hroom⟩ | ⟨h, hspaced⟩
  · obtain ⟨page, rfl⟩ := isSome_iff_exists.mp (hpage hstart)
    obtain ⟨s1, hinit, h1⟩ := mallocInit_spec hpos hroom page
    have hnone : findFit s.mem size s.fuel s.heapStart = some 0 := by
      rw [fuel, hstart, findFit, if_pos rfl]
    obtain ⟨s', ret, blocks', hmalloc, h', hspaced', -, hgiven⟩ :=
      mallocBlock_spec h1 (isChain_singleton _)
        (hsize.imp_right (Or.imp_right fun hfits => absurd hnone hfits))
    rw [if_pos hstart, hinit]
    refine ⟨s', ret, blocks', hmalloc, h', hspaced', nofun, ?_⟩
    rcases hgiven with hnull | ⟨c, hc, hpresent, hret, hlen, -⟩
    · exact .inl hnull
    · exact .inr ⟨c, hc, hpresent, hret, hlen, nofun⟩
  · have := h.start
    rw [if_neg (by omega)]
    exact mallocBlock_spec h hspaced hsize

/-! ## `free` -/

/-- A free block takes in the block behind it if that is free. -/
theorem coalesceNext_spec (h : Laid m a e 0 (xs ++ b :: ys)) (hfree : b.present = false)
    (he : e < 2 ^ 32) :
    ∃ length rest, Laid (coalesceNext m b.addr) a e 0 (xs ++ ⟨b.addr, length, false⟩ :: rest) ∧
      (∀ v, v < b.addr ∨ b.addr + 12 ≤ v → coalesceNext m b.addr v = m v) ∧
      (∀ c ∈ ys, c.present = true → c ∈ rest) ∧
      (Spaced ys → Spaced rest ∧ ∀ c ∈ rest.head?, c.present = true) := by
  obtain ⟨hxs, hb, hys⟩ := laid_middle.mp h
  have hstop := b.stop_eq
  have hbfree : b = ⟨b.addr, b.length, false⟩ := by rw [← hfree]
  unfold coalesceNext
  dsimp only
  rw [hb.next]
  cases ys with
  | nil =>
    refine ⟨b.length, [], ?_, fun _ _ => rfl, by simp, by simp⟩
    rwa [← hbfree]
  | cons c rest =>
    obtain ⟨hc, hcheader, hrest⟩ := hys
    rw [firstAddr, hcheader.present]
    cases hpresent : c.present with
    | true =>
      rw [if_neg (by simp)]
      refine ⟨b.length, c :: rest, ?_, fun _ _ => rfl, fun _ hd _ => hd,
        fun hspaced => ⟨hspaced, by simpa using hpresent⟩⟩
      rwa [← hbfree]
    | false =>
      have hcstop := c.stop_eq
      have hend := hrest.le
      have hnext := firstAddr_lt hrest (by omega) he
      have hb1 := hb.setNext hnext
      have hc1 : HasHeader (setNext m b.addr (firstAddr 0 rest)) c (firstAddr 0 rest) :=
        hcheader.congr fun v hlo hhi => setNext_of_outside _ (by omega)
      have hb2 := hb1.setLength (l := b.length + c.length) (by omega)
      have hb3 := hb2.setLength (l := b.length + c.length + 12) (by omega)
      rw [if_pos (by simp; omega), hcheader.next, hb1.length, hc1.length,
        mod_eq_of_lt (by omega), hb2.length]
      dsimp only [headerSize]
      rw [mod_eq_of_lt (by omega)]
      have hsame : ∀ v, v < b.addr ∨ b.addr + 12 ≤ v →
          setLength (setLength (setNext m b.addr (firstAddr 0 rest)) b.addr (b.length + c.length))
            b.addr (b.length + c.length + 12) v = m v := by
        intro v hv
        rw [setLength_of_outside _ hv, setLength_of_outside _ hv, setNext_of_outside _ hv]
      refine ⟨b.length + c.length + 12, rest, ?_, hsame, fun d hd hdpresent => ?_, fun hspaced => ?_⟩
      · have hnew : stop ⟨b.addr, b.length + c.length + 12, false⟩ = c.stop := by
          rw [stop_eq]
          dsimp only
          omega
        refine editOne hxs ?_ (hnew ▸ hrest) fun v hv => hsame v ?_
        · rw [← hfree]
          exact hb3
        · dsimp only at hv
          omega
      · rcases mem_cons.mp hd with rfl | hd
        · rw [hpresent] at hdpresent
          cases hdpresent
        · exact hd
      · obtain ⟨hhead, hrestspaced⟩ := (spaced_cons_of_free hpresent).mp hspaced
        exact ⟨hrestspaced, hhead⟩

/-- A free block in front of a free one takes it in. -/
theorem coalescePrevious_spec (h : Laid m a e 0 (xs ++ p :: b :: ys)) (hfree : p.present = false)
    (ha : 0 < a) (he : e < 2 ^ 32) : Laid (coalescePrevious m p.addr b.addr) a e 0
        (xs ++ ⟨p.addr, p.length + b.length + 12, false⟩ :: ys) ∧
      ∀ v, v < p.addr ∨ p.addr + 12 ≤ v → coalescePrevious m p.addr b.addr v = m v := by
  obtain ⟨hxs, hp, hb⟩ := laid_middle.mp h
  obtain ⟨hbaddr, hb, hys⟩ := hb
  have hpstop := p.stop_eq
  have hbstop := b.stop_eq
  have hle := hxs.le
  have hend := hys.le
  have hnext := firstAddr_lt hys (by omega) he
  have hp1 := hp.setLength (l := p.length + b.length) (by omega)
  have hp2 := hp1.setLength (l := p.length + b.length + 12) (by omega)
  have hp3 := hp2.setNext hnext
  have hsame2 : ∀ v, v < p.addr ∨ p.addr + 12 ≤ v → setLength (setLength m p.addr
      (p.length + b.length)) p.addr (p.length + b.length + 12) v = m v := by
    intro v hv
    rw [setLength_of_outside _ hv, setLength_of_outside _ hv]
  have hb2 : HasHeader (setLength (setLength m p.addr (p.length + b.length)) p.addr
      (p.length + b.length + 12)) b (firstAddr 0 ys) :=
    hb.congr fun v hlo hhi => hsame2 v (by omega)
  have heq : coalescePrevious m p.addr b.addr = setNext (setLength (setLength m p.addr
      (p.length + b.length)) p.addr (p.length + b.length + 12)) p.addr (firstAddr 0 ys) := by
    unfold coalescePrevious
    dsimp only
    rw [hp.present, hfree, if_pos (by simp; omega), hp.length, hb.length,
      mod_eq_of_lt (by omega), hp1.length]
    dsimp only [headerSize]
    rw [mod_eq_of_lt (by omega), hb2.next]
  have hsame : ∀ v, v < p.addr ∨ p.addr + 12 ≤ v →
      coalescePrevious m p.addr b.addr v = m v := by
    intro v hv
    rw [heq, setNext_of_outside _ hv, hsame2 v hv]
  refine ⟨?_, hsame⟩
  have hnew : stop ⟨p.addr, p.length + b.length + 12, false⟩ = b.stop := by
    rw [stop_eq]
    dsimp only
    omega
  refine editOne hxs ?_ (hnew ▸ hys) fun v hv => hsame v ?_
  · rw [heq, ← hfree]
    exact hp3
  · dsimp only at hv
    omega

/-- A block of the program becomes free. All its other blocks stay, and no byte of a block changes. -/
theorem free_spec (h : Inv s blocks) (hspaced : Spaced blocks) (hb : b ∈ blocks)
    (hpresent : b.present = true) :
    ∃ s' blocks', s.free (b.addr + 12) = some s' ∧ Inv s' blocks' ∧ Spaced blocks' ∧
      Keeps (blocks.filter (· ≠ b)) blocks' s.mem s'.mem := by
  obtain ⟨xs, ys, rfl⟩ := append_of_mem hb
  obtain ⟨hxsspaced, hysspaced⟩ := (spaced_of_present hpresent).mp hspaced
  have hstart := h.start
  have hend : s.heapEnd < 2 ^ 32 := h.stop ▸ h.bound
  obtain ⟨hxs, hheader, hys⟩ := laid_middle.mp h.laid
  have hsame1 : ∀ v, v < b.addr ∨ b.addr + 12 ≤ v → setFlags s.mem b.addr 0 v = s.mem v :=
    fun v hv => setFlags_of_outside _ hv
  have hlaid1 : Laid (setFlags s.mem b.addr 0) s.heapStart s.heapEnd 0
      (xs ++ { b with present := false } :: ys) := by
    refine editOne hxs ?_ hys fun v hv => hsame1 v ?_
    · simpa using hheader.setFlags 0
    · rw [stop_eq] at hv
      dsimp only at hv
      omega
  obtain ⟨length, rest, hlaid2, hsame2, hkept, hrest⟩ := coalesceNext_spec hlaid1 rfl hend
  obtain ⟨hrestspaced, hhead⟩ := hrest hysspaced
  set m2 := coalesceNext (setFlags s.mem b.addr 0) b.addr with hm2
  have hfuel : xs.length + rest.length + 1 < s.fuel := by
    have := hlaid2.le
    rw [length_append, length_cons] at this
    rw [fuel]
    omega
  have hne : b.addr + 12 ≠ 0 := by omega
  rw [free, if_neg hne, headerSize, Nat.add_sub_cancel]
  dsimp only
  have hbytes : ∀ c ∈ xs ++ b :: ys, ∀ v, c.addr + 12 ≤ v → v < c.stop → m2 v = s.mem v := by
    intro c hc v hlo hhi
    have hout := h.laid.bytes_apart hb hc hlo hhi
    rw [hsame2 v hout, hsame1 v hout]
  have hkeeps : ∀ c ∈ (xs ++ b :: ys).filter (· ≠ b), c.present = true → c ∈ xs ∨ c ∈ rest := by
    intro c hc hcpresent
    obtain ⟨hc, hne⟩ := mem_filter.mp hc
    rcases mem_append.mp hc with hc | hc
    · exact .inl hc
    · rcases mem_cons.mp hc with rfl | hc
      · simp at hne
      · exact .inr (hkept c hc hcpresent)
  -- the block in front of the freed one, if there is one
  rcases eq_nil_or_concat' xs with rfl | ⟨xs, p, rfl⟩
  · have hprevious : getPrevious m2 b.addr s.fuel s.heapStart = some 0 := by
      have hfirst : s.heapStart = b.addr := hxs
      have hlt : ([] ++ (⟨b.addr, length, false⟩ : Block) :: rest).length < s.fuel := by
        simpa using hfuel
      have := getPrevious_none hlaid2 hstart (le_of_eq hfirst.symm) (hfirst ▸ hstart) hlt
      rwa [hlaid2.firstAddr_eq (by simp)] at this
    rw [hprevious, bind_eq_bind, bind_some, coalescePrevious, if_neg (by simp)]
    refine ⟨_, _, rfl, ⟨hstart, hlaid2, by simp, h.stop, h.bound⟩, ?_, ?_⟩
    · exact (spaced_of_free rfl).mpr ⟨hxsspaced, by simp, hhead, hrestspaced⟩
    · intro c hc hcpresent
      refine ⟨?_, hbytes c (mem_filter.mp hc).1⟩
      rcases hkeeps c hc hcpresent with hc | hc
      · cases hc
      · exact mem_cons_of_mem _ hc
  · rw [append_assoc, singleton_append] at hlaid2
    have hprevious : getPrevious m2 b.addr s.fuel s.heapStart = some p.addr := by
      have hlt : xs.length < s.fuel := by
        rw [length_append] at hfuel
        omega
      have := getPrevious_some hlaid2 hstart hlt
      rwa [hlaid2.firstAddr_eq (by simp)] at this
    have hpheader := (laid_middle.mp hlaid2).2.1
    have hp : p ∈ xs ++ [p] ++ b :: ys := by simp
    rw [hprevious, bind_eq_bind, bind_some]
    cases hppresent : p.present with
    | true =>
      rw [coalescePrevious, hpheader.present, hppresent, if_neg (by simp)]
      refine ⟨_, _, rfl, ⟨hstart, hlaid2, by simp, h.stop, h.bound⟩, ?_, ?_⟩
      · rw [← singleton_append, ← append_assoc]
        exact (spaced_of_free rfl).mpr ⟨hxsspaced, by simpa using hppresent, hhead, hrestspaced⟩
      · intro c hc hcpresent
        refine ⟨?_, hbytes c (mem_filter.mp hc).1⟩
        have := hkeeps c hc hcpresent
        simp only [mem_append, mem_cons] at this ⊢
        tauto
    | false =>
      obtain ⟨hlaid3, hsame3⟩ := coalescePrevious_spec hlaid2 hppresent hstart hend
      refine ⟨_, _, rfl, ⟨hstart, hlaid3, by simp, h.stop, h.bound⟩, ?_, ?_⟩
      · obtain ⟨hxs', hbefore, -, -⟩ := (spaced_of_free hppresent).mp hxsspaced
        exact (spaced_of_free rfl).mpr ⟨hxs', hbefore, hhead, hrestspaced⟩
      · intro c hc hcpresent
        have hcmem := (mem_filter.mp hc).1
        refine ⟨?_, fun v hlo hhi => ?_⟩
        · rcases hkeeps c hc hcpresent with hc | hc
          · rcases mem_of_present hppresent hc hcpresent with hc | hc
            · exact mem_append_left _ hc
            · cases hc
          · exact mem_append_right _ (mem_cons_of_mem _ hc)
        · dsimp only
          rw [hsame3 v (h.laid.bytes_apart hp hcmem hlo hhi), hbytes c hcmem v hlo hhi]

end Stos.Libc
