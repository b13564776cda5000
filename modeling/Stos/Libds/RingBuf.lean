import Stos.Misc.Bytes

/-!
# Ring buffers

`ds_ringbuf_t` of `libds/src/ringbuf.c`, with items of any type in place of blocks of `item_size`
bytes. The bounds of the indices and the distance between them are part of the type; a buffer has room
for at least one item. `ByteRing` has the bytes of the storage as well.
-/

namespace Stos.Libds

/-- `struct ds_ringbuf_s`. -/
structure RingBuf (α : Type) where
  capacity : Nat
  currentCount : Nat
  failOnFull : Bool
  readPtr : Nat
  writePtr : Nat
  storage : Nat → α
  count_le : currentCount ≤ capacity
  readPtr_lt : readPtr < capacity
  writePtr_eq : writePtr = (readPtr + currentCount) % capacity

namespace RingBuf

variable {α : Type}

/-- `ds_ringbuf_create` (`ringbuf.c:24-41`); `storage` is what the new block happens to hold. -/
def create (capacity : Nat) (failOnFull : Bool) (storage : Nat → α) (h : 0 < capacity) : RingBuf α where
  capacity := capacity
  currentCount := 0
  failOnFull := failOnFull
  readPtr := 0
  writePtr := 0
  storage := storage
  count_le := Nat.zero_le _
  readPtr_lt := h
  writePtr_eq := (Nat.zero_mod _).symm

variable (r : RingBuf α)

/-- `ds_ringbuf_size`. -/
def size : Nat := r.currentCount

/-- `ds_ringbuf_free_space` (`ringbuf.h:86-89`). -/
def freeSpace : Nat := r.capacity - r.currentCount

/-- Moving the reading pointer to the next item, which leaves out the oldest one. -/
def dropOldest (h : r.currentCount ≠ 0) : RingBuf α :=
  { r with
    readPtr := (r.readPtr + 1) % r.capacity
    currentCount := r.currentCount - 1
    count_le := Nat.le_trans (Nat.sub_le _ _) r.count_le
    readPtr_lt := Nat.mod_lt _ (Nat.zero_lt_of_lt r.readPtr_lt)
    writePtr_eq := by
      rw [r.writePtr_eq, Nat.mod_add_mod]
      congr 1
      omega }

/-- Storing an item at the writing pointer, in a buffer that is not full. -/
def store (value : α) (h : r.currentCount < r.capacity) : RingBuf α :=
  { r with
    storage := fun i => if i = r.writePtr then value else r.storage i
    writePtr := (r.writePtr + 1) % r.capacity
    currentCount := r.currentCount + 1
    count_le := h
    writePtr_eq := by rw [r.writePtr_eq, Nat.mod_add_mod, Nat.add_assoc] }

/-- `ds_ringbuf_push` (`ringbuf.c:52-82`); `none` is `DS_ERR_FULL`. -/
def push (value : α) : Option (RingBuf α) :=
  if h : r.currentCount = r.capacity then
    if r.failOnFull then none
    else
      have hne : r.currentCount ≠ 0 := h ▸ Nat.ne_zero_of_lt r.readPtr_lt
      some ((r.dropOldest hne).store value
        (Nat.lt_of_lt_of_le (Nat.sub_one_lt hne) r.count_le))
  else some (r.store value (Nat.lt_of_le_of_ne r.count_le h))

/-- `ds_ringbuf_pop` (`ringbuf.c:84-106`); `none` is `DS_ERR_EMPTY`. -/
def pop : Option (α × RingBuf α) :=
  if h : r.currentCount = 0 then none else some (r.storage r.readPtr, r.dropOldest h)

/-- `ds_ringbuf_peek` (`ringbuf.c:107-125`). -/
def peek : Option α := if r.currentCount = 0 then none else some (r.storage r.readPtr)

/-- `ds_ringbuf_poke` (`ringbuf.c:127-144`). -/
def poke (value : α) : Option (RingBuf α) :=
  if r.currentCount = 0 then none
  else some { r with storage := fun i => if i = r.readPtr then value else r.storage i }

/-- `ds_ringbuf_clear` (`ringbuf.c:146-155`). -/
def clear : RingBuf α :=
  create r.capacity r.failOnFull r.storage (Nat.zero_lt_of_lt r.readPtr_lt)

/-- The items in the buffer, the oldest one first. -/
def contents : List α :=
  (List.range r.currentCount).map fun i => r.storage ((r.readPtr + i) % r.capacity)

end RingBuf

/-! ## The storage -/

/-- An item of `item_size` bytes. -/
abbrev Item (itemSize : Nat) := Fin itemSize → BitVec 8

/-- `elem_ptr` (`ringbuf.c:18-22`), from the start of the storage. -/
def elemPtr (itemSize index : Nat) : Nat := itemSize * index % 2 ^ 32

variable {itemSize : Nat}

/-- `memcpy` from an element. -/
def itemAt (m : Mem) (index : Nat) : Item itemSize := fun k =>
  m ((elemPtr itemSize index + k) % 2 ^ 32)

/-- `memcpy` to an element. -/
def setItem (m : Mem) (index : Nat) (value : Item itemSize) : Mem := fun b =>
  if h : (b + 2 ^ 32 - elemPtr itemSize index) % 2 ^ 32 < itemSize then value ⟨_, h⟩ else m b

/-- A buffer with its bytes. No call looks at the items that `ring` keeps beside the indices. -/
structure ByteRing (itemSize : Nat) where
  ring : RingBuf (Item itemSize)
  storage : Mem

/-- The calls on a buffer. -/
inductive RingOp (α : Type)
  | push (value : α)
  | pop
  | peek
  | poke (value : α)
  | clear
  | size

/-- `DS_SUCCESS`, an error, or what a call gives back. -/
inductive RingAnswer (α : Type)
  | success
  | full
  | empty
  | item (value : α)
  | count (n : Nat)

namespace RingOp

/-- A call, with the buffer afterwards. -/
def exec : RingOp (Item itemSize) → ByteRing itemSize →
    RingAnswer (Item itemSize) × ByteRing itemSize
  | push value, b => (b.ring.push value).elim (.full, b) fun ring =>
    (.success, ⟨ring, setItem b.storage b.ring.writePtr value⟩)
  | pop, b => b.ring.pop.elim (.empty, b) fun (_, ring) =>
    (.item (itemAt b.storage b.ring.readPtr), { b with ring })
  | peek, b => (b.ring.peek.elim .empty fun _ => .item (itemAt b.storage b.ring.readPtr), b)
  | poke value, b => (b.ring.poke value).elim (.empty, b) fun ring =>
    (.success, ⟨ring, setItem b.storage b.ring.readPtr value⟩)
  | clear, b => (.success, { b with ring := b.ring.clear })
  | size, b => (.count b.ring.size, b)

/-- The same on a queue with a bound, the oldest item first. -/
def queue {α : Type} (capacity : Nat) (failOnFull : Bool) :
    RingOp α → List α → RingAnswer α × List α
  | push value, q =>
    if q.length < capacity then (.success, q ++ [value])
    else if failOnFull then (.full, q)
    else (.success, q.tail ++ [value])
  | pop, q => (q.head?.elim .empty .item, q.tail)
  | peek, q => (q.head?.elim .empty .item, q)
  | poke value, q => q.head?.elim (.empty, q) fun _ => (.success, value :: q.tail)
  | clear, _ => (.success, [])
  | size, q => (.count q.length, q)

end RingOp

/-- `ds_ringbuf_create` (`ringbuf.c:24-41`), in a block that holds `storage`. -/
def ByteRing.create (capacity : Nat) (failOnFull : Bool) (storage : Mem) (h : 0 < capacity) :
    ByteRing itemSize :=
  ⟨.create capacity failOnFull (itemAt storage) h, storage⟩

end Stos.Libds
