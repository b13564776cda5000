import Stos.Libds.RingBuf
import Stos.Misc.Calls

/-!
# Ring buffers are queues
-/

namespace Stos.Libds

open List RingBuf Nat

namespace RingBuf

variable {α : Type} {r r' : RingBuf α} {value : α}

@[simp] theorem length_contents (r : RingBuf α) : r.contents.length = r.currentCount := by
  simp [contents]

@[simp] theorem contents_create (capacity : Nat) (failOnFull : Bool) (storage : Nat → α)
    (h : 0 < capacity) : (create capacity failOnFull storage h).contents = [] := rfl

/-- Two items of the buffer are in different places. -/
theorem index_ne (r : RingBuf α) {i j : Nat} (hi : i < j) (hj : j < r.capacity) :
    (r.readPtr + i) % r.capacity ≠ (r.readPtr + j) % r.capacity := by
  have hlt := r.readPtr_lt
  intro h
  rcases Nat.lt_or_ge (r.readPtr + j) r.capacity with hsmall | hlarge
  · rw [Nat.mod_eq_of_lt (by omega), Nat.mod_eq_of_lt hsmall] at h
    omega
  · have hwrap : r.readPtr + j - r.capacity < r.capacity := by omega
    rw [Nat.mod_eq_sub_mod hlarge, Nat.mod_eq_of_lt hwrap] at h
    rcases Nat.lt_or_ge (r.readPtr + i) r.capacity with hi' | hi'
    · rw [Nat.mod_eq_of_lt hi'] at h
      omega
    · rw [Nat.mod_eq_sub_mod hi', Nat.mod_eq_of_lt (by omega)] at h
      omega

theorem contents_dropOldest (h : r.currentCount ≠ 0) :
    r.contents = r.storage r.readPtr :: (r.dropOldest h).contents := by
  obtain ⟨n, hn⟩ : ∃ n, r.currentCount = n + 1 := ⟨r.currentCount - 1, by omega⟩
  have hfirst : (r.readPtr + 0) % r.capacity = r.readPtr := Nat.mod_eq_of_lt r.readPtr_lt
  unfold contents dropOldest
  dsimp only
  rw [hn, range_succ_eq_map, map_cons, hfirst, map_map, Nat.add_sub_cancel]
  congr 1
  refine map_congr_left fun i _ => ?_
  dsimp only [Function.comp]
  rw [Nat.mod_add_mod]
  congr 2
  omega

theorem contents_store (h : r.currentCount < r.capacity) :
    (r.store value h).contents = r.contents ++ [value] := by
  unfold contents store
  dsimp only
  rw [range_succ, map_append, map_singleton, ← r.writePtr_eq, if_pos rfl]
  congr 1
  refine map_congr_left fun i hi => if_neg ?_
  rw [r.writePtr_eq]
  exact r.index_ne (mem_range.mp hi) h

/-- A push adds an item at the end, if there is room or the oldest item may be lost. -/
theorem push_spec (h : r.push value = some r') :
    r'.capacity = r.capacity ∧ r'.failOnFull = r.failOnFull ∧
      (r.currentCount < r.capacity → r'.contents = r.contents ++ [value]) ∧
      (r.currentCount = r.capacity → r'.contents = r.contents.tail ++ [value]) ∧
      r'.storage = fun i => if i = r.writePtr then value else r.storage i := by
  unfold push at h
  split at h
  case isTrue hfull =>
    split at h
    · cases h
    · obtain rfl := Option.some.inj h
      refine ⟨rfl, rfl, fun hlt => absurd hfull (Nat.ne_of_lt hlt), fun _ => ?_, rfl⟩
      have hne : r.currentCount ≠ 0 := hfull ▸ Nat.ne_zero_of_lt r.readPtr_lt
      have hcontents := contents_dropOldest hne
      rw [contents_store, hcontents, tail_cons]
  case isFalse hroom =>
    obtain rfl := Option.some.inj h
    exact ⟨rfl, rfl, fun _ => contents_store _, fun hfull => absurd hfull hroom, rfl⟩

theorem push_eq_none_iff : r.push value = none ↔ r.currentCount = r.capacity ∧ r.failOnFull = true := by
  unfold push
  split
  case isTrue hfull =>
    split
    case isTrue hfail => simp [hfull, hfail]
    case isFalse hfail => simp [hfail]
  case isFalse hroom => simp [hroom]

/-- A pop takes the oldest item. -/
theorem pop_spec {x : α} (h : r.pop = some (x, r')) :
    r'.failOnFull = r.failOnFull ∧ r.contents = x :: r'.contents := by
  unfold pop at h
  split at h
  · cases h
  · cases h
    exact ⟨rfl, contents_dropOldest _⟩

theorem pop_eq_none_iff : r.pop = none ↔ r.contents = [] := by
  rw [← length_eq_zero_iff, length_contents]
  unfold pop
  split
  case isTrue h => simp [h]
  case isFalse h => simp [h]

/-- The first item is the one that a peek shows. -/
theorem peek_eq (r : RingBuf α) : r.peek = r.contents.head? := by
  unfold peek
  split
  case isTrue h =>
    rw [length_eq_zero_iff.mp (r.length_contents.trans h)]
    rfl
  case isFalse h =>
    rw [contents_dropOldest h]
    rfl

/-- A poke replaces the first item. -/
theorem poke_spec {x : α} {rest : List α} (h : r.contents = x :: rest) (value : α) :
    ∃ r', r.poke value = some r' ∧ r'.capacity = r.capacity ∧ r'.failOnFull = r.failOnFull ∧
      r'.contents = value :: rest := by
  have hcount : r.currentCount = rest.length + 1 := by rw [← length_contents, h, length_cons]
  rw [poke, if_neg (by omega)]
  refine ⟨_, rfl, rfl, rfl, ?_⟩
  have hfirst : (r.readPtr + 0) % r.capacity = r.readPtr := mod_eq_of_lt r.readPtr_lt
  unfold contents at h ⊢
  dsimp only
  rw [hcount, range_succ_eq_map, map_cons, map_map, hfirst] at h ⊢
  rw [if_pos rfl]
  congr 1
  refine Eq.trans (map_congr_left fun i hi => if_neg ?_) (cons.inj h).2
  have hlt : i + 1 < r.capacity := by
    have := r.count_le
    have := mem_range.mp hi
    omega
  have := r.index_ne (succ_pos i) hlt
  rw [hfirst] at this
  exact Ne.symm this

end RingBuf

/-! ## The bytes -/

variable {itemSize capacity i j : Nat} {failOnFull : Bool} {m : Mem} {value : Item itemSize}

/-- Elements do not overlap where the storage fits into the address space. -/
theorem itemAt_setItem (fits : itemSize * capacity < 2 ^ 32) (hi : i < capacity) (hj : j < capacity) :
    itemAt (setItem m j value) i = if i = j then value else itemAt m i := by
  have hpi := Nat.lt_of_le_of_lt (Nat.mul_le_mul_left itemSize hi) fits
  have hpj := Nat.lt_of_le_of_lt (Nat.mul_le_mul_left itemSize hj) fits
  rw [Nat.mul_succ] at hpi hpj
  funext k
  unfold itemAt setItem elemPtr
  by_cases heq : i = j
  · subst heq
    rw [if_pos rfl, dif_pos (by omega)]
    congr 1
    ext
    dsimp only
    omega
  · have apart : itemSize * i + itemSize ≤ itemSize * j ∨ itemSize * j + itemSize ≤ itemSize * i := by
      rcases Nat.lt_or_gt_of_ne heq with hlt | hlt
      · exact .inl (Nat.mul_le_mul_left itemSize hlt)
      · exact .inr (Nat.mul_le_mul_left itemSize hlt)
    rw [dif_neg (by omega), if_neg heq, Nat.mod_eq_of_lt (by omega)]

/-- The bytes are those of the items, and the items those of a queue. -/
structure ByteRing.Holds (capacity : Nat) (failOnFull : Bool) (b : ByteRing itemSize)
    (q : List (Item itemSize)) : Prop where
  bytes : ∀ i < capacity, itemAt b.storage i = b.ring.storage i
  room : b.ring.capacity = capacity
  mode : b.ring.failOnFull = failOnFull
  contents : b.ring.contents = q

/-- Every call does to the bytes what it does to a queue. -/
theorem RingOp.exec_queue (fits : itemSize * capacity < 2 ^ 32) (op : RingOp (Item itemSize))
    (b : ByteRing itemSize) (q : List (Item itemSize)) (h : b.Holds capacity failOnFull q) :
    (op.exec b).1 = (op.queue capacity failOnFull q).1 ∧
      (op.exec b).2.Holds capacity failOnFull (op.queue capacity failOnFull q).2 := by
  obtain ⟨bytes, rfl, rfl, rfl⟩ := h
  have count := b.ring.length_contents
  have le := b.ring.count_le
  have first := bytes _ b.ring.readPtr_lt
  cases op with
  | push value =>
    rw [exec, queue, count]
    cases hpush : b.ring.push value with
    | none =>
      obtain ⟨hfull, hfail⟩ := push_eq_none_iff.mp hpush
      rw [if_neg (by omega), if_pos hfail]
      exact ⟨rfl, bytes, rfl, rfl, rfl⟩
    | some ring =>
      obtain ⟨hcapacity, hfail, hroom, hfull, hstorage⟩ := push_spec hpush
      have hwrite : b.ring.writePtr < b.ring.capacity :=
        b.ring.writePtr_eq ▸ mod_lt _ (zero_lt_of_lt b.ring.readPtr_lt)
      have hbytes : ∀ i < b.ring.capacity,
          itemAt (setItem b.storage b.ring.writePtr value) i = ring.storage i := by
        intro i hi
        rw [itemAt_setItem fits hi hwrite, hstorage, bytes i hi]
      by_cases hlt : b.ring.currentCount < b.ring.capacity
      · rw [if_pos hlt]
        exact ⟨rfl, hbytes, hcapacity, hfail, hroom hlt⟩
      · have heq : b.ring.currentCount = b.ring.capacity := by omega
        have hmode : ¬ b.ring.failOnFull = true := fun hmode => by
          rw [push_eq_none_iff.mpr ⟨heq, hmode⟩] at hpush
          cases hpush
        rw [if_neg hlt, if_neg hmode]
        exact ⟨rfl, hbytes, hcapacity, hfail, hfull heq⟩
  | pop =>
    rw [exec, queue, first]
    by_cases hempty : b.ring.currentCount = 0
    · rw [RingBuf.pop, dif_pos hempty, length_eq_zero_iff.mp (count.trans hempty)]
      exact ⟨rfl, bytes, rfl, rfl, length_eq_zero_iff.mp (count.trans hempty)⟩
    · rw [RingBuf.pop, dif_neg hempty, contents_dropOldest hempty]
      exact ⟨rfl, bytes, rfl, rfl, rfl⟩
  | peek =>
    rw [exec, queue, first, ← peek_eq, RingBuf.peek]
    split
    · exact ⟨rfl, bytes, rfl, rfl, rfl⟩
    · exact ⟨rfl, bytes, rfl, rfl, rfl⟩
  | poke value =>
    rw [exec, queue]
    cases hq : b.ring.contents with
    | nil =>
      rw [RingBuf.poke, if_pos (by rw [← count, hq]; rfl)]
      exact ⟨rfl, bytes, rfl, rfl, hq⟩
    | cons x rest =>
      have hne : ¬ b.ring.currentCount = 0 := by simp [← count, hq]
      obtain ⟨ring, hpoke, hcapacity, hfail, hcontents⟩ := poke_spec hq value
      rw [RingBuf.poke, if_neg hne] at hpoke ⊢
      obtain rfl := Option.some.inj hpoke
      refine ⟨rfl, fun i hi => ?_, hcapacity, hfail, hcontents⟩
      refine (itemAt_setItem fits hi b.ring.readPtr_lt).trans ?_
      rw [bytes i hi]
      rfl
  | clear => exact ⟨rfl, bytes, rfl, rfl, rfl⟩
  | size => exact ⟨congrArg _ count.symm, bytes, rfl, rfl, rfl⟩

/-- A buffer whose storage has a size that does not wrap around answers all calls as a bounded queue,
and never holds more items than it has room for. -/
theorem ringRun_fifo (hcapacity : 0 < capacity) (failOnFull : Bool) (storage : Mem)
    (fits : itemSize * capacity < 2 ^ 32) (ops : List (RingOp (Item itemSize))) :
    (Calls.run RingOp.exec ops (.create capacity failOnFull storage hcapacity)).1 =
        (Calls.run (RingOp.queue capacity failOnFull) ops []).1 ∧
      (Calls.run RingOp.exec ops (.create capacity failOnFull storage hcapacity)).2.ring.size ≤
        capacity := by
  have start : (.create capacity failOnFull storage hcapacity : ByteRing itemSize).Holds capacity
      failOnFull [] := ⟨fun _ _ => rfl, rfl, rfl, rfl⟩
  obtain ⟨answers, h⟩ := Calls.run_refines (P := fun _ _ => True) (RingOp.queue capacity failOnFull)
    (fun op b q h _ => RingOp.exec_queue fits op b q h)
    (Calls.along_of_forall (fun _ _ => trivial) ops _) start
  exact ⟨answers, Nat.le_trans (count_le _) (Nat.le_of_eq h.room)⟩

theorem ringRun_fifo_one :
    (Calls.run RingOp.exec [.push fun _ => 7, .pop]
        (@ByteRing.create 1 2 true (fun _ => 0) (by decide))).1 =
      (Calls.run (RingOp.queue 2 true) [.push fun _ => 7, .pop] []).1 :=
  (ringRun_fifo (by decide) true (fun _ => 0) (by decide) _).1

/-- The third of three items of 2^31 bytes is stored over the first. -/
theorem ringRun_overlap :
    (Calls.run RingOp.exec [.push fun _ => 0, .push fun _ => 0, .push fun _ => 1, .peek]
      (@ByteRing.create (2 ^ 31) 3 true (fun _ => 0) (by decide))).1 ≠
    (Calls.run (RingOp.queue 3 true) [.push fun _ => 0, .push fun _ => 0, .push fun _ => 1, .peek]
      []).1 := by
  intro same
  have hitem := (List.cons.inj (List.cons.inj (List.cons.inj (List.cons.inj same).2).2).2).1
  have hbyte := congrFun (RingAnswer.item.inj hitem) ⟨0, by decide⟩
  exact absurd hbyte (by decide)

end Stos.Libds
