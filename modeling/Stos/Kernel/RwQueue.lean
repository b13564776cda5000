import Stos.Misc.Calls

/-!
# Positions of a queue of waiting requests

`rwq_allocate_pos` and `rwq_deallocate_pos` (`kernel/vfs/rw_queue/rw_queue.c`), and sequences of them. The
number of positions in use is right only until the second allocation.
-/

namespace Stos.Kernel

/-- `rw_queue_t` without its lock. -/
structure RwQueue where
  rwWaitMap : List (BitVec 32)
  count : Nat
  capacity : Nat

namespace RwQueue

/-- `RW_QUEUE_FREE_TO_USE`. -/
def freeToUse : BitVec 32 := 0

/-- `RW_QUEUE_NOT_READY`. -/
def notReady : BitVec 32 := 1

/-- `RW_QUEUE_INIT`. -/
def init : RwQueue := ⟨[], 0, 0⟩

/-- Ten more words, of which `memset` clears ten bytes: two words and half of the third. The others are as
`krealloc` has found them (`rw_queue.c:22-27`). -/
def newWords (found : Nat → BitVec 32) : List (BitVec 32) :=
  [0, 0, found 2 &&& 0xffff0000] ++ (List.range' 3 7).map found

/-- `rwq_allocate_pos` (`rw_queue.c:14-44`): the position, or `none` for `abort()`. -/
def rwqAllocatePos (found : Nat → BitVec 32) (q : RwQueue) : Option Nat × RwQueue :=
  if q.capacity = q.count then
    (some q.count,
      { rwWaitMap := (q.rwWaitMap ++ newWords found).set q.count notReady
        count := (q.count + 1) % 2 ^ 32
        capacity := (q.capacity + 10) % 2 ^ 32 })
  else
    match (List.range q.capacity).find? fun i => q.rwWaitMap[i]? = some freeToUse with
    | some i => (some i, { q with rwWaitMap := q.rwWaitMap.set i notReady })
    | none => (none, q)

/-- `rwq_deallocate_pos` (`rw_queue.c:46-64`). -/
def rwqDeallocatePos (idx : Nat) (q : RwQueue) : RwQueue :=
  if q.capacity ≤ idx then q
  else
    { q with
      count := if q.rwWaitMap[idx]? = some freeToUse then q.count else (q.count + 2 ^ 32 - 1) % 2 ^ 32
      rwWaitMap := q.rwWaitMap.set idx freeToUse }

end RwQueue

/-- The calls on a queue. -/
inductive RwqCall
  | allocate (found : Nat → BitVec 32)
  | deallocate (idx : Nat)

namespace RwqCall

open RwQueue

/-- The call is an allocation. -/
def isAllocate : RwqCall → Bool
  | allocate _ => true
  | deallocate _ => false

/-- A call on a queue with the positions that are in use, and the position that it returns. -/
def exec : RwqCall → RwQueue × List Nat → Option Nat × RwQueue × List Nat
  | allocate found, (q, used) =>
    let (pos, q) := q.rwqAllocatePos found
    (pos, q, pos.toList ++ used)
  | deallocate idx, (q, used) => (none, q.rwqDeallocatePos idx, used.erase idx)

/-- Only positions in use are given back. -/
def OnLive : RwqCall → RwQueue × List Nat → Prop
  | allocate _, _ => True
  | deallocate idx, s => idx ∈ s.2

/-- An allocation returns a position that is not in use, and the count is right after the call. -/
def Right (c : RwqCall) (s : RwQueue × List Nat) : Prop :=
  (c.isAllocate → ∃ pos ∉ s.2, (c.exec s).1 = some pos) ∧ (c.exec s).2.1.count = (c.exec s).2.2.length

variable {found found' : Nat → BitVec 32} {cs : List RwqCall}

/-- The queue after its first allocation. -/
def firstUsed (found : Nat → BitVec 32) : RwQueue :=
  ⟨notReady :: (newWords found).tail, 1, 10⟩

/-- The queue after the first position was given back. -/
def firstFreed (found : Nat → BitVec 32) : RwQueue := ⟨newWords found, 0, 10⟩

/-- A second allocation takes a position without counting it. -/
theorem not_right_used : ¬ (allocate found').Right (firstUsed found, [0]) :=
  fun h => nomatch (show 1 = 2 from h.2)

theorem not_right_freed : ¬ (allocate found').Right (firstFreed found, []) :=
  fun h => nomatch (show 0 = 1 from h.2)

theorem exec_deallocate :
    ((deallocate 0).exec (firstUsed found, [0])).2 = (firstFreed found, []) := by
  simp [exec, rwqDeallocatePos, firstUsed, firstFreed, newWords, freeToUse, notReady]

/-- With one position in use, all goes well until the next allocation. -/
theorem right_used_iff (live : Calls.Along exec OnLive cs (firstUsed found, [0])) :
    Calls.Along exec Right cs (firstUsed found, [0]) ↔ cs.countP isAllocate = 0 := by
  cases cs with
  | nil => exact iff_of_true trivial rfl
  | cons c cs =>
    cases c with
    | allocate found' => exact iff_of_false (fun h => not_right_used h.1) (by simp [isAllocate])
    | deallocate idx =>
      obtain rfl : idx = 0 := List.mem_singleton.mp live.1
      rw [Calls.Along, Right, exec_deallocate] at *
      cases cs with
      | nil => exact iff_of_true ⟨⟨nofun, rfl⟩, trivial⟩ rfl
      | cons c cs =>
        cases c with
        | allocate found' => exact iff_of_false (fun h => not_right_freed h.2.1) (by simp [isAllocate])
        | deallocate idx => exact nomatch live.2.1

/-- In a sequence of calls that give back positions in use only, each allocation returns a position that is
not in use and the count stays right exactly if there is one allocation at most. -/
theorem rwqRun_right_iff (cs : List RwqCall)
    (live : Calls.Along exec OnLive cs (init, [])) :
    Calls.Along exec Right cs (init, []) ↔ cs.countP isAllocate ≤ 1 := by
  cases cs with
  | nil => exact iff_of_true trivial (Nat.zero_le 1)
  | cons c cs =>
    cases c with
    | allocate found =>
      have right : (allocate found).Right (init, []) := ⟨fun _ => ⟨0, List.not_mem_nil, rfl⟩, rfl⟩
      have counted : (allocate found :: cs).countP isAllocate ≤ 1 ↔ cs.countP isAllocate = 0 := by
        rw [List.countP_cons_of_pos rfl]
        omega
      rw [counted, ← right_used_iff live.2]
      exact and_iff_right right
    | deallocate idx => exact nomatch live.1

/-- One allocation. -/
theorem rwqRun_right_iff_once : Calls.Along exec Right [allocate fun _ => 7] (init, []) :=
  (rwqRun_right_iff [allocate fun _ => 7] ⟨trivial, trivial⟩).mpr (by decide)

/-- After two allocations two positions are in use, and the count is 1. -/
theorem rwqRun_uncounted : ∃ q, Calls.run exec [allocate fun _ => 0, allocate fun _ => 0] (init, []) =
    ([some 0, some 1], q, [1, 0]) ∧ q.count = 1 :=
  ⟨_, rfl, rfl⟩

end RwqCall

end Stos.Kernel
