import Stos.Kernel.Pipe
import Stos.Kernel.Proofs.Wait
import Stos.Libds.Proofs.RingBuf

/-!
# Pipes: proofs

Every byte that a write accepts goes through the ring buffer to one read. A reader that waits does
so for a reason if no step takes the bytes of a reader that was woken up, or leaves bytes to one that
was not: `PipeState.Inv` says what holds between the queue of the wait object and the buffer.
-/

namespace Stos.Kernel

open Libds List Option RingBuf PipeNode PipeEvent Tasks PipeWritten Function Bool PipeState

variable {s s0 s' : PipeState} {ev : PipeEvent} {evs : List PipeEvent} {p : PipeNode}
  {file : PipeFile} {bytes : List (BitVec 8)}

/-! ## The loops -/

theorem popBytes_spec (n : Nat) (r : RingBuf (BitVec 8)) :
    (popBytes r n).1 ++ (popBytes r n).2.contents = r.contents ∧
      (popBytes r n).1.length = min n r.currentCount := by
  induction n generalizing r with
  | zero => simp [popBytes]
  | succ n ih =>
    cases hpop : r.pop with
    | none =>
      have hempty : r.contents = [] := pop_eq_none_iff.mp hpop
      have hcount : r.currentCount = 0 := by simpa using congrArg length hempty
      simp [popBytes, hpop, hcount]
    | some x =>
      obtain ⟨b, r'⟩ := x
      obtain ⟨-, hcontents⟩ := pop_spec hpop
      have hcount : r.currentCount = r'.currentCount + 1 := by
        simpa using congrArg length hcontents
      obtain ⟨happend, hlength⟩ := ih r'
      simp only [popBytes, hpop]
      refine ⟨?_, ?_⟩
      · rw [cons_append, happend, hcontents]
      · rw [length_cons, hlength, hcount]
        omega

theorem pushBytes_spec {bs : List (BitVec 8)} {r : RingBuf (BitVec 8)}
    (h : bs.length ≤ r.freeSpace) :
    (pushBytes r bs).1 = bs.length ∧ (pushBytes r bs).2.contents = r.contents ++ bs := by
  induction bs generalizing r with
  | nil => simp [pushBytes]
  | cons b bs ih =>
    have hroom : r.currentCount < r.capacity := by
      simp only [length_cons, freeSpace] at h
      omega
    cases hpush : r.push b with
    | none => exact absurd (push_eq_none_iff.mp hpush).1 hroom.ne
    | some r' =>
      obtain ⟨hcap, -, hcontents, -⟩ := push_spec hpush
      have hcount : r'.currentCount = r.currentCount + 1 := by
        simpa using congrArg length (hcontents hroom)
      have hfits : bs.length ≤ r'.freeSpace := by
        simp only [length_cons, freeSpace] at h ⊢
        omega
      obtain ⟨hn, happend⟩ := ih hfits
      simp only [pushBytes, hpush]
      refine ⟨by rw [hn, length_cons], ?_⟩
      rw [happend, hcontents hroom, append_assoc, singleton_append]

/-! ## The calls -/

namespace PipeNode

theorem isBufferReady_iff :
    p.isBufferReady = true ↔ p.writeRefCount = 0 ∨ p.ringbuf.contents ≠ [] := by
  rw [← length_pos_iff, length_contents]
  simp [isBufferReady, size]

theorem pipeRead_spec (p : PipeNode) (size : Nat) :
    (p.pipeRead size).1 ++ (p.pipeRead size).2.ringbuf.contents = p.ringbuf.contents ∧
      (p.pipeRead size).1.length = min size p.ringbuf.size ∧
      (p.pipeRead size).2.writeRefCount = p.writeRefCount ∧
      (p.pipeRead size).2.waitObj = p.waitObj := by
  unfold pipeRead
  dsimp only
  split
  case isTrue h => simp [h.1]
  case isFalse =>
    refine ⟨(popBytes_spec _ _).1, ?_, rfl, rfl⟩
    rw [(popBytes_spec _ _).2, RingBuf.size]
    split <;> omega

/-- A write reports the bytes that it appends, and wakes a reader up if there are any. -/
theorem pipeWrite_spec (p : PipeNode) (file : PipeFile) (bytes : List (BitVec 8)) :
    (p.pipeWrite file bytes).2.ringbuf.contents = p.ringbuf.contents ++
        (wrote bytes (p.pipeWrite file bytes).1).accepted ∧
      (wrote bytes (p.pipeWrite file bytes).1).Honest ∧
      ((p.pipeWrite file bytes).1.wakes = false →
        (p.pipeWrite file bytes).2.ringbuf.contents = p.ringbuf.contents) ∧
      ((p.pipeWrite file bytes).1.wakes = true →
        (p.pipeWrite file bytes).2.ringbuf.contents ≠ []) ∧
      (p.pipeWrite file bytes).2.writeRefCount = p.writeRefCount ∧
      (p.pipeWrite file bytes).2.waitObj = p.waitObj := by
  unfold pipeWrite
  split
  · simp [accepted, PipeEvent.Honest, wakes]
  split
  · simp [accepted, PipeEvent.Honest, wakes]
  split
  · simp [accepted, PipeEvent.Honest, wakes]
  dsimp only
  generalize htw : (if p.ringbuf.freeSpace < bytes.length then p.ringbuf.freeSpace
    else bytes.length) = toWrite
  have hfits : (bytes.take toWrite).length ≤ p.ringbuf.freeSpace := by
    rw [length_take, ← htw]
    split <;> omega
  have hle : toWrite ≤ bytes.length := by
    rw [← htw]
    split <;> omega
  have hlen : (bytes.take toWrite).length = toWrite := length_take_of_le hle
  obtain ⟨hn, happend⟩ := pushBytes_spec hfits
  rw [hlen] at hn
  rw [happend, hn]
  refine ⟨rfl, hle, fun h => ?_, fun h => ?_, rfl, rfl⟩
  · have hzero : toWrite = 0 := by simpa [wakes] using h
    rw [hzero, take_zero, append_nil]
  · have hpos : 0 < toWrite := by simpa [wakes] using h
    refine append_ne_nil_of_right_ne_nil _ (length_pos_iff.mp ?_)
    rw [hlen]
    exact hpos

/-- A close keeps the bytes, and wakes a reader up if it closes the last write side. -/
theorem pipeClose_spec (p : PipeNode) (file : PipeFile) :
    (p.pipeClose file).1.ringbuf = p.ringbuf ∧ (p.pipeClose file).1.waitObj = p.waitObj ∧
      ((p.pipeClose file).2 = true → (p.pipeClose file).1.writeRefCount = 0) ∧
      ((p.pipeClose file).2 = false →
        ((p.pipeClose file).1.writeRefCount = 0 ↔ p.writeRefCount = 0)) := by
  unfold pipeClose
  split
  · split <;> simp
  · split
    · simp
      omega
    · simp

end PipeNode

/-! ## Scripts

Runs that can be computed, in which the processor is given away by `scheduler_reschedule`. -/

/-- One entry of a script; the files are an open read side and an open write side. -/
inductive PipeOp where
  | read (size : Nat)
  | resume
  | write (bytes : List (BitVec 8))
  | closeWriteSide
  | reschedule

instance (s : PipeState) : Decidable s.Running :=
  decidable_of_iff (s.reading s.tasks.currentTask = none ∧ ¬ s.IsBlocked s.tasks.currentTask)
    ⟨fun h => ⟨h.1, h.2⟩, fun h => ⟨h.1, h.2⟩⟩

namespace PipeOp

def readFile : PipeFile := { readSide := true, readable := true, writeable := false }

def writeFile : PipeFile := { readSide := false, readable := false, writeable := true }

/-- The event and the next state, if the entry is possible. -/
def exec (s : PipeState) : PipeOp → Option (PipeEvent × PipeState)
  | read size =>
    if s.Running ∧ s.node.readAllowed readFile then do
      let s1 ← s.tasks.waitStart s.node.waitObj .blocked
      if s1.waitAgain s.tasks.currentTask .blocked s.node.isBufferReady then
        return (.other, { s with
          tasks := s1, reading := update s.reading s.tasks.currentTask (some size) })
      else
        let s2 ← s1.waitFinish s.node.waitObj s.tasks.currentTask .blocked
        return (.read s.tasks.currentTask size (s.node.pipeRead size).1,
          { s with tasks := s2, node := (s.node.pipeRead size).2 })
    else none
  | resume => do
    let size ← s.reading s.tasks.currentTask
    if s.tasks.waitAgain s.tasks.currentTask .blocked s.node.isBufferReady then none
    else
      let s1 ← s.tasks.waitFinish s.node.waitObj s.tasks.currentTask .blocked
      return (.read s.tasks.currentTask size (s.node.pipeRead size).1,
        ⟨s1, (s.node.pipeRead size).2, update s.reading s.tasks.currentTask none⟩)
  | write bytes =>
    if s.Running then do
      let s1 ← s.wakeUp (s.node.pipeWrite writeFile bytes).1.wakes
      return (.wrote bytes (s.node.pipeWrite writeFile bytes).1,
        { s with tasks := s1, node := (s.node.pipeWrite writeFile bytes).2 })
    else none
  | closeWriteSide =>
    if s.Running then do
      let s1 ← s.wakeUp (s.node.pipeClose writeFile).2
      return (.other, { s with tasks := s1, node := (s.node.pipeClose writeFile).1 })
    else none
  | reschedule => do
    let s1 ← s.tasks.schedulerReschedule
    if s1.waitObj s.node.waitObj = s.tasks.waitObj s.node.waitObj ∧
        (∀ t ∈ s.waiters, (s1.task t).state = .blocked ↔ s.IsBlocked t) ∧
        (s1.task s1.currentTask).state ≠ .blocked ∧ s1.currentTask ≠ 0 then
      return (.other, { s with tasks := s1 })
    else none

theorem exec_step {op : PipeOp} (h : op.exec s = some (ev, s')) : PipeStep s ev s' := by
  cases op <;>
    simp only [exec, ite_none_right_eq_some, bind_eq_bind, bind_eq_some_iff] at h
  case read size =>
    obtain ⟨⟨hr, hfile⟩, s1, hs1, h⟩ := h
    split at h
    case isTrue hagain =>
      cases h
      exact .readBlocks hr hfile hs1 hagain
    case isFalse hagain =>
      obtain ⟨s2, hs2, h⟩ := bind_eq_some_iff.mp h
      cases h
      exact .readAtOnce hr hfile hs1 (by simpa using hagain) hs2
  case resume =>
    obtain ⟨size, hsize, h⟩ := h
    split at h
    case isTrue => cases h
    case isFalse hagain =>
      obtain ⟨s1, hs1, h⟩ := bind_eq_some_iff.mp h
      cases h
      exact .readResumes hsize (by simpa using hagain) hs1
  case write bytes =>
    obtain ⟨hr, s1, hs1, h⟩ := h
    cases h
    exact .write hr hs1
  case closeWriteSide =>
    obtain ⟨hr, s1, hs1, h⟩ := h
    cases h
    exact .close hr hs1
  case reschedule =>
    obtain ⟨s1, -, ⟨hobj, hstate, hrun, hcur⟩, h⟩ := h
    cases h
    exact .schedule hobj hstate hrun hcur

/-- The events and the last state of a script in which every step passes a test. -/
def execAll (ok : PipeState → PipeEvent → Bool) (ops : List PipeOp) (s : PipeState) :
    Option (List PipeEvent × PipeState) :=
  ops.foldlM (fun x op => (op.exec x.2).bind fun y =>
    if ok x.2 y.1 then some (x.1 ++ [y.1], y.2) else none) ([], s)

theorem execAll_pipeRun {ok : PipeState → PipeEvent → Bool} {ops : List PipeOp}
    (h : execAll ok ops s0 = some (evs, s)) : PipeRun (fun s ev => ok s ev = true) s0 evs s := by
  -- any list of events that leads to the state from which the script goes on
  obtain ⟨x, hx, hstart⟩ : ∃ x : List PipeEvent × PipeState,
    PipeRun (fun s ev => ok s ev = true) s0 x.1 x.2 ∧ ([], s0) = x := ⟨_, .nil, rfl⟩
  rw [execAll, hstart] at h
  clear hstart
  induction ops generalizing x with
  | nil =>
    cases h
    exact hx
  | cons op ops ih =>
    obtain ⟨x', hx', h⟩ := bind_eq_some_iff.mp h
    obtain ⟨y, hy, hx'⟩ := bind_eq_some_iff.mp hx'
    obtain ⟨hok, hx'⟩ := ite_none_right_eq_some.mp hx'
    cases hx'
    exact ih _ h (.snoc hx hok (exec_step hy))

end PipeOp

theorem PipeRun.mono {ok ok' : PipeState → PipeEvent → Prop} (hok : ∀ s ev, ok s ev → ok' s ev)
    (h : PipeRun ok s0 evs s) : PipeRun ok' s0 evs s := by
  induction h with
  | nil => exact .nil
  | snoc _ hev hstep ih => exact .snoc ih (hok _ _ hev) hstep

/-- Task 32 runs, task 48 is ready, and the wait object at 4096 is a new queue. -/
def twoTasks : Tasks :=
  (SchedOp.execAll [.allocate 4096 false, .create 32 (blankTask 1),
    .create 48 (blankTask 2), .reschedule] bootTasks).getD bootTasks

/-- A new pipe with one read side and one write side. -/
def newPipe : PipeState :=
  { tasks := twoTasks
    node := { ringbuf := create pipeBufSize true (fun _ => 0) (by decide), readRefCount := 1,
              writeRefCount := 1, waitObj := 4096 }
    reading := fun _ => none }

theorem newPipe_created : newPipe.Created where
  ringbuf := ⟨_, rfl⟩
  noReader _ := rfl
  noWaiter := by decide +kernel
  queueMode := by decide +kernel
  running := by decide +kernel
  current := by decide +kernel

/-! ## First in, first out -/

/-- One step of any task moves bytes from the writer to the buffer or from the buffer to the reader. -/
theorem PipeStep.contents (h : PipeStep s ev s') :
    ev.returned ++ s'.node.ringbuf.contents = s.node.ringbuf.contents ++ ev.accepted := by
  cases h with
  | readAtOnce => exact (s.node.pipeRead_spec _).1.trans (append_nil _).symm
  | readBlocks => simp [returned, accepted]
  | readResumes => exact (s.node.pipeRead_spec _).1.trans (append_nil _).symm
  | readRefused => simp [returned, accepted]
  | write => exact (s.node.pipeWrite_spec _ _).1
  | close => simp [returned, accepted, (s.node.pipeClose_spec _).1]
  | schedule => simp [returned, accepted]

theorem PipeStep.honest (h : PipeStep s ev s') : ev.Honest := by
  cases h with
  | write => exact (s.node.pipeWrite_spec _ _).2.1
  | _ => trivial

/-- In every run of readers and writers the bytes that reads have returned, followed by the contents
of the buffer, are the bytes that writes have accepted, and a write reports the number of bytes that
it has accepted. -/
theorem pipeRun_fifo {ok : PipeState → PipeEvent → Prop} (h₀ : s₀.Created)
    (hrun : PipeRun ok s₀ evs s) :
    evs.flatMap PipeEvent.returned ++ s.node.ringbuf.contents = evs.flatMap PipeEvent.accepted ∧
      ∀ ev ∈ evs, ev.Honest := by
  induction hrun with
  | nil =>
    obtain ⟨storage, hbuf⟩ := h₀.ringbuf
    simp [hbuf]
  | snoc _ _ hstep ih =>
    obtain ⟨hsum, hhonest⟩ := ih
    refine ⟨?_, fun ev hev => ?_⟩
    · rw [flatMap_append, flatMap_append, flatMap_singleton, flatMap_singleton,
        append_assoc, hstep.contents, ← append_assoc, hsum]
    · rcases mem_append.mp hev with hold | hnew
      · exact hhonest ev hold
      · rw [mem_singleton.mp hnew]
        exact hstep.honest

theorem pipeRun_fifo_two : ∃ evs s, PipeRun (fun _ _ => True) newPipe evs s ∧
    evs.flatMap PipeEvent.returned = [1, 2] ∧ s.node.ringbuf.contents = [3] ∧
    evs.flatMap PipeEvent.accepted = [1, 2, 3] := by
  obtain ⟨⟨evs, s⟩, hs, hreturned, hcontents⟩ :
      ∃ x ∈ PipeOp.execAll (fun _ _ => true) [.write [1, 2], .read 1, .write [3], .read 1] newPipe,
        x.1.flatMap returned = [1, 2] ∧ x.2.node.ringbuf.contents = [3] := by
    decide +kernel
  have hrun : PipeRun (fun _ _ => True) newPipe evs s :=
    (PipeOp.execAll_pipeRun hs).mono fun _ _ _ => trivial
  refine ⟨evs, s, hrun, hreturned, hcontents, ?_⟩
  rw [← (pipeRun_fifo newPipe_created hrun).1, hreturned, hcontents]
  rfl

/-! ## Readers that wait -/

namespace PipeState

/-- The readers that wait are queued in the wait object. All but the first of them are blocked, and
the first one is blocked exactly if it has a reason to. -/
structure Inv (s : PipeState) : Prop where
  queue : Tasks.QueueOk s.tasks s.node.waitObj
  readers : ∀ t, t ∈ s.waiters ↔ s.reading t ≠ none
  tail : ∀ t ∈ s.waiters.tail, s.IsBlocked t
  head : ∀ t ∈ s.waiters.head?, s.IsBlocked t ↔ s.node.isBufferReady = false
  current : s.IsBlocked s.tasks.currentTask → s.node.isBufferReady = false

theorem Created.inv (h : s.Created) : s.Inv where
  queue := by
    have hw : (s.tasks.waitObj s.node.waitObj).waiters = [] := h.noWaiter
    exact ⟨h.queueMode, by simp [hw], by simp [hw], h.current⟩
  readers t := by simp [h.noWaiter, h.noReader]
  tail := by simp [h.noWaiter]
  head := by simp [h.noWaiter]
  current hb := absurd hb h.running

namespace Inv

variable {s1 s2 : Tasks} {size : Nat}

theorem not_mem_waiters (h : s.Inv) (hr : s.Running) : s.tasks.currentTask ∉ s.waiters :=
  fun hmem => (h.readers _).mp hmem hr.notReading

/-- The queue stays, and the tasks in it are blocked as before or woken up. -/
theorem sameQueue (h : s.Inv) {p : PipeNode} (hp : p.waitObj = s.node.waitObj)
    (hw : (s1.waitObj s.node.waitObj).waiters = s.waiters)
    (hmode : (s1.waitObj s.node.waitObj).wakeupAll = false) (hcur : s1.currentTask ≠ 0)
    (htail : ∀ t ∈ s.waiters.tail, (s1.task t).state = .blocked)
    (hhead : ∀ t ∈ s.waiters.head?, (s1.task t).state = .blocked ↔ p.isBufferReady = false)
    (hrun : (s1.task s1.currentTask).state ≠ .blocked) : Inv { s with tasks := s1, node := p } := by
  have hq := h.queue
  rw [← hp] at hw hmode
  refine ⟨⟨hmode, hw ▸ hq.nodup, hw ▸ hq.ne_zero, hcur⟩, fun t => ?_, fun t ht => ?_,
    fun t ht => ?_, fun hb => absurd hb hrun⟩
  · rw [waiters, hw]
    exact h.readers t
  · rw [waiters, hw] at ht
    exact htail t ht
  · rw [waiters, hw] at ht
    exact hhead t ht

/-- A call that changes the node, and wakes the first reader up if the buffer is ready then. -/
theorem wake (h : s.Inv) (hr : s.Running) {p : PipeNode} {wake : Bool} (hp : p.waitObj = s.node.waitObj)
    (hs1 : s.wakeUp wake = some s1) (hready : wake = true → p.isBufferReady = true)
    (hsame : wake = false → p.isBufferReady = s.node.isBufferReady) :
    Inv { s with tasks := s1, node := p } := by
  cases wake with
  | false =>
    cases hs1
    exact h.sameQueue hp rfl h.queue.mode h.queue.current h.tail (hsame rfl ▸ h.head) hr.notBlocked
  | true =>
    obtain ⟨hstate, hobj, hcur⟩ := waitWakeUp_effect h.queue hs1
    refine h.sameQueue hp (by rw [hobj]; rfl) (hobj ▸ h.queue.mode) (hcur ▸ h.queue.current)
      (fun t ht => ?_) (fun t ht => ?_) fun hb => ?_
    · have hne : s.waiters.head? ≠ some t := fun e => by
        obtain ⟨l, hl⟩ := List.head?_eq_some_iff.mp e
        have hnodup : s.waiters.Nodup := h.queue.nodup
        rw [hl, nodup_cons] at hnodup
        rw [hl, tail_cons] at ht
        exact hnodup.1 ht
      exact ((hstate t).trans (if_neg hne)).trans (h.tail t ht)
    · have hwoken : (s1.task t).state = .waiting := (hstate t).trans (if_pos ht)
      simp [hwoken, hready rfl]
    · rw [hcur, hstate] at hb
      split at hb
      · cases hb
      · exact hr.notBlocked hb

/-- A reader starts to wait. -/
theorem readBlocks (h : s.Inv) (hr : s.Running)
    (hs1 : s.tasks.waitStart s.node.waitObj .blocked = some s1)
    (hagain : s1.waitAgain s.tasks.currentTask .blocked s.node.isBufferReady = true) :
    Inv { s with
      tasks := s1, reading := update s.reading s.tasks.currentTask (some size) } := by
  obtain ⟨hstate, hwaiters, hmode, hcur⟩ := waitStart_effect h.queue.current hs1
  have hready : s.node.isBufferReady = false := by
    simp only [waitAgain, and_eq_true, not_eq_true'] at hagain
    exact hagain.2
  have hnew := h.not_mem_waiters hr
  have hold : ∀ t ∈ s.waiters, (s1.task t).state = (s.tasks.task t).state := fun t ht => by
    have hne : t ≠ s.tasks.currentTask := fun e => hnew (e ▸ ht)
    rw [hstate, if_neg hne]
  have hself : (s1.task s.tasks.currentTask).state = .blocked := by rw [hstate, if_pos rfl]
  have hw : (s1.waitObj s.node.waitObj).waiters = s.waiters ++ [s.tasks.currentTask] := hwaiters
  have hmem : ∀ t ∈ s.waiters ++ [s.tasks.currentTask], t ∈ s.waiters ∨ t = s.tasks.currentTask := by
    simp
  refine ⟨⟨hmode.trans h.queue.mode, ?_, fun t ht => ?_, hcur ▸ h.queue.current⟩, fun t => ?_,
    fun t ht => ?_, fun t ht => ?_, fun _ => hready⟩
  · rw [hw]
    exact nodup_append.mpr ⟨h.queue.nodup, by simp, fun a ha b hb e =>
      hnew (mem_singleton.mp hb ▸ e ▸ ha)⟩
  · rw [hw] at ht
    rcases hmem t ht with ht | rfl
    · exact h.queue.ne_zero t ht
    · exact h.queue.current
  · rw [waiters, hw, mem_append, mem_singleton, h.readers]
    by_cases ht : t = s.tasks.currentTask
    · simp [ht]
    · simp [ht]
  · rw [waiters, hw] at ht
    cases hl : s.waiters with
    | nil => simp [hl] at ht
    | cons a l =>
      rw [hl, cons_append, tail_cons, mem_append, mem_singleton] at ht
      rcases ht with ht | rfl
      · have hb := h.tail t (by rw [hl]; exact ht)
        exact (hold t (by rw [hl]; exact mem_cons_of_mem _ ht)).trans hb
      · exact hself
  · rw [waiters, hw] at ht
    rw [hready, iff_true_intro rfl, iff_true]
    cases hl : s.waiters with
    | nil =>
      rw [hl] at ht
      cases ht
      exact hself
    | cons a l =>
      rw [hl] at ht
      cases ht
      exact (hold t (by simp [hl])).trans ((h.head t (by simp [hl])).mpr hready)

/-- A read that does not have to wait. -/
theorem readAtOnce (h : s.Inv) (hr : s.Running)
    (hs1 : s.tasks.waitStart s.node.waitObj .blocked = some s1)
    (hagain : s1.waitAgain s.tasks.currentTask .blocked s.node.isBufferReady = false)
    (hs2 : s1.waitFinish s.node.waitObj s.tasks.currentTask .blocked = some s2)
    (hcareful : (∀ t ∈ s.waiters, s.IsBlocked t) ∨ size < s.node.ringbuf.size ∨
      s.node.writeRefCount = 0) :
    s.node.isBufferReady = true ∧
      Inv { s with tasks := s2, node := (s.node.pipeRead size).2 } := by
  obtain ⟨hstate1, hwaiters1, hmode1, hcur1⟩ := waitStart_effect h.queue.current hs1
  obtain ⟨hstate2, hwaiters2, hmode2, hcur2⟩ := waitFinish_effect h.queue.current hs2
  have hleft := waitFinish_left h.queue.current (by decide) hs2
  have hready : s.node.isBufferReady = true := by
    simpa [waitAgain, hstate1] using hagain
  have hnew := h.not_mem_waiters hr
  obtain ⟨hcontents, hlength, hrefs, hobj⟩ := s.node.pipeRead_spec size
  have hw : (s2.waitObj s.node.waitObj).waiters = s.waiters := by
    rw [hwaiters2, hwaiters1, ← waiters, erase_append_right _ hnew]
    simp
  have hold : ∀ t ∈ s.waiters, (s2.task t).state = (s.tasks.task t).state := fun t ht => by
    have hne : t ≠ s.tasks.currentTask := fun e => hnew (e ▸ ht)
    rw [hstate2 t hne, hstate1, if_neg hne]
  have hcur : s2.currentTask = s.tasks.currentTask := hcur2.trans hcur1
  refine ⟨hready, h.sameQueue hobj hw (hmode2.trans (hmode1.trans h.queue.mode))
    (hcur ▸ h.queue.current) (fun t ht => ?_) (fun t ht => ?_) (hcur ▸ hleft)⟩
  · exact (hold t (mem_of_mem_tail ht)).trans (h.tail t ht)
  · have hmem : t ∈ s.waiters := mem_of_mem_head? ht
    -- the first reader was woken up, so that the read has to leave it something
    have hwoken : ¬ s.IsBlocked t := fun hb => by
      rw [(h.head t ht).mp hb] at hready
      cases hready
    have hstill : (s.node.pipeRead size).2.isBufferReady = true := by
      rw [isBufferReady_iff, hrefs]
      rcases hcareful with hall | hless | hclosed
      · exact absurd (hall t hmem) hwoken
      · refine .inr fun e => ?_
        have hsum := congrArg length hcontents
        rw [e, append_nil, hlength, length_contents, ← RingBuf.size] at hsum
        omega
      · exact .inl hclosed
    have hnot : (s2.task t).state ≠ .blocked := fun hb => hwoken ((hold t hmem).symm.trans hb)
    simp [hnot, hstill]

/-- A reader goes on after its wait. -/
theorem readResumes (h : s.Inv) (hreading : s.reading s.tasks.currentTask = some size)
    (hagain : s.tasks.waitAgain s.tasks.currentTask .blocked s.node.isBufferReady = false)
    (hs1 : s.tasks.waitFinish s.node.waitObj s.tasks.currentTask .blocked = some s1)
    (hcareful : (∀ t ∈ s.waiters, t = s.tasks.currentTask) ∨
      s.node.ringbuf.size ≤ size ∧ s.node.writeRefCount ≠ 0) :
    s.node.isBufferReady = true ∧
      Inv { tasks := s1, node := (s.node.pipeRead size).2,
            reading := update s.reading s.tasks.currentTask none } := by
  obtain ⟨hstate, hwaiters, hmode, hcur⟩ := waitFinish_effect h.queue.current hs1
  have hleft := waitFinish_left h.queue.current (by decide) hs1
  have hmem : s.tasks.currentTask ∈ s.waiters := (h.readers _).mpr (by simp [hreading])
  have hwoken : ¬ s.IsBlocked s.tasks.currentTask := fun hb => by
    have hst : (s.tasks.task s.tasks.currentTask).state = .blocked := hb
    simp [waitAgain, hst, h.current hb] at hagain
  -- all but the first reader are blocked
  obtain ⟨l, hl⟩ : ∃ l, s.waiters = s.tasks.currentTask :: l := by
    cases hlist : s.waiters with
    | nil => simp [hlist] at hmem
    | cons a l =>
      rw [hlist] at hmem
      rcases mem_cons.mp hmem with rfl | htail
      · exact ⟨l, rfl⟩
      · exact absurd (h.tail _ (by rw [hlist]; exact htail)) hwoken
  have hready : s.node.isBufferReady = true := by
    have hhead := h.head s.tasks.currentTask (by simp [hl])
    simpa using fun e => hwoken (hhead.mpr e)
  obtain ⟨hcontents, hlength, hrefs, hobj⟩ := s.node.pipeRead_spec size
  have hw (r : Nat → Option Nat) : waiters ⟨s1, (s.node.pipeRead size).2, r⟩ = l := by
    rw [waiters]
    rw [hobj, hwaiters, ← waiters, hl, erase_cons_head]
  have hnodup : (s.tasks.currentTask :: l).Nodup := hl ▸ h.queue.nodup
  obtain ⟨hnew, hnodup⟩ := nodup_cons.mp hnodup
  have hold : ∀ t ∈ l, (s1.task t).state = .blocked := fun t ht => by
    rw [hstate t (fun e => hnew (e ▸ ht))]
    exact h.tail t (by rw [hl]; exact ht)
  refine ⟨hready, ⟨?_, fun t => ?_, fun t ht => ?_, fun t ht => ?_, fun hb => ?_⟩⟩
  · have hl' : (s1.waitObj (s.node.pipeRead size).2.waitObj).waiters = l := hw s.reading
    refine ⟨?_, hl' ▸ hnodup, fun t ht => ?_, hcur ▸ h.queue.current⟩
    · rw [hobj, hmode]
      exact h.queue.mode
    · refine h.queue.ne_zero t ?_
      rw [← waiters, hl]
      exact mem_cons_of_mem _ (hl' ▸ ht)
  · rw [hw]
    have hiff := h.readers t
    rw [hl, mem_cons] at hiff
    by_cases ht : t = s.tasks.currentTask
    · simp [ht, hnew]
    · simpa [ht] using hiff
  · rw [hw] at ht
    exact hold t (mem_of_mem_tail ht)
  · rw [hw] at ht
    have htl : t ∈ l := mem_of_mem_head? ht
    have hb := hold t htl
    refine ⟨fun _ => ?_, fun _ => hb⟩
    rcases hcareful with halone | ⟨hall, hopen⟩
    · have he : t = s.tasks.currentTask := halone t (by rw [hl]; exact mem_cons_of_mem _ htl)
      exact absurd (he ▸ htl) hnew
    · have hlen := congrArg length hcontents
      rw [length_append, hlength, length_contents s.node.ringbuf, ← RingBuf.size,
        min_eq_right hall] at hlen
      have hempty : (s.node.pipeRead size).2.ringbuf.contents = [] :=
        length_eq_zero_iff.mp (by omega)
      rw [← not_eq_true, isBufferReady_iff, hrefs, hempty]
      simp [hopen]
  · exact absurd (hcur ▸ hb : (s1.task s.tasks.currentTask).state = .blocked) hleft

theorem schedule (h : s.Inv) (hobj : s1.waitObj s.node.waitObj = s.tasks.waitObj s.node.waitObj)
    (hstate : ∀ t ∈ s.waiters, (s1.task t).state = .blocked ↔ s.IsBlocked t)
    (hrun : (s1.task s1.currentTask).state ≠ .blocked) (hcur : s1.currentTask ≠ 0) :
    Inv { s with tasks := s1 } := by
  refine h.sameQueue rfl (by rw [hobj]; rfl) (hobj ▸ h.queue.mode) hcur (fun t ht => ?_)
    (fun t ht => ?_) hrun
  · exact (hstate t (mem_of_mem_tail ht)).mpr (h.tail t ht)
  · exact (hstate t (mem_of_mem_head? ht)).trans (h.head t ht)

end Inv

/-- A read that finds the buffer ready and returns no bytes is at the end of the file. -/
theorem endsRight_of_ready {t size : Nat} (h : s.node.isBufferReady = true) :
    PipeEvent.EndsRight s (.read t size (s.node.pipeRead size).1) := by
  intro hsize hnone
  have hlen := (s.node.pipeRead_spec size).2.1
  have hempty : s.node.ringbuf.contents = [] := by
    rw [← length_eq_zero_iff, length_contents]
    rw [hnone, RingBuf.size] at hlen
    simp only [length_nil] at hlen
    omega
  exact ⟨hempty, by simpa [hempty] using isBufferReady_iff.mp h⟩

theorem Inv.noneStuck (h : s.Inv) : s.NoneStuck := by
  intro hall t ht
  have hmem : t ∈ s.waiters := (h.readers t).mpr ht
  obtain ⟨a, l, hl⟩ := exists_cons_of_ne_nil (ne_nil_of_mem hmem)
  have hfirst : s.IsBlocked a := hall a (by simp [hl])
  have hready : ¬ s.node.isBufferReady = true := by
    rw [(h.head a (by simp [hl])).mp hfirst]
    decide
  rw [isBufferReady_iff] at hready
  push Not at hready
  exact ⟨hready.2, hready.1⟩

end PipeState

/-- A careful step keeps the invariant, and if it is a read, it returns no bytes only at the end of
the file. -/
theorem PipeStep.inv (hstep : PipeStep s ev s') (hcareful : ev.Careful s) (h : s.Inv) :
    ev.EndsRight s ∧ s'.Inv := by
  cases hstep with
  | readAtOnce hr _ hs1 hagain hs2 =>
    rw [PipeEvent.Careful, if_pos hr.notReading] at hcareful
    obtain ⟨hready, hinv⟩ := h.readAtOnce hr hs1 hagain hs2 hcareful
    exact ⟨endsRight_of_ready hready, hinv⟩
  | readBlocks hr _ hs1 hagain => exact ⟨trivial, h.readBlocks hr hs1 hagain⟩
  | readResumes hreading hagain hs1 =>
    rw [PipeEvent.Careful, if_neg (by simp [hreading])] at hcareful
    obtain ⟨hready, hinv⟩ := h.readResumes hreading hagain hs1 hcareful
    exact ⟨endsRight_of_ready hready, hinv⟩
  | readRefused => exact ⟨trivial, h⟩
  | write hr hs1 =>
    obtain ⟨-, -, hnone, hsome, hrefs, hobj⟩ := s.node.pipeWrite_spec _ _
    refine ⟨trivial, h.wake hr hobj hs1 (fun hwakes => ?_) (fun hquiet => ?_)⟩
    · exact isBufferReady_iff.mpr (.inr (hsome hwakes))
    · rw [Bool.eq_iff_iff, isBufferReady_iff, isBufferReady_iff, hrefs,
        hnone hquiet]
  | close hr hs1 =>
    obtain ⟨hbuf, hobj, hlast, hother⟩ := s.node.pipeClose_spec _
    refine ⟨trivial, h.wake hr hobj hs1 (fun hwakes => ?_) (fun hquiet => ?_)⟩
    · exact isBufferReady_iff.mpr (.inl (hlast hwakes))
    · rw [Bool.eq_iff_iff, isBufferReady_iff, isBufferReady_iff, hbuf,
        hother hquiet]
  | schedule hobj hstate hrun hcur => exact ⟨trivial, h.schedule hobj hstate hrun hcur⟩

theorem PipeRun.inv (h0 : s0.Created) (hrun : PipeRun (fun s ev => ev.Careful s) s0 evs s) :
    s.Inv := by
  induction hrun with
  | nil => exact h0.inv
  | snoc _ hcareful hstep ih => exact (hstep.inv hcareful ih).2

end Stos.Kernel
