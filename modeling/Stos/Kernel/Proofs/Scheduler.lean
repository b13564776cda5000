import Stos.Kernel.SchedulerRuns
import Stos.Kernel.Proofs.SchedulerQueues

/-!
# Every task in one place

The queues of the scheduler agree with the states of the tasks as long as the processor is given
away only while at most one task is ready.
-/

namespace Stos.Kernel

open List Finset TaskState Function SchedOp

namespace Tasks

variable {s s' : Tasks} {t u w x e idle : Nat} {q : Queue} {qs : Queue → List Nat} {st : TaskState}

/-! ## Changing states -/

section SetState

variable (s t st u)

@[simp] theorem setState_state :
    ((s.setState t st).task u).state = if u = t then st else (s.task u).state :=
  modify_field Task.state s t u _

@[simp] theorem setState_prev : ((s.setState t st).task u).prev = (s.task u).prev :=
  modify_field_same Task.prev s t u fun _ => rfl

@[simp] theorem setState_next : ((s.setState t st).task u).next = (s.task u).next :=
  modify_field_same Task.next s t u fun _ => rfl

@[simp] theorem setState_pid : ((s.setState t st).task u).pid = (s.task u).pid :=
  modify_field_same Task.pid s t u fun _ => rfl

@[simp] theorem setState_queueHead : (s.setState t st).queueHead = s.queueHead := rfl
@[simp] theorem setState_table : (s.setState t st).table = s.table := rfl
@[simp] theorem setState_currentTask : (s.setState t st).currentTask = s.currentTask := rfl
@[simp] theorem setState_idleTaskPid : (s.setState t st).idleTaskPid = s.idleTaskPid := rfl
@[simp] theorem setState_waitObj : (s.setState t st).waitObj = s.waitObj := rfl

end SetState

theorem SameTasks.setState (h : SameTasks s s') (t : Nat) (st : TaskState) :
    SameTasks (s.setState t st) (s'.setState t st) := by
  refine ⟨fun u => ?_, h.table, h.waitObj, h.current, h.idle, h.found⟩
  unfold Tasks.setState
  rw [modify_task, modify_task]
  split
  · exact congrArg (fun x : Task => { x with state := st }) (h.unplaced t)
  · exact h.unplaced u

/-- Only the links, and the state of `t`, change. -/
theorem schedulerMoveTaskToState_sameTasks (ht : t ≠ 0)
    (h : s.schedulerMoveTaskToState t st = some s') : SameTasks (s.setState t st) s' := by
  unfold schedulerMoveTaskToState at h
  rw [if_neg ht] at h
  exact ((removeFromQueue_sameTasks s t).setState t st).trans (addToQueue_sameTasks h)

/-- What depends neither on the links nor on the state is the same after a move. -/
theorem schedulerMoveTaskToState_field {α : Type} (ht : t ≠ 0)
    (h : s.schedulerMoveTaskToState t st = some s') (g : Task → α)
    (hg : ∀ x, g (unplaced x) = g x) (hst : ∀ x st, g { x with state := st } = g x) (u : Nat) :
    g (s'.task u) = g (s.task u) := by
  rw [(schedulerMoveTaskToState_sameTasks ht h).field g hg, setState, modify_task]
  split
  · next e => rw [hst, e]
  · rfl

/-! ## Queues that agree with the states -/

/-- The queues are well linked and the tasks are in the queues of their states, with the exception
of a task `e` that is being moved (0 if none is). -/
structure Placed (s : Tasks) (e : Nat) (qs : Queue → List Nat) : Prop extends QueuesOk s qs where
  queued : ∀ t ∈ s.table, t ≠ e → ∀ q, t ∈ qs q ↔ (s.task t).state.queue = some q
  running : ∀ t ∈ s.table, t ≠ e → (s.task t).state = .running → t = s.currentTask

/-- Links and queues, but neither states nor the current task, matter for the queues. -/
theorem QueuesOk.congr (h : QueuesOk s qs) (htable : s'.table = s.table)
    (hhead : s'.queueHead = s.queueHead) (hnext : ∀ u, (s'.task u).next = (s.task u).next)
    (hprev : ∀ u, (s'.task u).prev = (s.task u).prev) : QueuesOk s' qs := by
  refine ⟨by rw [htable]; exact h.address, fun q => ?_, by rw [htable]; exact h.mem, h.apart,
    fun u hu hq => ?_⟩
  · rw [hhead]
    exact (h.dll q).congr (fun y _ => hnext y) fun y _ => hprev y
  · rw [hnext, hprev]
    exact h.loose u (htable ▸ hu) hq

theorem QueuesOk.setState (h : QueuesOk s qs) (t : Nat) (st : TaskState) :
    QueuesOk (s.setState t st) qs :=
  h.congr rfl rfl (setState_next s t · st) (setState_prev s t · st)

theorem Placed.but (h : Placed s 0 qs) (e : Nat) : Placed s e qs :=
  ⟨h.toQueuesOk, fun t ht _ => h.queued t ht (h.address t ht).1,
    fun t ht _ => h.running t ht (h.address t ht).1⟩

theorem Placed.move (h : Placed s t qs) (ht : t ∈ s.table)
    (hst : st = .running → t = s.currentTask) :
    ∃ s' qs', s.schedulerMoveTaskToState t st = some s' ∧ Placed s' 0 qs' := by
  have ht0 := (h.address t ht).1
  have hrem : QueuesOk ((s.removeFromQueue t).setState t st) fun q => (qs q).erase t :=
    (h.toQueuesOk.remove ht).setState t st
  have hsame := (removeFromQueue_sameTasks s t).setState t st
  have hstate : ∀ u, (((s.removeFromQueue t).setState t st).task u).state =
      if u = t then st else (s.task u).state := fun u => by
    rw [hsame.state, setState_state]
  have hgone : ∀ q, t ∉ (qs q).erase t := fun q => (h.dll q).nodup.not_mem_erase
  obtain ⟨s', qs', hs', hok, hsame', hmem⟩ := hrem.place (hsame.table ▸ ht) hgone
  refine ⟨s', qs', ?_, hok, fun u hu _ q => ?_, fun u hu _ hr => ?_⟩
  · rw [schedulerMoveTaskToState, if_neg ht0]
    exact hs'
  · rw [hsame'.table, hsame.table] at hu
    rw [hmem, hsame'.state, hstate, hstate, if_pos rfl]
    by_cases hut : u = t
    · simp [hut, hgone]
    · rw [mem_erase_of_ne hut, h.queued u hu hut]
      simp [hut]
  · rw [hsame'.table, hsame.table] at hu
    rw [hsame'.state, hstate] at hr
    rw [hsame'.current, hsame.current]
    split at hr
    · next e => exact e.trans (hst hr)
    · next hut => exact h.running u hu hut hr

/-- What every operation keeps, with the exception of a task `e` that is being moved. The idle task
is never blocked and never in a wait object, so it is ready whenever it does not run. -/
structure SchedInv (s : Tasks) (idle e : Nat) : Prop where
  placed : ∃ qs, Placed s e qs
  current : s.currentTask ∈ s.table
  idleMem : idle ∈ s.table
  idlePid : ∀ t ∈ s.table, (s.task t).pid = s.idleTaskPid ↔ t = idle
  idleState : idle ≠ e → (s.task idle).state = .running ∨ (s.task idle).state = .waiting
  alive : ∀ t ∈ s.table, t ≠ e → (s.task t).state ≠ .zombie ∧ (s.task t).state ≠ .dead
  waiters : ∀ w, ∀ t ∈ (s.waitObj w).waiters, t ∈ s.table ∧ t ≠ idle

theorem SchedInv.ne_zero (h : SchedInv s idle e) (ht : t ∈ s.table) : t ≠ 0 := by
  obtain ⟨qs, hqs⟩ := h.placed
  exact (hqs.address t ht).1

theorem SchedInv.but (h : SchedInv s idle 0) (e : Nat) : SchedInv s idle e := by
  obtain ⟨qs, hqs⟩ := h.placed
  exact ⟨⟨qs, hqs.but e⟩, h.current, h.idleMem, h.idlePid,
    fun _ => h.idleState (h.ne_zero h.idleMem), fun t ht _ => h.alive t ht (h.ne_zero ht), h.waiters⟩

/-- The states that the invariant allows. -/
def Fits (idle u : Nat) (st : TaskState) : Prop :=
  (st ≠ .zombie ∧ st ≠ .dead) ∧ (u = idle → st = .running ∨ st = .waiting)

theorem SchedInv.fits (h : SchedInv s idle e) (hu : u ∈ s.table) (hne : u ≠ e) :
    Fits idle u (s.task u).state := by
  refine ⟨h.alive u hu hne, ?_⟩
  rintro rfl
  exact h.idleState hne

/-- The invariant after the links, states and the current task have changed. -/
theorem SchedInv.rebuild {e' : Nat} (h : SchedInv s idle e) (hplaced : Placed s' e' qs)
    (htable : s'.table = s.table) (hcurrent : s'.currentTask ∈ s.table)
    (hpid : ∀ u, (s'.task u).pid = (s.task u).pid) (hidle : s'.idleTaskPid = s.idleTaskPid)
    (hwait : s'.waitObj = s.waitObj)
    (hfits : ∀ u ∈ s.table, u ≠ e' → Fits idle u (s'.task u).state) : SchedInv s' idle e' := by
  refine ⟨⟨qs, hplaced⟩, htable ▸ hcurrent, htable ▸ h.idleMem, fun u hu => ?_,
    fun hne => (hfits idle h.idleMem hne).2 rfl, fun u hu hne => (hfits u (htable ▸ hu) hne).1, ?_⟩
  · rw [hpid, hidle]
    exact h.idlePid u (htable ▸ hu)
  · rw [hwait, htable]
    exact h.waiters

/-- The states into which the operations move a task. -/
structure MoveOk (s : Tasks) (idle t : Nat) (st : TaskState) : Prop where
  mem : t ∈ s.table
  running : st = .running → t = s.currentTask
  idle : t = idle → st = .running ∨ st = .waiting
  alive : st ≠ .zombie ∧ st ≠ .dead

theorem SchedInv.move (h : SchedInv s idle t) (hm : MoveOk s idle t st) :
    ∃ s', s.schedulerMoveTaskToState t st = some s' ∧ SchedInv s' idle 0 ∧
      SameTasks (s.setState t st) s' := by
  obtain ⟨qs, hqs⟩ := h.placed
  obtain ⟨s', qs', hs', hplaced⟩ := hqs.move hm.mem hm.running
  have hsame := schedulerMoveTaskToState_sameTasks (hqs.address t hm.mem).1 hs'
  refine ⟨s', hs', h.rebuild hplaced hsame.table (hsame.current ▸ h.current)
    (fun u => (hsame.pid u).trans (setState_pid s t u st)) hsame.idle hsame.waitObj
    fun u hu _ => ?_, hsame⟩
  rw [hsame.state, setState_state]
  split
  · next e => exact ⟨hm.alive, fun hi => hm.idle (e ▸ hi)⟩
  · next hne => exact h.fits hu hne

/-! ## Waiting and waking up -/

/-- The wait objects do not matter for the queues. -/
theorem SchedInv.setWaitObj (h : SchedInv s idle 0) {o : WaitObj}
    (ho : ∀ t ∈ o.waiters, t ∈ s.table ∧ t ≠ idle) : SchedInv (s.setWaitObj w o) idle 0 := by
  obtain ⟨qs, hqs⟩ := h.placed
  refine ⟨⟨qs, hqs.toQueuesOk.congr rfl rfl (fun _ => rfl) fun _ => rfl, hqs.queued, hqs.running⟩,
    h.current, h.idleMem, h.idlePid, h.idleState, h.alive, fun w' t ht => ?_⟩
  rw [setWaitObj_waitObj] at ht
  split at ht
  · exact ho t ht
  · exact h.waiters w' t ht

theorem SchedInv.start (h : SchedInv s idle 0) (hst : st.Blocking)
    (hidle : (s.task s.currentTask).pid ≠ s.idleTaskPid) :
    ∃ s', s.waitStart w st = some s' ∧ SchedInv s' idle 0 := by
  have hcur : s.currentTask ≠ idle := fun e => hidle ((h.idlePid _ h.current).mpr e)
  obtain ⟨qs, hqs⟩ := h.placed
  have hm : MoveOk s idle s.currentTask st := by
    refine ⟨h.current, fun _ => rfl, fun e => absurd e hcur, ?_⟩
    rcases hst with rfl | rfl <;> simp
  obtain ⟨s1, hs1, hinv, hsame⟩ := (h.but _).move hm
  refine ⟨s1.enqueueWaiter w s.currentTask, ?_, hinv.setWaitObj fun t ht => ?_⟩
  · rw [waitStart, if_neg (hqs.address _ h.current).1, hs1]
    rfl
  · rcases mem_append.mp ht with ht | ht
    · exact hinv.waiters w t ht
    · rw [List.mem_singleton.mp ht, hsame.table]
      exact ⟨h.current, hcur⟩

theorem SchedInv.finish (h : SchedInv s idle 0) :
    ∃ s', s.waitFinish w s.currentTask st = some s' ∧ SchedInv s' idle 0 := by
  have hinv : SchedInv (s.dequeueWaiter w s.currentTask) idle 0 :=
    h.setWaitObj fun t ht => h.waiters w t (mem_of_mem_erase ht)
  unfold waitFinish
  by_cases hst : ((s.dequeueWaiter w s.currentTask).task s.currentTask).state = st
  · have hm : MoveOk (s.dequeueWaiter w s.currentTask) idle s.currentTask .running :=
      ⟨h.current, fun _ => rfl, fun _ => .inl rfl, by simp⟩
    obtain ⟨s', hs', hinv', -⟩ := (hinv.but _).move hm
    exact ⟨s', by simp only [hst, if_true, hs'], hinv'⟩
  · exact ⟨_, by simp only [hst, if_false], hinv⟩

theorem SchedInv.wake (h : SchedInv s idle 0) (ht : t ∈ s.table ∧ t ≠ idle) :
    ∃ s', s.schedulerMoveTaskToState t .waiting = some s' ∧ SchedInv s' idle 0 ∧
      s'.table = s.table := by
  have hm : MoveOk s idle t .waiting := ⟨ht.1, by simp, fun e => absurd e ht.2, by simp⟩
  obtain ⟨s', hs', hinv, hsame⟩ := (h.but _).move hm
  exact ⟨s', hs', hinv, hsame.table⟩

theorem SchedInv.wakeAll (ts : List Nat) (h : SchedInv s idle 0)
    (hts : ∀ t ∈ ts, t ∈ s.table ∧ t ≠ idle) :
    ∃ s', ts.foldlM (fun s t => s.schedulerMoveTaskToState t .waiting) s = some s' ∧
      SchedInv s' idle 0 := by
  induction ts generalizing s with
  | nil => exact ⟨s, rfl, h⟩
  | cons t ts ih =>
    obtain ⟨s1, hs1, hinv, htable⟩ := h.wake (hts t (by simp))
    obtain ⟨s', hs', hinv'⟩ := ih hinv fun u hu => htable ▸ hts u (by simp [hu])
    exact ⟨s', by rw [foldlM_cons, hs1]; exact hs', hinv'⟩

theorem SchedInv.wakeUp (h : SchedInv s idle 0) :
    ∃ s', s.waitWakeUp w = some s' ∧ SchedInv s' idle 0 := by
  unfold waitWakeUp
  split
  · exact h.wakeAll _ (h.waiters w)
  · cases hw : (s.waitObj w).waiters with
    | nil => exact ⟨s, rfl, h⟩
    | cons t ts =>
      obtain ⟨s', hs', hinv, -⟩ := h.wake (h.waiters w t (by simp [hw]))
      exact ⟨s', hs', hinv⟩

theorem SchedInv.addPending (h : SchedInv s idle 0) (sig : Nat) :
    SchedInv (s.addPending t sig) idle 0 := by
  obtain ⟨qs, hqs⟩ := h.placed
  have hkeep : ∀ {α : Type} (g : Task → α) (_ : ∀ x b, g { x with sigPending := b } = g x) (u : Nat),
      g ((s.addPending t sig).task u) = g (s.task u) :=
    fun g hg u => modify_field_same g s t u fun x => hg x _
  have hstate := hkeep Task.state fun _ _ => rfl
  have hplaced : Placed (s.addPending t sig) 0 qs := by
    refine ⟨hqs.toQueuesOk.congr rfl rfl (hkeep Task.next fun _ _ => rfl)
      (hkeep Task.prev fun _ _ => rfl), fun u hu hne q => ?_, fun u hu hne hr => ?_⟩
    · rw [hstate]
      exact hqs.queued u hu hne q
    · exact hqs.running u hu hne (hstate u ▸ hr)
  exact h.rebuild hplaced rfl h.current (hkeep Task.pid fun _ _ => rfl) rfl rfl
    fun u hu hne => hstate u ▸ h.fits hu hne

theorem SchedInv.signal (h : SchedInv s idle 0) (ht : t ∈ s.table) (sig : Nat) :
    ∃ s', s.sysSigsendImpl t sig = some s' ∧ SchedInv s' idle 0 := by
  have hinv : SchedInv (s.addPending t sig) idle 0 := h.addPending sig
  unfold sysSigsendImpl
  by_cases hst : ((s.addPending t sig).task t).state = .blocked ∨
      ((s.addPending t sig).task t).state = .sleeping
  · have hne : t ≠ idle := by
      rintro rfl
      rcases hinv.idleState (hinv.ne_zero ht) with e | e <;> simp [e] at hst
    obtain ⟨s', hs', hinv', -⟩ := hinv.wake ⟨ht, hne⟩
    exact ⟨s', by simp only [hst, if_true, hs'], hinv'⟩
  · exact ⟨_, by simp only [hst, if_false], hinv⟩

/-! ## New tasks -/

theorem newTask_task (s : Tasks) (t : Nat) (x : Task) (u : Nat) :
    (s.newTask t x).task u = if u = t then x else s.task u :=
  update_apply ..

theorem SchedInv.newTask {x : Task} (h : SchedInv s idle 0)
    (ht : t ∉ s.table ∧ t ≠ 0 ∧ t < walkLimit) (hx : x.prev = 0 ∧ x.next = 0)
    (hpid : ∀ u ∈ s.table, (s.task u).pid ≠ x.pid) : SchedInv (s.newTask t x) idle t := by
  obtain ⟨qs, hqs⟩ := h.placed
  have hold : ∀ u ∈ s.table, (s.newTask t x).task u = s.task u := fun u hu => by
    have hut : u ≠ t := fun e => ht.1 (e ▸ hu)
    rw [newTask_task, if_neg hut]
  have hmem : ∀ u, u ∈ (s.newTask t x).table ↔ u = t ∨ u ∈ s.table := fun u => mem_insert
  have hne : ∀ u ∈ s.table, u ≠ 0 := fun u hu => h.ne_zero hu
  have hidle := hpid idle h.idleMem
  rw [(h.idlePid idle h.idleMem).mpr rfl] at hidle
  refine ⟨⟨qs, ⟨fun u hu => ?_, fun q => ?_, fun q u hu => ?_, hqs.apart, fun u hu hq => ?_⟩,
    fun u hu hut q => ?_, fun u hu hut hr => ?_⟩, (hmem _).mpr (.inr h.current),
    (hmem _).mpr (.inr h.idleMem), fun u hu => ?_, fun hit => ?_, fun u hu hut => ?_,
    fun w u hu => ?_⟩
  · rcases (hmem u).mp hu with rfl | hu
    · exact ht.2
    · exact hqs.address u hu
  · refine (hqs.dll q).congr (fun y hy => ?_) fun y hy => ?_
    · rw [hold y (hqs.mem q y hy)]
    · rw [hold y (hqs.mem q y hy)]
  · exact (hmem u).mpr (.inr (hqs.mem q u hu))
  · rcases (hmem u).mp hu with rfl | hu
    · rw [newTask_task, if_pos rfl]
      exact hx
    · rw [hold u hu]
      exact hqs.loose u hu hq
  · have hu := ((hmem u).mp hu).resolve_left hut
    rw [hold u hu]
    exact hqs.queued u hu (hne u hu) q
  · have hu := ((hmem u).mp hu).resolve_left hut
    rw [hold u hu] at hr
    exact hqs.running u hu (hne u hu) hr
  · rcases (hmem u).mp hu with rfl | hu
    · rw [newTask_task, if_pos rfl]
      exact ⟨fun e => absurd e.symm hidle, fun e => absurd (e ▸ h.idleMem) ht.1⟩
    · rw [hold u hu]
      exact h.idlePid u hu
  · rw [hold idle h.idleMem]
    exact h.idleState (hne idle h.idleMem)
  · have hu := ((hmem u).mp hu).resolve_left hut
    rw [hold u hu]
    exact h.alive u hu (hne u hu)
  · obtain ⟨hm, hi⟩ := h.waiters w u hu
    exact ⟨(hmem u).mpr (.inr hm), hi⟩

theorem SchedInv.create {x : Task} (h : SchedInv s idle 0)
    (ht : t ∉ s.table ∧ t ≠ 0 ∧ t < walkLimit) (hx : x.prev = 0 ∧ x.next = 0)
    (hpid : ∀ u ∈ s.table, (s.task u).pid ≠ x.pid) :
    ∃ s', (s.newTask t x).schedulerAddTask t = some s' ∧ SchedInv s' idle 0 := by
  have hm : MoveOk (s.newTask t x) idle t .waiting :=
    ⟨mem_insert_self t _, by simp, fun e => absurd (e ▸ h.idleMem) ht.1, by simp⟩
  obtain ⟨s', hs', hinv, -⟩ := (h.newTask ht hx hpid).move hm
  exact ⟨s', hs', hinv⟩

/-! ## Giving the processor away -/

/-- A task that gives the processor away while it runs becomes ready, and any other one stays as it
is. -/
theorem leave_eq (s : Tasks) (t : Nat) : ∃ st,
    (st = .waiting ∧ (s.task t).state = .running ∨
      st = (s.task t).state ∧ (s.task t).state ≠ .running) ∧
    (if (s.task t).state = .running then s.setState t .waiting else s) = s.setState t st := by
  by_cases hrun : (s.task t).state = .running
  · exact ⟨.waiting, .inl ⟨rfl, hrun⟩, if_pos hrun⟩
  · exact ⟨_, .inr ⟨rfl, hrun⟩, (if_neg hrun).trans (modify_eq_self _ _ _ rfl).symm⟩

theorem SchedInv.switchTo (h : SchedInv s idle x) (hqs : Placed s x qs) (hx : x ∈ s.table)
    (hfree : ∀ q, x ∉ qs q) (hxc : s.currentTask ≠ x)
    (hcur : (s.task s.currentTask).state ≠ .waiting) :
    ∃ s', s.switchTo s.currentTask x = some s' ∧ SchedInv s' idle 0 := by
  obtain ⟨st, hst, hs1⟩ := s.leave_eq s.currentTask
  obtain ⟨s1, hs1'⟩ : ∃ s1, (s.setState s.currentTask st).setState x .running = s1 := ⟨_, rfl⟩
  have hplace := hqs.queued s.currentTask h.current hxc
  have hok : QueuesOk s1 qs := hs1' ▸ (hqs.toQueuesOk.setState _ _).setState _ _
  have hstate : ∀ u, (s1.task u).state =
      if u = x then .running else if u = s.currentTask then st else (s.task u).state := fun u => by
    simp [← hs1']
  have hstate' : (s1.task s.currentTask).state = st := by simp [hstate, hxc]
  have hleft : st ≠ .running ∧ Fits idle s.currentTask st := by
    rcases hst with ⟨rfl, -⟩ | ⟨rfl, hrun⟩
    · simp [Fits]
    · exact ⟨hrun, h.fits h.current hxc⟩
  -- only a task that ran has to be put into a queue
  obtain ⟨s2, qs2, hs2, hok2, hsame, hmem, hcur2⟩ : ∃ s2 qs2,
      (if st = .waiting then s1.addToQueue s.currentTask else some s1) = some s2 ∧
      QueuesOk s2 qs2 ∧ SameTasks s1 s2 ∧
      (∀ q u, u ≠ s.currentTask → (u ∈ qs2 q ↔ u ∈ qs q)) ∧
      ∀ q, s.currentTask ∈ qs2 q ↔ st.queue = some q := by
    rcases hst with ⟨rfl, hrun⟩ | ⟨rfl, -⟩
    · have hnone : ∀ q, s.currentTask ∉ qs q := fun q hm => by
        have := (hplace q).mp hm
        rw [hrun] at this
        cases this
      obtain ⟨s2, qs2, hs2, hok2, hsame, hmem⟩ := hok.place (hs1' ▸ h.current) hnone
      rw [hstate'] at hmem
      exact ⟨s2, qs2, hs2, hok2, hsame, fun q u hu => by simp [hmem, hu],
        fun q => by simp [hmem, hnone]⟩
    · exact ⟨s1, qs, if_neg hcur, hok, .refl s1, fun _ _ _ => .rfl, hplace⟩
  have htable : s2.table = s.table := hsame.table.trans (hs1' ▸ rfl)
  have hplaced : Placed { s2 with currentTask := x } 0 qs2 := by
    refine ⟨hok2.congr rfl rfl (fun _ => rfl) fun _ => rfl, fun u hu _ q => ?_, fun u hu _ hr => ?_⟩
    · rw [hsame.state, hstate]
      by_cases hux : u = x
      · subst hux
        simp [hmem q u hxc.symm, hfree, queue]
      · rw [if_neg hux]
        by_cases huc : u = s.currentTask
        · rw [if_pos huc, huc]
          exact hcur2 q
        · rw [if_neg huc, hmem q u huc]
          exact hqs.queued u (htable ▸ hu) hux q
    · rw [hsame.state, hstate] at hr
      by_contra hux
      rw [if_neg hux] at hr
      by_cases huc : u = s.currentTask
      · rw [if_pos huc] at hr
        exact hleft.1 hr
      · rw [if_neg huc] at hr
        exact huc (hqs.running u (htable ▸ hu) hux hr)
  refine ⟨{ s2 with currentTask := x }, ?_, h.rebuild hplaced htable hx (fun u => ?_)
    (hsame.idle.trans (hs1' ▸ rfl)) (hsame.waitObj.trans (hs1' ▸ rfl)) fun u hu _ => ?_⟩
  · simp only [Tasks.switchTo, hs1, hs1', hstate', hs2, Option.map_some]
  · refine (hsame.pid u).trans ?_
    simp [← hs1']
  · rw [hsame.state, hstate]
    split
    · simp [Fits]
    · next hux =>
      split
      · next huc => exact huc ▸ hleft.2
      · exact h.fits hu hux

/-- Taking a task out of the ready queue, where it was alone. -/
theorem Placed.takeOnly (h : Placed s 0 qs) (hx : qs .waiting = [x]) :
    ∃ qs', Placed (s.setHead .waiting 0) x qs' ∧ ∀ q, x ∉ qs' q := by
  have hdll := h.dll .waiting
  rw [hx] at hdll
  obtain ⟨-, hx0, hprev, hnext⟩ := hdll.linked
  have hmem : ∀ q u, u ∈ update qs .waiting [] q ↔ u ∈ qs q ∧ u ≠ x := by
    intro q u
    by_cases hq : q = .waiting
    · subst hq
      simp [hx]
    · rw [update_of_ne hq]
      refine ⟨fun hu => ⟨hu, fun e => hq ?_⟩, fun hu => hu.1⟩
      exact h.apart q .waiting x (e ▸ hu) (by simp [hx])
  refine ⟨update qs .waiting [], ⟨⟨h.address, fun q => ?_,
    fun q u hu => h.mem q u ((hmem q u).mp hu).1,
    fun q q' u hu hu' => h.apart q q' u ((hmem q u).mp hu).1 ((hmem q' u).mp hu').1,
    fun u hu hq => ?_⟩, fun u hu hux q => ?_, fun u hu _ => h.running u hu (h.address u hu).1⟩,
    fun q hm => ((hmem q x).mp hm).2 rfl⟩
  · rw [setHead]
    by_cases hq : q = .waiting
    · subst hq
      exact ⟨rfl, nodup_nil⟩
    · simp only [update_of_ne hq]
      exact h.dll q
  · by_cases hux : u = x
    · rw [hux]
      exact ⟨hprev, hnext⟩
    · exact h.loose u hu fun q hm => hq q ((hmem q u).mpr ⟨hm, hux⟩)
  · rw [hmem]
    simpa [hux] using h.queued u hu (h.address u hu).1 q

/-- The switch to a task that was alone in the ready queue. -/
theorem SchedInv.switchToOnly (h : SchedInv s idle 0) (hqs : Placed s 0 qs)
    (hx : qs .waiting = [x]) (hxc : s.currentTask ≠ x) :
    ∃ s', (s.setHead .waiting 0).switchTo s.currentTask x = some s' ∧ SchedInv s' idle 0 := by
  obtain ⟨qs', hplaced, hfree⟩ := hqs.takeOnly hx
  have hinv : SchedInv (s.setHead .waiting 0) idle x := h.rebuild hplaced rfl h.current
    (fun _ => rfl) rfl rfl fun u hu _ => h.fits hu (h.ne_zero hu)
  refine hinv.switchTo hplaced (hqs.mem .waiting x (by simp [hx])) hfree hxc fun hw => ?_
  have hready := (hqs.queued s.currentTask h.current (h.ne_zero h.current) .waiting).mpr
    (congrArg queue hw)
  rw [hx] at hready
  exact hxc (List.mem_singleton.mp hready)

theorem SchedInv.cleanupDeadTasks (h : SchedInv s idle 0) : s.cleanupDeadTasks = some s := by
  obtain ⟨qs, hqs⟩ := h.placed
  have hnone : qs .zombie = [] := by
    refine eq_nil_iff_forall_not_mem.mpr fun t ht => ?_
    have htm := hqs.mem .zombie t ht
    have hst := (hqs.queued t htm (h.ne_zero htm) .zombie).mp ht
    have := (h.alive t htm (h.ne_zero htm)).1
    cases hs : (s.task t).state <;> simp_all [queue]
  have hhead : s.queueHead .zombie = 0 := (hqs.dll .zombie).head_eq_nil_iff.mpr hnone
  unfold Tasks.cleanupDeadTasks
  rw [hhead, cleanupFrom, if_pos rfl]

theorem SchedInv.reschedule (h : SchedInv s idle 0) (hfew : s.FewReady) :
    ∃ s', s.schedulerReschedule = some s' ∧ SchedInv s' idle 0 := by
  obtain ⟨qs, hqs⟩ := h.placed
  obtain ⟨n, hn⟩ : ∃ n, walkLimit = n + 1 := ⟨2 ^ 32 - 1, by decide⟩
  have halive := h.alive _ h.current (h.ne_zero h.current)
  have hdll := hqs.dll .waiting
  unfold schedulerReschedule
  rw [h.cleanupDeadTasks, hn]
  cases hw : qs .waiting with
  | nil =>
    have hhead : s.queueHead .waiting = 0 := hdll.head_eq_nil_iff.mpr hw
    exact ⟨s, by simp [schedulerGetNextTask, hhead, halive], h⟩
  | cons x xs =>
    rw [hw] at hdll
    obtain ⟨hhead, hx0, hprev, hrest⟩ := hdll.linked
    have hnext : (s.task x).next = 0 := by
      rcases hfew with e | e
      · exact absurd (hhead.symm.trans e) hx0
      · rwa [hhead] at e
    have hxs : xs = [] := hrest.head_eq_nil_iff.mp hnext
    subst hxs
    -- the links of the task are null already
    have htaken : (s.setHead .waiting 0).setNext x 0 = s.setHead .waiting 0 :=
      modify_eq_self _ _ _ (by simp [← hnext])
    have htaken' : (s.setHead .waiting 0).setPrev x 0 = s.setHead .waiting 0 :=
      modify_eq_self _ _ _ (by simp [← hprev])
    have hxm : x ∈ s.table := hqs.mem .waiting x (by simp [hw])
    have hxw : (s.task x).state = .waiting := by
      have := (hqs.queued x hxm hx0 .waiting).mp (by simp [hw])
      cases hs : (s.task x).state <;> simp_all [queue]
    by_cases hpid : (s.task x).pid = s.idleTaskPid
    · by_cases hgo : (s.task s.currentTask).state = .running ∨
          (s.task s.currentTask).state = .waiting
      · exact ⟨s, by simp [schedulerGetNextTask, hhead, hx0, hpid, hnext, hgo, halive], h⟩
      · have hxc : s.currentTask ≠ x := fun e => hgo (.inr (e ▸ hxw))
        obtain ⟨s', hs', hinv⟩ := h.switchToOnly hqs hw hxc
        refine ⟨s', ?_, hinv⟩
        simp only [schedulerGetNextTask, hhead, hx0, hpid, hnext, hgo, if_false, if_true, ne_eq,
          not_true_eq_false, htaken, htaken', setHead_task, halive.1, halive.2, or_self]
        exact hs'
    · have hxc : s.currentTask ≠ x := by
        -- the idle task is not ready, so it is the one that runs
        have hxi : x ≠ idle := fun e => hpid ((h.idlePid x hxm).mpr e)
        rcases h.idleState (h.ne_zero h.idleMem) with e | e
        · rw [← hqs.running idle h.idleMem (h.ne_zero h.idleMem) e]
          exact hxi.symm
        · have := (hqs.queued idle h.idleMem (h.ne_zero h.idleMem) .waiting).mpr (by rw [e]; rfl)
          rw [hw] at this
          exact absurd (List.mem_singleton.mp this).symm hxi
      obtain ⟨s', hs', hinv⟩ := h.switchToOnly hqs hw hxc
      refine ⟨s', ?_, hinv⟩
      simp only [schedulerGetNextTask, hhead, hx0, hpid, hnext, if_false, if_true, ne_eq,
        not_false_eq_true, htaken, setHead_task, halive.1, halive.2, or_self]
      exact hs'

/-! ## More than one ready task -/

/-- The first ready task has a predecessor. -/
def StaleHead (s : Tasks) : Prop :=
  s.queueHead .waiting ≠ 0 ∧ (s.task (s.queueHead .waiting)).prev ≠ 0

theorem StaleHead.not_inPlace (h : StaleHead s) : ¬ EachTaskInPlace s := by
  rintro ⟨qs, hqs⟩
  have hdll := hqs.dll .waiting
  exact h.2 ((hdll.prev_eq_nil_iff (hdll.head_mem h.1)).mpr rfl)

/-- The ready tasks behind `x`, which has been taken out of the queue but is still the predecessor
of the first. -/
structure TakenFirst (s : Tasks) (x : Nat) (xs : List Nat) : Prop where
  linked : Linked 0 (fun t => (s.task t).next) (fun t => (s.task t).prev) x
    (s.queueHead .waiting) xs
  nonempty : xs ≠ []
  length : xs.length ≤ walkLimit
  ne_zero : x ≠ 0

namespace TakenFirst

variable {xs : List Nat}

section

variable (h : TakenFirst s x xs)

include h

theorem setState (t : Nat) (st : TaskState) : TakenFirst (s.setState t st) x xs :=
  ⟨h.linked.congr (fun y _ => setState_next s t y st) fun y _ => setState_prev s t y st,
    h.nonempty, h.length, h.ne_zero⟩

theorem head_ne_zero : s.queueHead .waiting ≠ 0 := fun e =>
  h.nonempty (h.linked.head_eq_nil_iff.mp e)

theorem head_prev : (s.task (s.queueHead .waiting)).prev = x := by
  cases xs with
  | nil => exact absurd rfl h.nonempty
  | cons z zs =>
    obtain ⟨hhead, -, hback, -⟩ := h.linked
    rw [hhead]
    exact hback

theorem staleHead : StaleHead s :=
  ⟨h.head_ne_zero, by rw [h.head_prev]; exact h.ne_zero⟩

theorem add (ht : t ≠ 0) (hst : (s.task t).state = .waiting) :
    ∃ s', s.addToQueue t = some s' ∧ StaleHead s' := by
  obtain ⟨s', hs', hhead, -, hprev⟩ := addToQueue_links h.linked h.length
    (absurd · h.nonempty) ht (by rw [hst]; rfl)
  have hhead' : s'.queueHead .waiting = s.queueHead .waiting :=
    (hhead .waiting).trans (if_neg fun e => h.nonempty e.2)
  refine ⟨s', hs', by rw [hhead']; exact h.head_ne_zero, ?_⟩
  rw [hhead', hprev]
  split
  · rw [getLastD_eq_getLast?, List.getLast?_eq_some_getLast h.nonempty]
    exact h.linked.ne_nil (getLast_mem h.nonempty)
  · rw [h.head_prev]
    exact h.ne_zero

theorem switchTo (ht : t ≠ 0) : ∃ s', s.switchTo t x = some s' ∧ StaleHead s' := by
  obtain ⟨st, -, hs1⟩ := s.leave_eq t
  have h1 := (h.setState t st).setState x .running
  unfold Tasks.switchTo
  simp only [hs1]
  split
  · next hst =>
    obtain ⟨s2, hs2, hstale⟩ := h1.add ht hst
    exact ⟨{ s2 with currentTask := x }, by rw [hs2]; rfl, hstale⟩
  · exact ⟨_, rfl, h1.staleHead⟩

end

end TakenFirst

theorem rotateIdle_sameTasks (s : Tasks) (first last : Nat) :
    SameTasks s (s.rotateIdle first last) :=
  (SameTasks.setNext _ _ _).trans ((SameTasks.setPrev _ _ _).trans ((SameTasks.heads _ _).trans
    ((SameTasks.setNext _ _ _).trans (.setPrev _ _ _))))

section Rotate

variable {first last : Nat}

theorem rotateIdle_next :
    ((s.rotateIdle first last).task u).next =
      if u = first then 0 else if u = last then first else (s.task u).next := by
  simp [rotateIdle]

variable (hne : first ≠ last)
include hne

theorem rotateIdle_queueHead :
    (s.rotateIdle first last).queueHead .waiting = (s.task first).next := by
  simp [rotateIdle, setHead, hne]

theorem rotateIdle_prev (hu : u ≠ (s.task first).next) :
    ((s.rotateIdle first last).task u).prev =
      if u = first then last else (s.task u).prev := by
  simp [rotateIdle, setHead, hne, hu]

end Rotate

/-- The code that takes the first task, if that is not the idle task (`scheduler.c:241-245`). -/
theorem schedulerGetNextTask_first {n : Nat} (hx : s.queueHead .waiting = x) (hx0 : x ≠ 0)
    (hpid : (s.task x).pid ≠ s.idleTaskPid) :
    s.schedulerGetNextTask (n + 1) =
      some (x, (s.setHead .waiting (s.task x).next).setNext x 0) := by
  simp only [schedulerGetNextTask, hx, hx0, if_false, hpid, ne_eq, not_false_eq_true, if_true]

theorem setHead_setNext_sameTasks (s : Tasks) (x v : Nat) :
    SameTasks s ((s.setHead .waiting v).setNext x 0) :=
  (SameTasks.heads s _).trans (SameTasks.setNext _ x 0)

theorem TakenFirst.intro {xs : List Nat} (hx0 : x ≠ 0) (hxs : x ∉ xs) (hne : xs ≠ [])
    (hlen : xs.length ≤ walkLimit)
    (hl : Linked 0 (fun t => (s.task t).next) (fun t => (s.task t).prev) x (s.task x).next xs) :
    TakenFirst ((s.setHead .waiting (s.task x).next).setNext x 0) x xs := by
  refine ⟨?_, hne, hlen, hx0⟩
  have hhead : ((s.setHead .waiting (s.task x).next).setNext x 0).queueHead .waiting =
      (s.task x).next := by
    simp [setHead]
  refine hl.congr (fun y hy => ?_) fun y hy => ?_
  · have hyx : y ≠ x := fun e => hxs (e ▸ hy)
    simp [hyx]
  · simp

/-- With two ready tasks or more the next one to run is taken off the queue without a store to the
one behind it. The order of the others is kept, except that the idle task may go to the end. -/
theorem takenFirst {before a b : Nat} {rest : List Nat}
    (h : s.Chain before (s.queueHead .waiting) (a :: b :: rest))
    (nd : (a :: b :: rest).Nodup) (hlen : (a :: b :: rest).length ≤ walkLimit)
    (hidle : ∀ t ∈ a :: b :: rest, (s.task t).pid = s.idleTaskPid ↔ t = idle) :
    ∃ x s' xs, s.schedulerGetNextTask walkLimit = some (x, s') ∧ SameTasks s s' ∧
      TakenFirst s' x xs ∧ SameLinks s s' (a :: b :: rest) ∧
      s'.queueHead .zombie = s.queueHead .zombie ∧ x ≠ idle ∧ (x :: xs).Perm (a :: b :: rest) ∧
      (x :: xs).filter (· ≠ idle) = (a :: b :: rest).filter (· ≠ idle) := by
  obtain ⟨n, hn⟩ : ∃ n, walkLimit = n + 2 := ⟨2 ^ 32 - 2, by decide⟩
  have hlast := h.dllLast_eq (List.cons_ne_nil _ _) hlen
  obtain ⟨hhead, ha0, hprev, htail⟩ := h
  obtain ⟨hb, hb0, hbprev, hrest⟩ := htail
  obtain ⟨hat, hndt⟩ := List.nodup_cons.mp nd
  obtain ⟨hbr, hndr⟩ := List.nodup_cons.mp hndt
  have hab : a ≠ b := fun e => hat (by simp [e])
  have hpida := hidle a (by simp)
  by_cases hpid : (s.task a).pid = s.idleTaskPid
  · -- the idle task goes to the end and `b` is taken
    obtain rfl := hpida.mp hpid
    obtain ⟨last, hlast'⟩ : ∃ last, (b :: rest).getLast (by simp) = last := ⟨_, rfl⟩
    have hl : s.lastTask .waiting = some last := hlast.trans (by simp [← hlast'])
    have hlm : last ∈ b :: rest := hlast' ▸ List.getLast_mem _
    have hal : a ≠ last := fun e => hat (e ▸ hlm)
    have hsame := rotateIdle_sameTasks s a last
    have hbpid : ((s.rotateIdle a last).task b).pid ≠ (s.rotateIdle a last).idleTaskPid := by
      rw [hsame.pid, hsame.idle, ne_eq, hidle b (by simp)]
      exact hab.symm
    have hb' : (s.task a).next = b := hb
    have hget : s.schedulerGetNextTask walkLimit =
        (s.rotateIdle a last).schedulerGetNextTask (n + 1) := by
      rw [hn, schedulerGetNextTask]
      simp only [hhead, ha0, hpid, hb', hb0, hl, if_false, ne_eq, not_true_eq_false]
    refine ⟨b, _, rest ++ [a], ?_, hsame.trans (setHead_setNext_sameTasks _ b _),
      .intro hb0 ?_ (by simp) (by simp at hlen ⊢; omega) ?_,
      fun u _ hu => ?_, by simp [rotateIdle, setHead], hab.symm,
      List.perm_append_singleton a (b :: rest), by simp [List.filter_cons]⟩
    · rw [hget]
      exact schedulerGetNextTask_first ((rotateIdle_queueHead hal).trans hb') hb0 hbpid
    · simp [hbr, hab.symm]
    · have hnext : ((s.rotateIdle a last).task b).next =
          if rest = [] then a else (s.task b).next := by
        rw [rotateIdle_next, if_neg hab.symm]
        cases rest with
        | nil => simp [← hlast']
        | cons c cs =>
          have hbl : b ≠ last := by
            intro e
            rw [← hlast', List.getLast_cons (by simp)] at e
            exact hbr (e ▸ List.getLast_mem _)
          simp [hbl]
      rw [hnext]
      refine Linked.append hrest hndr (fun hm => hat (by simp [hm])) ha0 ?_ ?_ (fun y hy => ?_)
        fun y hy => ?_
      · simp [rotateIdle_next]
      · have hna : a ≠ (s.task a).next := hb' ▸ hab
        simp only [rotateIdle_prev hal hna, if_true]
        rw [← hlast', List.getLast_eq_getLastD]
      · have hya : y ≠ a := fun e => hat (by simp [← e, hy])
        have hne : rest ≠ [] := List.ne_nil_of_mem hy
        have hiff : rest.getLast? = some y ↔ y = last := by
          rw [List.getLast?_eq_some_getLast hne, Option.some.injEq, ← hlast',
            List.getLast_cons hne]
          exact eq_comm
        simp only [rotateIdle_next, if_neg hya, hiff]
      · have hya : y ≠ a := fun e => hat (by simp [← e, hy])
        have hyb : y ≠ (s.task a).next := fun e => hbr (hb' ▸ e ▸ hy)
        simp only [rotateIdle_prev hal hyb, if_neg hya]
    · obtain ⟨hua, hub⟩ : u ≠ a ∧ u ≠ b := by simp_all
      have hul : u ≠ last := fun e => hu (List.mem_cons_of_mem a (e ▸ hlm))
      simp [rotateIdle_next, rotateIdle_prev hal (hb'.symm ▸ hub), hua, hub, hul]
  · refine ⟨a, _, b :: rest, ?_, setHead_setNext_sameTasks s a _,
      .intro ha0 hat (by simp) (by simp at hlen ⊢; omega) ⟨hb, hb0, hbprev, hrest⟩,
      fun u _ hu => ?_, by simp [setHead], fun e => hpid (hpida.mpr e), .refl _, rfl⟩
    · exact schedulerGetNextTask_first hhead ha0 hpid
    · have hua : u ≠ a := by simp_all
      simp [hua]

theorem SchedInv.takenFirst (h : SchedInv s idle 0) (hmany : ¬ s.FewReady) :
    ∃ x s' xs, s.schedulerGetNextTask walkLimit = some (x, s') ∧ SameTasks s s' ∧
      TakenFirst s' x xs := by
  obtain ⟨qs, hqs⟩ := h.placed
  have hdll := hqs.dll .waiting
  have hlen := hqs.length_le .waiting
  have hmem := hqs.mem .waiting
  match hw : qs .waiting with
  | [] => exact absurd (.inl (hdll.head_eq_nil_iff.mpr hw)) hmany
  | [a] =>
    rw [hw] at hdll
    obtain ⟨hhead, -, -, hend⟩ := hdll.linked
    exact absurd (.inr (by rw [hhead]; exact hend)) hmany
  | a :: b :: rest =>
    rw [hw] at hdll hlen hmem
    obtain ⟨x, s', xs, hs', hsame, htaken, -⟩ :=
      Tasks.takenFirst hdll.linked hdll.nodup hlen fun t ht => h.idlePid t (hmem t ht)
    exact ⟨x, s', xs, hs', hsame, htaken⟩

theorem SchedInv.reschedule_staleHead (h : SchedInv s idle 0) (hmany : ¬ s.FewReady) :
    ∃ s', s.schedulerReschedule = some s' ∧ StaleHead s' := by
  obtain ⟨x, s1, xs, hs1, hsame, htaken⟩ := h.takenFirst hmany
  obtain ⟨s', hs', hstale⟩ := htaken.switchTo (h.ne_zero h.current)
  refine ⟨s', ?_, hstale⟩
  unfold schedulerReschedule
  simp only [h.cleanupDeadTasks, hs1, htaken.ne_zero, if_false, hs', ite_self]

/-! ## Whole runs -/

theorem SchedInv.eachTaskInPlace (h : SchedInv s idle 0) : EachTaskInPlace s := by
  obtain ⟨qs, hqs⟩ := h.placed
  refine ⟨qs, hqs.dll, hqs.mem, fun t ht => ?_⟩
  have hqueued := hqs.queued t ht (h.ne_zero ht)
  cases hq : (s.task t).state.queue with
  | none =>
    have hrun : (s.task t).state = .running := by
      have := (h.alive t ht (h.ne_zero ht)).2
      cases hs : (s.task t).state <;> simp_all [queue]
    refine .inl ⟨hrun, (hqs.running t ht (h.ne_zero ht) hrun).symm, fun q hm => ?_⟩
    have := (hqueued q).mp hm
    simp [hq] at this
  | some q =>
    refine .inr ⟨q, rfl, count_eq_one_of_mem (hqs.dll q).nodup ((hqueued q).mpr hq),
      fun q' hne hm => ?_⟩
    rw [(hqueued q').mp hm] at hq
    exact hne (Option.some.inj hq)

theorem Initial.schedInv (h : Initial s idle) : SchedInv s idle 0 := by
  have hmem : ∀ t, t ∈ s.table ↔ t = idle := fun t => by
    rw [h.table, Finset.mem_singleton]
  refine ⟨⟨fun _ => [], ⟨fun t ht => ?_, fun q => ⟨h.queues q, List.nodup_nil⟩, by simp, by simp,
    fun t ht _ => ?_⟩, fun t ht _ q => ?_, fun t ht _ _ => ?_⟩, ?_, (hmem idle).mpr rfl,
    fun t ht => ?_, fun _ => .inl h.state, fun t ht _ => ?_, fun w t ht => ?_⟩
  · rw [(hmem t).mp ht]
    exact h.address
  · rw [(hmem t).mp ht]
    exact h.links
  · rw [(hmem t).mp ht, h.state]
    simp [queue]
  · rw [(hmem t).mp ht, h.current]
  · rw [hmem, h.current]
  · rw [(hmem t).mp ht]
    simp [h.idlePid]
  · rw [(hmem t).mp ht, h.state]
    simp
  · rw [h.waiters] at ht
    exact absurd ht (by simp)

/-- Every allowed operation returns and keeps the invariant. -/
theorem SchedInv.exec (h : SchedInv s idle 0) {op : SchedOp} (hop : op.Allowed s)
    (hfew : op.FewReady s) : ∃ s', op.exec s = some s' ∧ SchedInv s' idle 0 := by
  cases op with
  | create t x => exact h.create hop.1 hop.2.1 hop.2.2
  | allocate w wakeupAll => exact ⟨_, rfl, h.setWaitObj (by simp)⟩
  | start w blockState => exact h.start hop.1 hop.2
  | finish w blockState => exact h.finish
  | wakeUp w => exact h.wakeUp
  | signal t sig => exact h.signal hop sig
  | reschedule => exact h.reschedule hfew

theorem FewReadyRun.schedInv (h : FewReadyRun s s') (hs : SchedInv s idle 0) :
    SchedInv s' idle 0 := by
  induction h with
  | refl => exact hs
  | tail _ hstep ih =>
    obtain ⟨op, hop, hfew, hexec⟩ := hstep
    obtain ⟨s1, hs1, hinv⟩ := ih.exec hop hfew
    rw [hs1] at hexec
    exact Option.some.inj hexec ▸ hinv

/-- As long as the processor is given away only while at most one task is ready, every operation
returns and every live task is in one place. Giving it away while more tasks are ready always
leaves the links of the ready queue inconsistent. -/
theorem schedulerRun_eachTaskInPlace (hboot : Initial s idle) (hrun : FewReadyRun s s') :
    EachTaskInPlace s' ∧
      (∀ op : SchedOp, op.Allowed s' → op.FewReady s' → ∃ s'', op.exec s' = some s'') ∧
      ∀ s'', s'.schedulerReschedule = some s'' → (EachTaskInPlace s'' ↔ s'.FewReady) := by
  have hinv := hrun.schedInv hboot.schedInv
  refine ⟨hinv.eachTaskInPlace, fun op hop hfew => ?_, fun s'' hs'' => ⟨fun hplace => ?_, fun hfew => ?_⟩⟩
  · obtain ⟨s'', hs'', -⟩ := hinv.exec hop hfew
    exact ⟨s'', hs''⟩
  · by_contra hmany
    obtain ⟨s1, hs1, hstale⟩ := hinv.reschedule_staleHead hmany
    rw [hs1] at hs''
    exact (Option.some.inj hs'' ▸ hstale).not_inPlace hplace
  · obtain ⟨s1, hs1, hinv1⟩ := hinv.reschedule hfew
    rw [hs1] at hs''
    exact Option.some.inj hs'' ▸ hinv1.eachTaskInPlace

theorem schedulerRun_eachTaskInPlace_oneTask :
    ∃ s₁ s₂, (SchedOp.create 32 (blankTask 1)).exec bootTasks = some s₁ ∧
      s₁.schedulerReschedule = some s₂ ∧ EachTaskInPlace s₂ := by
  obtain ⟨s₁, hs₁, hready, s₂, hs₂, -⟩ : ∃ s ∈ (create 32 (blankTask 1)).exec bootTasks,
      s.FewReady ∧ ∃ s₂ ∈ s.schedulerReschedule, True := by
    decide +kernel
  have hcreate : FewReadyStep bootTasks s₁ :=
    ⟨.create 32 (blankTask 1), by decide, trivial, hs₁⟩
  have hswitch : FewReadyStep s₁ s₂ := ⟨.reschedule, trivial, hready, hs₂⟩
  exact ⟨s₁, s₂, hs₁, hs₂, (schedulerRun_eachTaskInPlace bootTasks_initial
    ((Relation.ReflTransGen.single hcreate).tail hswitch)).1⟩

theorem execAll_schedRun {ops : List SchedOp} (h : execAll ops s = some s') :
    SchedRun s s' := by
  induction ops generalizing s with
  | nil =>
    cases h
    exact .refl
  | cons op ops ih =>
    rw [execAll] at h
    split at h
    · next hop =>
      obtain ⟨s1, hs1, hrest⟩ := Option.bind_eq_some_iff.mp h
      exact .head ⟨op, hop, hs1⟩ (ih hrest)
    · exact absurd h (by simp)

/-- Three tasks run in turn, and the first two are blocked when the third runs. The first is woken
up, runs, blocks again and is woken up before it yields, as is the second. Yielding puts the first
task into the ready queue a second time, which cuts off the tasks behind it. -/
def lostTaskOps : List SchedOp :=
  [.allocate 4096 true, .allocate 8192 true, .create 32 (blankTask 1), .create 48 (blankTask 2),
    .create 64 (blankTask 3), .reschedule, .start 4096 .blocked, .reschedule, .start 8192 .blocked,
    .reschedule, .wakeUp 4096, .reschedule, .finish 4096 .blocked, .start 4096 .blocked,
    .wakeUp 4096, .wakeUp 8192, .reschedule]

theorem schedulerReschedule_losesTask :
    ∃ s, SchedRun bootTasks s ∧ 48 ∈ s.table ∧ (s.task 48).state = .waiting ∧
      s.queueHead .waiting = 32 ∧ (s.task 32).next = 0 ∧ ¬ EachTaskInPlace s := by
  obtain ⟨s, hs, hmem, hstate, hhead, hnext⟩ : ∃ s ∈ execAll lostTaskOps bootTasks,
      48 ∈ s.table ∧ (s.task 48).state = .waiting ∧ s.queueHead .waiting = 32 ∧
        (s.task 32).next = 0 := by
    decide +kernel
  refine ⟨s, execAll_schedRun hs, hmem, hstate, hhead, hnext, ?_⟩
  rintro ⟨qs, hqs⟩
  -- the ready queue ends after its first task
  have hwait : qs .waiting = [32] := by
    have hdll := (hqs.dll .waiting).linked
    rw [hhead] at hdll
    cases hw : qs .waiting with
    | nil =>
      rw [hw] at hdll
      exact absurd (show 32 = 0 from hdll) (by decide)
    | cons x xs =>
      rw [hw] at hdll
      obtain ⟨rfl, -, -, hrest⟩ := hdll
      rw [hrest.head_eq_nil_iff.mp hnext]
  rcases hqs.place 48 hmem with ⟨hrun, -, -⟩ | ⟨q, hq, hcount, -⟩
  · rw [hstate] at hrun
    exact absurd hrun (by decide)
  · rw [hstate] at hq
    cases hq
    rw [hwait] at hcount
    exact absurd hcount (by decide)

end Tasks

end Stos.Kernel
