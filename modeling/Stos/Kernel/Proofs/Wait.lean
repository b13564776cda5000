import Stos.Kernel.WaitRuns
import Stos.Kernel.Proofs.Scheduler

/-!
# Waiting tasks over time: proofs
-/

namespace Stos.Kernel

open List Option SchedOp

namespace Tasks

variable {s s' s1 : Tasks} {t u w k c : Nat} {st : TaskState} {zs woken : List Nat}

/-! ## What the operations of a wait object do to the states and the waiters -/

/-- A move changes the state of one task. -/
theorem schedulerMoveTaskToState_state (ht : t ≠ 0)
    (h : s.schedulerMoveTaskToState t st = some s') (u : Nat) :
    (s'.task u).state = if u = t then st else (s.task u).state := by
  rw [(schedulerMoveTaskToState_sameTasks ht h).state, setState_state]

theorem waitStart_effect (hc : s.currentTask ≠ 0) (h : s.waitStart w st = some s') :
    (∀ u, (s'.task u).state = if u = s.currentTask then st else (s.task u).state) ∧
      (s'.waitObj w).waiters = (s.waitObj w).waiters ++ [s.currentTask] ∧
      (s'.waitObj w).wakeupAll = (s.waitObj w).wakeupAll ∧ s'.currentTask = s.currentTask := by
  unfold waitStart at h
  rw [if_neg hc] at h
  obtain ⟨s1, hs1, rfl⟩ := map_eq_some_iff.mp h
  have hobj : s1.waitObj = s.waitObj := (schedulerMoveTaskToState_sameTasks hc hs1).waitObj
  refine ⟨fun u => schedulerMoveTaskToState_state hc hs1 u, ?_, ?_,
    (schedulerMoveTaskToState_sameTasks hc hs1).current⟩
  · simp [enqueueWaiter, setWaitObj_waitObj, hobj]
  · simp [enqueueWaiter, setWaitObj_waitObj, hobj]

theorem waitFinish_effect (ht : t ≠ 0) (h : s.waitFinish w t st = some s') :
    (∀ u ≠ t, (s'.task u).state = (s.task u).state) ∧
      (s'.waitObj w).waiters = (s.waitObj w).waiters.erase t ∧
      (s'.waitObj w).wakeupAll = (s.waitObj w).wakeupAll ∧ s'.currentTask = s.currentTask := by
  have hobj : ((s.dequeueWaiter w t).waitObj w).waiters = (s.waitObj w).waiters.erase t ∧
      ((s.dequeueWaiter w t).waitObj w).wakeupAll = (s.waitObj w).wakeupAll := by
    simp [dequeueWaiter, setWaitObj_waitObj]
  unfold waitFinish at h
  dsimp only at h
  split at h
  · have hsame := schedulerMoveTaskToState_sameTasks ht h
    refine ⟨fun u hu => ?_, ?_, ?_, hsame.current⟩
    · rw [schedulerMoveTaskToState_state ht h, if_neg hu]
      rfl
    · rw [hsame.waitObj]
      exact hobj.1
    · rw [hsame.waitObj]
      exact hobj.2
  · cases h
    exact ⟨fun _ _ => rfl, hobj.1, hobj.2, rfl⟩

/-- A task is not in the blocked state any more when it has left its wait. -/
theorem waitFinish_left (ht : t ≠ 0) (hst : st ≠ .running) (h : s.waitFinish w t st = some s') :
    (s'.task t).state ≠ st := by
  unfold waitFinish at h
  dsimp only at h
  split at h
  case isTrue =>
    rw [schedulerMoveTaskToState_state ht h, if_pos rfl]
    exact hst.symm
  case isFalse hne =>
    cases h
    exact hne

theorem waitWakeUp_effect (hq : QueueOk s w) (h : s.waitWakeUp w = some s') :
    (∀ u, (s'.task u).state =
      if (s.waitObj w).waiters.head? = some u then .waiting else (s.task u).state) ∧
      s'.waitObj = s.waitObj ∧ s'.currentTask = s.currentTask := by
  unfold waitWakeUp at h
  rw [hq.mode, if_neg (by decide)] at h
  cases hw : (s.waitObj w).waiters with
  | nil =>
    rw [hw] at h
    cases h
    exact ⟨fun u => by simp, rfl, rfl⟩
  | cons t ts =>
    rw [hw] at h
    have ht := hq.ne_zero t (by simp [hw])
    have hsame := schedulerMoveTaskToState_sameTasks ht h
    refine ⟨fun u => ?_, hsame.waitObj, hsame.current⟩
    rw [schedulerMoveTaskToState_state ht h]
    simp [eq_comm]

theorem mem_blockedWaiters : t ∈ s.blockedWaiters w ↔ t ∈ (s.waitObj w).waiters ∧ s.IsBlocked t := by
  simp [blockedWaiters]

theorem isBlocked_congr (h : (s'.task t).state = (s.task t).state) :
    s'.IsBlocked t ↔ s.IsBlocked t := by
  rw [IsBlocked, IsBlocked, h]

theorem blockedWaiters_congr (hw : (s'.waitObj w).waiters = (s.waitObj w).waiters)
    (h : ∀ t ∈ (s.waitObj w).waiters, s'.IsBlocked t ↔ s.IsBlocked t) :
    s'.blockedWaiters w = s.blockedWaiters w := by
  unfold blockedWaiters
  rw [hw]
  exact filter_congr fun t ht => by simp [h t ht]

/-! ## Wake-ups of a queue -/

theorem erase_take_drop {l : List Nat} (hl : l.Nodup) (hc : c ∈ l.drop k) :
    (l.erase c).take k = l.take k ∧ (l.erase c).drop k = (l.drop k).erase c := by
  have hsplit : l.take k ++ l.drop k = l := take_append_drop k l
  have hdisj : c ∉ l.take k := by
    rw [← hsplit] at hl
    exact fun e => (disjoint_of_nodup_append hl) e hc
  have herase : l.erase c = l.take k ++ (l.drop k).erase c := by
    conv_lhs => rw [← hsplit]
    exact erase_append_right _ hdisj
  have hlen : (l.take k).length = k := by
    have := length_pos_of_mem hc
    rw [length_drop] at this
    rw [length_take]
    omega
  rw [herase]
  exact ⟨take_left' hlen, drop_left' hlen⟩

/-- After `k` wake-ups the first `k` tasks of `zs` have been woken up and the others still wait, in
front of all that came later. `zs` is the list `bs` of the tasks that waited at first, without the
task `c` that had the processor then if that has left without having been woken up. -/
structure WakeInv (bs : List Nat) (c w k : Nat) (zs woken : List Nat) (s : Tasks) : Prop where
  ok : QueueOk s w
  list : zs = bs ∨ zs = bs.erase c
  woken : woken = zs.take k
  rest : ∃ post, s.blockedWaiters w = zs.drop k ++ post
  away : ∀ t ∈ zs.drop k, t ≠ s.currentTask ∨ t = c ∧ zs = bs

namespace WakeInv

variable {bs : List Nat}

section

variable (h : WakeInv bs c w k zs woken s)

include h

theorem start (hst : st.Blocking) (hnew : s.currentTask ∉ (s.waitObj w).waiters)
    (hs' : s.waitStart w st = some s') : WakeInv bs c w k zs woken s' := by
  obtain ⟨hstate, hwaiters, hmode, hcur⟩ := waitStart_effect h.ok.current hs'
  have hold : ∀ t ∈ (s.waitObj w).waiters, s'.IsBlocked t ↔ s.IsBlocked t := fun t ht => by
    have hne : t ≠ s.currentTask := fun e => hnew (e ▸ ht)
    exact isBlocked_congr (by rw [hstate, if_neg hne])
  have hself : s'.IsBlocked s.currentTask := by
    rw [IsBlocked, hstate, if_pos rfl]
    exact hst
  have hlist : s'.blockedWaiters w = s.blockedWaiters w ++ [s.currentTask] := by
    unfold blockedWaiters
    rw [hwaiters, filter_append]
    congr 1
    · exact filter_congr fun t ht => by simp [hold t ht]
    · simp [hself]
  obtain ⟨post, hpost⟩ := h.rest
  refine ⟨⟨hmode.trans h.ok.mode, ?_, fun t ht => ?_, hcur ▸ h.ok.current⟩, h.list, h.woken,
    ⟨post ++ [s.currentTask], by rw [hlist, hpost, append_assoc]⟩, hcur ▸ h.away⟩
  · rw [hwaiters]
    exact nodup_append.mpr ⟨h.ok.nodup, nodup_singleton _, fun a ha b hb =>
      fun e => hnew (mem_singleton.mp hb ▸ e ▸ ha)⟩
  · rw [hwaiters, mem_append, mem_singleton] at ht
    rcases ht with ht | rfl
    · exact h.ok.ne_zero t ht
    · exact h.ok.current

theorem schedule (hobj : s'.waitObj w = s.waitObj w)
    (hblocked : ∀ t ∈ (s.waitObj w).waiters, s'.IsBlocked t ↔ s.IsBlocked t)
    (hcur : s'.currentTask = s.currentTask ∨ ¬ s.IsBlocked s'.currentTask)
    (hcur0 : s'.currentTask ≠ 0) : WakeInv bs c w k zs woken s' := by
  obtain ⟨post, hpost⟩ := h.rest
  refine ⟨⟨hobj ▸ h.ok.mode, hobj ▸ h.ok.nodup, hobj ▸ h.ok.ne_zero, hcur0⟩, h.list, h.woken,
    ⟨post, ?_⟩, fun t ht => ?_⟩
  · rw [blockedWaiters_congr (by rw [hobj]) hblocked, hpost]
  · rcases hcur with e | hfree
    · rw [e]
      exact h.away t ht
    · refine .inl fun e => hfree ?_
      have hm : t ∈ s.blockedWaiters w := by
        rw [hpost]
        exact mem_append_left post ht
      exact e ▸ (mem_blockedWaiters.mp hm).2

theorem finish (hbs : bs.Nodup) (hs' : s.waitFinish w s.currentTask st = some s') :
    ∃ zs', WakeInv bs c w k zs' woken s' := by
  obtain ⟨hstate, hwaiters, hmode, hcur⟩ := waitFinish_effect h.ok.current hs'
  obtain ⟨post, hpost⟩ := h.rest
  have hlist : s'.blockedWaiters w = (s.blockedWaiters w).erase s.currentTask := by
    unfold blockedWaiters
    rw [hwaiters, h.ok.nodup.erase_eq_filter, (h.ok.nodup.filter _).erase_eq_filter,
      List.filter_filter, List.filter_filter]
    refine filter_congr fun t ht => ?_
    by_cases hne : t = s.currentTask
    · simp [hne]
    · simp [isBlocked_congr (hstate t hne), Bool.and_comm]
  have hok : QueueOk s' w := by
    refine ⟨hmode.trans h.ok.mode, ?_, fun t ht => ?_, hcur ▸ h.ok.current⟩
    · rw [hwaiters]
      exact h.ok.nodup.erase _
    · rw [hwaiters] at ht
      exact h.ok.ne_zero t (mem_of_mem_erase ht)
  by_cases hm : s.currentTask ∈ zs.drop k
  · -- the task that had the processor at first leaves without having been woken up
    obtain ⟨hc, rfl⟩ := (h.away _ hm).resolve_left (by simp)
    obtain ⟨htake, hdrop⟩ := erase_take_drop hbs (hc ▸ hm)
    refine ⟨zs.erase c, hok, .inr rfl, by rw [htake, h.woken], ⟨post, ?_⟩, fun t ht => .inl ?_⟩
    · rw [hlist, hpost, erase_append_left _ hm, hc, hdrop]
    · rw [hdrop] at ht
      have hnd : (zs.drop k).Nodup := hbs.sublist (drop_sublist k zs)
      rw [hcur, hc]
      exact fun e => hnd.not_mem_erase (e ▸ ht)
  · refine ⟨zs, hok, h.list, h.woken, ⟨post.erase s.currentTask, ?_⟩, fun t ht => .inl ?_⟩
    · rw [hlist, hpost, erase_append_right _ hm]
    · rw [hcur]
      exact fun e => hm (e ▸ ht)

theorem step (hbs : bs.Nodup) (hstep : QueueStep w s s') :
    ∃ zs', WakeInv bs c w k zs' woken s' := by
  cases hstep with
  | start hst hnew hs' => exact ⟨zs, h.start hst hnew hs'⟩
  | finish hst hs' => exact h.finish hbs hs'
  | schedule hobj hblocked hcur hcur0 => exact ⟨zs, h.schedule hobj hblocked hcur hcur0⟩

/-- The first task in the queue is the one that is made runnable. -/
theorem wakeUp (hk : k < zs.length) (hfirst : FirstBlocked w s) (hs' : s.waitWakeUp w = some s') :
    WakeInv bs c w (k + 1) zs (woken ++ madeRunnable w s s') s' := by
  obtain ⟨hstate, hobj, hcur⟩ := waitWakeUp_effect h.ok hs'
  obtain ⟨post, hpost⟩ := h.rest
  have hdrop : zs.drop k = zs[k] :: zs.drop (k + 1) := drop_eq_getElem_cons hk
  obtain ⟨t, ht, hblocked⟩ := hfirst (by rw [hpost, hdrop]; exact cons_ne_nil _ _)
  obtain ⟨ts, hts⟩ : ∃ ts, (s.waitObj w).waiters = t :: ts := by
    cases hw : (s.waitObj w).waiters with
    | nil => simp [hw] at ht
    | cons a as =>
      rw [hw] at ht
      exact ⟨as, by rw [some.inj ht]⟩
  obtain ⟨htts, -⟩ := nodup_cons.mp (hts ▸ h.ok.nodup)
  have hothers : ∀ u ∈ ts, (s'.task u).state = (s.task u).state := fun u hu => by
    rw [hstate, if_neg]
    intro e
    rw [hts] at e
    exact htts (some.inj e ▸ hu)
  have hself : (s'.task t).state = .waiting := by
    rw [hstate, if_pos (by rw [hts]; rfl)]
  have hlist : s.blockedWaiters w = t :: ts.filter fun u => s.IsBlocked u := by
    rw [blockedWaiters, hts, filter_cons_of_pos (by simpa using hblocked)]
  have hlist' : s'.blockedWaiters w = ts.filter fun u => s.IsBlocked u := by
    rw [blockedWaiters, hobj, hts, filter_cons_of_neg (by simp [IsBlocked, hself, TaskState.Blocking])]
    exact filter_congr fun u hu => decide_eq_decide.mpr (isBlocked_congr (hothers u hu))
  have hmade : madeRunnable w s s' = [t] := by
    rw [madeRunnable, hlist, List.filter_cons_of_pos (by simpa using hself), List.filter_filter]
    congr 1
    refine filter_eq_nil_iff.mpr fun u hu => ?_
    rw [hothers u hu]
    cases hs : (s.task u).state <;> simp [IsBlocked, hs, TaskState.Blocking]
  rw [hlist, hdrop, cons_append] at hpost
  obtain ⟨rfl, hrest⟩ := cons.inj hpost
  refine ⟨⟨hobj ▸ h.ok.mode, hobj ▸ h.ok.nodup, hobj ▸ h.ok.ne_zero, hcur ▸ h.ok.current⟩, h.list,
    ?_, ⟨post, hlist'.trans hrest⟩, fun u hu => ?_⟩
  · rw [hmade, h.woken, take_append_getElem hk]
  · rw [hcur]
    exact h.away u (by rw [hdrop]; exact mem_cons_of_mem _ hu)

end

end WakeInv

/-- A wake-up makes a task runnable exactly if the first task of the queue waits. -/
theorem QueueOk.madeRunnable_iff (hok : QueueOk s w) (hs' : s.waitWakeUp w = some s')
    (hne : s.blockedWaiters w ≠ []) : madeRunnable w s s' ≠ [] ↔ FirstBlocked w s := by
  obtain ⟨hstate, -, -⟩ := waitWakeUp_effect hok hs'
  have hmem : ∀ t, t ∈ madeRunnable w s s' ↔
      t ∈ (s.waitObj w).waiters.head? ∧ s.IsBlocked t := by
    intro t
    rw [madeRunnable, mem_filter, mem_blockedWaiters, hstate, decide_eq_true_iff]
    constructor
    · rintro ⟨⟨-, hb⟩, hw⟩
      split at hw
      · next e => exact ⟨e, hb⟩
      · rw [IsBlocked, hw] at hb
        exact absurd hb (by decide)
    · rintro ⟨hhead, hb⟩
      exact ⟨⟨mem_of_mem_head? hhead, hb⟩, if_pos hhead⟩
  constructor
  · intro hmade _
    obtain ⟨t, ht⟩ := exists_mem_of_ne_nil _ hmade
    exact ⟨t, (hmem t).mp ht⟩
  · intro hfirst
    obtain ⟨t, ht⟩ := hfirst hne
    exact ne_nil_of_mem ((hmem t).mpr ht)

theorem QueueRun.wakeInv {n : Nat} (hok : QueueOk s w)
    (hrun : QueueRun w (FirstBlocked w) s k woken s') (hn : n ≤ ((s.blockedWaiters w).erase s.currentTask).length)
    (hk : k ≤ n) : ∃ zs, WakeInv (s.blockedWaiters w) s.currentTask w k zs woken s' := by
  have hnd : (s.blockedWaiters w).Nodup := hok.nodup.filter _
  induction hrun with
  | refl => exact ⟨_, hok, .inl rfl, rfl, ⟨[], by simp⟩, fun t ht => by
      by_cases e : t = s.currentTask
      · exact .inr ⟨e, rfl⟩
      · exact .inl e⟩
  | step _ hstep ih =>
    obtain ⟨zs, hzs⟩ := ih hk
    exact hzs.step hnd hstep
  | wakeUp _ hfirst hs' ih =>
    obtain ⟨zs, hzs⟩ := ih (by omega)
    refine ⟨zs, hzs.wakeUp ?_ hfirst hs'⟩
    rcases hzs.list with rfl | rfl
    · have := (erase_sublist (a := s.currentTask) (l := s.blockedWaiters w)).length_le
      omega
    · omega

/-- If every wake-up of a queue-mode object finds the first task of the queue still waiting, unless
no task waits, then `k` wake-ups while `k` tasks wait make `k` distinct of them runnable. A wake-up
that finds the first task of the queue already woken up makes none runnable. -/
theorem waitWakeUp_distinct (hok : QueueOk s w)
    (hrun : QueueRun w (FirstBlocked w) s k woken s')
    (hk : k ≤ ((s.blockedWaiters w).erase s.currentTask).length) :
    (woken.length = k ∧ woken.Nodup ∧ woken ⊆ s.blockedWaiters w) ∧
      ∀ s'', s'.waitWakeUp w = some s'' → s'.blockedWaiters w ≠ [] →
        (madeRunnable w s' s'' ≠ [] ↔ FirstBlocked w s') := by
  obtain ⟨zs, hzs⟩ := hrun.wakeInv hok hk le_rfl
  have hnd : (s.blockedWaiters w).Nodup := hok.nodup.filter _
  have hsub : zs.Sublist (s.blockedWaiters w) ∧ k ≤ zs.length := by
    rcases hzs.list with rfl | rfl
    · exact ⟨.refl _, hk.trans (erase_sublist).length_le⟩
    · exact ⟨erase_sublist, hk⟩
  refine ⟨?_, fun s'' hs'' hne => ?_⟩
  · rw [hzs.woken]
    exact ⟨length_take_of_le hsub.2, hnd.sublist ((take_sublist k zs).trans hsub.1),
      ((take_sublist k zs).trans hsub.1).subset⟩
  · exact hzs.ok.madeRunnable_iff hs'' hne

/-- Two tasks, at 32 and 48, run in turn and start to wait on a queue-mode object. -/
def twoWaitersOps : List SchedOp :=
  [.allocate 4096 false, .create 32 (blankTask 1), .create 48 (blankTask 2), .reschedule,
    .start 4096 .blocked, .reschedule, .start 4096 .blocked, .reschedule]

/-- The state after `twoWaitersOps`, as far as it matters. -/
structure TwoWaiters (s : Tasks) : Prop where
  run : SchedRun bootTasks s
  obj : s.waitObj 4096 = { waiters := [32, 48], wakeupAll := false }
  blocked : s.IsBlocked 32 ∧ s.IsBlocked 48
  current : s.currentTask = 16

theorem TwoWaiters.queueOk (h : TwoWaiters s) : QueueOk s 4096 :=
  ⟨by rw [h.obj], by rw [h.obj]; decide, by rw [h.obj]; decide, by rw [h.current]; decide⟩

theorem TwoWaiters.blockedWaiters (h : TwoWaiters s) : s.blockedWaiters 4096 = [32, 48] := by
  rw [Tasks.blockedWaiters, h.obj]
  simp [h.blocked]

theorem waitWakeUp_distinct_one :
    ∃ s s', TwoWaiters s ∧ s.waitWakeUp 4096 = some s' ∧ (madeRunnable 4096 s s').length = 1 := by
  obtain ⟨s, hs, hobj, hblocked, hcur, s', hs', -⟩ : ∃ s ∈ execAll twoWaitersOps bootTasks,
      s.waitObj 4096 = { waiters := [32, 48], wakeupAll := false } ∧
        (s.IsBlocked 32 ∧ s.IsBlocked 48) ∧ s.currentTask = 16 ∧ ∃ s' ∈ s.waitWakeUp 4096, True := by
    decide +kernel
  have htwo : TwoWaiters s := ⟨execAll_schedRun hs, hobj, hblocked, hcur⟩
  have hfirst : FirstBlocked 4096 s := fun _ => ⟨32, by rw [hobj]; rfl, hblocked.1⟩
  have hk : 1 ≤ ((s.blockedWaiters 4096).erase s.currentTask).length := by
    rw [htwo.blockedWaiters, hcur]
    decide
  exact ⟨s, s', htwo, hs', (waitWakeUp_distinct htwo.queueOk (.wakeUp .refl hfirst hs') hk).1.1⟩

/-- Two wake-ups before the first task runs make only that task runnable. -/
theorem waitWakeUp_lost :
    ∃ s s', TwoWaiters s ∧ QueueRun 4096 (fun _ => True) s 2 [32] s' ∧ s'.IsBlocked 48 := by
  obtain ⟨s, hs, hobj, hblocked, hcur, s1, hs1, s2, hs2, hmade1, hmade2, hleft⟩ :
      ∃ s ∈ execAll twoWaitersOps bootTasks,
        s.waitObj 4096 = { waiters := [32, 48], wakeupAll := false } ∧
        (s.IsBlocked 32 ∧ s.IsBlocked 48) ∧ s.currentTask = 16 ∧
        ∃ s1 ∈ s.waitWakeUp 4096, ∃ s2 ∈ s1.waitWakeUp 4096,
          madeRunnable 4096 s s1 = [32] ∧ madeRunnable 4096 s1 s2 = [] ∧ s2.IsBlocked 48 := by
    decide +kernel
  have htwice : QueueRun 4096 (fun _ => True) s 2 _ s2 := .wakeUp (.wakeUp .refl trivial hs1) trivial hs2
  rw [hmade1, hmade2] at htwice
  exact ⟨s, s2, ⟨execAll_schedRun hs, hobj, hblocked, hcur⟩, htwice, hleft⟩

/-! ## One call of `wait_on_condition_impl` -/

section Call

variable {E : Type} {a : WaitArgs E} {tests : List (Tasks × E)} {x z : Tasks × E}

theorem waitFinish_deliverable (ht : t ≠ 0) (h : s.waitFinish w t st = some s') :
    s'.Deliverable t ↔ s.Deliverable t := by
  unfold waitFinish at h
  dsimp only at h
  split at h
  · have hfield := schedulerMoveTaskToState_field ht h (fun x => x.sigPending &&& ~~~x.sigBlocked)
      (fun _ => rfl) (fun _ _ => rfl) t
    rw [Deliverable, hfield]
    rfl
  · cases h
    rfl

theorem again_iff : Again a x ↔
    (x.1.task a.task).state = a.blockState ∧ a.condition x.1 x.2 = false := by
  simp [Again, waitAgain]

/-- The registration of the caller is the same in all states of the loop. -/
theorem WaitLoop.count_eq (h : WaitLoop a x tests z) :
    (z.1.waitObj a.w).waiters.count a.task = (x.1.waitObj a.w).waiters.count a.task := by
  induction h with
  | leave _ => rfl
  | yield _ hothers _ ih => exact ih.trans hothers

/-- The loop goes on only in states in which the wait has not been ended. -/
theorem WaitLoop.reasoned_iff (h : WaitLoop a x tests z) :
    (∀ y ∈ tests, Reasoned a y) ↔ Reasoned a z := by
  induction h with
  | leave _ => simp
  | yield hagain _ _ ih =>
    rw [forall_mem_cons, ih, and_iff_right]
    exact .inl (again_iff.mp hagain).1

theorem WaitLoop.not_again (h : WaitLoop a x tests z) : ¬ Again a z := by
  induction h with
  | leave hleave => exact hleave
  | yield _ _ _ ih => exact ih

end Call

/-- A task, at 32, runs. -/
def oneTaskOps : List SchedOp := [.allocate 4096 true, .create 32 (blankTask 1), .reschedule]

/-- The arguments of a wait of that task whose condition has the fixed value `b`. -/
def fixedArgs (b : Bool) : WaitArgs Unit :=
  { w := 4096, task := 32, blockState := .blocked, condition := fun _ _ => b }

/-- The task sleeps, another task wakes it up, and it gets the processor. -/
def spuriousOps : List SchedOp := [.reschedule, .wakeUp 4096, .reschedule]

end Tasks

end Stos.Kernel
