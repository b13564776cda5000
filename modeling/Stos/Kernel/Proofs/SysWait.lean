import Stos.Kernel.Proofs.ProcessLinks

/-!
# `sys_wait` with `WNOHANG`

What the answers of `sys_wait` should say about the children of the caller, and for which arguments
they do.
-/

namespace Stos.Kernel

open List Option

namespace Tasks

open Processes

variable {s s' s1 : Tasks} {p c w : Nat} {xs : List Nat}

/-! ## The walks along the children -/

theorem childList_length_le (s : Tasks) (p : Nat) : (s.childList p).length ≤ walkLimit :=
  dllNodes_length_le _ _ _ _

theorem IsFamily.childList_eq (h : IsFamily s p xs) (hlen : xs.length ≤ walkLimit) :
    s.childList p = xs :=
  h.linked.dllNodes_eq hlen

theorem IsFamily.findChildWhere_eq (h : IsFamily s p xs) (hlen : xs.length ≤ walkLimit)
    (P : Task → Bool) :
    s.findChildWhere p P = some ((xs.find? fun t => P (s.task t)).getD 0) :=
  h.linked.dllFind_eq _ (Nat.lt_succ_of_le hlen)

theorem Quiet.isFamily (h : Quiet s s') (hf : IsFamily s p xs) : IsFamily s' p xs :=
  hf.congr (family_firstChild h.family p) (fun t _ => family_nextSibling h.family t)
    fun t _ => family_prevSibling h.family t

/-! ## A wait that need not give up the processor -/

/-- The current task can block: `add_to_queue` gets to the end of the blocked queue. -/
def CanBlock (s : Tasks) : Prop :=
  (s.schedulerMoveTaskToState s.currentTask .blocked).isSome = true

instance (s : Tasks) : Decidable s.CanBlock := inferInstanceAs (Decidable (_ = _))

/-- The first child that the wait looks for is `c`. -/
def Selects (s : Tasks) (c : Nat) : WaitSel → Prop
  | .child pid d => d = c ∧
      (s.childList s.currentTask).find? (fun t => decide ((s.task t).pid = pid)) = some c
  | .any => (s.childList s.currentTask).find? (fun t => decide ((s.task t).state = .zombie)) = some c

theorem CanBlock.waitStart (h : s.CanBlock) (hcur : s.currentTask ≠ 0) (w : Nat) :
    ∃ s1, s.waitStart w .blocked = some s1 := by
  obtain ⟨s1, hs1⟩ := isSome_iff_exists.mp h
  exact ⟨s1.enqueueWaiter w s.currentTask, by rw [Tasks.waitStart, if_neg hcur, hs1]; rfl⟩

/-- A task that leaves the blocked queue joins no queue. -/
theorem waitFinish_returns (w t : Nat) : ∃ s', s.waitFinish w t .blocked = some s' := by
  unfold waitFinish
  dsimp only
  split
  · unfold schedulerMoveTaskToState
    split
    · exact ⟨_, rfl⟩
    · next ht =>
      unfold addToQueue
      rw [if_neg ht, setState_state, if_pos rfl]
      exact ⟨_, rfl⟩
  · exact ⟨_, rfl⟩

section Reap

variable {sel : WaitSel} (hfam : IsFamily s s.currentTask (s.childList s.currentTask))
  (hrunning : (s.task s.currentTask).state = .running)
  (hc : c ∈ s.childList s.currentTask) (hz : (s.task c).state = .zombie) (hsel : s.Selects c sel)
include hfam hrunning hc hz hsel

/-- After the current task has blocked, its condition holds at once. -/
theorem taskWaitTest_started (hcur : s.currentTask ≠ 0)
    (hs1 : s.waitStart w .blocked = some s1) :
    ∃ s2, s1.taskWaitTest sel = some (true, s2) ∧ s2.waitSelTask sel = c := by
  have hquiet := Quiet.start (by decide) hs1
  obtain ⟨hstate, -, -, -⟩ := waitStart_effect hcur hs1
  have hfam1 := hquiet.isFamily hfam
  have hlen := childList_length_le s s.currentTask
  have hc0 : c ≠ 0 := hfam.ne_nil hc
  have hcc : c ≠ s.currentTask := fun e => by
    rw [e, hrunning] at hz
    cases hz
  have hblocked : (s1.task s1.currentTask).state = .blocked := by
    rw [hquiet.current, hstate, if_pos rfl]
  rw [taskWaitTest, if_pos hblocked]
  cases sel with
  | child pid d =>
    obtain ⟨rfl, hfind⟩ := hsel
    refine ⟨s1, ?_, rfl⟩
    have hpid : (fun t => decide ((s1.task t).pid = pid)) = fun t => decide ((s.task t).pid = pid) :=
      funext fun t => by rw [family_pid hquiet.family]
    rw [waitSelCondition, taskWaitForChild, hquiet.current, hfam1.findChildWhere_eq hlen, hpid, hfind]
    simp [hc0, hstate, hcc, hz]
  | any =>
    refine ⟨{ s1 with anyChildZombieFound := c }, ?_, rfl⟩
    have hzombie : (fun t => decide ((s1.task t).state = .zombie)) =
        fun t => decide ((s.task t).state = .zombie) := by
      funext t
      rw [hstate]
      by_cases ht : t = s.currentTask
      · rw [if_pos ht, ht, hrunning]
        rfl
      · rw [if_neg ht]
    rw [waitSelCondition, taskWaitForAnyChild, hquiet.current, hfam1.findChildWhere_eq hlen, hzombie,
      show (s.childList s.currentTask).find? _ = some c from hsel]
    simp [hc0]

/-- `task_wait` reaps the child at once. -/
theorem taskWaitNow_reaps {pid : Int} (hcur : s.currentTask ≠ 0) (hblock : s.CanBlock)
    (hpid : s.taskWaitSelect pid = some (.inr sel)) :
    ∃ s', s.taskWaitNow pid = some (s', ((s.task c).pid : Int), some (s.task c).exitCode) ∧
      (s'.task c).state = .dead ∧ c ∉ s'.childList s.currentTask := by
  obtain ⟨s1, hs1⟩ := hblock.waitStart hcur (s.waitSelObj s.currentTask sel)
  obtain ⟨s2, htest, hfound⟩ := taskWaitTest_started hfam hrunning hc hz hsel hcur hs1
  obtain ⟨s3, hs3⟩ := waitFinish_returns (s := s2) (s.waitSelObj s.currentTask sel) s.currentTask
  have hstart := Quiet.start (by decide) hs1
  have hquiet : Quiet s s3 :=
    hstart.trans ((Quiet.ofTask (taskWaitTest_task htest)).trans (.finish hs3))
  have hc3 : s3.waitSelTask sel = c := by
    rw [← hfound]
    cases sel with
    | child _ _ => rfl
    | any => exact waitFinish_found hcur hs3
  have hprev : (s3.task c).prevSibling ≠ c := by
    rw [family_prevSibling hquiet.family]
    exact hfam.prev_ne_self hc
  have hreaped := reapChild_reaped (p := s.currentTask) (hfam.ne_nil hc) hprev
  have hfam' := hreaped.isFamily (hquiet.isFamily hfam) hc
  have hlen : ((s.childList s.currentTask).erase c).length ≤ walkLimit :=
    (length_erase_le).trans (childList_length_le s s.currentTask)
  refine ⟨s3.reapChild s.currentTask c, ?_, reapChild_dead _ _ _, ?_⟩
  · rw [taskWaitNow, hpid]
    simp only [bind_some, hs1, taskWaitEnd, htest, hstart.current, hs3, map_some, hc3,
      if_true, family_pid hquiet.family, family_exitCode hquiet.family]
  · rw [hfam'.childList_eq hlen]
    exact hfam.nodup.not_mem_erase

end Reap

/-! ## The answers -/

/-- Child `c` is one that the argument asks for: a positive one is a `pid`, any other stands for
any child (`libc/include/sys/wait.h:25-27`). -/
def Asked (s : Tasks) (pid : Int) (c : Nat) : Prop := 0 < pid → ((s.task c).pid : Int) = pid

/-- What an answer should say about the children of the caller, and do to them. -/
structure NohangOk (s : Tasks) (pid : Int) (s' : Tasks) (r : Int) (exitCode : Option Int) : Prop where
  noChild : r = noChild ↔ ∀ c ∈ s.childList s.currentTask, ¬ s.Asked pid c
  zero : r = 0 ↔ (∃ c ∈ s.childList s.currentTask, s.Asked pid c) ∧
    ∀ c ∈ s.childList s.currentTask, s.Asked pid c → (s.task c).state ≠ .zombie
  reaped : (∃ c ∈ s.childList s.currentTask, s.Asked pid c ∧ (s.task c).state = .zombie) →
    ∃ c ∈ s.childList s.currentTask, s.Asked pid c ∧ (s.task c).state = .zombie ∧
      r = (s.task c).pid ∧ exitCode = some (s.task c).exitCode ∧ (s'.task c).state = .dead ∧
        c ∉ s'.childList s.currentTask

/-- The arguments that `sys_wait` handles: a `pid` whose child, if there is one, is a zombie, 0 if
no child is a zombie, and all negative numbers. -/
def NohangHandled (s : Tasks) (pid : Int) : Prop :=
  (0 < pid → ∀ c, (s.childList s.currentTask).find? (fun t => decide (((s.task t).pid : Int) = pid)) =
    some c → (s.task c).state = .zombie) ∧
  (pid = 0 → ∀ c ∈ s.childList s.currentTask, (s.task c).state ≠ .zombie)

namespace NohangOk

variable {pid r : Int} {exitCode : Option Int}

/-- The answer for a child that has been reaped. -/
theorem ofReaped (hc : c ∈ s.childList s.currentTask) (hasked : s.Asked pid c)
    (hz : (s.task c).state = .zombie) (hpos : 0 < (s.task c).pid) (hdead : (s'.task c).state = .dead)
    (hgone : c ∉ s'.childList s.currentTask) :
    NohangOk s pid s' (s.task c).pid (some (s.task c).exitCode) := by
  refine ⟨⟨fun h => ?_, fun h => absurd hasked (h c hc)⟩, ⟨fun h => ?_, fun h => ?_⟩,
    fun _ => ⟨c, hc, hasked, hz, rfl, rfl, hdead, hgone⟩⟩
  · unfold Tasks.noChild at h
    omega
  · omega
  · exact absurd hz (h.2 c hc hasked)

/-- The answer if no child is asked for. -/
theorem ofNone (h : ∀ c ∈ s.childList s.currentTask, ¬ s.Asked pid c) :
    NohangOk s pid s Tasks.noChild none := by
  refine ⟨⟨fun _ => h, fun _ => rfl⟩, ⟨fun hr => absurd hr (by decide), fun hc => ?_⟩, fun hc => ?_⟩
  · obtain ⟨⟨c, hc, hasked⟩, -⟩ := hc
    exact absurd hasked (h c hc)
  · obtain ⟨c, hc, hasked, -⟩ := hc
    exact absurd hasked (h c hc)

/-- The answer if there are children but none has exited. -/
theorem ofZero (hc : c ∈ s.childList s.currentTask) (hasked : s.Asked pid c)
    (h : ∀ c ∈ s.childList s.currentTask, (s.task c).state ≠ .zombie) :
    NohangOk s pid s 0 none := by
  refine ⟨⟨fun hr => absurd hr (by decide), fun hn => absurd hasked (hn c hc)⟩,
    ⟨fun _ => ⟨⟨c, hc, hasked⟩, fun c hc _ => h c hc⟩, fun _ => rfl⟩, fun hz => ?_⟩
  obtain ⟨d, hd, -, hz⟩ := hz
  exact absurd hz (h d hd)

end NohangOk

section Nohang

variable {pid : Int} (hfam : IsFamily s s.currentTask (s.childList s.currentTask))
  {found : Option Nat}
include hfam

theorem findChild_eq (hpos : 0 < pid) (hpid : pid < 2 ^ 31)
    (hfind : (s.childList s.currentTask).find? (fun t => decide (((s.task t).pid : Int) = pid)) =
      found) : s.findChild s.currentTask pid =
      some (if found.getD 0 ≠ 0 ∧ (s.task (found.getD 0)).state = .zombie then found.getD 0 else 0) := by
  have hsame : (fun t => decide ((s.task t).pid = (pid % 2 ^ 32).toNat)) =
      fun t => decide (((s.task t).pid : Int) = pid) := by
    funext t
    rw [decide_eq_decide]
    omega
  rw [findChild, hfam.findChildWhere_eq (childList_length_le _ _), hsame, hfind]
  rfl

theorem taskWaitSelect_child (hne : s.childList s.currentTask ≠ []) (hpos : 0 ≤ pid)
    (hfind : (s.childList s.currentTask).find? (fun t => decide (((s.task t).pid : Int) = pid)) =
      found) : s.taskWaitSelect pid =
      some (if found.getD 0 = 0 then .inl (-2) else .inr (.child pid.toNat (found.getD 0))) := by
  have hsame : (fun t => decide ((s.task t).pid = pid.toNat)) =
      fun t => decide (((s.task t).pid : Int) = pid) := by
    funext t
    rw [decide_eq_decide]
    omega
  have hfirst : (s.task s.currentTask).firstChild ≠ 0 := fun e =>
    hne (hfam.linked.head_eq_nil_iff.mp e)
  rw [taskWaitSelect, if_neg hfirst, if_pos hpos, hfam.findChildWhere_eq (childList_length_le _ _), hsame, hfind]
  rfl

variable (hcur : s.currentTask ≠ 0) (hrunning : (s.task s.currentTask).state = .running)
  (hblock : s.CanBlock)
  (hpids : ∀ c ∈ s.childList s.currentTask, 0 < (s.task c).pid ∧ (s.task c).pid < 2 ^ 31)
include hcur hrunning hblock hpids

theorem sysWaitReap_ok {sel : WaitSel} (hc : c ∈ s.childList s.currentTask)
    (hasked : s.Asked pid c) (hz : (s.task c).state = .zombie) (hsel : s.Selects c sel)
    (hpid : s.taskWaitSelect pid = some (.inr sel)) :
    ∃ s' r exitCode, s.sysWaitReap pid = some (s', r, exitCode) ∧ NohangOk s pid s' r exitCode := by
  obtain ⟨s', hs', hdead, hgone⟩ := taskWaitNow_reaps hfam hrunning hc hz hsel hcur hblock hpid
  have hpos := (hpids c hc).1
  refine ⟨s', _, _, ?_, .ofReaped hc hasked hz hpos hdead hgone⟩
  rw [sysWaitReap, hs', map_some]
  dsimp only
  rw [if_pos (by omega)]

theorem sysWaitNohang_pid_iff (hpos : 0 < pid) (hpid : pid < 2 ^ 31) :
    (∃ s' r exitCode, s.sysWaitNohang pid = some (s', r, exitCode) ∧
      NohangOk s pid s' r exitCode) ↔ s.NohangHandled pid := by
  rw [sysWaitNohang, if_neg hcur, if_pos hpos]
  cases hfind : (s.childList s.currentTask).find? fun t => decide (((s.task t).pid : Int) = pid) with
  | none =>
    rw [findChild_eq hfam hpos hpid hfind]
    refine ⟨fun _ => ⟨fun _ c hc => ?_, fun h0 => absurd h0 hpos.ne'⟩,
      fun _ => ⟨s, noChild, none, rfl, .ofNone fun c hc hasked => ?_⟩⟩
    · rw [hfind] at hc
      cases hc
    · have := find?_eq_none.mp hfind c hc
      simp [hasked hpos] at this
  | some c =>
    have hc := mem_of_find?_eq_some hfind
    have hc0 : c ≠ 0 := hfam.ne_nil hc
    have hcpid : ((s.task c).pid : Int) = pid := by simpa using find?_some hfind
    rw [findChild_eq hfam hpos hpid hfind, getD_some]
    by_cases hz : (s.task c).state = .zombie
    · rw [if_pos ⟨hc0, hz⟩, bind_some, if_neg hc0, if_neg (not_not_intro hz)]
      refine ⟨fun _ => ⟨fun _ d hd => ?_, fun h0 => absurd h0 hpos.ne'⟩, fun _ => ?_⟩
      · rw [hfind] at hd
        cases hd
        exact hz
      · have hsel := taskWaitSelect_child hfam (ne_nil_of_mem hc) hpos.le hfind
        rw [getD_some, if_neg hc0] at hsel
        have hfirst : s.Selects c (.child pid.toNat c) := by
          refine ⟨rfl, ?_⟩
          rw [← hfind]
          congr 1
          funext t
          rw [decide_eq_decide]
          omega
        exact sysWaitReap_ok hfam hcur hrunning hblock hpids hc (fun _ => hcpid) hz hfirst hsel
    · rw [if_neg fun e => hz e.2, bind_some, if_pos rfl]
      refine ⟨fun ⟨s', r, exitCode, he, hok⟩ => ?_, fun h => absurd (h.1 hpos c hfind) hz⟩
      cases he
      exact absurd (fun _ => hcpid) (hok.noChild.mp rfl c hc)

theorem sysWaitNohang_any_iff (hneg : pid ≤ 0) :
    (∃ s' r exitCode, s.sysWaitNohang pid = some (s', r, exitCode) ∧
      NohangOk s pid s' r exitCode) ↔ s.NohangHandled pid := by
  have hasked : ∀ c, s.Asked pid c := fun c h0 => absurd h0 hneg.not_gt
  rw [sysWaitNohang, if_neg hcur, if_neg hneg.not_gt]
  by_cases hfirst : (s.task s.currentTask).firstChild = 0
  · have hnil := hfam.linked.head_eq_nil_iff.mp hfirst
    rw [if_pos hfirst]
    refine ⟨fun _ => ⟨fun h0 => absurd h0 hneg.not_gt, fun _ c hc => ?_⟩,
      fun _ => ⟨s, noChild, none, rfl, .ofNone fun c hc => ?_⟩⟩
    · rw [hnil] at hc
      cases hc
    · rw [hnil] at hc
      cases hc
  have hne : s.childList s.currentTask ≠ [] := fun e => hfirst (hfam.linked.head_eq_nil_iff.mpr e)
  rw [if_neg hfirst, findAnyZombieChild, hfam.findChildWhere_eq (childList_length_le _ _),
    bind_some]
  cases hfind : (s.childList s.currentTask).find? fun t => decide ((s.task t).state = .zombie) with
  | none =>
    have hnone : ∀ c ∈ s.childList s.currentTask, (s.task c).state ≠ .zombie := fun c hc => by
      simpa using find?_eq_none.mp hfind c hc
    obtain ⟨c, hc⟩ := exists_mem_of_ne_nil _ hne
    exact ⟨fun _ => ⟨fun h0 => absurd h0 hneg.not_gt, fun _ => hnone⟩,
      fun _ => ⟨s, 0, none, rfl, .ofZero hc (hasked c) hnone⟩⟩
  | some c =>
    have hc := mem_of_find?_eq_some hfind
    have hc0 : c ≠ 0 := hfam.ne_nil hc
    have hz : (s.task c).state = .zombie := by simpa using find?_some hfind
    rw [getD_some, if_neg hc0]
    by_cases h0 : pid = 0
    · -- `task_wait` takes 0 for a `pid`, which no child has
      subst h0
      refine ⟨fun ⟨s', r, exitCode, he, hok⟩ => ?_, fun h => absurd hz (h.2 rfl c hc)⟩
      have hpid0 : (s.childList s.currentTask).find?
          (fun t => decide (((s.task t).pid : Int) = 0)) = none := by
        rw [find?_eq_none]
        intro d hd
        have := (hpids d hd).1
        simp only [decide_eq_true_eq]
        omega
      have hsel := taskWaitSelect_child hfam hne (Int.le_refl 0) hpid0
      rw [sysWaitReap, taskWaitNow, hsel] at he
      obtain ⟨d, hd, -, -, hr, -⟩ := hok.reaped ⟨c, hc, hasked c, hz⟩
      cases he
      exact absurd hr (by unfold notSupported; omega)
    · have hsel : s.taskWaitSelect pid = some (.inr .any) := by
        rw [taskWaitSelect, if_neg hfirst, if_neg (by omega)]
      have hfirst' : s.Selects c .any := hfind
      exact ⟨fun _ => ⟨fun hpos => absurd hpos hneg.not_gt, fun e => absurd e h0⟩,
        fun _ => sysWaitReap_ok hfam hcur hrunning hblock hpids hc (hasked c) hz hfirst' hsel⟩

end Nohang

/-- For every list of children and every argument, `sys_wait` with `WNOHANG` answers as it should
exactly if it handles the argument. -/
theorem sysWaitNohang_ok_iff (s : Tasks) (pid : Int)
    (hfam : IsFamily s s.currentTask (s.childList s.currentTask)) (hcur : s.currentTask ≠ 0)
    (hrunning : (s.task s.currentTask).state = .running) (hblock : s.CanBlock)
    (hpids : ∀ c ∈ s.childList s.currentTask, 0 < (s.task c).pid ∧ (s.task c).pid < 2 ^ 31)
    (hpid : pid < 2 ^ 31) :
    (∃ s' r exitCode, s.sysWaitNohang pid = some (s', r, exitCode) ∧
      NohangOk s pid s' r exitCode) ↔ s.NohangHandled pid := by
  by_cases hpos : 0 < pid
  · exact sysWaitNohang_pid_iff hfam hcur hrunning hblock hpids hpos hpid
  · exact sysWaitNohang_any_iff hfam hcur hrunning hblock hpids (not_lt.mp hpos)

/-- A task that has just started its first child asks for any child. -/
theorem sysWaitNohang_ok_iff_anyChild :
    ∃ s, bootTasks.taskFork 32 1 4096 4112 = some s ∧ ∃ s' r exitCode,
      s.sysWaitNohang (-1) = some (s', r, exitCode) ∧ NohangOk s (-1) s' r exitCode := by
  obtain ⟨s, hs, hcur, hrunning, hblock, hfirst, hprev, hnext, hpid, hlist⟩ :
      ∃ s ∈ bootTasks.taskFork 32 1 4096 4112, s.currentTask = 16 ∧
        (s.task 16).state = .running ∧ s.CanBlock ∧ (s.task 16).firstChild = 32 ∧
        (s.task 32).prevSibling = 0 ∧ (s.task 32).nextSibling = 0 ∧ (s.task 32).pid = 1 ∧
          s.childList 16 = [32] := by
    decide +kernel
  refine ⟨s, hs, (sysWaitNohang_ok_iff s (-1) ?_ ?_ ?_ hblock ?_ (by decide)).mpr ?_⟩
  · rw [hcur, hlist]
    exact ⟨⟨hfirst, by decide, hprev, hnext⟩, nodup_singleton 32⟩
  · rw [hcur]
    decide
  · rw [hcur, hrunning]
  · rw [hcur, hlist]
    intro c hc
    rw [mem_singleton.mp hc, hpid]
    decide
  · exact ⟨fun h => absurd h (by decide), fun h => absurd h (by decide)⟩

/-- It is told that there is no such child if it asks for its child by `pid`. -/
theorem sysWaitNohang_runningChild :
    ∃ s, bootTasks.taskFork 32 1 4096 4112 = some s ∧ 32 ∈ s.childList s.currentTask ∧
      (s.task 32).pid = 1 ∧ (s.task 32).state = .waiting ∧ ∃ s' exitCode,
        s.sysWaitNohang 1 = some (s', noChild, exitCode) ∧
          ¬ NohangOk s 1 s' noChild exitCode := by
  obtain ⟨s, hs, hmem, hpid, hstate, ⟨s', _, exitCode⟩, hx, rfl⟩ :
      ∃ s ∈ bootTasks.taskFork 32 1 4096 4112, 32 ∈ s.childList s.currentTask ∧
        (s.task 32).pid = 1 ∧ (s.task 32).state = .waiting ∧
        ∃ x ∈ s.sysWaitNohang 1, x.2.1 = noChild := by
    decide +kernel
  refine ⟨s, hs, hmem, hpid, hstate, s', exitCode, hx, fun hok => hok.noChild.mp rfl 32 hmem ?_⟩
  intro _
  rw [hpid]
  rfl

end Tasks

end Stos.Kernel
