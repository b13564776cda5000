import Stos.Kernel.Proofs.Scheduler

/-!
# Taking turns

While tasks lose the processor only by `scheduler_reschedule` they run one after the other in a
fixed order. The links from each ready task to the next one stay right, although those back go
stale.
-/

namespace Stos.Kernel

open List SchedOp

namespace Tasks

variable {s s' : Tasks} {idle c z n : Nat} {xs zs p : List Nat} {qs : Queue → List Nat}

/-- Task `c` runs, the ready tasks are `xs`, the idle task among them, and `zs` are the tasks that
`cleanup_dead_tasks` visits. -/
structure Turns (s : Tasks) (idle c : Nat) (xs zs : List Nat) : Prop where
  current : s.currentTask = c ∧ c ≠ 0 ∧ (s.task c).state = .running
  ready : ∃ before, s.Chain before (s.queueHead .waiting) xs
  zombies : IsDll 0 (fun t => (s.task t).next) (fun t => (s.task t).prev) (s.queueHead .zombie) zs
  nodup : (c :: xs ++ zs).Nodup
  length : xs.length ≤ walkLimit ∧ zs.length ≤ walkLimit
  mem : idle ∈ xs
  pid : ∀ t ∈ c :: xs, (s.task t).pid = s.idleTaskPid ↔ t = idle

namespace Turns

theorem ready_apart (h : Turns s idle c xs zs) {u : Nat} (hu : u ∈ c :: xs) : u ∉ zs :=
  fun hz => (nodup_append.mp h.nodup).2.2 u hu u hz rfl

/-! ## Destroying the dead tasks -/

theorem remove (h : Turns s idle c xs zs) (hz : z ∈ zs) :
    Turns (s.removeFromQueue z) idle c xs (zs.erase z) := by
  obtain ⟨hdll, hlinks⟩ := removeFromQueue_dll h.zombies hz
  have hhead := removeFromQueue_queueHead (h.zombies.ne_nil hz) (h.zombies.prev_ne_self hz)
  have hsame := removeFromQueue_sameTasks s z
  obtain ⟨before, hl⟩ := h.ready
  refine ⟨?_, ⟨before, ?_⟩, ?_, ?_, ?_, h.mem, ?_⟩
  · rw [hsame.current, hsame.state]
    exact h.current
  · have hz' : s.queueHead .waiting ≠ z := by
      obtain ⟨y, ys, rfl⟩ := exists_cons_of_ne_nil (ne_nil_of_mem h.mem)
      rw [hl.1]
      exact fun e => h.ready_apart (by simp) (e ▸ hz)
    rw [hhead, if_neg hz']
    exact hlinks.chain hl fun u hu => h.ready_apart (mem_cons_of_mem c hu)
  · rw [hhead]
    exact hdll
  · exact h.nodup.sublist ((List.Sublist.refl _).append List.erase_sublist)
  · exact ⟨h.length.1, length_erase_le.trans h.length.2⟩
  · intro t ht
    rw [hsame.pid, hsame.idle]
    exact h.pid t ht

theorem cleanupFrom (h : Turns s idle c xs (p ++ zs)) (hn : zs.length < n) :
    ∃ s' zs', s.cleanupFrom n (zs.headD 0) = some s' ∧ Turns s' idle c xs zs' := by
  induction zs generalizing s p n with
  | nil =>
    obtain ⟨n, rfl⟩ : ∃ m, n = m + 1 := ⟨n - 1, by omega⟩
    exact ⟨s, _, if_pos rfl, h⟩
  | cons z zs ih =>
    obtain ⟨n, rfl⟩ : ∃ m, n = m + 1 := ⟨n - 1, by omega⟩
    have hz : z ∈ p ++ z :: zs := by simp
    have hfront : z ∉ p := fun hm =>
      (nodup_append.mp h.zombies.nodup).2.2 z hm z (by simp) rfl
    rw [Tasks.cleanupFrom, headD_cons, if_neg (h.zombies.ne_nil hz),
      h.zombies.linked.next_append]
    split
    · have hr := h.remove hz
      rw [erase_append_right _ hfront, erase_cons_head] at hr
      exact ih (p := p) { hr with } (by simpa using hn)
    · exact ih (p := p ++ [z]) (by simpa using h) (by simpa using hn)

/-! ## The next turn -/

theorem switchTo {x : Nat} {ys : List Nat} (h : Turns s idle c xs zs) (hsame : SameTasks s s')
    (htaken : TakenFirst s' x ys) (hlinks : SameLinks s s' xs)
    (hdead : s'.queueHead .zombie = s.queueHead .zombie) (hx : x ≠ idle)
    (hperm : (x :: ys).Perm xs) :
    ∃ s'', s'.switchTo c x = some s'' ∧ Turns s'' idle x (ys ++ [c]) zs := by
  obtain ⟨hcxs, hndxs⟩ := nodup_cons.mp (nodup_append.mp h.nodup).1
  have hxs : x ∈ xs := hperm.mem_iff.mp (by simp)
  have hys : ∀ y ∈ ys, y ∈ xs := fun y hy => hperm.mem_iff.mp (mem_cons_of_mem x hy)
  have hcx : c ≠ x := fun e => hcxs (e ▸ hxs)
  have hperm' : (x :: (ys ++ [c])).Perm (c :: xs) :=
    (perm_append_singleton c (x :: ys)).trans (hperm.cons c)
  obtain ⟨hcur, hc0, hrun⟩ := h.current
  have hl := ((htaken.setState c .waiting).setState x .running).linked
  obtain ⟨s'', hs'', hchain, hlinks', hheads⟩ := addToQueue_chain (t := c) (q := .waiting) hl
    htaken.length (absurd · htaken.nonempty) hc0 (by simp [hcx, TaskState.queue])
    (nodup_cons.mp (hperm.nodup_iff.mpr hndxs)).2 fun hm => hcxs (hys c hm)
  have hsame' := addToQueue_sameTasks hs''
  refine ⟨{ s'' with currentTask := x }, ?_, ⟨rfl, htaken.ne_zero, ?_⟩, ⟨x, hchain⟩, ?_, ?_, ?_, ?_,
    fun t ht => ?_⟩
  · simp [Tasks.switchTo, hsame.state, hrun, hcx, hs'']
  · simp [hsame'.state]
  · have hapart : ∀ u ∈ zs, u ∉ c :: xs := fun u hu hc => h.ready_apart hc hu
    have hz : s'.Chain 0 (s''.queueHead .zombie) zs := by
      rw [hheads .zombie (by decide), setState_queueHead, setState_queueHead, hdead]
      exact hlinks.chain h.zombies.linked fun u hu hm => hapart u hu (mem_cons_of_mem c hm)
    refine ⟨hlinks'.chain (hz.congr (fun u _ => ?_) fun u _ => ?_) fun u hu hm =>
      hapart u hu (cons_subset_cons c hys hm), h.zombies.nodup⟩
    · rw [setState_next, setState_next]
    · rw [setState_prev, setState_prev]
  · exact (hperm'.append_right zs).nodup_iff.mpr h.nodup
  · have := hperm'.length_eq
    have := h.length
    simp at *
    omega
  · have := hperm.mem_iff.mpr h.mem
    simp_all [Ne.symm hx]
  · simp only [hsame'.pid, hsame'.idle, setState_pid, setState_idleTaskPid, hsame.pid, hsame.idle]
    exact h.pid t (hperm'.mem_iff.mp ht)

/-- A reschedule gives the processor to the next task and puts the one that had it behind the
others. The idle task is passed over. -/
theorem reschedule (h : Turns s idle c xs zs) :
    ∃ s' c' xs' zs', s.schedulerReschedule = some s' ∧ Turns s' idle c' xs' zs' ∧
      c' :: xs'.filter (· ≠ idle) = (c :: xs.filter (· ≠ idle)).rotate 1 := by
  have hhead : s.queueHead .zombie = zs.headD 0 := by
    have hl := h.zombies.linked
    cases zs with
    | nil => exact hl
    | cons z zs => exact hl.1
  obtain ⟨s1, zs1, hs1, h1⟩ := h.cleanupFrom (p := []) (Nat.lt_succ_of_le h.length.2)
  obtain ⟨hcur, hc0, hrun⟩ := h1.current
  obtain ⟨before, hl⟩ := h1.ready
  unfold schedulerReschedule cleanupDeadTasks
  rw [hhead, hs1]
  match xs with
  | [] => exact absurd h.mem (by simp)
  | [a] =>
    obtain rfl := mem_singleton.mp h.mem
    obtain ⟨hfirst, ha0, -, hend⟩ := hl
    have hpid := (h1.pid idle (by simp)).mpr rfl
    obtain ⟨n, hn⟩ : ∃ n, walkLimit = n + 1 := ⟨2 ^ 32 - 1, by decide⟩
    refine ⟨s1, c, [idle], zs1, ?_, h1, by simp⟩
    have hnext : (s1.task idle).next = 0 := hend
    simp [hn, schedulerGetNextTask, hfirst, ha0, hpid, hnext, hcur, hrun]
  | a :: b :: rest =>
    have nd := (nodup_cons.mp (nodup_append.mp h1.nodup).1)
    obtain ⟨x, s2, ys, hs2, hsame, htaken, hlinks, hdead, hx, hperm, hfilter⟩ :=
      takenFirst hl nd.2 h1.length.1 fun t ht => h1.pid t (mem_cons_of_mem c ht)
    obtain ⟨s3, hs3, h3⟩ := h1.switchTo hsame htaken hlinks hdead hx hperm
    refine ⟨s3, x, ys ++ [c], zs1, ?_, h3, ?_⟩
    · simp [hs2, hcur, htaken.ne_zero, hs3]
    · have hc : c ≠ idle := fun e => nd.1 (e ▸ h.mem)
      rw [← hfilter]
      simp [hx, hc]

theorem run (k : Nat) (h : Turns s idle c xs zs) :
    ∃ s' c' xs' zs', execAll (replicate k .reschedule) s = some s' ∧
      Turns s' idle c' xs' zs' ∧
      c' :: xs'.filter (· ≠ idle) = (c :: xs.filter (· ≠ idle)).rotate k := by
  induction k generalizing s c xs zs with
  | zero => exact ⟨s, c, xs, zs, rfl, h, (rotate_zero _).symm⟩
  | succ k ih =>
    obtain ⟨s1, c1, xs1, zs1, hs1, h1, hturn⟩ := h.reschedule
    obtain ⟨s', c', xs', zs', hs', h', hturns⟩ := ih h1
    refine ⟨s', c', xs', zs', ?_, h', ?_⟩
    · rw [replicate_succ, execAll, if_pos (by trivial), exec, hs1]
      exact hs'
    · rw [hturns, hturn, rotate_rotate, Nat.add_comm]

end Turns

/-- Tasks that give the processor away only by `scheduler_reschedule`, with the idle task among the
ready ones, have their turns in a fixed cyclic order. The idle task has none. -/
theorem schedulerReschedule_turns (hqs : QueuesOk s qs)
    (hcur : s.currentTask ∈ s.table ∧ (s.task s.currentTask).state = .running ∧
      ∀ q, s.currentTask ∉ qs q)
    (hidle : idle ∈ qs .waiting)
    (hpid : ∀ t ∈ s.table, (s.task t).pid = s.idleTaskPid ↔ t = idle) :
    let turns := s.currentTask :: (qs .waiting).filter (· ≠ idle)
    turns.Nodup ∧ idle ∉ turns ∧ ∀ k, ∃ s',
      execAll (replicate k .reschedule) s = some s' ∧
        turns[k % turns.length]? = some s'.currentTask := by
  obtain ⟨hmem, hrun, hfree⟩ := hcur
  have nd : (s.currentTask :: qs .waiting).Nodup :=
    nodup_cons.mpr ⟨hfree .waiting, (hqs.dll .waiting).nodup⟩
  have h : Turns s idle s.currentTask (qs .waiting) (qs .zombie) := by
    refine ⟨⟨rfl, (hqs.address _ hmem).1, hrun⟩, ⟨0, (hqs.dll .waiting).linked⟩, hqs.dll .zombie,
      nodup_append.mpr ⟨nd, (hqs.dll .zombie).nodup, ?_⟩,
      ⟨hqs.length_le .waiting, hqs.length_le .zombie⟩, hidle, fun t ht => hpid t ?_⟩
    · rintro t ht u hu rfl
      rcases mem_cons.mp ht with rfl | ht
      · exact hfree .zombie hu
      · cases hqs.apart .waiting .zombie t ht hu
    · rcases mem_cons.mp ht with rfl | ht
      · exact hmem
      · exact hqs.mem .waiting t ht
  refine ⟨nd.sublist (filter_sublist.cons_cons _), ?_, fun k => ?_⟩
  · have : idle ≠ s.currentTask := fun e => hfree .waiting (e ▸ hidle)
    simp [this]
  · obtain ⟨s', c', xs', zs', hs', h', hturns⟩ := h.run k
    refine ⟨s', hs', ?_⟩
    rw [← List.head?_rotate (Nat.mod_lt _ (by simp)), rotate_mod, ← hturns, h'.current.1]
    rfl

theorem schedulerReschedule_turns_twoTasks :
    ∃ s qs, QueuesOk s qs ∧ s.currentTask = 32 ∧ 16 ∈ qs .waiting ∧ 48 ∈ qs .waiting ∧
      ∀ k, ∃ s', SchedOp.execAll (List.replicate k .reschedule) s = some s' ∧
        (32 :: (qs .waiting).filter (· ≠ 16))[k % (32 :: (qs .waiting).filter (· ≠ 16)).length]? =
          some s'.currentTask := by
  obtain ⟨s1, hs1, hready, s2, hs2, hnew, s, hs, hcur, hmem, h16, h32, h48⟩ :
      ∃ s1 ∈ (create 32 (blankTask 1)).exec bootTasks, s1.FewReady ∧
        ∃ s2 ∈ s1.schedulerReschedule, (create 48 (blankTask 2)).Allowed s2 ∧
        ∃ s ∈ (create 48 (blankTask 2)).exec s2, s.currentTask = 32 ∧
          (16 ∈ s.table ∧ 32 ∈ s.table ∧ 48 ∈ s.table) ∧ (s.task 16).state = .waiting ∧
          (s.task 32).state = .running ∧ (s.task 48).state = .waiting := by
    decide +kernel
  have hrun : FewReadyRun bootTasks s :=
    ((Relation.ReflTransGen.single ⟨.create 32 (blankTask 1), by decide, trivial, hs1⟩).tail
      ⟨.reschedule, trivial, hready, hs2⟩).tail ⟨_, hnew, trivial, hs⟩
  have hinv := hrun.schedInv bootTasks_initial.schedInv
  obtain ⟨qs, hqs⟩ := hinv.placed
  have h16' : 16 ∈ qs .waiting := (hqs.queued 16 hmem.1 (by decide) _).mpr (by rw [h16]; rfl)
  have hfree : ∀ q, s.currentTask ∉ qs q := fun q hq => by
    rw [hcur, hqs.queued 32 hmem.2.1 (by decide), h32] at hq
    cases hq
  refine ⟨s, qs, hqs.toQueuesOk, hcur, h16',
    (hqs.queued 48 hmem.2.2 (by decide) _).mpr (by rw [h48]; rfl), ?_⟩
  have h := schedulerReschedule_turns hqs.toQueuesOk ⟨hinv.current, by rw [hcur, h32], hfree⟩ h16'
    hinv.idlePid
  rw [hcur] at h
  exact h.2.2

end Tasks

end Stos.Kernel
