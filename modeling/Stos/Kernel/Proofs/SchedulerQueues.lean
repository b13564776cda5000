import Stos.Kernel.Scheduler

/-!
# The queues of the scheduler

What `remove_from_queue` and `add_to_queue` do to four lists of tasks that share one pair of
links, and to nothing else.
-/

namespace Stos.Kernel

open List Finset Option Function

namespace Tasks

variable {s s' : Tasks} {t u : Nat} {q : Queue} {qs : Queue → List Nat} {st : TaskState}

/-- A task without its place in a queue. -/
def unplaced (x : Task) : Task := { x with prev := 0, next := 0 }

/-- Only links and first tasks of queues differ. -/
structure SameTasks (s s' : Tasks) : Prop where
  unplaced : ∀ u, unplaced (s'.task u) = unplaced (s.task u)
  table : s'.table = s.table
  waitObj : s'.waitObj = s.waitObj
  current : s'.currentTask = s.currentTask
  idle : s'.idleTaskPid = s.idleTaskPid
  found : s'.anyChildZombieFound = s.anyChildZombieFound

namespace SameTasks

theorem refl (s : Tasks) : SameTasks s s := ⟨fun _ => rfl, rfl, rfl, rfl, rfl, rfl⟩

theorem trans {s'' : Tasks} (h : SameTasks s s') (h' : SameTasks s' s'') : SameTasks s s'' :=
  ⟨fun u => (h'.unplaced u).trans (h.unplaced u), h'.table.trans h.table,
    h'.waitObj.trans h.waitObj, h'.current.trans h.current, h'.idle.trans h.idle,
    h'.found.trans h.found⟩

/-- What does not depend on the links is the same. -/
theorem field {α : Type} (h : SameTasks s s') (g : Task → α) (hg : ∀ x, g (Tasks.unplaced x) = g x)
    (u : Nat) : g (s'.task u) = g (s.task u) := by
  rw [← hg, h.unplaced, hg]

theorem state (h : SameTasks s s') (u : Nat) : (s'.task u).state = (s.task u).state :=
  h.field Task.state (fun _ => rfl) u

theorem pid (h : SameTasks s s') (u : Nat) : (s'.task u).pid = (s.task u).pid :=
  h.field Task.pid (fun _ => rfl) u

theorem modify (s : Tasks) (t : Nat) {f : Task → Task} (hf : ∀ x, Tasks.unplaced (f x) = Tasks.unplaced x) :
    SameTasks s (s.modify t f) := by
  refine ⟨fun u => ?_, rfl, rfl, rfl, rfl, rfl⟩
  rw [modify_task]
  split
  · next h => rw [hf, h]
  · rfl

theorem setNext (s : Tasks) (t v : Nat) : SameTasks s (s.setNext t v) := modify s t fun _ => rfl

theorem setPrev (s : Tasks) (t v : Nat) : SameTasks s (s.setPrev t v) := modify s t fun _ => rfl

theorem linkNext (s : Tasks) (t v : Nat) : SameTasks s (s.linkNext t v) := by
  unfold Tasks.linkNext
  split
  · exact setNext s t v
  · exact refl s

theorem linkPrev (s : Tasks) (t v : Nat) : SameTasks s (s.linkPrev t v) := by
  unfold Tasks.linkPrev
  split
  · exact setPrev s t v
  · exact refl s

theorem heads (s : Tasks) (f : Queue → Nat) : SameTasks s { s with queueHead := f } :=
  ⟨fun _ => rfl, rfl, rfl, rfl, rfl, rfl⟩

end SameTasks

section Links

@[simp] theorem setNext_next (s : Tasks) (t v u : Nat) :
    ((s.setNext t v).task u).next = if u = t then v else (s.task u).next :=
  modify_field Task.next s t u _

@[simp] theorem setNext_prev (s : Tasks) (t v u : Nat) :
    ((s.setNext t v).task u).prev = (s.task u).prev :=
  modify_field_same Task.prev s t u fun _ => rfl

@[simp] theorem setPrev_prev (s : Tasks) (t v u : Nat) :
    ((s.setPrev t v).task u).prev = if u = t then v else (s.task u).prev :=
  modify_field Task.prev s t u _

@[simp] theorem setPrev_next (s : Tasks) (t v u : Nat) :
    ((s.setPrev t v).task u).next = (s.task u).next :=
  modify_field_same Task.next s t u fun _ => rfl

@[simp] theorem linkNext_next (s : Tasks) (t v u : Nat) :
    ((s.linkNext t v).task u).next = if t ≠ 0 ∧ u = t then v else (s.task u).next := by
  unfold linkNext
  by_cases ht : t = 0 <;> simp [ht]

@[simp] theorem linkNext_prev (s : Tasks) (t v u : Nat) :
    ((s.linkNext t v).task u).prev = (s.task u).prev := by
  unfold linkNext
  split <;> simp

@[simp] theorem linkPrev_prev (s : Tasks) (t v u : Nat) :
    ((s.linkPrev t v).task u).prev = if t ≠ 0 ∧ u = t then v else (s.task u).prev := by
  unfold linkPrev
  by_cases ht : t = 0 <;> simp [ht]

@[simp] theorem linkPrev_next (s : Tasks) (t v u : Nat) :
    ((s.linkPrev t v).task u).next = (s.task u).next := by
  unfold linkPrev
  split <;> simp

@[simp] theorem setNext_queueHead (s : Tasks) (t v : Nat) :
    (s.setNext t v).queueHead = s.queueHead := rfl

@[simp] theorem setPrev_queueHead (s : Tasks) (t v : Nat) :
    (s.setPrev t v).queueHead = s.queueHead := rfl

@[simp] theorem linkNext_queueHead (s : Tasks) (t v : Nat) :
    (s.linkNext t v).queueHead = s.queueHead := by
  unfold linkNext
  split <;> rfl

@[simp] theorem linkPrev_queueHead (s : Tasks) (t v : Nat) :
    (s.linkPrev t v).queueHead = s.queueHead := by
  unfold linkPrev
  split <;> rfl

end Links

/-! ## Unlinking a task -/

theorem removeFromQueue_sameTasks (s : Tasks) (t : Nat) : SameTasks s (s.removeFromQueue t) := by
  unfold removeFromQueue
  split
  · exact .refl s
  · exact (SameTasks.linkNext _ _ _).trans ((SameTasks.linkPrev _ _ _).trans
      ((SameTasks.heads _ _).trans ((SameTasks.setPrev _ t 0).trans (.setNext _ t 0))))

section Remove

variable (ht : t ≠ 0) (hprev : (s.task t).prev ≠ t)
include ht hprev

theorem removeFromQueue_next (hu : u ≠ 0) :
    ((s.removeFromQueue t).task u).next =
      if u = t then 0 else if u = (s.task t).prev then (s.task t).next else (s.task u).next := by
  unfold removeFromQueue
  rw [if_neg ht]
  by_cases hut : u = t
  · simp [hut]
  · by_cases hup : u = (s.task t).prev
    · simp [hup, hprev, hup ▸ hu]
    · simp [hut, hup]

theorem removeFromQueue_prev (hnext : (s.task t).next ≠ t) (hu : u ≠ 0) :
    ((s.removeFromQueue t).task u).prev =
      if u = t then 0 else if u = (s.task t).next then (s.task t).prev else (s.task u).prev := by
  unfold removeFromQueue
  rw [if_neg ht]
  by_cases hut : u = t
  · simp [hut]
  · by_cases hun : u = (s.task t).next
    · simp [hun, hprev.symm, hnext, hun ▸ hu]
    · simp [hut, hun, hprev.symm]

theorem removeFromQueue_queueHead (q : Queue) :
    (s.removeFromQueue t).queueHead q =
      if s.queueHead q = t then (s.task t).next else s.queueHead q := by
  unfold removeFromQueue
  rw [if_neg ht]
  simp [hprev.symm]

end Remove

/-- The links lead from `head` along `xs`. -/
abbrev Chain (s : Tasks) (before head : Nat) (xs : List Nat) : Prop :=
  Linked 0 (fun t => (s.task t).next) (fun t => (s.task t).prev) before head xs

/-- Only tasks of `xs` may have other links. -/
def SameLinks (s s' : Tasks) (xs : List Nat) : Prop :=
  ∀ u, u ≠ 0 → u ∉ xs → (s'.task u).next = (s.task u).next ∧ (s'.task u).prev = (s.task u).prev

theorem SameLinks.chain {before head : Nat} {xs ys : List Nat} (h : SameLinks s s' xs)
    (hys : s.Chain before head ys) (hapart : ∀ u ∈ ys, u ∉ xs) : s'.Chain before head ys :=
  hys.congr (fun u hu => (h u (hys.ne_nil hu) (hapart u hu)).1)
    fun u hu => (h u (hys.ne_nil hu) (hapart u hu)).2

/-- Taking a task out of the list it is in. -/
theorem removeFromQueue_dll {head : Nat} {xs : List Nat}
    (h : IsDll 0 (fun t => (s.task t).next) (fun t => (s.task t).prev) head xs) (ht : t ∈ xs) :
    IsDll 0 (fun u => ((s.removeFromQueue t).task u).next)
        (fun u => ((s.removeFromQueue t).task u).prev)
        (if head = t then (s.task t).next else head) (xs.erase t) ∧
      SameLinks s (s.removeFromQueue t) xs := by
  have ht0 := h.ne_nil ht
  have hp := h.prev_ne_self ht
  have hn := h.next_ne_self ht
  refine ⟨h.remove ht ?_ (fun y hy hyt => ?_) fun y hy hyt => ?_, fun u hu0 hu => ⟨?_, ?_⟩⟩
  · simp only [h.prev_eq_nil_iff ht]
  · rw [removeFromQueue_next ht0 hp (h.ne_nil hy), if_neg hyt]
  · rw [removeFromQueue_prev ht0 hp hn (h.ne_nil hy), if_neg hyt]
  · rw [removeFromQueue_next ht0 hp hu0, if_neg (ne_of_mem_of_not_mem ht hu).symm, if_neg]
    exact fun e => hu (e ▸ h.prev_mem ht (e ▸ hu0))
  · rw [removeFromQueue_prev ht0 hp hn hu0, if_neg (ne_of_mem_of_not_mem ht hu).symm, if_neg]
    exact fun e => hu (e ▸ h.next_mem ht (e ▸ hu0))

/-! ## Well linked queues -/

/-- The tasks are at non-null addresses of 32 bits, every queue is a doubly linked list of the
tasks that `qs` says, no task is in two queues, and a task in none has null links. -/
structure QueuesOk (s : Tasks) (qs : Queue → List Nat) : Prop where
  address : ∀ t ∈ s.table, t ≠ 0 ∧ t < walkLimit
  dll : ∀ q, IsDll 0 (fun t => (s.task t).next) (fun t => (s.task t).prev) (s.queueHead q) (qs q)
  mem : ∀ q, ∀ t ∈ qs q, t ∈ s.table
  apart : ∀ q q' t, t ∈ qs q → t ∈ qs q' → q = q'
  loose : ∀ t ∈ s.table, (∀ q, t ∉ qs q) → (s.task t).prev = 0 ∧ (s.task t).next = 0

namespace QueuesOk

theorem length_le (h : QueuesOk s qs) (q : Queue) : (qs q).length ≤ walkLimit := by
  rw [← toFinset_card_of_nodup (h.dll q).nodup, ← card_range walkLimit]
  refine card_le_card fun t ht => ?_
  exact Finset.mem_range.mpr (h.address t (h.mem q t (mem_toFinset.mp ht))).2

/-- A task is in the list of its queue, or it is a list of its own. -/
theorem list_of (h : QueuesOk s qs) (ht : t ∈ s.table) :
    ∃ head xs, IsDll 0 (fun t => (s.task t).next) (fun t => (s.task t).prev) head xs ∧ t ∈ xs ∧
      (∀ q, ∀ u ∈ qs q, u ∈ xs → head = s.queueHead q ∧ xs = qs q) ∧
      ∀ u ∈ xs, u ≠ t → ∃ q, u ∈ qs q := by
  by_cases hq : ∃ q, t ∈ qs q
  · obtain ⟨q, hq⟩ := hq
    refine ⟨_, qs q, h.dll q, hq, fun q' u hu hu' => ?_, fun u hu _ => ⟨q, hu⟩⟩
    rw [h.apart q q' u hu' hu]
    exact ⟨rfl, rfl⟩
  · obtain ⟨hp, hn⟩ := h.loose t ht (not_exists.mp hq)
    refine ⟨t, [t], ⟨⟨rfl, (h.address t ht).1, hp, hn⟩, nodup_singleton t⟩,
      List.mem_singleton_self t, fun q u hu hu' => ?_, fun u hu hne => ?_⟩
    · exact absurd ⟨q, List.mem_singleton.mp hu' ▸ hu⟩ hq
    · exact absurd (List.mem_singleton.mp hu) hne

theorem remove (h : QueuesOk s qs) (ht : t ∈ s.table) :
    QueuesOk (s.removeFromQueue t) fun q => (qs q).erase t := by
  obtain ⟨head, xs, hxs, htx, hown, hrest⟩ := h.list_of ht
  obtain ⟨hdll, hlinks⟩ := removeFromQueue_dll hxs htx
  have ht0 := hxs.ne_nil htx
  have hp := hxs.prev_ne_self htx
  have hsame := removeFromQueue_sameTasks s t
  refine ⟨by rw [hsame.table]; exact h.address, fun q => ?_, fun q u hu => ?_,
    fun q q' u hu hu' => ?_, fun u hu hq => ?_⟩
  · rw [removeFromQueue_queueHead ht0 hp]
    by_cases hq : t ∈ qs q
    · obtain ⟨rfl, rfl⟩ := hown q t hq htx
      exact hdll
    · have hhead : s.queueHead q ≠ t := fun e => hq (e ▸ (h.dll q).head_mem (by rwa [e]))
      rw [if_neg hhead, erase_of_not_mem hq]
      exact ⟨hlinks.chain (h.dll q).linked fun u hu hux => hq ((hown q u hu hux).2 ▸ htx),
        (h.dll q).nodup⟩
  · rw [hsame.table]
    exact h.mem q u (mem_of_mem_erase hu)
  · exact h.apart q q' u (mem_of_mem_erase hu) (mem_of_mem_erase hu')
  · rw [hsame.table] at hu
    have hu0 := (h.address u hu).1
    by_cases hut : u = t
    · subst hut
      rw [removeFromQueue_next hu0 hp hu0, removeFromQueue_prev hu0 hp (hxs.next_ne_self htx) hu0]
      simp
    · have hfree : ∀ q, u ∉ qs q := fun q hm => hq q ((mem_erase_of_ne hut).mpr hm)
      have hux : u ∉ xs := fun hm => (hrest u hm hut).elim hfree
      rw [(hlinks u hu0 hux).1, (hlinks u hu0 hux).2]
      exact h.loose u hu hfree

end QueuesOk

/-! ## Appending a task -/

theorem addToQueue_sameTasks (h : s.addToQueue t = some s') : SameTasks s s' := by
  unfold addToQueue at h
  split at h
  · cases h
    exact .refl s
  · split at h
    · cases h
      exact .refl s
    · split at h
      · cases h
        exact (SameTasks.heads s _).trans ((SameTasks.setPrev _ t 0).trans (.setNext _ t 0))
      · obtain ⟨last, -, rfl⟩ := map_eq_some_iff.mp h
        exact (SameTasks.setNext s last t).trans ((SameTasks.setPrev _ t last).trans
          (.setNext _ t 0))

section Append

variable {before : Nat} {xs : List Nat} (h : s.Chain before (s.queueHead q) xs)
  (hlen : xs.length ≤ walkLimit) (hb : xs = [] → before = 0) (ht : t ≠ 0)
  (hst : (s.task t).state.queue = some q)
include h hlen hb ht hst

/-- `add_to_queue` stores to the first task of the queue, if it is empty, to the last one
otherwise, and to the task. -/
theorem addToQueue_links : ∃ s', s.addToQueue t = some s' ∧
    (∀ q', s'.queueHead q' = if q' = q ∧ xs = [] then t else s.queueHead q') ∧
    (∀ u, (s'.task u).next =
      if u = t then 0 else if xs.getLast? = some u then t else (s.task u).next) ∧
    ∀ u, (s'.task u).prev = if u = t then xs.getLastD before else (s.task u).prev := by
  unfold addToQueue
  rw [if_neg ht, hst]
  by_cases hq : xs = []
  · have hhead : s.queueHead q = 0 := h.head_eq_nil_iff.mpr hq
    refine ⟨((s.setHead q t).setPrev t 0).setNext t 0, by simp only [hhead, if_true],
      fun q' => ?_, fun u => ?_, fun u => ?_⟩
    · simp [setHead, update_apply, hq]
    · simp [hq]
    · simp [hq, hb hq]
  · have hhead : s.queueHead q ≠ 0 := fun e => hq (h.head_eq_nil_iff.mp e)
    have hlast : s.lastTask q = some (xs.getLast hq) := h.dllLast_eq hq hlen
    refine ⟨((s.setNext (xs.getLast hq) t).setPrev t (xs.getLast hq)).setNext t 0,
      by simp only [hhead, if_false, hlast, map_some], fun q' => ?_, fun u => ?_,
      fun u => ?_⟩
    · simp [hq]
    · simp only [setNext_next, setPrev_next, getLast?_eq_some_getLast hq, some.injEq]
      by_cases hu : u = t
      · simp [hu]
      · simp [hu, eq_comm]
    · simp only [setNext_prev, setPrev_prev, getLastD_eq_getLast?,
        getLast?_eq_some_getLast hq, getD_some]

/-- A task that is not in the queue comes behind the others. -/
theorem addToQueue_chain (nd : xs.Nodup) (htx : t ∉ xs) :
    ∃ s', s.addToQueue t = some s' ∧ s'.Chain before (s'.queueHead q) (xs ++ [t]) ∧
      SameLinks s s' (t :: xs) ∧ ∀ q', q' ≠ q → s'.queueHead q' = s.queueHead q' := by
  obtain ⟨s', hs', hhead, hnext, hprev⟩ := addToQueue_links h hlen hb ht hst
  have hne : ∀ y ∈ xs, y ≠ t := fun y hy e => htx (e ▸ hy)
  refine ⟨s', hs', ?_, fun u _ hu => ?_, fun q' hq' => (hhead q').trans (if_neg fun e => hq' e.1)⟩
  · simp only [hhead, true_and]
    refine h.append nd htx ht ?_ ?_ (fun y hy => ?_) fun y hy => ?_
    · rw [hnext, if_pos rfl]
    · rw [hprev, if_pos rfl]
    · rw [hnext, if_neg (hne y hy)]
    · rw [hprev, if_neg (hne y hy)]
  · obtain ⟨hut, hux⟩ := not_or.mp (mt List.mem_cons.mpr hu)
    rw [hnext, hprev, if_neg hut, if_neg hut, if_neg fun e => hux (mem_of_getLast? e)]
    exact ⟨rfl, rfl⟩

end Append

theorem mem_update_append {q' : Queue} :
    u ∈ update qs q (qs q ++ [t]) q' ↔ u ∈ qs q' ∨ q' = q ∧ u = t := by
  by_cases hq : q' = q
  · subst hq
    simp
  · simp [hq]

theorem QueuesOk.add (h : QueuesOk s qs) (ht : t ∈ s.table)
    (hst : (s.task t).state.queue = some q) (hfresh : ∀ q, t ∉ qs q) :
    ∃ s', s.addToQueue t = some s' ∧ QueuesOk s' (update qs q (qs q ++ [t])) := by
  have ht0 := (h.address t ht).1
  obtain ⟨s', hs', hchain, hlinks, hheads⟩ := addToQueue_chain (h.dll q).linked (h.length_le q)
    (fun _ => rfl) ht0 hst (h.dll q).nodup (hfresh q)
  have hsame := addToQueue_sameTasks hs'
  have hne : ∀ q', ∀ y ∈ qs q', y ≠ t := fun q' y hy e => hfresh q' (e ▸ hy)
  refine ⟨s', hs', by rw [hsame.table]; exact h.address, fun q' => ?_, fun q' u hu => ?_,
    fun q1 q2 u h1 h2 => ?_, fun u hu hq => ?_⟩
  · by_cases hq : q' = q
    · subst hq
      rw [update_self]
      exact ⟨hchain, concat_eq_append ▸ (h.dll q').nodup.concat (hfresh q')⟩
    · rw [update_of_ne hq, hheads q' hq]
      refine ⟨hlinks.chain (h.dll q').linked fun y hy => ?_, (h.dll q').nodup⟩
      exact fun hm => (mem_cons.mp hm).elim (hne q' y hy) fun hm => hq (h.apart q' q y hy hm)
  · rw [hsame.table]
    rcases mem_update_append.mp hu with hu | ⟨-, rfl⟩
    · exact h.mem q' u hu
    · exact ht
  · rcases mem_update_append.mp h1 with hu1 | ⟨e1, hu1⟩
    · rcases mem_update_append.mp h2 with hu2 | ⟨-, hu2⟩
      · exact h.apart q1 q2 u hu1 hu2
      · exact absurd hu2 (hne q1 u hu1)
    · rcases mem_update_append.mp h2 with hu2 | ⟨e2, -⟩
      · exact absurd hu1 (hne q2 u hu2)
      · exact e1.trans e2.symm
  · rw [hsame.table] at hu
    have hfree : ∀ q', u ∉ qs q' := fun q' hm => hq q' (mem_update_append.mpr (.inl hm))
    have hut : u ≠ t := fun e => hq q (mem_update_append.mpr (.inr ⟨rfl, e⟩))
    have hlinks := hlinks u (h.address u hu).1 fun hm => (mem_cons.mp hm).elim hut (hfree q)
    rw [hlinks.1, hlinks.2]
    exact h.loose u hu hfree

/-- `add_to_queue` puts a task that is in no queue into that of its state, if there is one. -/
theorem QueuesOk.place (h : QueuesOk s qs) (ht : t ∈ s.table) (hfresh : ∀ q, t ∉ qs q) :
    ∃ s' qs', s.addToQueue t = some s' ∧ QueuesOk s' qs' ∧ SameTasks s s' ∧
      ∀ q u, u ∈ qs' q ↔ u ∈ qs q ∨ u = t ∧ (s.task t).state.queue = some q := by
  cases hst : (s.task t).state.queue with
  | none =>
    refine ⟨s, qs, ?_, h, .refl s, fun q u => by simp⟩
    rw [addToQueue, if_neg (h.address t ht).1, hst]
  | some q0 =>
    obtain ⟨s', hs', hok⟩ := h.add ht hst hfresh
    refine ⟨s', _, hs', hok, addToQueue_sameTasks hs', fun q u => ?_⟩
    rw [mem_update_append, some.injEq, eq_comm, and_comm]

end Tasks

end Stos.Kernel
