import Stos.Kernel.ProcessRuns
import Stos.Kernel.Proofs.Wait

/-!
# What the operations on processes do to the family links

Scheduling and waiting leave the family of every task alone; forking, reaping and exiting change it
as described here.
-/

namespace Stos.Kernel

open List Option Function

namespace Tasks

open Processes

variable {s s' s'' : Tasks} {t u w p c n x : Nat} {st : TaskState} {xs : List Nat} {sel : WaitSel}
  {r : Report}

/-! ## Steps that leave the families alone -/

/-- Families and tables are the same, and no task becomes a zombie. -/
structure SameFamilies (s s' : Tasks) : Prop where
  table : s'.table = s.table
  family : ∀ t, familyOf (s'.task t) = familyOf (s.task t)
  zombie : ∀ t, (s'.task t).state = .zombie → (s.task t).state = .zombie

namespace SameFamilies

theorem trans (h : SameFamilies s s') (h' : SameFamilies s' s'') : SameFamilies s s'' :=
  ⟨h'.table.trans h.table, fun t => (h'.family t).trans (h.family t),
    fun t hz => h.zombie t (h'.zombie t hz)⟩

theorem ofSameTasks (h : SameTasks s s') : SameFamilies s s' :=
  ⟨h.table, fun t => h.field familyOf (fun _ => rfl) t, fun t hz => by rwa [h.state] at hz⟩

theorem setState (s : Tasks) (t : Nat) (hst : st ≠ .zombie) : SameFamilies s (s.setState t st) := by
  refine ⟨rfl, fun u => modify_field_same familyOf s t u fun _ => rfl, fun u hz => ?_⟩
  rw [setState_state] at hz
  split at hz
  · exact absurd hz hst
  · exact hz

end SameFamilies

/-- Neither the tree nor the table nor the current task changes, and no task becomes a zombie. -/
structure Quiet (s s' : Tasks) : Prop extends SameFamilies s s' where
  current : s'.currentTask = s.currentTask

namespace Quiet

theorem refl (s : Tasks) : Quiet s s := ⟨.ofSameTasks (.refl s), rfl⟩

theorem trans (h : Quiet s s') (h' : Quiet s' s'') : Quiet s s'' :=
  ⟨h.toSameFamilies.trans h'.toSameFamilies, h'.current.trans h.current⟩

theorem move (hst : st ≠ .zombie) (h : s.schedulerMoveTaskToState t st = some s') :
    Quiet s s' := by
  by_cases ht : t = 0
  · rw [schedulerMoveTaskToState, if_pos ht] at h
    cases h
    exact refl s
  · have hsame := schedulerMoveTaskToState_sameTasks ht h
    exact ⟨(SameFamilies.setState s t hst).trans (.ofSameTasks hsame), hsame.current⟩

theorem setWaitObj (s : Tasks) (w : Nat) (o : WaitObj) : Quiet s (s.setWaitObj w o) :=
  ⟨⟨rfl, fun _ => rfl, fun _ h => h⟩, rfl⟩

theorem wakeAll (ts : List Nat)
    (h : ts.foldlM (fun s t => s.schedulerMoveTaskToState t .waiting) s = some s') :
    Quiet s s' := by
  induction ts generalizing s with
  | nil =>
    cases h
    exact refl _
  | cons t ts ih =>
    obtain ⟨s1, hs1, hrest⟩ := bind_eq_some_iff.mp h
    exact (move (by decide) hs1).trans (ih hrest)

theorem wakeUp (h : s.waitWakeUp w = some s') : Quiet s s' := by
  unfold waitWakeUp at h
  split at h
  · exact wakeAll _ h
  · split at h
    · cases h
      exact refl s
    · exact move (by decide) h

theorem addPending (s : Tasks) (t sig : Nat) : Quiet s (s.addPending t sig) := by
  refine ⟨⟨rfl, fun u => modify_field_same familyOf s t u fun _ => rfl, fun u hz => ?_⟩, rfl⟩
  have hstate : ((s.addPending t sig).task u).state = (s.task u).state :=
    modify_field_same Task.state s t u fun _ => rfl
  rwa [hstate] at hz

theorem signal {sig : Nat} (h : s.sysSigsendImpl t sig = some s') : Quiet s s' := by
  unfold sysSigsendImpl at h
  dsimp only at h
  split at h
  · exact (addPending s t sig).trans (move (by decide) h)
  · cases h
    exact addPending s t sig

theorem start (hst : st ≠ .zombie) (h : s.waitStart w st = some s') : Quiet s s' := by
  unfold waitStart at h
  split at h
  · cases h
    exact refl s
  · obtain ⟨s1, hs1, rfl⟩ := map_eq_some_iff.mp h
    exact (move hst hs1).trans (setWaitObj _ _ _)

theorem finish (h : s.waitFinish w t st = some s') : Quiet s s' := by
  unfold waitFinish at h
  dsimp only at h
  split at h
  · exact (setWaitObj s w _).trans (move (by decide) h)
  · cases h
    exact setWaitObj s w _

end Quiet

/-! ## Scheduling -/

theorem schedulerGetNextTask_sameTasks (h : s.schedulerGetNextTask n = some (x, s')) :
    SameTasks s s' := by
  induction n generalizing s with
  | zero => cases h
  | succ n ih =>
    rw [schedulerGetNextTask] at h
    split at h
    · cases h
      exact .refl _
    · split at h
      · cases h
        exact setHead_setNext_sameTasks _ _ _
      · split at h
        · split at h
          · cases h
            exact .refl _
          · cases h
            exact (setHead_setNext_sameTasks _ _ _).trans (.setPrev _ _ _)
        · split at h
          · cases h
          · exact (rotateIdle_sameTasks _ _ _).trans (ih h)

theorem forceIdle_sameTasks (h : s.forceIdle = some (x, s')) : SameTasks s s' := by
  unfold forceIdle at h
  dsimp only at h
  split at h
  · cases h
  · split at h
    · cases h
      exact (SameTasks.heads s _).trans ((SameTasks.linkPrev _ _ _).trans
        ((SameTasks.setNext _ _ _).trans (.setPrev _ _ _)))
    · cases h
      exact .refl _

namespace SameFamilies

theorem switchTo {old next : Nat} (h : s.switchTo old next = some s') : SameFamilies s s' := by
  unfold Tasks.switchTo at h
  obtain ⟨s1, hs1⟩ : ∃ s1, (if (s.task old).state = .running then s.setState old .waiting
      else s).setState next .running = s1 := ⟨_, rfl⟩
  have h1 : SameFamilies s s1 := by
    rw [← hs1]
    split
    · exact (setState s old (by decide)).trans (setState _ next (by decide))
    · exact setState s next (by decide)
  simp only [hs1] at h
  obtain ⟨s2, hs2, rfl⟩ := map_eq_some_iff.mp h
  have h2 : SameFamilies s1 s2 := by
    split at hs2
    · exact ofSameTasks (addToQueue_sameTasks hs2)
    · cases hs2
      exact ofSameTasks (.refl _)
  exact ⟨h2.table.trans h1.table, (h1.trans h2).family, (h1.trans h2).zombie⟩

end SameFamilies

theorem cleanupFrom_eq
    (h : dllFind 0 (fun t => (s.task t).next) (fun t => (s.task t).state = .dead) n x = some 0) :
    s.cleanupFrom n x = some s := by
  induction n generalizing x with
  | zero => cases h
  | succ n ih =>
    rw [dllFind] at h
    rw [cleanupFrom]
    split at h
    · next hx => rw [if_pos hx]
    · next hx =>
      split at h
      · exact absurd (some.inj h) hx
      · next hdead =>
        rw [if_neg hx]
        rw [if_neg (fun e => hdead (decide_eq_true e))]
        exact ih h

/-- Giving the processor away while no task is to be destroyed. -/
theorem schedulerReschedule_sameFamilies (hclean : NothingToClean s)
    (h : s.schedulerReschedule = some s') : SameFamilies s s' := by
  unfold schedulerReschedule at h
  rw [cleanupDeadTasks, cleanupFrom_eq hclean] at h
  dsimp only at h
  split at h
  · cases h
  · next next s1 hnext =>
    have h1 := SameFamilies.ofSameTasks (schedulerGetNextTask_sameTasks hnext)
    split at h
    · split at h
      · split at h
        · cases h
        · next next' s2 hforce =>
          exact h1.trans ((SameFamilies.ofSameTasks (forceIdle_sameTasks hforce)).trans (.switchTo h))
      · exact h1.trans (.switchTo h)
    · split at h
      · cases h
        exact h1
      · exact h1.trans (.switchTo h)

section Family

variable (h : ∀ t, familyOf (s'.task t) = familyOf (s.task t)) (t : Nat)
include h

theorem family_parent : (s'.task t).parent = (s.task t).parent := congrArg (·.1) (h t)

theorem family_firstChild : (s'.task t).firstChild = (s.task t).firstChild :=
  congrArg (·.2.1) (h t)

theorem family_prevSibling : (s'.task t).prevSibling = (s.task t).prevSibling :=
  congrArg (·.2.2.1) (h t)

theorem family_nextSibling : (s'.task t).nextSibling = (s.task t).nextSibling :=
  congrArg (·.2.2.2.1) (h t)

theorem family_pid : (s'.task t).pid = (s.task t).pid := congrArg (·.2.2.2.2.1) (h t)

theorem family_exitCode : (s'.task t).exitCode = (s.task t).exitCode :=
  congrArg (·.2.2.2.2.2) (h t)

end Family

/-- The children of `p` are the tasks in `xs`, linked in both directions. -/
def IsFamily (s : Tasks) (p : Nat) (xs : List Nat) : Prop :=
  IsDll 0 (fun t => (s.task t).nextSibling) (fun t => (s.task t).prevSibling) (s.task p).firstChild xs

/-- A family depends on the links of its members only. -/
theorem IsFamily.congr (h : IsFamily s p xs) (hfirst : (s'.task p).firstChild = (s.task p).firstChild)
    (hnext : ∀ c ∈ xs, (s'.task c).nextSibling = (s.task c).nextSibling)
    (hprev : ∀ c ∈ xs, (s'.task c).prevSibling = (s.task c).prevSibling) : IsFamily s' p xs := by
  unfold IsFamily
  rw [hfirst]
  exact IsDll.congr h hnext hprev

/-! ## Reaping -/

section Setters

variable (s t) (v u : Nat) {q : Prop}

theorem modify_task_self (f : Task → Task) :
    (s.modify t f).task u = if u = t then f (s.task u) else s.task u := by
  rw [modify_task]
  split
  · next h => rw [h]
  · rfl

@[simp] theorem setNextSibling_task : (s.setNextSibling t v).task u =
    if u = t then { s.task u with nextSibling := v } else s.task u := modify_task_self ..

@[simp] theorem setPrevSibling_task : (s.setPrevSibling t v).task u =
    if u = t then { s.task u with prevSibling := v } else s.task u := modify_task_self ..

@[simp] theorem setFirstChild_task : (s.setFirstChild t v).task u =
    if u = t then { s.task u with firstChild := v } else s.task u := modify_task_self ..

@[simp] theorem ite_nextSibling [Decidable q] (x y : Task) : (if q then x else y).nextSibling =
    if q then x.nextSibling else y.nextSibling := apply_ite ..

@[simp] theorem ite_prevSibling [Decidable q] (x y : Task) : (if q then x else y).prevSibling =
    if q then x.prevSibling else y.prevSibling := apply_ite ..

@[simp] theorem ite_firstChild [Decidable q] (x y : Task) : (if q then x else y).firstChild =
    if q then x.firstChild else y.firstChild := apply_ite ..

@[simp] theorem unlinkForward_nextSibling (hu : u ≠ 0) :
    ((s.unlinkForward p c).task u).nextSibling =
      if u = (s.task c).prevSibling then (s.task c).nextSibling else (s.task u).nextSibling := by
  unfold unlinkForward
  by_cases hprev : (s.task c).prevSibling = 0 <;> simp [hprev, hu]

@[simp] theorem unlinkForward_prevSibling :
    ((s.unlinkForward p c).task u).prevSibling = (s.task u).prevSibling := by
  unfold unlinkForward
  split <;> simp

@[simp] theorem unlinkForward_firstChild :
    ((s.unlinkForward p c).task u).firstChild =
      if u = p ∧ (s.task c).prevSibling = 0 then (s.task c).nextSibling
      else (s.task u).firstChild := by
  unfold unlinkForward
  by_cases hprev : (s.task c).prevSibling = 0 <;> simp [hprev]

@[simp] theorem unlinkBackward_nextSibling :
    ((s.unlinkBackward c).task u).nextSibling = (s.task u).nextSibling := by
  unfold unlinkBackward
  split <;> simp

@[simp] theorem unlinkBackward_firstChild :
    ((s.unlinkBackward c).task u).firstChild = (s.task u).firstChild := by
  unfold unlinkBackward
  split <;> simp

@[simp] theorem unlinkBackward_prevSibling (hu : u ≠ 0) :
    ((s.unlinkBackward c).task u).prevSibling =
      if u = (s.task c).nextSibling then (s.task c).prevSibling else (s.task u).prevSibling := by
  unfold unlinkBackward
  by_cases hnext : (s.task c).nextSibling = 0 <;> simp [hnext, hu]

end Setters

/-- What a change of the links of a task leaves alone. -/
def besidesLinks (x : Task) : Nat × Nat × TaskState := (x.parent, x.pid, x.state)

/-- The links that `task_wait` changes. -/
structure Relinked (s s' : Tasks) : Prop where
  table : s'.table = s.table
  other : ∀ u, besidesLinks (s'.task u) = besidesLinks (s.task u)

namespace Relinked

theorem refl (s : Tasks) : Relinked s s := ⟨rfl, fun _ => rfl⟩

theorem trans (h : Relinked s s') (h' : Relinked s' s'') : Relinked s s'' :=
  ⟨h'.table.trans h.table, fun u => (h'.other u).trans (h.other u)⟩

theorem modify (s : Tasks) (t : Nat) {f : Task → Task} (hf : ∀ x, besidesLinks (f x) = besidesLinks x) :
    Relinked s (s.modify t f) :=
  ⟨rfl, fun u => modify_field_same besidesLinks s t u hf⟩

theorem setNextSibling (s : Tasks) (t v : Nat) : Relinked s (s.setNextSibling t v) :=
  modify s t fun _ => rfl

theorem setPrevSibling (s : Tasks) (t v : Nat) : Relinked s (s.setPrevSibling t v) :=
  modify s t fun _ => rfl

theorem setFirstChild (s : Tasks) (t v : Nat) : Relinked s (s.setFirstChild t v) :=
  modify s t fun _ => rfl

theorem unlinkForward (s : Tasks) (p c : Nat) : Relinked s (s.unlinkForward p c) := by
  unfold Tasks.unlinkForward
  split
  · exact setNextSibling _ _ _
  · exact setFirstChild _ _ _

theorem unlinkBackward (s : Tasks) (c : Nat) : Relinked s (s.unlinkBackward c) := by
  unfold Tasks.unlinkBackward
  split
  · exact setPrevSibling _ _ _
  · exact refl s

end Relinked

/-- What `reapChild` does to the tasks. -/
structure Reaped (s s' : Tasks) (p c : Nat) : Prop where
  table : s'.table = s.table
  parent : ∀ u, (s'.task u).parent = (s.task u).parent
  pid : ∀ u, (s'.task u).pid = (s.task u).pid
  state : ∀ u, (s'.task u).state = if u = c then .dead else (s.task u).state
  firstChild : ∀ u, (s'.task u).firstChild =
    if u = p ∧ (s.task c).prevSibling = 0 then (s.task c).nextSibling else (s.task u).firstChild
  next : ∀ u, u ≠ c → u ≠ 0 → (s'.task u).nextSibling =
    if u = (s.task c).prevSibling then (s.task c).nextSibling else (s.task u).nextSibling
  prev : ∀ u, u ≠ c → u ≠ 0 → (s'.task u).prevSibling =
    if u = (s.task c).nextSibling then (s.task c).prevSibling else (s.task u).prevSibling

theorem reapChild_reaped (hc0 : c ≠ 0) (hc : (s.task c).prevSibling ≠ c) :
    Reaped s (s.reapChild p c) p c := by
  have hlinks := (Relinked.unlinkForward s p c).trans ((Relinked.unlinkBackward _ c).trans
    ((Relinked.setPrevSibling _ c 0).trans (.setNextSibling _ c 0)))
  have hset := fun {α : Type} (g : Task → α) (hg : ∀ x st, g { x with state := st } = g x) u =>
    modify_field_same g ((((s.unlinkForward p c).unlinkBackward c).setPrevSibling c 0).setNextSibling
      c 0) c u fun x => hg x .dead
  refine ⟨hlinks.table,
    fun u => (hset Task.parent (fun _ _ => rfl) u).trans (congrArg (·.1) (hlinks.other u)),
    fun u => (hset Task.pid (fun _ _ => rfl) u).trans (congrArg (·.2.1) (hlinks.other u)), fun u => ?_,
    fun u => (hset Task.firstChild (fun _ _ => rfl) u).trans ?_,
    fun u huc hu0 => (hset Task.nextSibling (fun _ _ => rfl) u).trans ?_,
    fun u huc hu0 => (hset Task.prevSibling (fun _ _ => rfl) u).trans ?_⟩
  · rw [reapChild, setState_state]
    split
    · rfl
    · exact congrArg (·.2.2) (hlinks.other u)
  · simp
  · simp [huc, hu0]
  · simp [huc, hu0, hc0, hc.symm]

/-- The other children of `p` stay. -/
theorem Reaped.isFamily (hr : Reaped s s' p c) (h : IsFamily s p xs) (hc : c ∈ xs) :
    IsFamily s' p (xs.erase c) := by
  refine h.remove hc ?_ (fun y hy hyc => ?_) fun y hy hyc => ?_
  · rw [hr.firstChild]
    simp
  · exact hr.next y hyc (h.ne_nil hy)
  · exact hr.prev y hyc (h.ne_nil hy)

theorem reapChild_dead (s : Tasks) (p c : Nat) : ((s.reapChild p c).task c).state = .dead := by
  rw [reapChild, setState_state, if_pos rfl]

/-! ## Exiting -/

/-- Only the tasks in `xs` get new parents, and no task other than `p` becomes a zombie. -/
structure Reparented (s s' : Tasks) (p : Nat) (xs : List Nat) : Prop where
  table : s'.table = s.table
  links : ∀ u, (s'.task u).firstChild = (s.task u).firstChild ∧
    (s'.task u).prevSibling = (s.task u).prevSibling ∧
    (s'.task u).nextSibling = (s.task u).nextSibling ∧ (s'.task u).pid = (s.task u).pid
  parent : ∀ u, u ∉ xs → (s'.task u).parent = (s.task u).parent
  zombie : ∀ u, u ≠ p → (s'.task u).state = .zombie → (s.task u).state = .zombie

namespace Reparented

theorem trans {ys : List Nat} (h : Reparented s s' p xs) (h' : Reparented s' s'' p ys) :
    Reparented s s'' p (xs ++ ys) := by
  refine ⟨h'.table.trans h.table, fun u => ?_, fun u hu => ?_,
    fun u hu hz => h.zombie u hu (h'.zombie u hu hz)⟩
  · obtain ⟨h1, h2, h3, h4⟩ := h.links u
    obtain ⟨h1', h2', h3', h4'⟩ := h'.links u
    exact ⟨h1'.trans h1, h2'.trans h2, h3'.trans h3, h4'.trans h4⟩
  · rw [mem_append, not_or] at hu
    exact (h'.parent u hu.2).trans (h.parent u hu.1)

theorem ofQuiet (h : Quiet s s') : Reparented s s' p [] :=
  ⟨h.table, fun u => ⟨family_firstChild h.family u, family_prevSibling h.family u,
    family_nextSibling h.family u, family_pid h.family u⟩,
    fun u _ => family_parent h.family u, fun u _ => h.zombie u⟩

theorem setParent (s : Tasks) (t v : Nat) : Reparented s (s.setParent t v) p [t] := by
  refine ⟨rfl, fun u => ⟨modify_field_same Task.firstChild s t u fun _ => rfl,
    modify_field_same Task.prevSibling s t u fun _ => rfl,
    modify_field_same Task.nextSibling s t u fun _ => rfl,
    modify_field_same Task.pid s t u fun _ => rfl⟩, fun u hu => ?_, fun u _ hz => ?_⟩
  · rw [Tasks.setParent, modify_field Task.parent, if_neg fun e => hu (by simp [e])]
  · have hstate : ((s.setParent t v).task u).state = (s.task u).state :=
      modify_field_same Task.state s t u fun _ => rfl
    rwa [hstate] at hz

end Reparented

theorem exitChildren_reparented {before child : Nat}
    (hl : Linked 0 (fun t => (s.task t).nextSibling) (fun t => (s.task t).prevSibling) before child xs)
    (h : s.exitChildren p n child = some s') : Reparented s s' p xs := by
  induction xs generalizing s n before child with
  | nil =>
    cases n with
    | zero => cases h
    | succ n =>
      have hchild : child = 0 := hl
      rw [exitChildren, if_pos hchild] at h
      cases h
      exact .ofQuiet (.refl _)
  | cons x xs ih =>
    obtain ⟨rfl, hx, -, hrest⟩ := hl
    cases n with
    | zero => cases h
    | succ n =>
      rw [exitChildren, if_neg hx] at h
      -- the links along which the loop goes on are the old ones
      have hgo : ∀ s1, Reparented s s1 p [child] →
          s1.exitChildren p n (s.task child).nextSibling = some s' →
          Reparented s s' p (child :: xs) := by
        intro s1 h1 hs'
        refine h1.trans (ih (hrest.congr (fun y _ => (h1.links y).2.2.1)
          fun y _ => (h1.links y).2.1) hs')
      split at h
      · obtain ⟨s1, hs1, hs'⟩ := bind_eq_some_iff.mp h
        have hq := Reparented.ofQuiet (p := p) (Quiet.move (by decide) hs1)
        exact hgo s1 ⟨hq.table, hq.links, fun u _ => hq.parent u (by simp), hq.zombie⟩ hs'
      · exact hgo _ (.setParent s child _) h

/-- What `task_exit` does, besides waking tasks up: the task becomes a zombie and its children may get new
parents. -/
theorem taskExit_exited {exitCode : Int} (hp : s.currentTask ≠ 0)
    (hxs : IsFamily s s.currentTask xs) (h : s.taskExit exitCode = some s') :
    Reparented s s' s.currentTask xs := by
  unfold taskExit at h
  dsimp only at h
  obtain ⟨s0, hs0⟩ : ∃ s0, (s.modify s.currentTask fun x => { x with exitCode := exitCode }) = s0 :=
    ⟨_, rfl⟩
  rw [hs0] at h
  obtain ⟨s1, hs1, h⟩ := bind_eq_some_iff.mp h
  obtain ⟨s2, hs2, h⟩ := bind_eq_some_iff.mp h
  obtain ⟨s3, hs3, h⟩ := bind_eq_some_iff.mp h
  have hq3 : Quiet s2 s3 := by
    split at hs3
    · exact .wakeUp hs3
    · cases hs3
      exact .refl _
  have hq : Quiet s1 s3 := (Quiet.wakeUp hs2).trans hq3
  have hfirst : ∀ {α : Type} (g : Task → α) (_ : ∀ x e, g { x with exitCode := e } = g x)
      (_ : ∀ x, g (unplaced x) = g x) (_ : ∀ x st, g { x with state := st } = g x) u,
      g (s1.task u) = g (s.task u) := by
    intro α g he hu hst u
    rw [schedulerMoveTaskToState_field hp hs1 g hu hst, ← hs0]
    exact modify_field_same g s s.currentTask u fun x => he x _
  have hsame := schedulerMoveTaskToState_sameTasks hp hs1
  have h1 : Reparented s s1 s.currentTask [] := by
    refine ⟨hsame.table.trans (by rw [← hs0]; rfl),
      fun u => ⟨hfirst Task.firstChild (fun _ _ => rfl) (fun _ => rfl) (fun _ _ => rfl) u,
        hfirst Task.prevSibling (fun _ _ => rfl) (fun _ => rfl) (fun _ _ => rfl) u,
        hfirst Task.nextSibling (fun _ _ => rfl) (fun _ => rfl) (fun _ _ => rfl) u,
        hfirst Task.pid (fun _ _ => rfl) (fun _ => rfl) (fun _ _ => rfl) u⟩,
      fun u _ => hfirst Task.parent (fun _ _ => rfl) (fun _ => rfl) (fun _ _ => rfl) u, fun u hu hz => ?_⟩
    rwa [schedulerMoveTaskToState_state hp hs1, if_neg hu, ← hs0, modify_task, if_neg hu] at hz
  have h3 := h1.trans (.ofQuiet hq)
  have hfamily : IsFamily s3 s.currentTask xs := hxs.congr (h3.links _).1
    (fun c _ => (h3.links c).2.2.1) fun c _ => (h3.links c).2.1
  exact h3.trans (exitChildren_reparented hfamily.linked h)

/-! ## Forking -/

/-- What `attachChild` does: `t` gets behind the children `xs` of `p`. -/
structure Attached (s s' : Tasks) (p t : Nat) (xs : List Nat) : Prop where
  table : s'.table = s.table
  pid : ∀ u, (s'.task u).pid = (s.task u).pid
  state : ∀ u, (s'.task u).state = (s.task u).state
  parent : ∀ u, (s'.task u).parent = if u = t then p else (s.task u).parent
  firstChild : ∀ u, (s'.task u).firstChild =
    if u = p ∧ xs = [] then t else (s.task u).firstChild
  next : ∀ u, (s'.task u).nextSibling =
    if xs.getLast? = some u then t else (s.task u).nextSibling
  prev : ∀ u, (s'.task u).prevSibling =
    if u = t ∧ xs ≠ [] then xs.getLastD 0 else (s.task u).prevSibling

theorem attachChild_attached (hxs : IsFamily s p xs) (hlen : xs.length ≤ walkLimit)
    (h : s.attachChild p t = some s') : Attached s s' p t xs := by
  have hpar := Reparented.setParent (p := p) s t p
  have hparent : ∀ u, ((s.setParent t p).task u).parent = if u = t then p else (s.task u).parent :=
    fun u => modify_field Task.parent s t u _
  have hstate : ∀ u, ((s.setParent t p).task u).state = (s.task u).state :=
    fun u => modify_field_same Task.state s t u fun _ => rfl
  have hfamily : IsFamily (s.setParent t p) p xs :=
    hxs.congr (hpar.links p).1 (fun c _ => (hpar.links c).2.2.1) fun c _ => (hpar.links c).2.1
  unfold attachChild at h
  by_cases hnil : xs = []
  · have hfirst : ((s.setParent t p).task p).firstChild = 0 := hfamily.head_eq_nil_iff.mpr hnil
    rw [if_pos hfirst] at h
    cases h
    have hkeep := Relinked.setFirstChild (s.setParent t p) p t
    refine ⟨rfl, fun u => (congrArg (·.2.1) (hkeep.other u)).trans (hpar.links u).2.2.2,
      fun u => (congrArg (·.2.2) (hkeep.other u)).trans (hstate u),
      fun u => (congrArg (·.1) (hkeep.other u)).trans (hparent u), fun u => ?_, fun u => ?_, fun u => ?_⟩
    · simp [hnil, (hpar.links u).1]
    · simp [hnil, (hpar.links u).2.2.1]
    · simp [hnil, (hpar.links u).2.1]
  · have hfirst : ((s.setParent t p).task p).firstChild ≠ 0 := fun e =>
      hnil (hfamily.head_eq_nil_iff.mp e)
    rw [if_neg hfirst, hfamily.dllLast_eq hnil hlen] at h
    cases h
    have hkeep := (Relinked.setNextSibling (s.setParent t p) (xs.getLast hnil) t).trans
      (.setPrevSibling _ t (xs.getLast hnil))
    refine ⟨rfl, fun u => (congrArg (·.2.1) (hkeep.other u)).trans (hpar.links u).2.2.2,
      fun u => (congrArg (·.2.2) (hkeep.other u)).trans (hstate u),
      fun u => (congrArg (·.1) (hkeep.other u)).trans (hparent u), fun u => ?_, fun u => ?_, fun u => ?_⟩
    · simp [hnil, (hpar.links u).1]
    · simp [(hpar.links u).2.2.1, getLast?_eq_some_getLast hnil, eq_comm]
    · simp [hnil, (hpar.links u).2.1, getLastD_eq_getLast?, getLast?_eq_some_getLast hnil]

/-- What `task_fork` does: `t` is a new task behind the children `xs` of `p`. -/
structure Forked (s s' : Tasks) (p t : Nat) (xs : List Nat) : Prop where
  table : s'.table = insert t s.table
  old : ∀ u, u ≠ t → (s'.task u).parent = (s.task u).parent ∧ (s'.task u).pid = (s.task u).pid ∧
    (s'.task u).prevSibling = (s.task u).prevSibling ∧
    ((s'.task u).state = .zombie → (s.task u).state = .zombie)
  firstChild : ∀ u, u ≠ t → (s'.task u).firstChild =
    if u = p ∧ xs = [] then t else (s.task u).firstChild
  next : ∀ u, u ≠ t → (s'.task u).nextSibling =
    if xs.getLast? = some u then t else (s.task u).nextSibling
  new : (s'.task t).parent = p ∧ (s'.task t).firstChild = 0 ∧ (s'.task t).nextSibling = 0 ∧
    (s'.task t).prevSibling = xs.getLastD 0 ∧ (s'.task t).state ≠ .zombie

theorem taskFork_forked {pid wq cq : Nat} (htp : t ≠ s.currentTask) (htxs : t ∉ xs)
    (hxs : IsFamily s s.currentTask xs) (hlen : xs.length ≤ walkLimit)
    (h : s.taskFork t pid wq cq = some s') : Forked s s' s.currentTask t xs := by
  unfold taskFork at h
  dsimp only at h
  obtain ⟨s1, hs1⟩ : ∃ s1, ((s.taskAllocate t pid wq cq).modify t fun x =>
      { x with sigBlocked := ((s.taskAllocate t pid wq cq).task s.currentTask).sigBlocked }) = s1 :=
    ⟨_, rfl⟩
  rw [hs1] at h
  obtain ⟨s2, hs2, hadd⟩ := bind_eq_some_iff.mp h
  have hold : ∀ u ≠ t, s1.task u = s.task u := fun u hu => by
    rw [← hs1, modify_task, if_neg hu]
    exact update_of_ne hu _ _
  have hnew : (s1.task t).firstChild = 0 ∧ (s1.task t).nextSibling = 0 ∧
      (s1.task t).prevSibling = 0 ∧ (s1.task t).state = .waiting := by
    rw [← hs1, modify_task, if_pos rfl]
    simp [taskAllocate, waitAlloc, setWaitObj]
  have hfamily : IsFamily s1 s.currentTask xs := by
    have hmem : ∀ c ∈ xs, s1.task c = s.task c := fun c hc => hold c fun e => htxs (e ▸ hc)
    exact hxs.congr (by rw [hold _ htp.symm]) (fun c hc => by rw [hmem c hc])
      fun c hc => by rw [hmem c hc]
  have hatt := attachChild_attached hfamily hlen hs2
  have hquiet := Quiet.move (by decide) hadd
  have hfam := ((SameFamilies.setState s2 t (by decide)).trans hquiet.toSameFamilies).family
  have hlast : xs.getLast? ≠ some t := fun e => htxs (mem_of_getLast? e)
  refine ⟨?_, fun u hu => ⟨?_, ?_, ?_, fun hz => ?_⟩, fun u hu => ?_, fun u hu => ?_,
    ?_, ?_, ?_, ?_, ?_⟩
  · rw [hquiet.table]
    exact hatt.table.trans (by rw [← hs1]; rfl)
  · rw [family_parent hfam, hatt.parent, if_neg hu, hold u hu]
  · rw [family_pid hfam, hatt.pid, hold u hu]
  · rw [family_prevSibling hfam, hatt.prev, if_neg fun e => hu e.1,
      hold u hu]
  · have := hquiet.zombie u hz
    rwa [setState_state, if_neg hu, hatt.state, hold u hu] at this
  · rw [family_firstChild hfam, hatt.firstChild, hold u hu]
  · rw [family_nextSibling hfam, hatt.next, hold u hu]
  · rw [family_parent hfam, hatt.parent, if_pos rfl]
  · rw [family_firstChild hfam, hatt.firstChild,
      if_neg fun e => htp e.1, hnew.1]
  · rw [family_nextSibling hfam, hatt.next, if_neg hlast, hnew.2.1]
  · rw [family_prevSibling hfam, hatt.prev]
    by_cases hnil : xs = []
    · simp [hnil, hnew]
    · simp [hnil]
  · intro hz
    have := hquiet.zombie t hz
    simp at this

/-! ## Waiting for children -/

/-- A test changes the note of the last zombie at most. -/
theorem taskWaitTest_task {ended : Bool} (h : s.taskWaitTest sel = some (ended, s')) :
    s'.task = s.task ∧ s'.table = s.table ∧ s'.currentTask = s.currentTask := by
  unfold taskWaitTest at h
  split at h
  · cases sel with
    | child pid c =>
      obtain ⟨b, -, hb⟩ := map_eq_some_iff.mp h
      cases hb
      exact ⟨rfl, rfl, rfl⟩
    | any =>
      obtain ⟨c, -, hc⟩ := map_eq_some_iff.mp h
      split at hc
      · cases hc
        exact ⟨rfl, rfl, rfl⟩
      · cases hc
        exact ⟨rfl, rfl, rfl⟩
  · cases h
    exact ⟨rfl, rfl, rfl⟩

theorem Quiet.ofTask (h : s'.task = s.task ∧ s'.table = s.table ∧ s'.currentTask = s.currentTask) :
    Quiet s s' := by
  obtain ⟨htask, htable, hcurrent⟩ := h
  exact ⟨⟨htable, fun t => by rw [htask], fun t hz => by rwa [htask] at hz⟩, hcurrent⟩

theorem waitFinish_found (ht : t ≠ 0) (h : s.waitFinish w t st = some s') :
    s'.anyChildZombieFound = s.anyChildZombieFound := by
  unfold waitFinish at h
  dsimp only at h
  split at h
  · exact (schedulerMoveTaskToState_sameTasks ht h).found
  · cases h
    rfl

/-- The end of `task_wait`, step by step. -/
theorem taskWaitEnd_cases (h : s.taskWaitEnd w sel = some (some (s', r))) :
    ∃ s1 s2, s.taskWaitTest sel = some (true, s1) ∧
      s1.waitFinish w s.currentTask .blocked = some s2 ∧ r.child = s2.waitSelTask sel ∧
      r.pid = (s2.task r.child).pid ∧ r.exitCode = (s2.task r.child).exitCode ∧
      s' = s2.reapChild s.currentTask r.child := by
  unfold taskWaitEnd at h
  obtain ⟨⟨ended, s1⟩, htest, h⟩ := bind_eq_some_iff.mp h
  cases ended with
  | false => cases h
  | true =>
    obtain ⟨s2, hs2, h⟩ := map_eq_some_iff.mp h
    cases h
    exact ⟨s1, s2, htest, hs2, rfl, rfl, rfl, rfl⟩

theorem taskWaitEnd_report (h : s.taskWaitEnd w sel = some (some (s', r))) :
    r.pid = (s.task r.child).pid ∧ r.exitCode = (s.task r.child).exitCode := by
  obtain ⟨s1, s2, htest, hs2, -, hpid, hcode, -⟩ := taskWaitEnd_cases h
  have hfamily := (Quiet.finish hs2).family
  rw [(taskWaitTest_task htest).1] at hfamily
  exact ⟨hpid.trans (family_pid hfamily _), hcode.trans (family_exitCode hfamily _)⟩

end Tasks

end Stos.Kernel
