import Stos.Kernel.Proofs.ProcessLinks

/-!
# Runs of processes: proofs

The child lists of the tasks that have not exited are kept by every step in which a wait that ends
is founded. From this follow what `task_wait` reports and, as long as only tasks without children
exit, that the tree is what it should be.
-/

namespace Stos.Kernel

open List Finset Option Function

namespace Processes

open Tasks

variable {σ σ' : Processes} {s' : Tasks} {kids : Nat → List Nat} {t u w p c idle : Nat}
  {sel : WaitSel} {r : Report} {e : Event}

/-- The children of each task that has not exited are the ones in `kids`. They are tasks and have
it as their parent. Zombies have exited. A task waits only if it has not exited, and for one of its
children. -/
structure TreeInv (σ : Processes) (kids : Nat → List Nat) : Prop where
  address : ∀ t ∈ σ.tasks.table, t ≠ 0 ∧ t < walkLimit
  reaped : σ.reaped ⊆ σ.tasks.table
  exited : σ.exited ⊆ σ.tasks.table
  family : ∀ p ∈ σ.running, IsFamily σ.tasks p (kids p)
  kid : ∀ p ∈ σ.running, ∀ c ∈ kids p, c ∈ σ.live ∧ (σ.tasks.task c).parent = p
  zombie : ∀ t ∈ σ.tasks.table, (σ.tasks.task t).state = .zombie → t ∈ σ.exited
  waiting : ∀ p, σ.waiting p ≠ none → p ∈ σ.running
  selected : ∀ p w pid c, σ.waiting p = some (w, .child pid c) →
    c ∈ kids p ∧ (σ.tasks.task c).pid = pid

theorem mem_live : t ∈ σ.live ↔ t ∈ σ.tasks.table ∧ t ∉ σ.reaped := mem_sdiff

theorem mem_running : t ∈ σ.running ↔ t ∈ σ.live ∧ t ∉ σ.exited := mem_sdiff

theorem running_table (h : t ∈ σ.running) : t ∈ σ.tasks.table := (mem_live.mp (mem_running.mp h).1).1

theorem OtherStep.quiet (hq : Quiet σ.tasks s') : OtherStep σ s' :=
  ⟨hq.table, hq.family, hq.zombie, .inl hq.current⟩

theorem OtherStep.live (h : OtherStep σ s') : live { σ with tasks := s' } = σ.live := by
  rw [Processes.live, Processes.live, h.table]

theorem OtherStep.running (h : OtherStep σ s') : running { σ with tasks := s' } = σ.running := by
  rw [Processes.running, Processes.running, h.live]

/-- After `task_destroy`. -/
abbrev destroyed (σ : Processes) (t : Nat) : Processes :=
  { σ with
    tasks := σ.tasks.taskDestroy t
    exited := σ.exited.erase t
    reaped := σ.reaped.erase t }

/-- After `task_exit`, which ended with the tasks `s'`. -/
abbrev exitedTo (σ : Processes) (s' : Tasks) : Processes :=
  { σ with tasks := s', exited := insert σ.tasks.currentTask σ.exited }

/-- After the end of a wait that reported `c`. -/
abbrev waitEndedTo (σ : Processes) (s' : Tasks) (c : Nat) : Processes :=
  { σ with
    tasks := s'
    reaped := insert c σ.reaped
    waiting := update σ.waiting σ.tasks.currentTask none }

/-- The children when `t` is a new child of `p`. -/
abbrev withChild (kids : Nat → List Nat) (p t : Nat) : Nat → List Nat :=
  update (update kids t []) p (kids p ++ [t])

theorem withChild_parent (kids : Nat → List Nat) (t p : Nat) :
    withChild kids p t p = kids p ++ [t] := update_self _ _ _

theorem withChild_of_ne (hp : u ≠ p) : withChild kids p t u = update kids t [] u :=
  update_of_ne hp _ _

namespace TreeInv

section

variable (h : TreeInv σ kids) (hp : p ∈ σ.running)

include h hp

theorem table (hc : c ∈ kids p) : c ∈ σ.tasks.table :=
  (mem_live.mp (h.kid p hp c hc).1).1

theorem length_le : (kids p).length ≤ walkLimit := by
  rw [← toFinset_card_of_nodup (h.family p hp).nodup, ← card_range walkLimit]
  refine card_le_card fun t ht => ?_
  exact Finset.mem_range.mpr (h.address t (h.table hp (mem_toFinset.mp ht))).2

theorem childList_eq : σ.tasks.childList p = kids p :=
  (h.family p hp).linked.dllNodes_eq (h.length_le hp)

theorem findChildWhere_eq (f : Task → Bool) : σ.tasks.findChildWhere p f =
      some (((kids p).find? fun t => f (σ.tasks.task t)).getD 0) :=
  (h.family p hp).linked.dllFind_eq _ (Nat.lt_succ_of_le (h.length_le hp))

/-- A task is a child of one task only. -/
theorem kid_unique {q : Nat} (hq : q ∈ σ.running) (hcp : c ∈ kids p) (hcq : c ∈ kids q) : p = q :=
  (h.kid p hp c hcp).2.symm.trans (h.kid q hq c hcq).2

end

/-- Steps that leave the families alone. -/
theorem other (h : TreeInv σ kids) (ho : OtherStep σ s') : TreeInv { σ with tasks := s' } kids := by
  have hrunning := ho.running
  refine ⟨?_, ?_, ?_, fun p hp => ?_, fun p hp c hc => ?_, fun t ht hz => ?_, ?_,
    fun p w pid c hw => ?_⟩
  · rw [ho.table]
    exact h.address
  · rw [ho.table]
    exact h.reaped
  · rw [ho.table]
    exact h.exited
  · exact (h.family p (hrunning ▸ hp)).congr (family_firstChild ho.family p)
      (fun c _ => family_nextSibling ho.family c) fun c _ => family_prevSibling ho.family c
  · rw [ho.live, family_parent ho.family c]
    exact h.kid p (hrunning ▸ hp) c hc
  · exact h.zombie t (ho.table ▸ ht) (ho.zombie t hz)
  · rw [hrunning]
    exact h.waiting
  · rw [family_pid ho.family c]
    exact h.selected p w pid c hw

theorem quiet (h : TreeInv σ kids) (hq : Quiet σ.tasks s') : TreeInv { σ with tasks := s' } kids :=
  h.other (.quiet hq)

theorem destroy_live (ht : t ∈ σ.reaped) : live (σ.destroyed t) = σ.live := by
  ext u
  simp only [mem_live, taskDestroy, mem_erase]
  by_cases hu : u = t
  · simp [hu, ht]
  · simp [hu]

theorem destroy_running (ht : t ∈ σ.reaped) : running (σ.destroyed t) = σ.running := by
  ext u
  rw [mem_running, mem_running, destroy_live ht, and_congr_right_iff]
  intro hu
  have hut : u ≠ t := fun e => (mem_live.mp hu).2 (e ▸ ht)
  simp [hut]

theorem destroy (h : TreeInv σ kids) (ht : t ∈ σ.reaped) : TreeInv (σ.destroyed t) kids := by
  have hlive := destroy_live ht
  have hrunning := destroy_running ht
  refine ⟨fun u hu => h.address u (mem_of_mem_erase hu), ?_, ?_, fun p hp => ?_,
    fun p hp c hc => ?_, fun u hu hz => ?_, ?_, h.selected⟩
  · exact erase_subset_erase t h.reaped
  · exact erase_subset_erase t h.exited
  · exact h.family p (hrunning ▸ hp)
  · rw [hlive]
    exact h.kid p (hrunning ▸ hp) c hc
  · obtain ⟨hut, hu⟩ := mem_erase.mp hu
    exact mem_erase.mpr ⟨hut, h.zombie u hu hz⟩
  · rw [hrunning]
    exact h.waiting

section Exit

variable (h : TreeInv σ kids) (hready : σ.Ready) {exitCode : Int}
  (hs' : σ.tasks.taskExit exitCode = some s')
include h hready hs'

theorem exit_exited : Reparented σ.tasks s' σ.tasks.currentTask (kids σ.tasks.currentTask) :=
  taskExit_exited (h.address _ (running_table hready.1)).1 (h.family _ hready.1)
    hs'

theorem exit_live : live (σ.exitedTo s') = σ.live := by
  rw [live, live, (h.exit_exited hready hs').table]

theorem exit_running (q : Nat) :
    q ∈ running (σ.exitedTo s') ↔ q ∈ σ.running ∧ q ≠ σ.tasks.currentTask := by
  rw [mem_running, mem_running, h.exit_live hready hs']
  simp only [mem_insert, not_or]
  tauto

theorem exit : TreeInv (σ.exitedTo s') kids := by
  have he := h.exit_exited hready hs'
  have hlive := h.exit_live hready hs'
  have hrunning := h.exit_running hready hs'
  obtain ⟨hcur, hwait⟩ := hready
  have hmem := (running_table hcur)
  refine ⟨?_, ?_, ?_, fun q hq => ?_, fun q hq c hc => ?_, fun u hu hz => ?_, fun q hq => ?_,
    fun q w pid c hw => ?_⟩
  · rw [he.table]
    exact h.address
  · rw [he.table]
    exact h.reaped
  · rw [he.table]
    exact insert_subset hmem h.exited
  · exact (h.family q ((hrunning q).mp hq).1).congr (he.links q).1 (fun c _ => (he.links c).2.2.1)
      fun c _ => (he.links c).2.1
  · obtain ⟨hq, hne⟩ := (hrunning q).mp hq
    have hnot : c ∉ kids σ.tasks.currentTask := fun hm => hne (h.kid_unique hq hcur hc hm)
    rw [hlive, he.parent c hnot]
    exact h.kid q hq c hc
  · by_cases hcu : u = σ.tasks.currentTask
    · exact mem_insert.mpr (.inl hcu)
    · exact mem_insert.mpr (.inr (h.zombie u (he.table ▸ hu) (he.zombie u hcu hz)))
  · refine (hrunning q).mpr ⟨h.waiting q hq, fun e => hq ?_⟩
    rw [e]
    exact hwait
  · rw [(he.links c).2.2.2]
    exact h.selected q w pid c hw

end Exit

section Fork

variable (h : TreeInv σ kids) (hready : σ.Ready) {pid wq cq : Nat}
  (ht : t ∉ σ.tasks.table ∧ t ≠ 0 ∧ t < walkLimit)
  (hs' : σ.tasks.taskFork t pid wq cq = some s')

include ht in
theorem running_ne (hq : p ∈ σ.running) : p ≠ t := fun e =>
  ht.1 (e ▸ (running_table hq))

include h ht in
theorem kid_ne (hp : p ∈ σ.running) (hc : c ∈ kids p) : c ≠ t := fun e => ht.1 (e ▸ h.table hp hc)

include h hready ht hs'

theorem fork_forked : Forked σ.tasks s' σ.tasks.currentTask t (kids σ.tasks.currentTask) :=
  taskFork_forked (running_ne ht hready.1).symm
    (fun hm => h.kid_ne ht hready.1 hm rfl) (h.family _ hready.1) (h.length_le hready.1) hs'

theorem fork_live (u : Nat) : u ∈ live { σ with tasks := s' } ↔ u = t ∨ u ∈ σ.live := by
  have htr : t ∉ σ.reaped := fun e => ht.1 (h.reaped e)
  rw [mem_live, mem_live, (h.fork_forked hready ht hs').table, mem_insert]
  by_cases hut : u = t
  · simp [hut, htr]
  · simp [hut]

theorem fork_running (u : Nat) : u ∈ running { σ with tasks := s' } ↔ u = t ∨ u ∈ σ.running := by
  have hte : t ∉ σ.exited := fun e => ht.1 (h.exited e)
  rw [mem_running, mem_running, h.fork_live hready ht hs']
  by_cases hut : u = t
  · simp [hut, hte]
  · simp [hut]

theorem fork : TreeInv { σ with tasks := s' } (withChild kids σ.tasks.currentTask t) := by
  have hf := h.fork_forked hready ht hs'
  have hlive := h.fork_live hready ht hs'
  have hrunning := h.fork_running hready ht hs'
  obtain ⟨hcur, hwait⟩ := hready
  obtain ⟨p, hp⟩ : ∃ p, σ.tasks.currentTask = p := ⟨_, rfl⟩
  rw [hp] at hf hcur hwait ⊢
  have hmem : ∀ q ∈ σ.running, q ≠ t := fun q hq => running_ne ht hq
  have hkid : ∀ q ∈ σ.running, ∀ c ∈ kids q, c ≠ t := fun q hq c hc => h.kid_ne ht hq hc
  have htkids : t ∉ kids p := fun hm => hkid p hcur t hm rfl
  obtain ⟨hnparent, hnfirst, hnnext, hnprev, hnzombie⟩ := hf.new
  have hpt := hmem p hcur
  have hself := withChild_parent kids t p
  have hnew : withChild kids p t t = [] := by
    rw [withChild_of_ne hpt.symm, update_self]
  have hothers : ∀ q ≠ p, q ≠ t → withChild kids p t q = kids q := fun q hqp hqt => by
    rw [withChild_of_ne hqp, update_of_ne hqt]
  refine ⟨fun u hu => ?_, fun u hu => ?_, fun u hu => ?_, fun q hq => ?_, fun q hq c hc => ?_,
    fun u hu hz => ?_, fun q hq => (hrunning q).mpr (.inr (h.waiting q hq)), fun q w pid c hw => ?_⟩
  · rw [hf.table] at hu
    rcases mem_insert.mp hu with rfl | hu
    · exact ht.2
    · exact h.address u hu
  · rw [hf.table]
    exact mem_insert_of_mem (h.reaped hu)
  · rw [hf.table]
    exact mem_insert_of_mem (h.exited hu)
  · rcases (hrunning q).mp hq with rfl | hq
    · rw [hnew]
      exact ⟨hnfirst, nodup_nil⟩
    · by_cases hqp : q = p
      · subst hqp
        rw [hself]
        refine (h.family q hq).append htkids ht.2.1 ?_ hnnext hnprev (fun y hy => ?_) fun y hy => ?_
        · rw [hf.firstChild q hpt]
          simp
        · exact hf.next y (hkid q hq y hy)
        · exact (hf.old y (hkid q hq y hy)).2.2.1
      · have hqt := hmem q hq
        rw [hothers q hqp hqt]
        refine (h.family q hq).congr ?_ (fun c hc => ?_) fun c hc => ?_
        · rw [hf.firstChild q hqt, if_neg fun e => hqp e.1]
        · rw [hf.next c (hkid q hq c hc), if_neg]
          exact fun e => hqp (h.kid_unique hq hcur hc (mem_of_getLast? e))
        · exact (hf.old c (hkid q hq c hc)).2.2.1
  · rcases (hrunning q).mp hq with rfl | hq
    · rw [hnew] at hc
      exact absurd hc (by simp)
    · by_cases hct : c = t
      · subst hct
        by_cases hqp : q = p
        · rw [hqp]
          exact ⟨(hlive c).mpr (.inl rfl), hnparent⟩
        · rw [hothers q hqp (hmem q hq)] at hc
          exact absurd rfl (hkid q hq c hc)
      · have hold : c ∈ kids q := by
          by_cases hqp : q = p
          · subst hqp
            simpa [hct] using hc
          · rwa [hothers q hqp (hmem q hq)] at hc
        obtain ⟨hl, hpar⟩ := h.kid q hq c hold
        exact ⟨(hlive c).mpr (.inr hl), (hf.old c hct).1.trans hpar⟩
  · rw [hf.table] at hu
    rcases mem_insert.mp hu with rfl | hu
    · exact absurd hz hnzombie
    · have hut : u ≠ t := fun e => ht.1 (e ▸ hu)
      exact h.zombie u hu ((hf.old u hut).2.2.2 hz)
  · have hq := h.waiting q (by rw [hw]; simp)
    have hqp : q ≠ p := fun e => by
      rw [e, hwait] at hw
      cases hw
    obtain ⟨hc, hpid⟩ := h.selected q w pid c hw
    rw [hothers q hqp (hmem q hq)]
    exact ⟨hc, (hf.old c (hkid q hq c hc)).2.1.trans hpid⟩

end Fork

theorem setWaiting (h : TreeInv σ kids) (p : Nat) (v : Option (Nat × WaitSel))
    (hp : v ≠ none → p ∈ σ.running)
    (hsel : ∀ w pid c, v = some (w, .child pid c) → c ∈ kids p ∧ (σ.tasks.task c).pid = pid) :
    TreeInv { σ with waiting := update σ.waiting p v } kids := by
  refine ⟨h.address, h.reaped, h.exited, h.family, h.kid, h.zombie, fun q hq => ?_,
    fun q w pid c hw => ?_⟩
  · by_cases hqp : q = p
    · subst hqp
      simp only [update_self] at hq
      exact hp hq
    · simp only [update_of_ne hqp] at hq
      exact h.waiting q hq
  · by_cases hqp : q = p
    · subst hqp
      simp only [update_self] at hw
      exact hsel w pid c hw
    · simp only [update_of_ne hqp] at hw
      exact h.selected q w pid c hw

/-- A child that has been found is a child. -/
theorem select (h : TreeInv σ kids) (hcur : σ.tasks.currentTask ∈ σ.running) {pid : Int} {n : Nat}
    (hsel : σ.tasks.taskWaitSelect pid = some (.inr (.child n c))) :
    c ∈ kids σ.tasks.currentTask ∧ (σ.tasks.task c).pid = n := by
  unfold taskWaitSelect at hsel
  dsimp only at hsel
  split at hsel
  · cases hsel
  · split at hsel
    · rw [h.findChildWhere_eq hcur] at hsel
      obtain ⟨d, hd, hsel⟩ := map_eq_some_iff.mp hsel
      split at hsel
      · cases hsel
      · next hd0 =>
        cases hsel
        cases hfind : (kids σ.tasks.currentTask).find? fun t =>
            decide ((σ.tasks.task t).pid = pid.toNat) with
        | none =>
          rw [hfind] at hd
          exact absurd (some.inj hd).symm hd0
        | some e =>
          rw [hfind] at hd
          have he : e = c := some.inj hd
          subst he
          exact ⟨mem_of_find?_eq_some hfind, by simpa using find?_some hfind⟩
    · cases hsel

theorem waitStart (h : TreeInv σ kids) (hready : σ.Ready) {pid : Int}
    (hsel : σ.tasks.taskWaitSelect pid = some (.inr sel))
    (hs' : σ.tasks.waitStart w .blocked = some s') :
    TreeInv { σ with
      tasks := s'
      waiting := update σ.waiting σ.tasks.currentTask (some (w, sel)) } kids := by
  obtain ⟨hcur, -⟩ := hready
  refine (h.setWaiting σ.tasks.currentTask (some (w, sel)) (fun _ => hcur) ?_).quiet
    (Quiet.start (by decide) hs')
  intro w' n c hv
  cases hv
  exact h.select hcur hsel

theorem reap_live (htable : s'.table = σ.tasks.table) (u : Nat) :
    u ∈ live { σ with tasks := s', reaped := insert c σ.reaped } ↔ u ∈ σ.live ∧ u ≠ c := by
  rw [mem_live, mem_live, htable]
  simp only [mem_insert, not_or]
  tauto

theorem reap_running (hce : c ∈ σ.exited) (htable : s'.table = σ.tasks.table) :
    running { σ with tasks := s', reaped := insert c σ.reaped } = σ.running := by
  ext u
  rw [mem_running, mem_running, reap_live htable]
  refine ⟨fun hu => ⟨hu.1.1, hu.2⟩, fun hu => ⟨⟨hu.1, fun e => hu.2 ?_⟩, hu.2⟩⟩
  exact e ▸ hce

/-- A child that has exited is taken out of the list of its parent. -/
theorem reap (h : TreeInv σ kids) (hp : p ∈ σ.running) (hwait : σ.waiting p = none)
    (hc : c ∈ kids p) (hce : c ∈ σ.exited) (hr : Reaped σ.tasks s' p c) :
    TreeInv { σ with tasks := s', reaped := insert c σ.reaped }
      (update kids p ((kids p).erase c)) := by
  have hcp := h.family p hp
  have hlive := @reap_live σ s' c hr.table
  have hrunning := reap_running hce hr.table
  -- the neighbours of `c` are children of `p` as well
  have hnear : ∀ q ∈ σ.running, q ≠ p → ∀ y ∈ kids q, y ≠ c ∧ y ≠ (σ.tasks.task c).prevSibling ∧
      y ≠ (σ.tasks.task c).nextSibling := by
    intro q hq hqp y hy
    have hy0 := (h.family q hq).ne_nil hy
    refine ⟨fun e => hqp (h.kid_unique hq hp (e ▸ hy) hc), fun e => hqp ?_, fun e => hqp ?_⟩
    · exact h.kid_unique hq hp hy (e ▸ hcp.prev_mem hc (e ▸ hy0))
    · exact h.kid_unique hq hp hy (e ▸ hcp.next_mem hc (e ▸ hy0))
  refine ⟨?_, ?_, ?_, fun q hq => ?_, fun q hq y hy => ?_, fun u hu hz => ?_, ?_,
    fun q w pid y hw => ?_⟩
  · rw [hr.table]
    exact h.address
  · rw [hr.table]
    exact insert_subset (h.table hp hc) h.reaped
  · rw [hr.table]
    exact h.exited
  · rw [hrunning] at hq
    by_cases hqp : q = p
    · subst hqp
      rw [update_self]
      exact hr.isFamily hcp hc
    · rw [update_of_ne hqp]
      refine (h.family q hq).congr ?_ (fun y hy => ?_) fun y hy => ?_
      · rw [hr.firstChild, if_neg fun e => hqp e.1]
      · obtain ⟨hyc, hyp, -⟩ := hnear q hq hqp y hy
        rw [hr.next y hyc ((h.family q hq).ne_nil hy), if_neg hyp]
      · obtain ⟨hyc, -, hyn⟩ := hnear q hq hqp y hy
        rw [hr.prev y hyc ((h.family q hq).ne_nil hy), if_neg hyn]
  · rw [hrunning] at hq
    rw [hlive, hr.parent]
    by_cases hqp : q = p
    · subst hqp
      rw [update_self] at hy
      have hyk := mem_of_mem_erase hy
      exact ⟨⟨(h.kid q hq y hyk).1, fun e => hcp.nodup.not_mem_erase (e ▸ hy)⟩, (h.kid q hq y hyk).2⟩
    · rw [update_of_ne hqp] at hy
      exact ⟨⟨(h.kid q hq y hy).1, (hnear q hq hqp y hy).1⟩, (h.kid q hq y hy).2⟩
  · rw [hr.state] at hz
    split at hz
    · cases hz
    · exact h.zombie u (hr.table ▸ hu) hz
  · rw [hrunning]
    exact h.waiting
  · have hqp : q ≠ p := fun e => by
      rw [e, hwait] at hw
      cases hw
    rw [hr.pid, update_of_ne hqp]
    exact h.selected q w pid y hw

/-! ### The end of a wait -/

section WaitEnd

variable (h : TreeInv σ kids) (hw : σ.waiting σ.tasks.currentTask = some (w, sel))
  (hend : σ.tasks.taskWaitEnd w sel = some (some (s', r)))
include h hw

theorem current_running : σ.tasks.currentTask ∈ σ.running := h.waiting _ (by rw [hw]; simp)

theorem current_ne_zero : σ.tasks.currentTask ≠ 0 :=
  (h.address _ (running_table (h.current_running hw))).1

include hend

/-- The task that is reported is a zombie child of the caller exactly if the wait is founded. -/
theorem waitEnd_founded_iff :
    r.child ∈ kids σ.tasks.currentTask ∧ (σ.tasks.task r.child).state = .zombie ↔
      σ.WaitFounded sel := by
  have hcur := h.current_running hw
  obtain ⟨s1, s2, htest, hs2, hchild, -, -, -⟩ := taskWaitEnd_cases hend
  cases sel with
  | child pid c =>
    have hrc : r.child = c := hchild
    rw [hrc]
    exact ⟨fun hz => hz.2, fun hz => ⟨(h.selected _ w pid c hw).1, hz⟩⟩
  | any =>
    have hfound : r.child = s1.anyChildZombieFound :=
      hchild.trans (waitFinish_found (h.current_ne_zero hw) hs2)
    rw [WaitFounded, h.childList_eq hcur]
    by_cases hb : (σ.tasks.task σ.tasks.currentTask).state = .blocked
    · -- the condition has just been evaluated
      refine ⟨fun _ => .inl hb, fun _ => ?_⟩
      rw [taskWaitTest, if_pos hb, waitSelCondition, taskWaitForAnyChild,
        h.findChildWhere_eq hcur] at htest
      cases hfind : (kids σ.tasks.currentTask).find? fun t =>
          decide ((σ.tasks.task t).state = .zombie) with
      | none => simp [hfind] at htest
      | some d =>
        have hd := mem_of_find?_eq_some hfind
        have hd0 := (h.family _ hcur).ne_nil hd
        have hs1 : { σ.tasks with anyChildZombieFound := d } = s1 := by
          simpa [hfind, hd0] using htest
        rw [hfound, ← hs1]
        exact ⟨hd, by simpa using find?_some hfind⟩
    · rw [taskWaitTest, if_neg hb] at htest
      cases htest
      rw [hfound]
      simp [hb]

section

variable (hfounded : σ.WaitFounded sel)
include hfounded

/-- A founded wait takes a child that has exited out of the list. -/
theorem waitEnd_reaped :
    r.child ∈ kids σ.tasks.currentTask ∧ r.child ∈ σ.exited ∧
      ∃ s2, Quiet σ.tasks s2 ∧ Reaped s2 s' σ.tasks.currentTask r.child := by
  have hcur := h.current_running hw
  obtain ⟨hmem, hz⟩ := (h.waitEnd_founded_iff hw hend).mpr hfounded
  obtain ⟨s1, s2, htest, hs2, -, -, -, rfl⟩ := taskWaitEnd_cases hend
  have hquiet : Quiet σ.tasks s2 := (Quiet.ofTask (taskWaitTest_task htest)).trans (.finish hs2)
  refine ⟨hmem, h.zombie r.child (h.table hcur hmem) hz, s2, hquiet,
    reapChild_reaped (h.address r.child (h.table hcur hmem)).1 ?_⟩
  rw [family_prevSibling hquiet.family]
  exact (h.family _ hcur).prev_ne_self hmem

theorem waitEnd : TreeInv (σ.waitEndedTo s' r.child)
      (update kids σ.tasks.currentTask ((kids σ.tasks.currentTask).erase r.child)) := by
  have hcur := h.current_running hw
  obtain ⟨hmem, hexited, s2, hquiet, hreaped⟩ := h.waitEnd_reaped hw hend hfounded
  have hinv := (h.setWaiting σ.tasks.currentTask none (by simp) (by simp)).quiet hquiet
  have hcur' : σ.tasks.currentTask ∈ running { σ with
      tasks := s2, waiting := update σ.waiting σ.tasks.currentTask none } := by
    rw [mem_running, mem_live, hquiet.table]
    rw [mem_running, mem_live] at hcur
    exact hcur
  exact hinv.reap hcur' (update_self _ _ _) hmem hexited hreaped

theorem waitEnd_live (u : Nat) : u ∈ live (σ.waitEndedTo s' r.child) ↔ u ∈ σ.live ∧ u ≠ r.child := by
  obtain ⟨-, -, s2, hquiet, hreaped⟩ := h.waitEnd_reaped hw hend hfounded
  exact reap_live (hreaped.table.trans hquiet.table) u

theorem waitEnd_running : running (σ.waitEndedTo s' r.child) = σ.running := by
  obtain ⟨-, hexited, s2, hquiet, hreaped⟩ := h.waitEnd_reaped hw hend hfounded
  exact reap_running hexited (hreaped.table.trans hquiet.table)

end

end WaitEnd

end TreeInv

/-! ## Runs that can be computed -/

theorem boot_initial : Initial boot 16 :=
  ⟨bootTasks_initial, rfl, rfl, rfl, rfl, fun _ => rfl⟩

theorem Op.exec_tidyStep {op : Op} (h : op.exec σ = some σ') : ∃ e, Step σ e σ' ∧ e.Tidy σ := by
  cases op with
  | fork t pid w w' =>
    rw [exec] at h
    split at h
    · next hallowed =>
      obtain ⟨s', hs', rfl⟩ := map_eq_some_iff.mp h
      exact ⟨.fork, .fork hallowed.1 hallowed.2 hs', trivial⟩
    · cases h
  | exit exitCode =>
    rw [exec] at h
    split at h
    · next hallowed =>
      obtain ⟨s', hs', rfl⟩ := map_eq_some_iff.mp h
      exact ⟨.exit, .exit hallowed.1 hs', hallowed.2⟩
    · cases h
  | waitStart pid =>
    rw [exec] at h
    split at h
    · next sel hsel =>
      split at h
      · next hready =>
        obtain ⟨s', hs', rfl⟩ := map_eq_some_iff.mp h
        exact ⟨.waitStart, .waitStart hready hsel hs', trivial⟩
      · cases h
    · cases h
  | signal t sig =>
    obtain ⟨s', hs', rfl⟩ := map_eq_some_iff.mp h
    have hquiet := Quiet.signal hs'
    exact ⟨.other, .other (.quiet hquiet), trivial⟩
  | reschedule =>
    rw [exec] at h
    split at h
    · next hclean =>
      obtain ⟨s', hs', h⟩ := bind_eq_some_iff.mp h
      split at h
      · next hcur =>
        cases h
        have hsame := schedulerReschedule_sameFamilies hclean hs'
        exact ⟨.other, .other ⟨hsame.table, hsame.family, hsame.zombie, .inr hcur⟩, trivial⟩
      · cases h
    · cases h

theorem Op.execAll_tidyRun {ops : List Op} (h : execAll ops σ = some σ') : TidyRun σ σ' := by
  induction ops generalizing σ with
  | nil =>
    cases h
    exact .refl
  | cons op ops ih =>
    obtain ⟨σ1, hσ1, hrest⟩ := bind_eq_some_iff.mp h
    exact .head (exec_tidyStep hσ1) (ih hrest)

/-- The idle task starts a task that starts a task of its own. -/
def twoForks : List Op := [.fork 32 1 4096 4112, .reschedule, .fork 48 2 4128 4144]

theorem Event.Tidy.founded (h : e.Tidy σ) : e.Founded σ := by
  cases e with
  | waitEnd sel r => exact h
  | _ => trivial

theorem TidyRun.founded (h : TidyRun σ σ') : FoundedRun σ σ' := by
  induction h with
  | refl => exact .refl
  | tail _ hstep ih =>
    obtain ⟨e, hstep, htidy⟩ := hstep
    exact ih.tail ⟨e, hstep, htidy.founded⟩

/-! ## Whole runs -/

theorem TreeInv.step (h : TreeInv σ kids) (hstep : Step σ e σ') (hf : e.Founded σ) :
    ∃ kids', TreeInv σ' kids' := by
  cases hstep with
  | fork hready ht hs' => exact ⟨_, h.fork hready ht hs'⟩
  | exit hready hs' => exact ⟨_, h.exit hready hs'⟩
  | waitStart hready hsel hs' => exact ⟨_, h.waitStart hready hsel hs'⟩
  | waitEnd hw hend => exact ⟨_, h.waitEnd hw hend hf⟩
  | destroy ht => exact ⟨_, h.destroy ht⟩
  | other ho => exact ⟨_, h.other ho⟩

theorem Initial.treeInv (h : Initial σ idle) : TreeInv σ fun _ => [] := by
  obtain ⟨hexited, hreaped, hwaiting⟩ := h.history
  have hmem : ∀ t ∈ σ.tasks.table, t = idle := fun t ht => by
    rwa [h.tasks.table, Finset.mem_singleton] at ht
  refine ⟨fun t ht => ?_, by simp [hreaped], by simp [hexited], fun p hp => ?_, by simp,
    fun t ht hz => ?_, fun p hp => absurd (hwaiting p) hp, fun p w pid c hw => ?_⟩
  · rw [hmem t ht]
    exact h.tasks.address
  · rw [hmem p (running_table hp)]
    exact ⟨h.children, nodup_nil⟩
  · rw [hmem t ht, h.tasks.state] at hz
    cases hz
  · rw [hwaiting] at hw
    cases hw

theorem FoundedRun.treeInv (hrun : FoundedRun σ σ') (h : TreeInv σ kids) :
    ∃ kids', TreeInv σ' kids' := by
  induction hrun with
  | refl => exact ⟨kids, h⟩
  | tail _ hstep ih =>
    obtain ⟨kids', hinv⟩ := ih
    obtain ⟨e, hstep, hf⟩ := hstep
    exact hinv.step hstep hf

/-- A founded wait reports a child that has exited, once, with its exit code; one that is not
founded reports something else. -/
theorem TreeInv.reportOk_iff (h : TreeInv σ kids) (hstep : Step σ (.waitEnd sel r) σ') :
    ReportOk σ sel r σ' ↔ σ.WaitFounded sel := by
  cases hstep with
  | @waitEnd w _ s' _ hw hend =>
    have hcur := h.current_running hw
    have hlist := h.childList_eq hcur
    rw [← h.waitEnd_founded_iff hw hend]
    refine ⟨fun hok => ⟨hlist ▸ hok.child, hok.zombie⟩, fun hz => ?_⟩
    obtain ⟨hmem, hzombie⟩ := hz
    obtain ⟨hpid, hcode⟩ := taskWaitEnd_report hend
    have hfounded := (h.waitEnd_founded_iff hw hend).mp ⟨hmem, hzombie⟩
    have hinv := h.waitEnd hw hend hfounded
    obtain ⟨hlive, hparent⟩ := h.kid _ hcur _ hmem
    refine ⟨by rw [hlist]; exact hmem, hparent, fun pid c hsel => ?_, hzombie, hpid, hcode,
      (mem_live.mp hlive).2, mem_insert_self _ _, ?_, ?_⟩
    · subst hsel
      obtain ⟨s1, s2, -, -, hchild, -, -, -⟩ := taskWaitEnd_cases hend
      have hrc : r.child = c := hchild
      rw [hpid, hrc]
      exact (h.selected _ w pid c hw).2
    · obtain ⟨s1, s2, -, -, -, -, -, rfl⟩ := taskWaitEnd_cases hend
      exact reapChild_dead _ _ _
    · have hgone := hinv.childList_eq (h.waitEnd_running hw hend hfounded ▸ hcur)
      rw [update_self] at hgone
      rw [hgone]
      exact (h.family _ hcur).nodup.not_mem_erase

/-- In every run whose waits are all founded, the next wait that ends reports a child of the caller
that is selected, has exited and has not been reported before, with its exit code, exactly if it is
founded. -/
theorem taskWait_reportOk_iff {σ₀ : Processes} (hboot : Initial σ₀ idle) (hrun : FoundedRun σ₀ σ)
    (hstep : Step σ (.waitEnd sel r) σ') : ReportOk σ sel r σ' ↔ σ.WaitFounded sel := by
  obtain ⟨kids, h⟩ := hrun.treeInv hboot.treeInv
  exact h.reportOk_iff hstep

/-- A parent collects its child that has exited. -/
theorem taskWait_reportOk_iff_zombie :
    ∃ σ σ' r, Step σ (.waitEnd (.child 2 48) r) σ' ∧ ReportOk σ (.child 2 48) r σ' := by
  obtain ⟨σ, hσ, hwaiting, hzombie, _, hx, ⟨s', r⟩, rfl, -⟩ :
      ∃ σ ∈ Op.execAll (twoForks ++ [.reschedule, .exit 7, .reschedule, .waitStart 2]) boot,
        σ.waiting σ.tasks.currentTask = some (4128, .child 2 48) ∧
        (σ.tasks.task 48).state = .zombie ∧
        ∃ x ∈ σ.tasks.taskWaitEnd 4128 (.child 2 48), ∃ y ∈ x, True := by
    decide +kernel
  have hstep := Step.waitEnd hwaiting hx
  exact ⟨σ, _, r, hstep, (taskWait_reportOk_iff boot_initial (Op.execAll_tidyRun hσ).founded
    hstep).mpr hzombie⟩

/-- A signal ends the wait for a child that still runs, and the child is marked for destruction. -/
theorem taskWait_reapsRunning :
    ∃ σ σ' r, FoundedRun boot σ ∧ Step σ (.waitEnd (.child 2 48) r) σ' ∧ r.child = 48 ∧
      (σ.tasks.task 48).state = .waiting ∧ 48 ∉ σ.exited ∧ (σ'.tasks.task 48).state = .dead ∧
        ¬ ReportOk σ (.child 2 48) r σ' := by
  obtain ⟨σ, hσ, hwaiting, hready, hexited, _, hx, ⟨s', r⟩, rfl, hchild, hdead⟩ :
      ∃ σ ∈ Op.execAll (twoForks ++ [.waitStart 2, .reschedule, .signal 32 1, .reschedule]) boot,
        σ.waiting σ.tasks.currentTask = some (4128, .child 2 48) ∧
        (σ.tasks.task 48).state = .waiting ∧ 48 ∉ σ.exited ∧
        ∃ x ∈ σ.tasks.taskWaitEnd 4128 (.child 2 48), ∃ y ∈ x,
          y.2.child = 48 ∧ (y.1.task 48).state = .dead := by
    decide +kernel
  refine ⟨σ, _, r, (Op.execAll_tidyRun hσ).founded, .waitEnd hwaiting hx, hchild, hready, hexited,
    hdead, fun hok => ?_⟩
  have hzombie := hok.zombie
  rw [hchild, hready] at hzombie
  exact absurd hzombie (by decide)

/-! ## The tree -/

/-- Every task is among the children of its parent, which has not exited. -/
structure TidyInv (σ : Processes) (kids : Nat → List Nat) : Prop extends TreeInv σ kids where
  parent : ∀ c ∈ σ.live, (σ.tasks.task c).parent = 0 ∨
    (σ.tasks.task c).parent ∈ σ.running ∧ c ∈ kids (σ.tasks.task c).parent
  childless : ∀ p ∈ σ.exited, (σ.tasks.task p).firstChild = 0

namespace TidyInv

section

variable (h : TidyInv σ kids)

include h

theorem other (ho : OtherStep σ s') : TidyInv { σ with tasks := s' } kids := by
  have hrunning := ho.running
  refine ⟨h.toTreeInv.other ho, fun c hc => ?_, fun p hp => ?_⟩
  · rw [family_parent ho.family, hrunning]
    exact h.parent c (ho.live ▸ hc)
  · rw [family_firstChild ho.family]
    exact h.childless p hp

theorem destroy (ht : t ∈ σ.reaped) : TidyInv (σ.destroyed t) kids := by
  refine ⟨h.toTreeInv.destroy ht, fun c hc => ?_, fun p hp => ?_⟩
  · rw [TreeInv.destroy_live ht] at hc
    rw [TreeInv.destroy_running ht]
    exact h.parent c hc
  · exact h.childless p (mem_of_mem_erase hp)

theorem exit (hready : σ.Ready) {exitCode : Int} (hs' : σ.tasks.taskExit exitCode = some s')
    (hnone : (σ.tasks.task σ.tasks.currentTask).firstChild = 0) : TidyInv (σ.exitedTo s') kids := by
  have he := h.exit_exited hready hs'
  have hkids : kids σ.tasks.currentTask = [] := (h.family _ hready.1).head_eq_nil_iff.mp hnone
  refine ⟨h.toTreeInv.exit hready hs', fun c hc => ?_, fun p hp => ?_⟩
  · rw [h.exit_live hready hs'] at hc
    rw [he.parent c (by simp [hkids]), h.exit_running hready hs']
    rcases h.parent c hc with h0 | ⟨hp, hk⟩
    · exact .inl h0
    · refine .inr ⟨⟨hp, fun e => ?_⟩, hk⟩
      rw [e, hkids] at hk
      cases hk
  · rw [(he.links p).1]
    rcases mem_insert.mp hp with rfl | hp
    · exact hnone
    · exact h.childless p hp

theorem fork (hready : σ.Ready) {pid wq cq : Nat} (ht : t ∉ σ.tasks.table ∧ t ≠ 0 ∧ t < walkLimit)
    (hs' : σ.tasks.taskFork t pid wq cq = some s') :
    TidyInv { σ with tasks := s' } (withChild kids σ.tasks.currentTask t) := by
  have hf := h.fork_forked hready ht hs'
  refine ⟨h.toTreeInv.fork hready ht hs', fun c hc => ?_, fun p hp => ?_⟩
  · rw [h.fork_running hready ht hs']
    rcases (h.fork_live hready ht hs' c).mp hc with rfl | hc
    · rw [hf.new.1, withChild_parent]
      exact .inr ⟨.inr hready.1, by simp⟩
    · have hct : c ≠ t := fun e => ht.1 (e ▸ (mem_live.mp hc).1)
      rw [(hf.old c hct).1]
      rcases h.parent c hc with h0 | ⟨hp, hk⟩
      · exact .inl h0
      · refine .inr ⟨.inr hp, ?_⟩
        by_cases hcur : (σ.tasks.task c).parent = σ.tasks.currentTask
        · rw [hcur] at hk ⊢
          rw [withChild_parent]
          exact mem_append_left _ hk
        · rw [withChild_of_ne hcur, update_of_ne (TreeInv.running_ne ht hp)]
          exact hk
  · have hpt : p ≠ t := fun e => ht.1 (e ▸ h.exited hp)
    have hpc : p ≠ σ.tasks.currentTask := fun e => (mem_running.mp hready.1).2 (e ▸ hp)
    rw [hf.firstChild p hpt, if_neg fun e => hpc e.1]
    exact h.childless p hp

theorem waitEnd (hw : σ.waiting σ.tasks.currentTask = some (w, sel))
    (hend : σ.tasks.taskWaitEnd w sel = some (some (s', r))) (hfounded : σ.WaitFounded sel) :
    TidyInv (σ.waitEndedTo s' r.child)
      (update kids σ.tasks.currentTask ((kids σ.tasks.currentTask).erase r.child)) := by
  obtain ⟨-, -, s2, hquiet, hreaped⟩ := h.waitEnd_reaped hw hend hfounded
  have hcur := h.current_running hw
  refine ⟨h.toTreeInv.waitEnd hw hend hfounded, fun c hc => ?_, fun p hp => ?_⟩
  · obtain ⟨hc, hne⟩ := (h.waitEnd_live hw hend hfounded c).mp hc
    rw [h.waitEnd_running hw hend hfounded, hreaped.parent,
      family_parent hquiet.family]
    rcases h.parent c hc with h0 | ⟨hp, hk⟩
    · exact .inl h0
    · refine .inr ⟨hp, ?_⟩
      by_cases hpc : (σ.tasks.task c).parent = σ.tasks.currentTask
      · rw [hpc] at hk ⊢
        rw [update_self]
        exact (mem_erase_of_ne hne).mpr hk
      · rw [update_of_ne hpc]
        exact hk
  · have hpc : p ≠ σ.tasks.currentTask := fun e => (mem_running.mp hcur).2 (e ▸ hp)
    rw [hreaped.firstChild, if_neg fun e => hpc e.1, family_firstChild hquiet.family]
    exact h.childless p hp

theorem step (hstep : Step σ e σ') (htidy : e.Tidy σ) : ∃ kids', TidyInv σ' kids' := by
  cases hstep with
  | fork hready ht hs' => exact ⟨_, h.fork hready ht hs'⟩
  | exit hready hs' => exact ⟨_, h.exit hready hs' htidy⟩
  | waitStart hready hsel hs' =>
    have hq := Quiet.start (by decide) hs'
    have ho := h.other (.quiet hq)
    exact ⟨kids, h.waitStart hready hsel hs', ho.parent, ho.childless⟩
  | waitEnd hw hend => exact ⟨_, h.waitEnd hw hend htidy⟩
  | destroy ht => exact ⟨_, h.destroy ht⟩
  | other ho => exact ⟨_, h.other ho⟩

theorem childList_exited (hp : p ∈ σ.exited) : σ.tasks.childList p = [] := by
  obtain ⟨n, hn⟩ : ∃ n, walkLimit = n + 1 := ⟨2 ^ 32 - 1, by decide⟩
  rw [childList, h.childless p hp, hn, dllNodes, if_pos rfl]

theorem familyTree : FamilyTree σ := by
  have hsplit : ∀ p ∈ σ.live, p ∈ σ.exited ∨ p ∈ σ.running := fun p hp => by
    by_cases he : p ∈ σ.exited
    · exact .inl he
    · exact .inr (mem_running.mpr ⟨hp, he⟩)
  refine ⟨fun p hp => ?_, fun p hp c hc => ?_, fun p hp c hc => ?_, fun c hc => ?_⟩
  · rcases hsplit p hp with he | hr
    · rw [h.childList_exited he]
      exact ⟨h.childless p he, nodup_nil⟩
    · rw [h.childList_eq hr]
      exact h.family p hr
  · rcases hsplit p hp with he | hr
    · rw [h.childList_exited he] at hc
      cases hc
    · rw [h.childList_eq hr] at hc
      exact (h.kid p hr c hc).1
  · rcases hsplit p hp with he | hr
    · rw [h.childList_exited he]
      refine ⟨fun hm => absurd hm (by simp), fun hpar => ?_⟩
      rcases h.parent c hc with h0 | ⟨hr, -⟩
      · exact absurd (hpar.symm.trans h0) (h.address p (mem_live.mp hp).1).1
      · exact absurd he (mem_running.mp (hpar ▸ hr)).2
    · rw [h.childList_eq hr]
      refine ⟨fun hm => (h.kid p hr c hm).2, fun hpar => ?_⟩
      rcases h.parent c hc with h0 | ⟨-, hk⟩
      · exact absurd (hpar.symm.trans h0) (h.address p (mem_live.mp hp).1).1
      · exact hpar ▸ hk
  · rcases h.parent c hc with h0 | ⟨hr, -⟩
    · exact .inl h0
    · exact .inr (mem_running.mp hr).1

end

end TidyInv

theorem Initial.tidyInv (h : Initial σ idle) : TidyInv σ fun _ => [] := by
  refine ⟨h.treeInv, fun c hc => .inl ?_, fun p hp => ?_⟩
  · have hmem := (mem_live.mp hc).1
    rw [h.tasks.table, Finset.mem_singleton] at hmem
    rw [hmem]
    exact h.parent
  · rw [h.history.1] at hp
    cases hp

theorem TidyRun.tidyInv (hrun : TidyRun σ σ') (h : TidyInv σ kids) :
    ∃ kids', TidyInv σ' kids' := by
  induction hrun with
  | refl => exact ⟨kids, h⟩
  | tail _ hstep ih =>
    obtain ⟨kids', hinv⟩ := ih
    obtain ⟨e, hstep, htidy⟩ := hstep
    exact hinv.step hstep htidy

/-- As long as all waits that end are founded and only tasks without children exit, the tree of
processes is what it should be. -/
theorem tidyRun_familyTree (hboot : Initial σ idle) (hrun : TidyRun σ σ') : FamilyTree σ' := by
  obtain ⟨kids, h⟩ := hrun.tidyInv hboot.tidyInv
  exact h.familyTree

/-- A task starts a child, which exits. -/
theorem tidyRun_familyTree_oneExit :
    ∃ σ, TidyRun boot σ ∧ (σ.tasks.task 48).state = .zombie ∧ FamilyTree σ := by
  obtain ⟨σ, hσ, hzombie⟩ : ∃ σ ∈ Op.execAll (twoForks ++ [.reschedule, .exit 7]) boot,
      (σ.tasks.task 48).state = .zombie := by
    decide +kernel
  have hrun := Op.execAll_tidyRun hσ
  exact ⟨σ, hrun, hzombie, tidyRun_familyTree boot_initial hrun⟩

/-- A task exits before its child. The child then names its grandparent as its parent, and is in
the list of the task that has exited. -/
theorem taskExit_losesChild :
    ∃ σ σ', TidyRun boot σ ∧ Step σ .exit σ' ∧ (σ'.tasks.task 48).parent = 16 ∧
      48 ∈ σ'.tasks.childList 32 ∧ 48 ∉ σ'.tasks.childList 16 ∧ ¬ FamilyTree σ' := by
  obtain ⟨σ, hσ, hready, s', hs', hparent, htable, hreaped, hmem, hnot⟩ :
      ∃ σ ∈ Op.execAll twoForks boot, σ.Ready ∧ ∃ s' ∈ σ.tasks.taskExit 0,
        (s'.task 48).parent = 16 ∧ s'.table = {16, 32, 48} ∧ σ.reaped = ∅ ∧
          48 ∈ s'.childList 32 ∧ 48 ∉ s'.childList 16 := by
    decide +kernel
  refine ⟨σ, _, Op.execAll_tidyRun hσ, .exit hready hs', hparent, hmem, hnot, fun htree => ?_⟩
  have hlive' : ∀ t ∈ ({16, 48} : Finset Nat), t ∈ s'.table \ σ.reaped := by
    rw [htable, hreaped]
    decide
  exact hnot ((htree.iff 16 (hlive' 16 (by decide)) 48 (hlive' 48 (by decide))).mpr hparent)

end Processes

end Stos.Kernel
