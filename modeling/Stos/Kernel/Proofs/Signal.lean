import Stos.Kernel.SignalRuns

/-!
# Signals

Where the frames of signal handlers lie, what a program can do with a forged frame, and what a
handler's return restores.
-/

namespace Stos.Kernel

open List SigTask Function SyscallFrame Option UserAccess SigAction Prod

variable {t t' : SigTask} {m m' : Mem} {a e base offset n sig : Nat} {accessed : List Nat}

/-! ## Addresses of frames -/

theorem frameInRange_iff : frameInRange base = true ↔
    vmmUserStart ≤ base ∧ (base + sigframeSize) % 2 ^ 32 ≤ vmmUserEnd := by
  simp [frameInRange]

/-- A frame that is not too close to the end of the address space passes the check only if it is in
user memory. -/
theorem frameInRange_iff_of_le (h : base + sigframeSize < 2 ^ 32) : frameInRange base = true ↔
    vmmUserStart ≤ base ∧ base + sigframeSize ≤ vmmUserEnd := by
  rw [frameInRange_iff, Nat.mod_eq_of_lt h]

/-- At the end of the address space the check passes. -/
theorem frameInRange_of_ge (h : 2 ^ 32 ≤ base + sigframeSize) (hb : base < 2 ^ 32) :
    frameInRange base = true := by
  rw [frameInRange_iff]
  unfold vmmUserStart vmmUserEnd sigframeSize at *
  omega

/-- A new frame lies below the stack pointer, unless it wraps around. -/
theorem newUserEsp_le (he : e < 2 ^ 32) (h : sigframeSize ≤ e) :
    newUserEsp e + sigframeSize ≤ e := by
  unfold newUserEsp sigframeSize at *
  omega

theorem newUserEsp_of_lt (h : e < 4) : newUserEsp e = 2 ^ 32 - 80 := by
  unfold newUserEsp sigframeSize
  omega

theorem newUserEsp_wraps (hlo : 4 ≤ e) (hhi : e < sigframeSize) :
    2 ^ 32 - 64 ≤ newUserEsp e ∧ newUserEsp e < 2 ^ 32 := by
  unfold newUserEsp sigframeSize at *
  omega

/-- A frame that passes the check and does not wrap around is in user memory, below the stack
pointer. -/
theorem newUserEsp_inUser (he : e < 2 ^ 32) (hwrap : e < 4 ∨ sigframeSize ≤ e)
    (h : frameInRange (newUserEsp e) = true) :
    vmmUserStart ≤ newUserEsp e ∧ newUserEsp e + sigframeSize ≤ vmmUserEnd ∧
      newUserEsp e + sigframeSize ≤ e := by
  rcases hwrap with hlow | hhigh
  · rw [newUserEsp_of_lt hlow] at h
    exact absurd h (by decide)
  · have hle := newUserEsp_le he hhigh
    rw [frameInRange_iff_of_le (by omega)] at h
    exact ⟨h.1, h.2, hle⟩

namespace SigTask

/-! ## What a dispatch can do -/

/-- The task and its memory when its handler of `sig` starts. -/
def entered (t : SigTask) (m : Mem) (sig : Nat) : SigTask × Mem :=
  let base := newUserEsp t.frame.esp.toNat
  (enterHandler { t with sigPending := sigdelset t.sigPending sig } sig base,
    storeBytes m base (sigframeBytes base sig t.frame t.sigBlocked))

/-- The outcomes of `task_signal_dispatch_pending`. -/
inductive Dispatched (t : SigTask) (m : Mem) : UserAccess (SigTask × Mem) → Prop
  | none : t.nextSignal = none → Dispatched t m (.returns (t, m) [])
  | ignored {sig : Nat} : t.nextSignal = some sig → ¬ t.Caught sig →
      ((t.sigHandlers sig).saHandler = sigDfl → sig ∈ ignoredByDefault) →
      Dispatched t m (.returns ({ t with sigPending := sigdelset t.sigPending sig }, m) [])
  | ended {sig : Nat} : t.nextSignal = some sig →
      (t.sigHandlers sig).saHandler = sigDfl → sig ∉ ignoredByDefault →
      Dispatched t m (.exits (-(sig : Int)))
  | noRoom {sig : Nat} : t.nextSignal = some sig → t.Caught sig → ¬ t.HasRoom →
      Dispatched t m (.exits (-(sigsegv : Int)))
  | pushed {sig : Nat} : t.nextSignal = some sig → t.Caught sig → t.HasRoom →
      Dispatched t m (.returns (t.entered m sig)
        (userBytes (newUserEsp t.frame.esp.toNat) 0 sigframeSize))

theorem dispatched (t : SigTask) (m : Mem) : Dispatched t m (t.taskSignalDispatchPending m) := by
  unfold taskSignalDispatchPending
  cases hnext : t.nextSignal with
  | none => exact .none hnext
  | some sig =>
    dsimp only
    split
    · next hign =>
      refine .ignored hnext (fun h => h.1 hign) fun hdfl => ?_
      rw [hign] at hdfl
      exact absurd hdfl (by decide)
    · next hign =>
      split
      · next hdfl =>
        split
        · next hmem => exact .ignored hnext (fun h => h.2 hdfl) fun _ => hmem
        · next hmem => exact .ended hnext hdfl hmem
      · next hdfl =>
        unfold pushFrame
        dsimp only
        split
        · next hroom => exact .noRoom hnext ⟨hign, hdfl⟩ (by simpa [HasRoom] using hroom)
        · next hroom => exact .pushed hnext ⟨hign, hdfl⟩ (by simpa [HasRoom] using hroom)

/-- If the dispatch returns, it leaves the registers and the memory alone, or a handler starts. -/
theorem dispatch_returns {r : SigTask × Mem}
    (h : t.taskSignalDispatchPending m = .returns r accessed) :
    (accessed = [] ∧ r.1.frame = t.frame ∧ r.2 = m) ∨
      ∃ sig, t.HasRoom ∧ r = t.entered m sig ∧
        accessed = userBytes (newUserEsp t.frame.esp.toNat) 0 sigframeSize := by
  have hd := dispatched t m
  generalize t.taskSignalDispatchPending m = x at h hd
  cases hd with
  | none =>
    cases h
    exact .inl ⟨rfl, rfl, rfl⟩
  | ignored =>
    cases h
    exact .inl ⟨rfl, rfl, rfl⟩
  | ended => cases h
  | noRoom => cases h
  | @pushed sig hnext hcaught hroom =>
    obtain ⟨hr, haccessed⟩ := returns.inj h
    exact .inr ⟨sig, hroom, hr.symm, haccessed.symm⟩

theorem dispatch_pushes (hnext : t.nextSignal = some sig) (hcaught : t.Caught sig)
    (hroom : t.HasRoom) (m : Mem) : t.taskSignalDispatchPending m =
      .returns (t.entered m sig) (userBytes (newUserEsp t.frame.esp.toNat) 0 sigframeSize) := by
  unfold taskSignalDispatchPending
  rw [hnext]
  dsimp only
  rw [if_neg hcaught.1, if_neg hcaught.2, pushFrame]
  rw [show frameInRange (newUserEsp t.frame.esp.toNat) = true from hroom]
  rfl

/-- The addresses that `task_sigreturn` reads. -/
theorem taskSigreturn_accessed (t : SigTask) (m : Mem) :
    (t.taskSigreturn m).accessed =
      if frameInRange (returnFrame t.frame.esp.toNat) = true then
        userBytes (returnFrame t.frame.esp.toNat) 12 28 ++
          userBytes (returnFrame t.frame.esp.toNat) 44 8 ++
            userBytes (returnFrame t.frame.esp.toNat) 56 4 ++
              userBytes (returnFrame t.frame.esp.toNat) 8 4
      else [] := by
  unfold taskSigreturn
  by_cases h : frameInRange (returnFrame t.frame.esp.toNat) = true
  · rw [if_pos h, if_neg (by rw [h]; decide), accessed]
  · rw [if_neg h, if_pos (by simpa using h), accessed]

/-! ## Accesses to user memory -/

/-- A task with a pending signal that it catches. -/
def oneSignal (esp : BitVec 32) : SigTask :=
  { sigPending := 2, sigBlocked := 0, sigHandlers := fun _ => ⟨2, 0, 0⟩,
    frame := initialFrame 0 esp }

@[simp] theorem oneSignal_esp (esp : BitVec 32) : (oneSignal esp).frame.esp = esp := rfl

theorem oneSignal_nextSignal (esp : BitVec 32) : (oneSignal esp).nextSignal = some 1 := by
  have h : (range 32).find? ((2 : BitVec 32) &&& ~~~0).getLsbD = some 1 := by decide
  exact h

theorem oneSignal_caught (esp : BitVec 32) : (oneSignal esp).Caught 1 := by
  have h : (2 : BitVec 32) ≠ sigIgn ∧ (2 : BitVec 32) ≠ sigDfl := by decide
  exact h

theorem dispatch_inUser (m : Mem) (hwrap : t.frame.esp.toNat < 4 ∨ sigframeSize ≤ t.frame.esp.toNat) :
    (t.taskSignalDispatchPending m).InUser := by
  have h := dispatched t m
  generalize t.taskSignalDispatchPending m = r at h
  cases h with
  | none | ignored | ended | noRoom =>
    intro a ha
    cases ha
  | pushed hnext hcaught hroom =>
    obtain ⟨hlo, hhi, -⟩ := newUserEsp_inUser t.frame.esp.isLt hwrap hroom
    have hsmall : vmmUserEnd ≤ 2 ^ 32 := by decide
    intro a ha
    rw [accessed, mem_userBytes_of_le (by omega)] at ha
    omega

theorem dispatch_inUser_iff (esp : BitVec 32) :
    (∀ (t : SigTask) (m : Mem), t.frame.esp = esp → (t.taskSignalDispatchPending m).InUser) ↔
      esp.toNat < 4 ∨ sigframeSize ≤ esp.toNat := by
  constructor
  · intro h
    by_contra hwrap
    rw [not_or, not_lt, not_le] at hwrap
    obtain ⟨hge, hlt⟩ := newUserEsp_wraps hwrap.1 hwrap.2
    have hroom : (oneSignal esp).HasRoom := by
      rw [HasRoom, oneSignal_esp]
      exact frameInRange_of_ge (by unfold sigframeSize; omega) hlt
    have hin := h (oneSignal esp) (fun _ => 0) (oneSignal_esp esp)
    rw [UserAccess.InUser, dispatch_pushes (oneSignal_nextSignal esp) (oneSignal_caught esp) hroom,
      accessed, oneSignal_esp] at hin
    have hend := (hin _ (self_mem_userBytes hlt (by decide))).2
    unfold vmmUserEnd at hend
    omega
  · intro hwrap t m hesp
    rw [← hesp] at hwrap
    exact dispatch_inUser m hwrap

theorem sigreturn_inUser (m : Mem) (hlo : 4 ≤ t.frame.esp.toNat)
    (hhi : t.frame.esp.toNat < 2 ^ 32 - 64) : (t.taskSigreturn m).InUser := by
  have hsf : returnFrame t.frame.esp.toNat + sigframeSize < 2 ^ 32 := by
    unfold returnFrame sigframeSize
    omega
  intro a ha
  rw [taskSigreturn_accessed] at ha
  split at ha
  · next hrange =>
    have hsmall : vmmUserEnd ≤ 2 ^ 32 := by decide
    rw [frameInRange_iff_of_le hsf] at hrange
    unfold sigframeSize at hrange
    simp only [mem_append] at ha
    rw [mem_userBytes_of_le (by omega), mem_userBytes_of_le (by omega),
      mem_userBytes_of_le (by omega), mem_userBytes_of_le (by omega)] at ha
    omega
  · cases ha

theorem sigreturn_inUser_iff (esp : BitVec 32) :
    (∀ (t : SigTask) (m : Mem), t.frame.esp = esp → (t.taskSigreturn m).InUser) ↔
      4 ≤ esp.toNat ∧ esp.toNat < 2 ^ 32 - 64 := by
  constructor
  · intro h
    have hin := h (oneSignal esp) (fun _ => 0) (oneSignal_esp esp)
    by_contra hwrap
    have hend : 2 ^ 32 ≤ returnFrame esp.toNat + sigframeSize ∧ returnFrame esp.toNat < 2 ^ 32 := by
      unfold returnFrame sigframeSize
      omega
    rw [UserAccess.InUser, taskSigreturn_accessed, oneSignal_esp,
      if_pos (frameInRange_of_ge hend.1 hend.2)] at hin
    have hmem := hin ((returnFrame esp.toNat + 8 + 0) % 2 ^ 32)
      (mem_append_right _ (mem_userBytes.mpr ⟨0, by decide, rfl⟩))
    unfold vmmUserStart vmmUserEnd sigframeSize at *
    omega
  · rintro ⟨hlo, hhi⟩ t m rfl
    exact sigreturn_inUser m hlo hhi

/-- For every stack pointer: all that `task_signal_dispatch_pending` writes and `task_sigreturn` reads
is in user memory, unless the frame is at the end of the address space. -/
theorem signalFrames_inUser_iff (esp : BitVec 32) :
    ((∀ (t : SigTask) (m : Mem), t.frame.esp = esp → (t.taskSignalDispatchPending m).InUser) ↔
      esp.toNat < 4 ∨ sigframeSize ≤ esp.toNat) ∧
    ((∀ (t : SigTask) (m : Mem), t.frame.esp = esp → (t.taskSigreturn m).InUser) ↔
      4 ≤ esp.toNat ∧ esp.toNat < 2 ^ 32 - 64) :=
  ⟨dispatch_inUser_iff esp, sigreturn_inUser_iff esp⟩

/-- With the stack pointer 5 the frame is written to the last bytes of the address space, and with
the stack pointer 0 it is read from the first ones. -/
theorem signalFrames_wrap :
    0xFFFFFFC0 ∈ ((oneSignal 5).taskSignalDispatchPending fun _ => 0).accessed ∧
      4 ∈ ((oneSignal 0).taskSigreturn fun _ => 0).accessed := by
  decide +kernel

/-! ## What a frame restores -/

/-- The task after `sigreturn`. -/
def restored (t : SigTask) (m : Mem) : SigTask :=
  { t with
    sigBlocked := SigOp.forged t m 56
    frame :=
      { eax := SigOp.forged t m 8, ecx := SigOp.forged t m 12, edx := SigOp.forged t m 16,
        ebx := SigOp.forged t m 20, ebp := SigOp.forged t m 24, esi := SigOp.forged t m 28,
        edi := SigOp.forged t m 32, eip := SigOp.forged t m 36, cs := t.frame.cs,
        eflags := SigOp.forged t m 44, esp := SigOp.forged t m 48, ss := t.frame.ss } }

theorem taskSigreturn_returns (h : frameInRange (returnFrame t.frame.esp.toNat) = true) (m : Mem) :
    ∃ accessed, t.taskSigreturn m = .returns
      (SigOp.forged t m 8, { t.restored m with
        frame := { (t.restored m).frame with eax := t.frame.eax } }) accessed := by
  unfold taskSigreturn
  rw [if_neg (by rw [h]; decide)]
  exact ⟨_, rfl⟩

theorem sysSigreturn_returns (h : frameInRange (returnFrame t.frame.esp.toNat) = true) (m : Mem) :
    ∃ accessed, t.sysSigreturn m = .returns (t.restored m) accessed := by
  obtain ⟨accessed, hreturns⟩ := taskSigreturn_returns h m
  exact ⟨accessed, by rw [sysSigreturn, hreturns, UserAccess.map]; rfl⟩

theorem sysSigreturn_exits (h : frameInRange (returnFrame t.frame.esp.toNat) ≠ true) (m : Mem) :
    t.sysSigreturn m = .exits (-(sigsegv : Int)) := by
  unfold sysSigreturn taskSigreturn
  rw [if_pos (by simpa using h), UserAccess.map]

/-- If `sigreturn` returns, the check of the frame has passed. -/
theorem sysSigreturn_restored (h : t.sysSigreturn m = .returns t' accessed) :
    frameInRange (returnFrame t.frame.esp.toNat) = true ∧ t' = t.restored m := by
  by_cases hrange : frameInRange (returnFrame t.frame.esp.toNat) = true
  · obtain ⟨accessed', hreturns⟩ := sysSigreturn_returns hrange m
    rw [hreturns] at h
    cases h
    exact ⟨hrange, rfl⟩
  · rw [sysSigreturn_exits hrange m] at h
    cases h

end SigTask

/-! ## Tasks after an operation -/

namespace SigOp

variable {σ σ' : SigTasks} {op : SigOp} {p q : Nat}

/-- How task `q` has come about by operation `op`. -/
inductive Arises (σ : SigTasks) (op : SigOp) (q : Nat) : SigTask → Prop
  | same {t : SigTask} : σ q = some t → Arises σ op q t
  | create {eip esp : BitVec 32} : op = .create q eip esp → Arises σ op q (.create eip esp)
  | sigact {t : SigTask} {sig : Int} {act : Option SigAction} : op = .sigact q sig act →
      σ q = some t → Arises σ op q (t.sysSigact sig act).2.1
  | send {t : SigTask} {sig : Fin 32} : op = .send q sig → σ q = some t →
      Arises σ op q (t.addPending sig)
  | user {t : SigTask} {frame : SyscallFrame} : op = .user q frame → σ q = some t →
      t.frame.UserMode frame → Arises σ op q { t with frame }
  | sigreturn {t : SigTask} {m : Mem} : op = .sigreturn q m → σ q = some t →
      frameInRange (returnFrame t.frame.esp.toNat) = true → Arises σ op q (t.restored m)
  | dispatch {t t' : SigTask} {m m' : Mem} {accessed : List Nat} : op = .dispatch q m →
      σ q = some t → t.taskSignalDispatchPending m = .returns (t', m') accessed → Arises σ op q t'
  | fork {t : SigTask} {p : Nat} : op = .fork p q → σ p = some t → Arises σ op q t.fork
  | exec {t : SigTask} {eip esp : BitVec 32} : op = .exec q eip esp → σ q = some t →
      Arises σ op q (t.exec eip esp)

/-- The other tasks are unchanged. -/
theorem arises_update {x : Option SigTask} (h : update σ p x q = some t)
    (hp : q = p → ∀ t, x = some t → Arises σ op q t) : Arises σ op q t := by
  by_cases hq : q = p
  · rw [hq, update_self] at h
    exact hp hq t h
  · rw [update_of_ne hq] at h
    exact .same h

theorem arises_set (h : update σ p (some t') q = some t)
    (hp : q = p → Arises σ op q t') : Arises σ op q t :=
  arises_update h fun e _ ht => some.inj ht ▸ hp e

theorem arises_remove (h : update σ p none q = some t) : Arises σ op q t :=
  arises_update h fun _ _ ht => absurd ht (by simp)

theorem run_arises (hrun : op.run σ = some σ') (hq : σ' q = some t) : Arises σ op q t := by
  cases op with
  | create p eip esp =>
    rw [run] at hrun
    split at hrun
    · cases hrun
      exact arises_set hq fun e => .create (e ▸ rfl)
    · cases hrun
  | sigact p sig act =>
    obtain ⟨u, hu, rfl⟩ := map_eq_some_iff.mp hrun
    exact arises_set hq fun e => .sigact (e ▸ rfl) (e ▸ hu)
  | send p sig =>
    obtain ⟨u, hu, rfl⟩ := map_eq_some_iff.mp hrun
    exact arises_set hq fun e => .send (e ▸ rfl) (e ▸ hu)
  | user p frame =>
    obtain ⟨u, hu, hrun⟩ := bind_eq_some_iff.mp hrun
    split at hrun
    · next hmode =>
      cases hrun
      exact arises_set hq fun e => .user (e ▸ rfl) (e ▸ hu) hmode
    · cases hrun
  | interrupt p =>
    obtain ⟨u, hu, rfl⟩ := map_eq_some_iff.mp hrun
    exact .same hq
  | sigreturn p m =>
    obtain ⟨u, hu, rfl⟩ := map_eq_some_iff.mp hrun
    cases hret : u.sysSigreturn m with
    | exits exitCode =>
      rw [hret] at hq
      exact arises_remove hq
    | returns r accessed =>
      rw [hret] at hq
      obtain ⟨hrange, rfl⟩ := sysSigreturn_restored hret
      exact arises_set hq fun e => .sigreturn (e ▸ rfl) (e ▸ hu) hrange
  | dispatch p m =>
    obtain ⟨u, hu, rfl⟩ := map_eq_some_iff.mp hrun
    cases hret : u.taskSignalDispatchPending m with
    | exits exitCode =>
      rw [hret] at hq
      exact arises_remove hq
    | returns r accessed =>
      rw [hret] at hq
      exact arises_set hq fun e => .dispatch (e ▸ rfl) (e ▸ hu) hret
  | fork p c =>
    obtain ⟨u, hu, hrun⟩ := bind_eq_some_iff.mp hrun
    split at hrun
    · cases hrun
      exact arises_set hq fun e => .fork (e ▸ rfl) hu
    · cases hrun
  | exec p eip esp =>
    obtain ⟨u, hu, rfl⟩ := map_eq_some_iff.mp hrun
    exact arises_set hq fun e => .exec (e ▸ rfl) (e ▸ hu)
  | exit p =>
    obtain ⟨u, hu, rfl⟩ := map_eq_some_iff.mp hrun
    exact arises_remove hq

end SigOp

/-- What holds of all tasks if every operation keeps it. -/
theorem SigRun.induction {P : SigTasks → SigOp → Prop} {I : SigTask → Prop} {σ : SigTasks}
    (hrun : SigRun P σ)
    (hstep : ∀ σ op, (∀ q t, σ q = some t → I t) → P σ op → ∀ q t, SigOp.Arises σ op q t → I t) :
    ∀ q t, σ q = some t → I t := by
  induction hrun with
  | refl => exact fun _ _ h => absurd h (by simp)
  | tail _ h ih =>
    obtain ⟨op, hop, hrun⟩ := h
    exact fun q t hq => hstep _ op ih hop q t (SigOp.run_arises hrun hq)

/-! ## Rights -/

namespace SyscallFrame

variable {f f' : SyscallFrame}

/-- Both parts of `EFLAGS` are the same exactly if they are together. -/
theorem rights_eq_iff (hcs : f'.cs = f.cs) (hss : f'.ss = f.ss) :
    f'.rights = f.rights ↔ f'.eflags &&& 0x3200 = f.eflags &&& 0x3200 := by
  have hsplit : ∀ x : BitVec 32, x &&& 0x3200 = (x &&& 0x3000) ||| (x &&& 0x200) := fun x => by
    rw [← BitVec.and_or_distrib_left]
    rfl
  have hiopl : ∀ x : BitVec 32, (x &&& 0x3200) &&& 0x3000 = x &&& 0x3000 := fun x => by
    rw [BitVec.and_assoc]
    rfl
  have hflag : ∀ x : BitVec 32, (x &&& 0x3200) &&& 0x200 = x &&& 0x200 := fun x => by
    rw [BitVec.and_assoc]
    rfl
  simp only [rights, iopl, interruptFlag, hcs, hss, Prod.mk.injEq, and_true]
  constructor
  · rintro ⟨hi, hf⟩
    rw [hsplit, hsplit, hi, hf]
  · intro h
    exact ⟨by rw [← hiopl, h, hiopl], by rw [← hflag, h, hflag]⟩

/-- Without I/O privilege a program cannot change its rights. -/
theorem UserMode.rights (h : UserMode f f') (hf : f.rights = userRights) :
    f'.rights = userRights := by
  obtain ⟨hiopl, hcs, hss, hflag⟩ := h
  have h0 : f.iopl = 0 := congrArg fst hf
  rcases hflag with hflag | hflag
  · rw [h0] at hflag
    exact absurd hflag (by decide)
  · rw [← hf, SyscallFrame.rights, SyscallFrame.rights, hiopl, hcs, hss, hflag]

end SyscallFrame

namespace SigTask

theorem rights_of_flags {f : SyscallFrame} (hflags : f.eflags = 0x202) (hcs : f.cs = 0x1B)
    (hss : f.ss = 0x23) : f.rights = userRights := by
  rw [rights, iopl, interruptFlag, hflags, hcs, hss]
  decide

/-- A signal does not change the rights of its task. -/
theorem dispatch_rights (h : t.taskSignalDispatchPending m = .returns (t', m') accessed) :
    t'.frame.rights = t.frame.rights := by
  have hd := dispatched t m
  rw [h] at hd
  cases hd with
  | none => rfl
  | ignored => rfl
  | pushed => rfl

theorem sysSigact_frame (t : SigTask) (sig : Int) (act : Option SigAction) :
    (t.sysSigact sig act).2.1.frame = t.frame := by
  unfold sysSigact
  split
  · rfl
  · split
    · rfl
    · rfl

theorem restored_rights_iff (t : SigTask) (m : Mem) : (t.restored m).frame.rights = t.frame.rights ↔
    SigOp.forged t m 44 &&& 0x3200 = t.frame.eflags &&& 0x3200 :=
  rights_eq_iff rfl rfl

end SigTask

theorem SigOp.Arises.rights {σ : SigTasks} {op : SigOp} {q : Nat} (h : Arises σ op q t)
    (hσ : ∀ q t, σ q = some t → t.frame.rights = userRights)
    (hop : op.SameFlags σ) : t.frame.rights = userRights := by
  cases h with
  | same hq => exact hσ q _ hq
  | create => exact rights_of_flags rfl rfl rfl
  | sigact _ hq =>
    rw [sysSigact_frame]
    exact hσ q _ hq
  | @send u _ _ hq => exact hσ q u hq
  | user _ hq hmode => exact hmode.rights (hσ q _ hq)
  | sigreturn e hq _ =>
    subst e
    rw [(restored_rights_iff _ _).mpr (hop _ hq)]
    exact hσ q _ hq
  | dispatch _ hq hret =>
    rw [dispatch_rights hret]
    exact hσ q _ hq
  | fork => exact rights_of_flags rfl rfl rfl
  | @exec u _ _ _ hq => exact hσ q u hq

/-- A run with one task. -/
theorem oneTask_sigRun (P : SigTasks → SigOp → Prop) (esp : BitVec 32)
    (hP : P (fun _ => none) (.create 0 0 esp)) :
    SigRun P (update (fun _ => none) 0 (some (.create 0 esp))) :=
  Relation.ReflTransGen.single ⟨.create 0 0 esp, hP, rfl⟩

namespace SigTask

theorem unblockable_or {a b : BitVec 32} :
    Unblockable (a ||| b) ↔ Unblockable a ∧ Unblockable b := by
  simp only [Unblockable, BitVec.getLsbD_or, Bool.or_eq_false_iff]
  tauto

/-- A signal that is caught is neither of the two. -/
theorem Killable.ne_of_caught (h : t.Killable) (hcaught : t.Caught sig) :
    sig ≠ sigkill ∧ sig ≠ sigstop := by
  refine ⟨fun e => ?_, fun e => ?_⟩
  · exact hcaught.2 (e ▸ h.kill)
  · exact hcaught.2 (e ▸ h.stop)

theorem getLsbD_bit_of_ne {k : Nat} (h : sig ≠ k) : ((1 : BitVec 32) <<< sig).getLsbD k = false := by
  simp
  omega

theorem unblockable_sigaddset {set : BitVec 32} (hne : sig ≠ sigkill ∧ sig ≠ sigstop) :
    Unblockable (Tasks.sigaddset set sig) ↔ Unblockable set := by
  rw [Tasks.sigaddset, unblockable_or]
  exact and_iff_left ⟨getLsbD_bit_of_ne hne.1, getLsbD_bit_of_ne hne.2⟩

/-- The handlers of the other signals can change. -/
theorem Killable.update (h : t.Killable) (hne : sig ≠ sigkill ∧ sig ≠ sigstop) (sa : SigAction) :
    Killable { t with sigHandlers := update t.sigHandlers sig sa } := by
  refine ⟨h.blocked, ?_, ?_⟩
  · dsimp only
    rw [← h.kill, update_of_ne hne.1.symm]
  · dsimp only
    rw [← h.stop, update_of_ne hne.2.symm]

theorem Killable.sysSigact (h : t.Killable) (sig : Int) (act : Option SigAction) :
    Killable (t.sysSigact sig act).2.1 := by
  unfold SigTask.sysSigact
  split
  · exact h
  · split
    · exact h
    · next hrange hsig =>
      cases act with
      | none => exact h
      | some act =>
        refine h.update ?_ act
        omega

theorem entered_sigHandlers {k : Nat} (hk : k ≠ sig) (t : SigTask) (m : Mem) :
    (t.entered m sig).1.sigHandlers k = t.sigHandlers k := by
  unfold entered enterHandler
  dsimp only
  split
  · rw [update_of_ne hk]
  · rfl

/-- A handler starts with both signals effective exactly if its mask does not have them. -/
theorem Killable.entered_iff (h : t.Killable) (hcaught : t.Caught sig) (m : Mem) :
    Killable (t.entered m sig).1 ↔ Unblockable (t.sigHandlers sig).saMask := by
  have hne := h.ne_of_caught hcaught
  have hblocked : Unblockable (t.entered m sig).1.sigBlocked ↔
      Unblockable (t.sigHandlers sig).saMask := by
    unfold entered enterHandler
    rw [unblockable_or]
    refine and_iff_right ?_
    split
    · exact (unblockable_sigaddset hne).mpr h.blocked
    · exact h.blocked
  refine ⟨fun hk => hblocked.mp hk.blocked, fun hmask => ⟨hblocked.mpr hmask, ?_, ?_⟩⟩
  · rw [entered_sigHandlers hne.1.symm]
    exact h.kill
  · rw [entered_sigHandlers hne.2.symm]
    exact h.stop

end SigTask

namespace SigOp

variable {σ σ' : SigTasks} {op : SigOp} {p q : Nat}

theorem Arises.killable (h : Arises σ op q t) (hσ : ∀ q t, σ q = some t → t.Killable)
    (hop : op.KeepsKill σ) : t.Killable := by
  cases h with
  | same hq => exact hσ q _ hq
  | create => exact ⟨show SigTask.Unblockable 0 by decide, rfl, rfl⟩
  | sigact _ hq => exact (hσ q _ hq).sysSigact _ _
  | send _ hq => exact { hσ q _ hq with }
  | user _ hq _ => exact { hσ q _ hq with }
  | sigreturn e hq hrange =>
    subst e
    exact ⟨hop _ hq hrange, (hσ q _ hq).kill, (hσ q _ hq).stop⟩
  | @dispatch u _ m _ _ e hq hret =>
    subst e
    have hd := dispatched u m
    rw [hret] at hd
    cases hd with
    | none => exact hσ q _ hq
    | ignored => exact { hσ q _ hq with }
    | pushed hnext hcaught hroom =>
      exact ((hσ q _ hq).entered_iff hcaught m).mpr ((hop _ hq).1 _ hnext hcaught hroom)
  | @fork u p _ hp => exact { hσ p u hp with }
  | exec _ hq => exact { hσ q _ hq with }

/-- The task is gone after a dispatch exactly if its next signal ends it. -/
theorem dispatch_gone_iff (hq : σ q = some t) (hrun : (dispatch q m).run σ = some σ') :
    σ' q = none ↔ t.NextSignalEnds := by
  rw [run, hq, map_some] at hrun
  cases hrun
  have hd := dispatched t m
  generalize t.taskSignalDispatchPending m = r at hd ⊢
  cases hd with
  | none hnext => simp [finish, SigTask.NextSignalEnds, hnext]
  | ignored hnext hcaught hdfl =>
    simp only [finish, update_self, SigTask.NextSignalEnds, hnext, some.injEq,
      reduceCtorEq, false_iff]
    rintro ⟨sig, rfl, ⟨hd, hn⟩ | ⟨hc, -⟩⟩
    · exact hn (hdfl hd)
    · exact hcaught hc
  | @ended sig hnext hdfl hmem =>
    simp only [finish, update_self, true_iff]
    exact ⟨sig, hnext, .inl ⟨hdfl, hmem⟩⟩
  | @noRoom sig hnext hcaught hroom =>
    simp only [finish, update_self, true_iff]
    exact ⟨sig, hnext, .inr ⟨hcaught, hroom⟩⟩
  | pushed hnext hcaught hroom =>
    simp only [finish, update_self, SigTask.NextSignalEnds, hnext, some.injEq,
      reduceCtorEq, false_iff]
    rintro ⟨sig, rfl, ⟨hd, hn⟩ | ⟨-, hr⟩⟩
    · exact hcaught.2 hd
    · exact hr hroom

theorem killOk_of_keepsKill (hσ : ∀ q t, σ q = some t → t.Killable) (hrun : op.run σ = some σ')
    (hop : op.KeepsKill σ) : KillOk σ op σ' := by
  refine ⟨fun q t hq => (run_arises hrun hq).killable hσ hop, fun p hp t ht hpending => ?_⟩
  cases op with
  | interrupt q =>
    cases hp
    have := hop t ht
    rw [hpending] at this
    cases this
  | dispatch q m =>
    cases hp
    exact (dispatch_gone_iff ht hrun).mpr ((hop t ht).2 hpending)
  | _ => cases hp

theorem keepsKill_of_killOk (hσ : ∀ q t, σ q = some t → t.Killable) (hrun : op.run σ = some σ')
    (h : KillOk σ op σ') : op.KeepsKill σ := by
  cases op with
  | sigreturn p m =>
    intro t ht hrange
    obtain ⟨accessed, hret⟩ := sysSigreturn_returns hrange m
    rw [run, ht, map_some, hret] at hrun
    cases hrun
    exact (h.killable p _ (update_self p _ _)).blocked
  | dispatch p m =>
    intro t ht
    refine ⟨fun sig hnext hcaught hroom => ?_, fun hpending => ?_⟩
    · rw [run, ht, map_some, dispatch_pushes hnext hcaught hroom] at hrun
      cases hrun
      exact ((hσ p t ht).entered_iff hcaught m).mp (h.killable p _ (update_self p _ _))
    · exact (dispatch_gone_iff ht hrun).mp (h.acted p rfl t ht hpending)
  | interrupt p =>
    intro t ht
    rw [run, ht] at hrun
    cases hrun
    by_contra hpending
    have hgone : σ p = none := h.acted p rfl t ht (by simpa using hpending)
    rw [ht] at hgone
    cases hgone
  | _ => trivial

end SigOp

/-- In every run in which all operations keep the two signals effective, no task blocks, catches or
ignores them, and the next operation leaves it so and acts on a pending `SIGKILL` exactly if it is
such an operation. -/
theorem sigRun_killOk_iff {σ σ' : SigTasks} {op : SigOp}
    (hrun : SigRun (fun σ op => op.KeepsKill σ) σ) (hop : op.run σ = some σ') :
    (∀ p t, σ p = some t → t.Killable) ∧ (SigOp.KillOk σ op σ' ↔ op.KeepsKill σ) := by
  have hσ : ∀ p t, σ p = some t → t.Killable :=
    hrun.induction fun σ op hσ hop q t ht => ht.killable hσ hop
  exact ⟨hσ, SigOp.keepsKill_of_killOk hσ hop, SigOp.killOk_of_keepsKill hσ hop⟩

/-- `SIGKILL` is sent to a new task, and the task returns from a system call. -/
theorem sigRun_killOk_iff_sent :
    ∃ σ σ', (SigOp.send 0 9).run (Function.update (fun _ => none) 0 (some (.create 0 0))) = some σ ∧
      (SigOp.dispatch 0 fun _ => 0).run σ = some σ' ∧ SigOp.KillOk σ (.dispatch 0 fun _ => 0) σ' := by
  have hsent : SigRun (fun σ op => op.KeepsKill σ) (update (update
      (fun _ => none) 0 (some (.create 0 0))) 0 (some ((create 0 0).addPending 9))) :=
    (oneTask_sigRun _ 0 trivial).tail ⟨.send 0 9, trivial, rfl⟩
  have hnext : ((create 0 0).addPending 9).nextSignal = some 9 := by decide
  refine ⟨_, _, rfl, rfl, (sigRun_killOk_iff hsent rfl).2.mpr fun t ht => ?_⟩
  cases ht
  refine ⟨fun sig hsig hcaught => ?_, fun _ => ⟨9, hnext, .inl ⟨rfl, by decide⟩⟩⟩
  exact absurd rfl hcaught.2

theorem runAll_sigRun {ops : List SigOp} {σ σ' : SigTasks} (hσ : SigRun (fun _ _ => True) σ)
    (h : SigOp.runAll ops σ = some σ') : SigRun (fun _ _ => True) σ' := by
  induction ops generalizing σ with
  | nil =>
    cases h
    exact hσ
  | cons op ops ih =>
    obtain ⟨σ1, hσ1, hrest⟩ := bind_eq_some_iff.mp h
    exact ih (hσ.tail ⟨op, trivial, hσ1⟩) hrest

/-- A program catches signal 10 with a mask of all signals, the signal is sent, and `SIGKILL` is
sent while the handler runs. -/
def maskedKill : List SigOp :=
  [.create 0 0 0x500000, .sigact 0 10 (some ⟨2, 0xFFFFFFFF, 0⟩), .send 0 10, .dispatch 0 fun _ => 0,
    .send 0 9]

/-- `SIGKILL` is then blocked, and the task goes back to user mode. -/
theorem sigact_blocksKill :
    ∃ σ σ', SigRun (fun _ _ => True) σ ∧ (SigOp.dispatch 0 fun _ => 0).run σ = some σ' ∧
      ∃ t, σ 0 = some t ∧ t.sigPending.getLsbD sigkill = true ∧ ¬ t.Killable ∧ σ' 0 ≠ none := by
  obtain ⟨σ, hσ, ⟨t, ht, hpending, hblocked⟩, σ', hσ', hsome⟩ :
      ∃ σ ∈ SigOp.runAll maskedKill fun _ => none,
        (∃ t ∈ σ 0, t.sigPending.getLsbD sigkill = true ∧ t.sigBlocked.getLsbD sigkill = true) ∧
        ∃ σ' ∈ (SigOp.dispatch 0 fun _ => 0).run σ, (σ' 0).isSome = true := by
    decide +kernel
  refine ⟨σ, σ', runAll_sigRun .refl hσ, hσ', t, ht, hpending, fun hk => ?_,
    isSome_iff_ne_none.mp hsome⟩
  have := hk.blocked.1
  rw [hblocked] at this
  cases this

/-! ## Handlers of replaced programs -/

namespace SigOp

variable {σ σ' : SigTasks} {op : SigOp} {q k : Nat} {h : Nat → List (BitVec 32)}

/-- A task that stays and has a handler keeps what is recorded for it. -/
theorem mem_installed (hq : σ q = some t) (hcaught : t.Caught sig) (hrun : op.run σ = some σ')
    (hop : op.KeepsHandlers σ) {a : BitVec 32} (ha : a ∈ h q) : a ∈ op.installed σ h q := by
  have other : ∀ p x, (q = p → a ∈ x) → a ∈ update h p x q := by
    intro p x hx
    rw [update_apply]
    split
    · exact hx ‹_›
    · exact ha
  cases op with
  | create p eip esp =>
    refine other p [] fun e => ?_
    rw [run, ← e, hq] at hrun
    cases hrun
  | sigact p sig act =>
    cases act with
    | none => exact ha
    | some act =>
      rw [installed]
      split
      · exact other p _ fun e => mem_cons_of_mem _ (e ▸ ha)
      · exact ha
  | fork p c =>
    refine other c _ fun e => ?_
    rw [run, ← e, hq] at hrun
    obtain ⟨u, -, hrun⟩ := bind_eq_some_iff.mp hrun
    cases hrun
  | exec p eip esp => exact other p [] fun e => absurd hcaught (hop t (e ▸ hq) sig)
  | _ => exact ha

/-- A dispatch installs no handler. -/
theorem caught_of_dispatch (hret : t.taskSignalDispatchPending m = .returns (t', m') accessed)
    (hcaught : t'.Caught k) : t'.sigHandlers k = t.sigHandlers k := by
  have hd := dispatched t m
  rw [hret] at hd
  cases hd with
  | none => rfl
  | ignored => rfl
  | @pushed sig =>
    by_cases e : k = sig
    · unfold SigTask.Caught enterHandler at hcaught
      unfold enterHandler
      dsimp only at hcaught ⊢
      split at hcaught
      · rw [e, update_self] at hcaught
        exact absurd rfl hcaught.2
      · next hreset => rw [if_neg hreset]
    · exact entered_sigHandlers e t m

theorem sysSigact_cases (t : SigTask) (k : Int) (act : Option SigAction) :
    (t.sysSigact k act).2.1.sigHandlers = t.sigHandlers ∨
      ∃ act', act = some act' ∧ (t.sysSigact k act).1 = 0 ∧
        (t.sysSigact k act).2.1.sigHandlers = update t.sigHandlers k.toNat act' := by
  unfold sysSigact
  split
  · exact .inl rfl
  · split
    · exact .inl rfl
    · cases act with
      | none => exact .inl rfl
      | some act => exact .inr ⟨act, rfl, rfl, rfl⟩

/-- The handlers that tasks catch signals with are recorded. -/
def Known (σ : SigTasks) (h : Nat → List (BitVec 32)) : Prop :=
  ∀ q t sig, σ q = some t → t.Caught sig → (t.sigHandlers sig).saHandler ∈ h q

theorem Arises.known (ht : Arises σ op q t) (hσ : Known σ h) (hrun : op.run σ = some σ')
    (hop : op.KeepsHandlers σ) (hcaught : t.Caught sig) :
    (t.sigHandlers sig).saHandler ∈ op.installed σ h q := by
  -- a task that has kept its handler
  have kept : ∀ u, σ q = some u → t.sigHandlers sig = u.sigHandlers sig →
      (t.sigHandlers sig).saHandler ∈ op.installed σ h q := by
    intro u hq same
    unfold SigTask.Caught at hcaught
    rw [same] at hcaught ⊢
    exact mem_installed hq hcaught hrun hop (hσ q u sig hq hcaught)
  cases ht with
  | same hq => exact kept t hq rfl
  | create => exact absurd rfl hcaught.2
  | @sigact u k act e hq =>
    subst e
    obtain same | ⟨act, rfl, hzero, new⟩ := sysSigact_cases u k act
    · exact kept u hq (congrFun same sig)
    · by_cases hsig : sig = k.toNat
      · rw [installed, hq, if_pos (by simpa using hzero), update_self, new, hsig,
          update_self]
        exact mem_cons_self
      · exact kept u hq (by rw [new, update_of_ne hsig])
  | send _ hq => exact kept _ hq rfl
  | user _ hq => exact kept _ hq rfl
  | sigreturn _ hq => exact kept _ hq rfl
  | dispatch _ hq hret => exact kept _ hq (caught_of_dispatch hret hcaught)
  | @fork u _ e hq =>
    subst e
    rw [installed, update_self]
    exact hσ _ u sig hq hcaught
  | exec _ hq => exact kept _ hq rfl

end SigOp

namespace HandlerRun

variable {P : SigTasks → SigOp → Prop} {x : SigTasks × (Nat → List (BitVec 32))}

/-- One more operation. -/
theorem step {σ' : SigTasks} (op : SigOp) (hrun : HandlerRun P x) (hop : P x.1 op)
    (h : op.run x.1 = some σ') : HandlerRun P (σ', op.installed x.1 x.2) :=
  hrun.tail ⟨op, hop, h, rfl⟩

theorem known (hrun : HandlerRun (fun σ op => op.KeepsHandlers σ) x) : SigOp.Known x.1 x.2 := by
  induction hrun with
  | refl => exact nofun
  | tail _ hstep ih =>
    obtain ⟨op, hop, hrun, hy⟩ := hstep
    intro q t sig hq hcaught
    rw [hy]
    exact (SigOp.run_arises hrun hq).known ih hrun hop hcaught

/-- In runs in which no program with handlers is replaced and no handler with `SA_RESETHAND` is called, a
handler that is called was installed by the program that runs. -/
theorem called_installed {p : Nat} (hrun : HandlerRun (fun σ op => op.KeepsHandlers σ) x)
    (ht : x.1 p = some t) (hop : (SigOp.dispatch p m).KeepsHandlers x.1)
    (hret : t.taskSignalDispatchPending m = .returns (t', m') accessed) (hcalled : accessed ≠ []) :
    t'.frame.eip ∈ x.2 p := by
  have hd := dispatched t m
  rw [hret] at hd
  cases hd with
  | none => exact absurd rfl hcalled
  | ignored => exact absurd rfl hcalled
  | @pushed sig hnext hcaught hroom =>
    have hkeep := hop t ht sig hnext hcaught hroom
    simp only [enterHandler, if_neg (not_not_intro hkeep)]
    exact hrun.known p t sig ht hcaught

/-- A program that has a handler for signal 10 at address 2 and may have been replaced, with the signal
pending. -/
def catching (eip : BitVec 32) : SigTask :=
  (((create 0 0x500000).sysSigact 10 (some ⟨2, 0, 0⟩)).2.1.exec eip 0x500000).addPending 10

theorem catching_called (eip : BitVec 32) : ∃ t' m' accessed, accessed ≠ [] ∧ t'.frame.eip = 2 ∧
    (catching eip).taskSignalDispatchPending (fun _ => 0) = .returns (t', m') accessed := by
  have hnext : (catching eip).nextSignal = some 10 :=
    show (catching 0).nextSignal = some 10 by decide
  have hcaught : (catching eip).Caught 10 := show (2 : BitVec 32) ≠ 1 ∧ (2 : BitVec 32) ≠ 0 by decide
  have hroom : (catching eip).HasRoom := show frameInRange (newUserEsp 0x500000) = true by decide
  refine ⟨_, _, _, cons_ne_nil _ _, ?_, dispatch_pushes hnext hcaught hroom _⟩
  have hkeep : ((catching eip).sigHandlers 10).saFlags &&& saResethand = 0 :=
    show (0 : BitVec 32) &&& 4 = 0 by decide
  simp only [enterHandler, if_neg (not_not_intro hkeep)]
  rfl

theorem called_installed_sent : ∃ x t' m' accessed, HandlerRun (fun σ op => op.KeepsHandlers σ) x ∧
    (catching 0).taskSignalDispatchPending (fun _ => 0) = .returns (t', m') accessed ∧
      t'.frame.eip ∈ x.2 0 := by
  have hrun : HandlerRun (fun σ op => op.KeepsHandlers σ) _ := step (.send 0 10)
    (step (.sigact 0 10 (some ⟨2, 0, 0⟩)) (step (.create 0 0 0x500000) .refl trivial rfl) trivial rfl)
    trivial rfl
  obtain ⟨t', m', accessed, hne, -, hret⟩ := catching_called 0
  refine ⟨_, t', m', accessed, hrun, hret, called_installed hrun rfl ?_ hret hne⟩
  intro t ht sig hsig _ _
  cases ht
  cases (show (catching 0).nextSignal = some 10 by decide).symm.trans hsig
  rfl

/-- The program is replaced before the signal is sent. Its handler is called, and the new program has
installed none. -/
theorem called_replaced : ∃ x t' m' accessed, HandlerRun (fun _ _ => True) x ∧
    x.1 0 = some (catching 0x400000) ∧ accessed ≠ [] ∧ t'.frame.eip = 2 ∧
    (catching 0x400000).taskSignalDispatchPending (fun _ => 0) = .returns (t', m') accessed ∧
      x.2 0 = [] := by
  obtain ⟨t', m', accessed, hne, heip, hret⟩ := catching_called 0x400000
  exact ⟨_, t', m', accessed, step (.send 0 10) (step (.exec 0 0x400000 0x500000)
    (step (.sigact 0 10 (some ⟨2, 0, 0⟩)) (step (.create 0 0 0x500000) .refl trivial rfl) trivial rfl)
    trivial rfl) trivial rfl, rfl, hne, heip, hret, rfl⟩

end HandlerRun

/-! ## Nested handlers -/

namespace Handlers

variable {σ σ' : Handlers} {f : SavedFrame}

/-- The frame is in memory. -/
def Holds (m : Mem) (f : SavedFrame) : Prop :=
  ∃ sig, ∀ k v, (sigframeWords f.base sig f.frame f.sigBlocked)[k]? = some v →
    loadWord m (f.base + 4 * k) = v

/-- The frames of the handlers are in user memory and above the stack pointer; what an inner one
has interrupted had its stack below the outer ones. -/
structure FramesInv (σ : Handlers) : Prop where
  inUser : ∀ f ∈ σ.saved, vmmUserStart ≤ f.base ∧ f.base + sigframeSize ≤ vmmUserEnd
  holds : ∀ f ∈ σ.saved, Holds σ.mem f
  nested : σ.saved.Pairwise fun f g => f.frame.esp.toNat ≤ g.base
  onStack : σ.OnStack σ.task.frame.esp

theorem mem_frameBytes (h : f.base + sigframeSize ≤ vmmUserEnd) :
    a ∈ frameBytes f ↔ f.base ≤ a ∧ a < f.base + sigframeSize :=
  mem_userBytes_of_le (h.trans (by decide))

/-- A frame stays in memory if its bytes do. -/
theorem Holds.congr (h : Holds m f) (hf : f.base + sigframeSize ≤ vmmUserEnd)
    (same : ∀ a ∈ frameBytes f, m' a = m a) : Holds m' f := by
  obtain ⟨sig, h⟩ := h
  refine ⟨sig, fun k v hk => ?_⟩
  have hlen : k < 15 := (List.getElem?_eq_some_iff.mp hk).1
  have hsmall : vmmUserEnd ≤ 2 ^ 32 := by decide
  have hsize : sigframeSize = 68 := rfl
  rw [← h k v hk]
  refine loadWord_congr (by omega) fun b hlo hhi => same b ?_
  rw [mem_frameBytes hf]
  omega

theorem FramesInv.user (h : FramesInv σ) (hkept : σ.FramesKept m) (hstack : σ.OnStack t.frame.esp) :
    FramesInv { σ with task := t, mem := m } :=
  ⟨h.inUser, fun f hf => (h.holds f hf).congr (h.inUser f hf).2 (hkept f hf), h.nested, hstack⟩

theorem sigframeBytes_length (base sig : Nat) (f : SyscallFrame) (blocked : BitVec 32) :
    (sigframeBytes base sig f blocked).length = sigframeSize := by
  rfl

/-- A new frame is in memory, and the others are not touched. -/
theorem FramesInv.push (h : FramesInv σ) (hroom : σ.task.HasRoom)
    (hwrap : σ.task.frame.esp.toNat < 4 ∨ sigframeSize ≤ σ.task.frame.esp.toNat) :
    FramesInv
      { task := (σ.task.entered σ.mem sig).1, mem := (σ.task.entered σ.mem sig).2, saved :=
        ⟨newUserEsp σ.task.frame.esp.toNat, σ.task.frame, σ.task.sigBlocked⟩ :: σ.saved } := by
  obtain ⟨hlo, hhi, hbelow⟩ := newUserEsp_inUser σ.task.frame.esp.isLt hwrap hroom
  unfold entered
  generalize newUserEsp σ.task.frame.esp.toNat = base at hlo hhi hbelow
  have hsmall : vmmUserEnd ≤ 2 ^ 32 := by decide
  have hsize : sigframeSize = 68 := rfl
  have hesp : (BitVec.ofNat 32 base).toNat = base := by
    rw [BitVec.toNat_ofNat, Nat.mod_eq_of_lt (by omega)]
  refine ⟨fun f hf => ?_, fun f hf => ?_, pairwise_cons.mpr ⟨h.onStack, h.nested⟩, fun f hf => ?_⟩
  · rcases mem_cons.mp hf with rfl | hf
    · exact ⟨hlo, hhi⟩
    · exact h.inUser f hf
  · rcases mem_cons.mp hf with rfl | hf
    · refine ⟨sig, fun k v hk => loadWord_storeBytes hk ?_⟩
      rw [show (sigframeWords base sig σ.task.frame σ.task.sigBlocked).length = 15 from rfl]
      omega
    · have habove := h.onStack f hf
      refine (h.holds f hf).congr (h.inUser f hf).2 fun a ha => ?_
      have hend := (h.inUser f hf).2
      rw [mem_frameBytes hend] at ha
      refine storeBytes_of_outside (by omega) ?_ (.inr ?_)
      · rw [sigframeBytes_length]
        omega
      · rw [sigframeBytes_length]
        omega
  · show (BitVec.ofNat 32 base).toNat ≤ f.base
    rw [hesp]
    rcases mem_cons.mp hf with rfl | hf
    · exact le_rfl
    · have habove := h.onStack f hf
      omega

/-- The return of the innermost handler reads its own frame. -/
theorem FramesInv.restored {rest : List SavedFrame} (h : FramesInv σ) (hsaved : σ.saved = f :: rest)
    (hkept : σ.FramesKept m) (hesp : t.frame.esp.toNat = (f.base + 4) % 2 ^ 32) :
    frameInRange (returnFrame t.frame.esp.toNat) = true ∧ Restored (t.restored m) f := by
  have hf : f ∈ σ.saved := by
    rw [hsaved]
    exact mem_cons_self
  obtain ⟨hlo, hhi⟩ := h.inUser f hf
  obtain ⟨sig, hwords⟩ := (h.holds f hf).congr hhi (hkept f hf)
  have hsmall : vmmUserEnd ≤ 2 ^ 31 := by decide
  have hbase : returnFrame t.frame.esp.toNat = f.base := by
    rw [hesp, returnFrame]
    omega
  have hforged : ∀ k v, (sigframeWords f.base sig f.frame f.sigBlocked)[k]? = some v →
      SigOp.forged t m (4 * k) = v := by
    intro k v hk
    rw [SigOp.forged, hbase]
    exact hwords k v hk
  refine ⟨?_, ?_, hforged 14 _ rfl⟩
  · rw [hbase, frameInRange_iff_of_le (by omega)]
    exact ⟨hlo, hhi⟩
  · unfold SigTask.restored
    rw [hforged 2 _ rfl, hforged 3 _ rfl, hforged 4 _ rfl, hforged 5 _ rfl, hforged 6 _ rfl,
      hforged 7 _ rfl, hforged 8 _ rfl, hforged 9 _ rfl, hforged 11 _ rfl, hforged 12 _ rfl]

theorem FramesInv.stackOk (h : FramesInv σ) : StackOk σ := by
  refine ⟨fun f rest t m hsaved hkept hesp => ?_, fun t m accessed hret a ha hlo hhi => ?_⟩
  · obtain ⟨hrange, hrestored⟩ := h.restored hsaved hkept hesp
    obtain ⟨accessed, hret⟩ := sysSigreturn_returns hrange m
    exact ⟨_, accessed, hret, hrestored⟩
  · rcases dispatch_returns hret with ⟨hnone, -, -⟩ | ⟨sig, hroom, -, haccessed⟩
    · rw [hnone] at ha
      cases ha
    rw [haccessed] at ha
    by_cases hwrap : σ.task.frame.esp.toNat < 4 ∨ sigframeSize ≤ σ.task.frame.esp.toNat
    · obtain ⟨-, hend, hbelow⟩ := newUserEsp_inUser σ.task.frame.esp.isLt hwrap hroom
      rw [mem_userBytes_of_le (by omega)] at ha
      omega
    · -- a frame that wraps around does not touch user memory
      rw [not_or, not_lt, not_le] at hwrap
      obtain ⟨hge, hlt⟩ := newUserEsp_wraps hwrap.1 hwrap.2
      obtain ⟨i, hi, rfl⟩ := mem_userBytes.mp ha
      unfold vmmUserStart vmmUserEnd sigframeSize at *
      omega

theorem FramesInv.step (h : FramesInv σ) (hstep : StepInRange σ σ') : FramesInv σ' := by
  obtain ⟨hstep, hwrap⟩ := hstep
  cases hstep with
  | user hkept hstack => exact h.user hkept hstack
  | @quiet t m hret =>
    rcases dispatch_returns hret with ⟨-, hframe, hmem⟩ | ⟨sig, -, -, haccessed⟩
    · have hm : m = σ.mem := hmem
      have hstack := h.onStack
      rw [← hframe] at hstack
      rw [hm]
      exact ⟨h.inUser, h.holds, h.nested, hstack⟩
    · exact absurd haccessed.symm (userBytes_ne_nil (by decide))
  | @push t m accessed hret hne =>
    rcases dispatch_returns hret with ⟨hnone, -, -⟩ | ⟨sig, hroom, hr, -⟩
    · exact absurd hnone hne
    · have ht : t = (σ.task.entered σ.mem sig).1 := congrArg fst hr
      have hm : m = (σ.task.entered σ.mem sig).2 := congrArg snd hr
      rw [ht, hm]
      exact h.push hroom (hwrap rfl)
  | @sigreturn f rest t t' m accessed hsaved hkept hesp hret =>
    obtain ⟨hrange, hregs, -⟩ := h.restored hsaved hkept hesp
    have ht' := (sysSigreturn_restored hret).2
    have hmem : ∀ g ∈ rest, g ∈ σ.saved := fun g hg => by
      rw [hsaved]
      exact mem_cons_of_mem f hg
    have hnested := h.nested
    rw [hsaved, pairwise_cons] at hnested
    refine ⟨fun g hg => h.inUser g (hmem g hg), fun g hg => ?_, hnested.2, fun g hg => ?_⟩
    · exact (h.holds g (hmem g hg)).congr (h.inUser g (hmem g hg)).2 (hkept g (hmem g hg))
    · rw [ht', hregs]
      exact hnested.1 g hg

/-- A task about to return from a system call, with a pending signal that it catches. -/
def oneSignalAt (esp : BitVec 32) : Handlers :=
  { task := .oneSignal esp, mem := fun _ => 0, saved := [] }

theorem oneSignalAt_push (esp : BitVec 32) (m : Mem) (saved : List SavedFrame)
    (hroom : (oneSignal esp).HasRoom) :
    Step { task := .oneSignal esp, mem := m, saved }
      { task := ((oneSignal esp).entered m 1).1
        mem := ((oneSignal esp).entered m 1).2
        saved := ⟨newUserEsp esp.toNat, (oneSignal esp).frame, 0⟩ :: saved } :=
  .push (dispatch_pushes (oneSignal_nextSignal esp) (oneSignal_caught esp)
    hroom m) (userBytes_ne_nil (by decide))

end Handlers

end Stos.Kernel
