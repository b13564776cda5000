import Stos.Libc.Sbrk
import Stos.Kernel.Proofs.Brk

/-!
# `sbrk` and the break of the kernel

Whatever the machine is like, a request inside the heap either moves the break of the kernel
and returns the new one, or leaves it and returns the old one. Requests outside the heap are
answered with 0 or an error number, which `sbrk` takes for a new break.
-/

namespace Stos.Libc

open Stos.Kernel Machine Int

variable {addr : Nat}

/-- `sys_brk` on an address of the heap. -/
theorem sysBrk_inHeap (s : Machine) (h : TaskHeap) (hpos : addr ≠ 0) (hstart : h.heapStart ≤ addr)
    (hmax : addr ≤ h.heapMax) : (∃ s', s.sysBrk h addr = ((h.heapEnd : Int), s', h)) ∨
      ∃ s', s.sysBrk h addr = ((addr : Int), s', { h with heapEnd := addr }) := by
  unfold sysBrk
  rw [if_neg hpos, if_neg (not_lt.mpr hstart), if_neg (not_lt.mpr hmax)]
  dsimp only
  split
  · exact .inl ⟨s, rfl⟩
  split
  · split
    · next s' _ => exact .inl ⟨s', rfl⟩
    · next s' _ => exact .inr ⟨s', rfl⟩
  · exact .inr ⟨_, rfl⟩

namespace Process

variable {σ : Process} {increment : Int} {r : Nat × Process}

/-- What the library knows is the break of the kernel. -/
structure Known (σ : Process) : Prop where
  heap : σ.heap.Ok
  current : σ.brkInitialized = true → σ.currentBrk = σ.heap.heapEnd

theorem Fresh.known (h : σ.Fresh) : σ.Known :=
  ⟨h.heap, fun hi => by rw [h.notInitialized] at hi; cases hi⟩

theorem brk_zero (σ : Process) : σ.brk 0 = (σ.heap.heapEnd, σ) := by
  have hneg : ¬ (σ.heap.heapEnd : Int) < 0 := by omega
  unfold brk sysBrk
  simp only [if_true, if_neg hneg, toNat_natCast]

/-- The state after the break is known. -/
theorem Known.initBrk_eq (h : σ.Known) :
    σ.initBrk = { σ with currentBrk := σ.heap.heapEnd, brkInitialized := true } := by
  unfold initBrk
  cases hi : σ.brkInitialized with
  | false => simp [brk_zero]
  | true =>
    simp only [Bool.not_true, Bool.false_eq_true, if_false]
    rw [← h.current hi, ← hi]

/-- What `sbrk` makes of the answer `res` of the kernel. -/
theorem Known.sbrk_eq (h : σ.Known) (hne : increment ≠ 0) {result : Nat} {res : Int} {s' : Machine}
    {h' : TaskHeap} (haddr : ((σ.heap.heapEnd + increment) % 2 ^ 32).toNat = addr)
    (run : σ.machine.sysBrk σ.heap addr = (res, s', h'))
    (hres : (if res < 0 then failed else res.toNat) = result) : σ.sbrk increment =
      if result = σ.heap.heapEnd then (failed, ⟨s', h', σ.heap.heapEnd, true⟩)
      else (σ.heap.heapEnd, ⟨s', h', result, true⟩) := by
  subst hres
  unfold sbrk brk
  simp only [h.initBrk_eq, haddr, run, ne_eq, hne, not_false_eq_true, and_true, if_false]

/-- The ways a call of `sbrk` can end. -/
inductive SbrkEnd (σ : Process) (increment : Int) : Nat × Process → Prop where
  /-- the question for the break -/
  | asked (h : increment = 0) :
      SbrkEnd σ increment
        (σ.heap.heapEnd, { σ with currentBrk := σ.heap.heapEnd, brkInitialized := true })
  /-- the kernel has not moved the break and returned the old one -/
  | refused {machine} (hne : increment ≠ 0) (h : σ.BreakInHeap increment) :
      SbrkEnd σ increment
        (failed, ⟨machine, σ.heap, σ.heap.heapEnd, true⟩)
  /-- the kernel has moved the break -/
  | moved {machine} {addr : Nat} (hne : increment ≠ 0) (hstart : σ.heap.heapStart ≤ addr)
      (hmax : addr ≤ σ.heap.heapMax) (haddr : (addr : Int) = σ.heap.heapEnd + increment) :
      SbrkEnd σ increment
        (σ.heap.heapEnd, ⟨machine, { σ.heap with heapEnd := addr }, addr, true⟩)
  /-- the kernel has answered with 0 or an error number -/
  | outside {current} (h : ¬ σ.BreakInHeap increment) (hne : current ≠ σ.heap.heapEnd) :
      SbrkEnd σ increment
        (σ.heap.heapEnd, { σ with currentBrk := current, brkInitialized := true })

theorem Known.sbrk_end (h : σ.Known) (low : -2 ^ 31 ≤ increment) (high : increment < 2 ^ 31) :
    SbrkEnd σ increment (σ.sbrk increment) := by
  have ok := h.heap
  have hse := ok.start_le
  have heu := ok.end_user
  have hmu := ok.max_user
  by_cases hzero : increment = 0
  · unfold sbrk
    rw [h.initBrk_eq, if_pos hzero]
    exact .asked hzero
  obtain ⟨addr, haddr⟩ : ∃ addr, ((σ.heap.heapEnd + increment) % 2 ^ 32).toNat = addr := ⟨_, rfl⟩
  have hneq : addr ≠ σ.heap.heapEnd := by omega
  by_cases hnull : addr = 0
  · -- the kernel takes the null pointer for a question
    have hrun : σ.machine.sysBrk σ.heap addr = ((σ.heap.heapEnd : Int), σ.machine, σ.heap) :=
      if_pos hnull
    rw [h.sbrk_eq hzero haddr hrun (if_neg (by omega)), if_pos (toNat_natCast _)]
    exact .refused hzero (.inr (.inl (by omega)))
  by_cases hstart : addr < σ.heap.heapStart
  · have hrun : σ.machine.sysBrk σ.heap addr = (0, σ.machine, σ.heap) := by
      unfold sysBrk
      rw [if_neg hnull, if_pos hstart]
    have hzeroEnd : (0 : Nat) ≠ σ.heap.heapEnd := by omega
    rw [h.sbrk_eq hzero haddr hrun (show (if (0 : Int) < 0 then failed else toNat 0) = 0 from rfl), if_neg hzeroEnd]
    refine .outside ?_ hzeroEnd
    unfold BreakInHeap
    omega
  by_cases hmax : addr > σ.heap.heapMax
  · have hrun : σ.machine.sysBrk σ.heap addr = (-12, σ.machine, σ.heap) := by
      unfold sysBrk
      rw [if_neg hnull, if_neg hstart, if_pos hmax]
    have hfailed : failed ≠ σ.heap.heapEnd := by
      unfold failed
      omega
    rw [h.sbrk_eq hzero haddr hrun (if_pos (by decide)), if_neg hfailed]
    refine .outside ?_ hfailed
    unfold BreakInHeap
    omega
  have hin : σ.BreakInHeap increment := by
    unfold BreakInHeap
    omega
  rcases sysBrk_inHeap σ.machine σ.heap hnull (not_lt.mp hstart) (not_lt.mp hmax) with
    ⟨s', hrun⟩ | ⟨s', hrun⟩
  · rw [h.sbrk_eq hzero haddr hrun (if_neg (by omega)), if_pos (toNat_natCast _)]
    exact .refused hzero hin
  · rw [h.sbrk_eq hzero haddr hrun (if_neg (by omega)), toNat_natCast, if_neg hneq]
    exact .moved hzero (not_lt.mp hstart) (not_lt.mp hmax) (by omega)

theorem SbrkEnd.known (e : SbrkEnd σ increment r) (h : σ.Known) (hin : σ.BreakInHeap increment) :
    r.2.Known := by
  cases e with
  | asked hzero => exact ⟨h.heap, fun _ => rfl⟩
  | refused hne _ => exact ⟨h.heap, fun _ => rfl⟩
  | moved hne hstart hmax haddr =>
    have ok := h.heap
    exact ⟨⟨ok.start_aligned, ok.max_aligned, ok.start_user, ok.max_user, hstart,
      le_trans hmax ok.max_user, .inr hmax⟩, fun _ => rfl⟩
  | outside hout _ => exact absurd hin hout

/-- The call has moved the break by the increment, or has failed and left it. -/
theorem SbrkEnd.heapEnd_eq (e : SbrkEnd σ increment r) (h : σ.Known) (hin : σ.BreakInHeap increment) :
    (r.2.heap.heapEnd : Int) = σ.heap.heapEnd + if r.1 ≠ failed then increment else 0 := by
  have hfailed : σ.heap.heapEnd ≠ failed := by
    have := h.heap.end_user
    unfold failed
    omega
  cases e with
  | asked hzero => simp [hzero]
  | refused hne _ => simp
  | moved hne hstart hmax haddr => simpa [hfailed] using haddr
  | outside hout _ => exact absurd hin hout

/-- A call keeps its promise exactly when the new break lies in the heap. -/
theorem SbrkEnd.contract_iff (e : SbrkEnd σ increment (σ.sbrk increment)) (h : σ.Known) :
    SbrkContract σ increment ↔ σ.BreakInHeap increment := by
  have hfailed : σ.heap.heapEnd ≠ failed := by
    have := h.heap.end_user
    unfold failed
    omega
  unfold SbrkContract Moved
  generalize σ.sbrk increment = r at e
  cases e with
  | asked hzero => simp [hzero, hfailed, BreakInHeap]
  | refused hne hin => simp [hne, hin]
  | moved hne hstart hmax haddr =>
    have hin : σ.BreakInHeap increment := .inr (.inr (by omega))
    simp [haddr, hfailed, hin]
  | outside hout hne =>
    simp [hout, hne]

end Process

/-! ## Runs -/

theorem movedBy_snoc (calls : List (Int × Nat)) (increment : Int) (result : Nat) :
    movedBy (calls ++ [(increment, result)]) =
      movedBy calls + if result ≠ failed then increment else 0 := by
  unfold movedBy
  by_cases hr : result = failed
  · simp [hr]
  · simp [hr]

theorem SbrkRun.known {σ0 σ : Process} {calls : List (Int × Nat)} (fresh : σ0.Fresh)
    (run : SbrkRun Process.BreakInHeap σ0 calls σ) :
    σ.Known ∧ (σ.heap.heapEnd : Int) = σ0.heap.heapEnd + movedBy calls := by
  induction run with
  | start => exact ⟨fresh.known, by simp [movedBy]⟩
  | call run low high hin ih =>
    obtain ⟨known, hend⟩ := ih
    have e := known.sbrk_end low high
    refine ⟨e.known known hin, ?_⟩
    rw [e.heapEnd_eq known hin, movedBy_snoc, hend]
    omega
  | other run machine ih => exact ⟨⟨ih.1.heap, ih.1.current⟩, ih.2⟩

/-- In every run of calls whose new breaks lie in the heap, with any memory left to the kernel,
the break has moved by the sum of the successful increments, the next call keeps its promise
exactly when its new break lies in the heap, and if it succeeds it returns the sum so far. -/
theorem sbrkRun_contract {σ₀ σ : Process} {calls : List (Int × Nat)} (fresh : σ₀.Fresh)
    (run : SbrkRun Process.BreakInHeap σ₀ calls σ) :
    (σ.heap.heapEnd : Int) = σ₀.heap.heapEnd + movedBy calls ∧
      ∀ increment, -2 ^ 31 ≤ increment → increment < 2 ^ 31 →
        (Process.SbrkContract σ increment ↔ σ.BreakInHeap increment) ∧
        (σ.BreakInHeap increment → (σ.sbrk increment).1 ≠ failed →
          ((σ.sbrk increment).1 : Int) = σ₀.heap.heapEnd + movedBy calls) := by
  obtain ⟨known, hend⟩ := run.known fresh
  refine ⟨hend, fun increment low high => ?_⟩
  have hiff := (known.sbrk_end low high).contract_iff known
  refine ⟨hiff, fun hin hne => ?_⟩
  rw [(hiff.mpr hin).2.1 hne, hend]

/-- A process with an empty heap on a small machine. -/
def freshProcess : Process := ⟨oneDirectory 2, emptyHeap, 0, false⟩

theorem freshProcess_fresh : freshProcess.Fresh := ⟨by constructor <;> decide, rfl⟩

/-- Asking for a page, and then for the break. -/
theorem sbrkRun_contract_onePage :
    SbrkRun Process.BreakInHeap freshProcess [(0x1000, (freshProcess.sbrk 0x1000).1)]
        (freshProcess.sbrk 0x1000).2 ∧
      Process.SbrkContract (freshProcess.sbrk 0x1000).2 0 := by
  have hin : freshProcess.BreakInHeap 0x1000 := .inr (.inr (by decide))
  have run : SbrkRun Process.BreakInHeap freshProcess [(0x1000, (freshProcess.sbrk 0x1000).1)]
      (freshProcess.sbrk 0x1000).2 := .call .start (by decide) (by decide) hin
  exact ⟨run, ((sbrkRun_contract freshProcess_fresh run).2 0 (by decide) (by decide)).1.mpr (.inl rfl)⟩

/-- Shrinking an empty heap, or growing it above its limit: the kernel does not move the break,
but `sbrk` returns the previous break and remembers 0 or -1 as the new one. -/
theorem sbrk_accepts_refusal :
    (freshProcess.sbrk (-0x1000)).1 = 0x400000 ∧ (freshProcess.sbrk (-0x1000)).2.currentBrk = 0 ∧
      (freshProcess.sbrk 0x200000).1 = 0x400000 ∧
      (freshProcess.sbrk 0x200000).2.currentBrk = failed ∧
      ¬ Process.SbrkContract freshProcess (-0x1000) ∧
      ¬ Process.SbrkContract freshProcess 0x200000 := by
  have hshrink : (freshProcess.sbrk (-0x1000)).2.currentBrk ≠
      (freshProcess.sbrk (-0x1000)).2.heap.heapEnd := by decide +kernel
  have hgrow : (freshProcess.sbrk 0x200000).2.currentBrk ≠
      (freshProcess.sbrk 0x200000).2.heap.heapEnd := by decide +kernel
  refine ⟨by decide +kernel, by decide +kernel, by decide +kernel, by decide +kernel,
    fun hc => hshrink hc.2.2, fun hc => hgrow hc.2.2⟩

end Stos.Libc
