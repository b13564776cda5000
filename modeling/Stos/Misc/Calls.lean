import Mathlib

/-!
# Sequences of calls

A system that answers calls one after another: the answers and the state at the end, a condition that every
call meets in the state in which it is made, and the rules for invariants and for refinement of one system
by another.
-/

namespace Stos.Calls

variable {σ τ ι β : Type*}

/-- The answers to a sequence of calls, and the state after them. -/
def run (step : ι → σ → β × σ) : List ι → σ → List β × σ
  | [], s => ([], s)
  | c :: cs, s => ((step c s).1 :: (run step cs (step c s).2).1, (run step cs (step c s).2).2)

/-- Every call meets the condition in the state in which it is made. -/
def Along (step : ι → σ → β × σ) (P : ι → σ → Prop) : List ι → σ → Prop
  | [], _ => True
  | c :: cs, s => P c s ∧ Along step P cs (step c s).2

variable {step : ι → σ → β × σ} {P Q : ι → σ → Prop} {cs : List ι} {s : σ}

/-- What every call keeps holds at the end. -/
theorem run_inv {Inv : σ → Prop} (keep : ∀ c s, Inv s → P c s → Inv (step c s).2) (h : Along step P cs s)
    (start : Inv s) : Inv (run step cs s).2 := by
  induction cs generalizing s with
  | nil => exact start
  | cons c cs ih => exact ih h.2 (keep c s start h.1)

theorem along_of_forall (h : ∀ c s, P c s) (cs : List ι) (s : σ) : Along step P cs s := by
  induction cs generalizing s with
  | nil => trivial
  | cons c cs ih => exact ⟨h c s, ih _⟩

/-- If each call gives the same answer in related states and leads to related states, so do all calls. -/
theorem run_refines (spec : ι → τ → β × τ) {R : σ → τ → Prop}
    (sim : ∀ c s t, R s t → P c s → (step c s).1 = (spec c t).1 ∧ R (step c s).2 (spec c t).2)
    (h : Along step P cs s) {t : τ} (start : R s t) :
    (run step cs s).1 = (run spec cs t).1 ∧ R (run step cs s).2 (run spec cs t).2 := by
  induction cs generalizing s t with
  | nil => exact ⟨rfl, start⟩
  | cons c cs ih =>
    obtain ⟨hanswer, hrel⟩ := sim c s t start h.1
    obtain ⟨hanswers, hend⟩ := ih h.2 hrel
    exact ⟨congrArg₂ List.cons hanswer hanswers, hend⟩

end Stos.Calls
