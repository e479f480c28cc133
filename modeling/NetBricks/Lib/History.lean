import NetBricks.Lib.Machine

/-!
# Runs of a machine and what they have done so far

A rule for `runOps`, for machines whose steps come to an end: `runOps_ends` is for what relates
the state to all operations so far and their results.
-/

namespace NetBricks.Lib

open Outcome

variable {σ ι ρ : Type} {step : σ → ι → Outcome (ρ × σ)} {F : Fault → Prop}

/-- What relates the operations so far, each with its result, and the state is kept by a run if
it is by every step. -/
theorem runOps_ends {P : List (ι × ρ) → σ → Prop} {cond : ι → Prop}
    (hstep : ∀ past s i, P past s → cond i →
      Ends F (fun r => P (past ++ [(i, r.1)]) r.2) (step s i)) :
    ∀ (is : List ι) (past : List (ι × ρ)) {s : σ}, P past s → (∀ i ∈ is, cond i) →
      Ends F (fun r => r.1.length = is.length ∧ P (past ++ is.zip r.1) r.2)
        (runOps step s is) := by
  intro is
  induction is with
  | nil =>
    intro past s hP _
    refine ⟨rfl, ?_⟩
    rw [List.zip_nil_left, List.append_nil]
    exact hP
  | cons i is ih =>
    intro past s hP hc
    refine (hstep past s i hP (hc i List.mem_cons_self)).bind ?_
    rintro ⟨r, s₁⟩ hP₁
    refine (ih _ hP₁ fun j hj => hc j (List.mem_cons_of_mem i hj)).bind ?_
    rintro ⟨rs, s₂⟩ ⟨hlen, hP₂⟩
    refine ⟨congrArg Nat.succ hlen, ?_⟩
    rw [List.append_assoc] at hP₂
    exact hP₂

end NetBricks.Lib
