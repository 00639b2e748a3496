import CnnAccelerator.Lib.Clocked
import Mathlib.Data.Nat.Find

/- Endless runs of a synchronous machine and what they must reach. Fairness is a premise on
   the inputs, and a rank that cannot fall for ever is the reason for progress. -/
namespace Clocked
variable {σ τ ι κ : Type*}

def stateAt (step : σ → ι → σ) (s : σ) (env : ℕ → ι) : ℕ → σ
  | 0 => s
  | t + 1 => step (stateAt step s env t) (env t)

@[simp] theorem stateAt_zero (step : σ → ι → σ) (s : σ) (env : ℕ → ι) :
    stateAt step s env 0 = s := rfl

theorem stateAt_succ (step : σ → ι → σ) (s : σ) (env : ℕ → ι) (t : ℕ) :
    stateAt step s env (t + 1) = step (stateAt step s env t) (env t) := rfl

theorem stateAt_run (step : σ → ι → σ) (s : σ) (env : ℕ → ι) (t : ℕ) :
    stateAt step s env t = run step s ((List.range t).map env) := by
  induction t with
  | zero => rfl
  | succ t ih => simp [stateAt_succ, List.range_succ, ih]

theorem stateAt_component {step : σ → ι → σ} {stepC : τ → κ → τ} {f : σ → τ} {wire : σ → ι → κ}
    (wired : ∀ s i, f (step s i) = stepC (f s) (wire s i)) (s : σ) (env : ℕ → ι) (t : ℕ) :
    f (stateAt step s env t) =
      stateAt stepC (f s) (fun u => wire (stateAt step s env u) (env u)) t := by
  induction t with
  | zero => rfl
  | succ t ih => rw [stateAt_succ, stateAt_succ, wired, ih]

section Progress
variable {step : σ → ι → σ} {s : σ} {env : ℕ → ι}

/-- What only a helpful input can end is still there when one comes. -/
theorem helped {P : σ → Prop} {help : ι → Prop} (keeps : ∀ s i, P s → ¬ help i → P (step s i))
    {t : ℕ} (now : P (stateAt step s env t)) (fair : ∃ u, t ≤ u ∧ help (env u)) :
    ∃ u, t ≤ u ∧ P (stateAt step s env u) ∧ help (env u) := by
  obtain ⟨u, later, helps⟩ := fair
  induction h : u - t generalizing t with
  | zero =>
    obtain rfl : t = u := by omega
    exact ⟨t, later, now, helps⟩
  | succ d ih =>
    by_cases early : help (env t)
    · exact ⟨t, Nat.le_refl t, now, early⟩
    · obtain ⟨v, after, found⟩ := ih (t := t + 1) (keeps _ _ now early) (by omega) (by omega)
      exact ⟨v, by omega, found⟩

/-- `P n` holds at rank `n`, and from every rank the run gets to a lower one or to the goal. -/
theorem reaches_of_rank (goal : σ → Prop) {P : ℕ → σ → Prop}
    (falls : ∀ n t, P n (stateAt step s env t) → ∃ u, t ≤ u ∧
      (goal (stateAt step s env u) ∨ ∃ m < n, P m (stateAt step s env u)))
    {n t : ℕ} (now : P n (stateAt step s env t)) :
    ∃ u, t ≤ u ∧ goal (stateAt step s env u) := by
  induction n using Nat.strongRecOn generalizing t with
  | ind n ih =>
    obtain ⟨u, later, reached | ⟨m, lower, here⟩⟩ := falls n t now
    · exact ⟨u, later, reached⟩
    · obtain ⟨v, after, reached⟩ := ih m lower here
      exact ⟨v, Nat.le_trans later after, reached⟩

theorem first_reached (goal : σ → Prop) (reached : ∃ u, goal (stateAt step s env u)) :
    ∃ t, goal (stateAt step s env t) ∧ ∀ u < t, ¬ goal (stateAt step s env u) := by
  classical
  exact ⟨Nat.find reached, Nat.find_spec reached, fun u early => Nat.find_min reached early⟩

end Progress
end Clocked
