import Mathlib.Data.List.Induction

/- Synchronous machines: one transition per clock edge, driven by a list of
   inputs. A cycle is the register state before the edge and the input seen in it. -/
namespace Clocked
variable {σ τ ι κ γ : Type*}

def run (step : σ → ι → σ) (s : σ) (ins : List ι) : σ := ins.foldl step s

def trace (step : σ → ι → σ) (s : σ) : List ι → List (σ × ι)
  | [] => []
  | i :: ins => (s, i) :: trace step (step s i) ins

/-- The states of all cycles of a run and the state it stops in. -/
def states (step : σ → ι → σ) (s : σ) : List ι → List σ
  | [] => [s]
  | i :: ins => s :: states step (step s i) ins

@[simp] theorem run_nil (step : σ → ι → σ) (s : σ) : run step s [] = s := rfl

@[simp] theorem run_cons (step : σ → ι → σ) (s : σ) (i : ι) (ins : List ι) :
    run step s (i :: ins) = run step (step s i) ins := rfl

@[simp] theorem run_append (step : σ → ι → σ) (s : σ) (xs ys : List ι) :
    run step s (xs ++ ys) = run step (run step s xs) ys := by
  simp [run]

theorem run_snoc (step : σ → ι → σ) (s : σ) (xs : List ι) (i : ι) :
    run step s (xs ++ [i]) = step (run step s xs) i := by
  simp

@[simp] theorem trace_nil (step : σ → ι → σ) (s : σ) : trace step s [] = [] := rfl

@[simp] theorem trace_cons (step : σ → ι → σ) (s : σ) (i : ι) (ins : List ι) :
    trace step s (i :: ins) = (s, i) :: trace step (step s i) ins := rfl

@[simp] theorem trace_append (step : σ → ι → σ) (s : σ) (xs ys : List ι) :
    trace step s (xs ++ ys) = trace step s xs ++ trace step (run step s xs) ys := by
  induction xs generalizing s with
  | nil => rfl
  | cons i xs ih => simp [ih]

@[simp] theorem states_nil (step : σ → ι → σ) (s : σ) : states step s [] = [s] := rfl

theorem states_snoc (step : σ → ι → σ) (s : σ) (xs : List ι) (i : ι) :
    states step s (xs ++ [i]) = states step s xs ++ [step (run step s xs) i] := by
  induction xs generalizing s with
  | nil => rfl
  | cons x xs ih => simp [states, ih]

theorem mem_states {step : σ → ι → σ} {s t : σ} {ins : List ι} :
    t ∈ states step s ins ↔ ∃ pre post, ins = pre ++ post ∧ t = run step s pre := by
  induction ins generalizing s with
  | nil => simp
  | cons i ins ih =>
    constructor
    · intro member
      rcases List.mem_cons.mp member with here | later
      · exact ⟨[], i :: ins, rfl, here⟩
      · obtain ⟨pre, post, rfl, state⟩ := ih.mp later
        exact ⟨i :: pre, post, rfl, state⟩
    · rintro ⟨pre, post, eq, state⟩
      cases pre with
      | nil => exact List.mem_cons.mpr (Or.inl state)
      | cons j pre =>
        obtain ⟨rfl, rfl⟩ := List.cons.inj eq
        exact List.mem_cons_of_mem _ (ih.mpr ⟨pre, post, rfl, state⟩)

theorem mem_trace {step : σ → ι → σ} {s : σ} {ins : List ι} {c : σ × ι} :
    c ∈ trace step s ins ↔ ∃ pre post, ins = pre ++ c.2 :: post ∧ c.1 = run step s pre := by
  induction ins generalizing s with
  | nil => simp
  | cons i ins ih =>
    constructor
    · intro member
      rcases List.mem_cons.mp member with here | later
      · subst c
        exact ⟨[], ins, rfl, rfl⟩
      · obtain ⟨pre, post, eq, state⟩ := ih.mp later
        exact ⟨i :: pre, post, by simp [eq], state⟩
    · rintro ⟨pre, post, eq, state⟩
      cases pre with
      | nil =>
        obtain ⟨rfl, rfl⟩ := List.cons.inj eq
        exact List.mem_cons.mpr (Or.inl (Prod.ext state rfl))
      | cons j pre =>
        obtain ⟨rfl, rfl⟩ := List.cons.inj eq
        exact List.mem_cons_of_mem _ (ih.mpr ⟨pre, post, rfl, state⟩)

theorem run_invariant {step : σ → ι → σ} {P : σ → Prop} {s : σ} (first : P s)
    (next : ∀ s i, P s → P (step s i)) (ins : List ι) : P (run step s ins) := by
  induction ins generalizing s with
  | nil => exact first
  | cons i ins ih => exact ih (next s i first)

/-- Two runs that share part of their inputs look alike through `view` as long as every step
    from a state in `P` keeps them alike. -/
theorem states_alike {step : σ → ι → σ} {view : σ → τ} {share : ι → κ} {P : σ → Prop}
    (next : ∀ a b i j, view a = view b → P a → share i = share j →
      view (step a i) = view (step b j)) (as : List ι) :
    ∀ bs a b, as.map share = bs.map share → view a = view b →
      (∀ c ∈ trace step a as, P c.1) →
        (states step a as).map view = (states step b bs).map view := by
  induction as with
  | nil =>
    intro bs a b shared same _
    rw [List.map_nil] at shared
    rw [List.map_eq_nil_iff.mp shared.symm]
    simp [same]
  | cons i as ih =>
    intro bs a b shared same inside
    cases bs with
    | nil => simp at shared
    | cons j bs =>
      obtain ⟨first, later⟩ := List.cons.inj shared
      have step := next a b i j same (inside (a, i) (by simp)) first
      have rest := ih bs _ _ later step fun c member => inside c (by simp [member])
      simp only [states, List.map_cons, same, rest]

/- A monitor reads each cycle into a state of its own. `allow` is what it
   expects of the environment in that cycle. -/
structure Monitor (σ ι γ : Type*) where
  next : γ → σ → ι → γ
  allow : γ → σ → ι → Prop

namespace Monitor
variable (m : Monitor σ ι γ) (step : σ → ι → σ)

/-- The monitored machine: the register state next to the monitor's own. -/
def product (p : σ × γ) (i : ι) : σ × γ := (step p.1 i, m.next p.2 p.1 i)

def watch (g : γ) (s : σ) (ins : List ι) : γ := (run (m.product step) (s, g) ins).2

def Allows (g : γ) (s : σ) : List ι → Prop
  | [] => True
  | i :: ins => m.allow g s i ∧ Allows (m.next g s i) (step s i) ins

instance decidableAllows [∀ g s i, Decidable (m.allow g s i)] :
    ∀ (g : γ) (s : σ) (ins : List ι), Decidable (m.Allows step g s ins)
  | _, _, [] => inferInstanceAs (Decidable True)
  | g, s, i :: ins =>
    have := decidableAllows (m.next g s i) (step s i) ins
    inferInstanceAs (Decidable (_ ∧ _))

@[simp] theorem watch_nil (g : γ) (s : σ) : m.watch step g s [] = g := rfl

@[simp] theorem watch_cons (g : γ) (s : σ) (i : ι) (ins : List ι) :
    m.watch step g s (i :: ins) = m.watch step (m.next g s i) (step s i) ins := rfl

@[simp] theorem watch_append (g : γ) (s : σ) (xs ys : List ι) :
    m.watch step g s (xs ++ ys) =
      m.watch step (m.watch step g s xs) (run step s xs) ys := by
  induction xs generalizing g s with
  | nil => rfl
  | cons i xs ih => exact ih (m.next g s i) (step s i)

theorem allows_append (g : γ) (s : σ) (xs ys : List ι) :
    m.Allows step g s (xs ++ ys) ↔ m.Allows step g s xs ∧
      m.Allows step (m.watch step g s xs) (run step s xs) ys := by
  induction xs generalizing g s with
  | nil => simp [Allows]
  | cons i xs ih => simp [Allows, ih, and_assoc]

theorem allows_at {g : γ} {s : σ} {pre post : List ι} {i : ι}
    (ok : m.Allows step g s (pre ++ i :: post)) :
    m.allow (m.watch step g s pre) (run step s pre) i :=
  ((m.allows_append step g s pre (i :: post)).mp ok).2.1

theorem allows_left {g : γ} {s : σ} {pre post : List ι}
    (ok : m.Allows step g s (pre ++ post)) : m.Allows step g s pre :=
  ((m.allows_append step g s pre post).mp ok).1

theorem allows_invariant {P : σ → γ → Prop} {s : σ} {g : γ} {ins : List ι} (first : P s g)
    (next : ∀ s g i, P s g → m.allow g s i → P (step s i) (m.next g s i))
    (ok : m.Allows step g s ins) : P (run step s ins) (m.watch step g s ins) := by
  induction ins generalizing s g with
  | nil => exact first
  | cons i ins ih => exact ih (next s g i first ok.1) ok.2

/-- A second monitor may look on: what it records is part of the invariant too. -/
theorem allows_invariant_beside (m' : Monitor σ ι κ) {P : σ → γ → κ → Prop} {s : σ} {g : γ}
    {g' : κ} {ins : List ι} (first : P s g g')
    (next : ∀ s g g' i, P s g g' → m.allow g s i → P (step s i) (m.next g s i) (m'.next g' s i))
    (ok : m.Allows step g s ins) :
    P (run step s ins) (m.watch step g s ins) (m'.watch step g' s ins) := by
  induction ins generalizing s g g' with
  | nil => exact first
  | cons i ins ih => exact ih (next s g g' i first ok.1) ok.2

theorem watch_invariant {P : σ → γ → Prop} {s : σ} {g : γ} (first : P s g)
    (next : ∀ s g i, P s g → P (step s i) (m.next g s i)) (ins : List ι) :
    P (run step s ins) (m.watch step g s ins) := by
  induction ins generalizing s g with
  | nil => exact first
  | cons i ins ih => exact ih (next s g i first)

theorem watch_invariant_beside (m' : Monitor σ ι κ) {P : σ → γ → κ → Prop} {s : σ} {g : γ}
    {g' : κ} (first : P s g g')
    (next : ∀ s g g' i, P s g g' → P (step s i) (m.next g s i) (m'.next g' s i))
    (ins : List ι) : P (run step s ins) (m.watch step g s ins) (m'.watch step g' s ins) := by
  induction ins generalizing s g g' with
  | nil => exact first
  | cons i ins ih => exact ih (next s g g' i first)

/-- A monitor of a component, placed in the machine that contains it. -/
def comap (m : Monitor τ κ γ) (f : σ → τ) (g : σ → ι → κ) : Monitor σ ι γ where
  next c s i := m.next c (f s) (g s i)
  allow c s i := m.allow c (f s) (g s i)

end Monitor

/- A component inside a larger machine: `f` picks its state, `wire` its inputs. -/
section Component
variable {step : σ → ι → σ} {stepC : τ → κ → τ} {f : σ → τ} {wire : σ → ι → κ}

def inputs (step : σ → ι → σ) (wire : σ → ι → κ) (s : σ) (ins : List ι) : List κ :=
  (trace step s ins).map fun c => wire c.1 c.2

theorem run_component (wired : ∀ s i, f (step s i) = stepC (f s) (wire s i)) (s : σ)
    (ins : List ι) : f (run step s ins) = run stepC (f s) (inputs step wire s ins) := by
  induction ins generalizing s with
  | nil => rfl
  | cons i ins ih =>
    rw [run_cons, ih, wired]
    rfl

theorem trace_component (wired : ∀ s i, f (step s i) = stepC (f s) (wire s i)) (s : σ)
    (ins : List ι) : trace stepC (f s) (inputs step wire s ins) =
      (trace step s ins).map fun c => (f c.1, wire c.1 c.2) := by
  induction ins generalizing s with
  | nil => rfl
  | cons i ins ih =>
    rw [trace_cons, List.map_cons, ← ih, wired]
    rfl

theorem states_component (wired : ∀ s i, f (step s i) = stepC (f s) (wire s i)) (s : σ)
    (ins : List ι) :
    states stepC (f s) (inputs step wire s ins) = (states step s ins).map f := by
  induction ins generalizing s with
  | nil => rfl
  | cons i ins ih =>
    rw [states, List.map_cons, ← ih, wired]
    rfl

theorem watch_component (wired : ∀ s i, f (step s i) = stepC (f s) (wire s i))
    (m : Monitor τ κ γ) (g : γ) (s : σ) (ins : List ι) :
    (m.comap f wire).watch step g s ins = m.watch stepC g (f s) (inputs step wire s ins) := by
  induction ins generalizing g s with
  | nil => rfl
  | cons i ins ih =>
    rw [Monitor.watch_cons, ih, wired]
    rfl

/-- A split of what the component sees is a split of the run. -/
theorem inputs_split {s : σ} {ins : List ι} {xs ys : List κ}
    (eq : inputs step wire s ins = xs ++ ys) : ∃ pre post, ins = pre ++ post ∧
      inputs step wire s pre = xs ∧ inputs step wire (run step s pre) post = ys := by
  induction xs generalizing s ins with
  | nil => exact ⟨[], ins, rfl, rfl, eq⟩
  | cons x xs ih =>
    cases ins with
    | nil => simp [inputs] at eq
    | cons i ins =>
      obtain ⟨first, later⟩ := List.cons.inj eq
      obtain ⟨pre, post, rfl, front, back⟩ := ih (s := step s i) later
      refine ⟨i :: pre, post, rfl, ?_, back⟩
      rw [← first, ← front]
      rfl

end Component
end Clocked
