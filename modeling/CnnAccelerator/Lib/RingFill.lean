import Mathlib.Data.List.Induction

/- A fixed bank of cells written by a wrapping index: the k-th item goes to cell
   k mod period, and an index past the bank is dropped. -/
namespace RingFill
variable {α : Type*} {n : ℕ}

def fillFrom (period : ℕ) (k : ℕ) (bank : Vector α n) : List α → Vector α n
  | [] => bank
  | x :: xs => fillFrom period (k + 1) (bank.setIfInBounds (k % period) x) xs

def fill (period : ℕ) (bank : Vector α n) (xs : List α) : Vector α n :=
  fillFrom period 0 bank xs

theorem fillFrom_snoc (period k : ℕ) (bank : Vector α n) (xs : List α) (x : α) :
    fillFrom period k bank (xs ++ [x]) =
      (fillFrom period k bank xs).setIfInBounds ((k + xs.length) % period) x := by
  induction xs generalizing k bank with
  | nil => rfl
  | cons y xs ih =>
    simp only [List.cons_append, fillFrom, ih, List.length_cons]
    rw [show k + 1 + xs.length = k + (xs.length + 1) by omega]

@[simp] theorem fill_nil (period : ℕ) (bank : Vector α n) : fill period bank [] = bank := rfl

theorem fill_snoc (period : ℕ) (bank : Vector α n) (xs : List α) (x : α) :
    fill period bank (xs ++ [x]) =
      (fill period bank xs).setIfInBounds (xs.length % period) x := by
  simpa [fill] using fillFrom_snoc period 0 bank xs x

/-- The newest item of a cell sits there: nothing later wrapped back onto it. -/
theorem fill_newest {period : ℕ} (bank : Vector α n) {xs : List α} {k : ℕ} (j : ℕ) (hj : j < n)
    (cell : k % period = j) (bound : k < xs.length) (newest : xs.length ≤ k + period) :
    (fill period bank xs)[j] = xs[k] := by
  induction xs using List.reverseRecOn with
  | nil => simp at bound
  | append_singleton xs x ih =>
    simp only [List.length_append, List.length_singleton] at bound newest
    simp only [fill_snoc, Vector.getElem_setIfInBounds]
    by_cases last : k = xs.length
    · subst last
      simp [cell]
    · have off : xs.length % period ≠ j := by
        intro same
        have apart : (xs.length - k) % period = 0 :=
          Nat.sub_mod_eq_zero_of_mod_eq (same.trans cell.symm)
        have small : xs.length - k < period := by omega
        rw [Nat.mod_eq_of_lt small] at apart
        omega
      rw [if_neg off, ih (by omega) (by omega), List.getElem_append_left (by omega)]

theorem fill_full (period : ℕ) (bank : Vector α n) (xs : List α) (len : xs.length = n)
    (wide : n ≤ period) (j : ℕ) (hj : j < n) :
    (fill period bank xs)[j] = xs[j] := by
  apply fill_newest bank j hj _ (by omega) (by omega)
  exact Nat.mod_eq_of_lt (by omega)

end RingFill
