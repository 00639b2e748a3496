import Mathlib.Logic.Basic

/- A reader that takes a text one character at a time, and what it does on the pieces of a
   text that was printed one piece at a time. -/
namespace Scan
variable {σ χ α β : Type*} {next : σ → χ → Option σ}

/-- From `s` the reader accepts the text and is in `t`. -/
def Scans (next : σ → χ → Option σ) (s : σ) (text : List χ) (t : σ) : Prop :=
  text.foldlM next s = some t

theorem scans_nil (s : σ) : Scans next s [] s := rfl

theorem scans_cons {s t u : σ} {c : χ} {text : List χ} (first : next s c = some t)
    (later : Scans next t text u) : Scans next s (c :: text) u := by
  unfold Scans at later ⊢
  rw [List.foldlM_cons, first]
  exact later

theorem scans_append {s t u : σ} {xs ys : List χ} (first : Scans next s xs t)
    (later : Scans next t ys u) : Scans next s (xs ++ ys) u := by
  unfold Scans at first later ⊢
  rw [List.foldlM_append, first]
  exact later

theorem scans_collect (state : List χ → σ) {text : List χ}
    (collects : ∀ c ∈ text, ∀ front, next (state front) c = some (state (front ++ [c])))
    (front : List χ) : Scans next (state front) text (state (front ++ text)) := by
  induction text generalizing front with
  | nil => simp [scans_nil]
  | cons c text ih =>
    have rest := ih (fun d member => collects d (by simp [member])) (front ++ [c])
    rw [List.append_assoc] at rest
    exact scans_cons (collects c (by simp) front) rest

theorem scans_flatMap (state : List β → σ) (text : α → List χ) (value : α → List β)
    {xs : List α} (piece : ∀ x ∈ xs, ∀ read,
      Scans next (state read) (text x) (state (read ++ value x))) (read : List β) :
    Scans next (state read) (xs.flatMap text) (state (read ++ xs.flatMap value)) := by
  induction xs generalizing read with
  | nil => simp [scans_nil]
  | cons x xs ih =>
    have rest := ih (fun y member => piece y (by simp [member])) (read ++ value x)
    rw [List.append_assoc] at rest
    rw [List.flatMap_cons, List.flatMap_cons]
    exact scans_append (piece x (by simp) read) rest

end Scan
