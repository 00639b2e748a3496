import Mathlib.Data.List.Induction
import Mathlib.Order.Lattice

/- A running maximum that keeps its incumbent only against smaller items: among equal
   items the last one wins. -/
namespace LastMax
variable {α β : Type*} [LinearOrder β] (key : α → β)

def keep (best x : α) : α := if key best ≤ key x then x else best

def lastMax (best : α) (xs : List α) : α := xs.foldl (keep key) best

@[simp] theorem lastMax_nil (best : α) : lastMax key best [] = best := rfl

theorem lastMax_snoc (best : α) (xs : List α) (x : α) :
    lastMax key best (xs ++ [x]) = keep key (lastMax key best xs) x := by
  simp [lastMax]

theorem lastMax_member (best : α) (xs : List α) : lastMax key best xs ∈ best :: xs := by
  induction xs using List.reverseRecOn with
  | nil => simp
  | append_singleton xs x ih =>
    rw [lastMax_snoc]
    unfold keep
    split
    · simp
    · rw [← List.cons_append]
      exact List.mem_append_left _ ih

theorem le_lastMax (best : α) (xs : List α) :
    ∀ x ∈ best :: xs, key x ≤ key (lastMax key best xs) := by
  induction xs using List.reverseRecOn with
  | nil => simp
  | append_singleton xs y ih =>
    intro x member
    rw [← List.cons_append] at member
    rw [lastMax_snoc]
    unfold keep
    split
    · rename_i le
      rcases List.mem_append.mp member with old | new
      · exact le_trans (ih x old) le
      · rw [List.mem_singleton.mp new]
    · rename_i less
      rcases List.mem_append.mp member with old | new
      · exact ih x old
      · rw [List.mem_singleton.mp new]
        exact le_of_lt (not_le.mp less)

/-- Everything after the item that wins is below it. -/
theorem lastMax_last (best : α) (xs : List α) : ∃ front back,
    best :: xs = front ++ lastMax key best xs :: back ∧
      ∀ x ∈ back, key x < key (lastMax key best xs) := by
  induction xs using List.reverseRecOn with
  | nil => exact ⟨[], [], rfl, by simp⟩
  | append_singleton xs y ih =>
    rw [lastMax_snoc]
    unfold keep
    split
    · exact ⟨best :: xs, [], rfl, by simp⟩
    · rename_i above
      obtain ⟨front, back, split, lower⟩ := ih
      refine ⟨front, back ++ [y], ?_, fun x member => ?_⟩
      · rw [← List.cons_append, split, List.append_assoc, List.cons_append]
      · rcases List.mem_append.mp member with old | new
        · exact lower x old
        · rw [List.mem_singleton.mp new]
          exact not_le.mp above

/-- An incumbent from outside matters only if it is above all items. -/
theorem lastMax_incumbent (best x : α) (xs : List α) : lastMax key best (x :: xs) =
    if key best ≤ key (lastMax key x xs) then lastMax key x xs else best := by
  induction xs using List.reverseRecOn with
  | nil => rfl
  | append_singleton xs y ih =>
    have grows : key (lastMax key x xs) ≤ key (keep key (lastMax key x xs) y) := by
      unfold keep
      split
      · assumption
      · exact le_refl _
    rw [← List.cons_append, lastMax_snoc, lastMax_snoc, ih]
    by_cases low : key best ≤ key (lastMax key x xs)
    · rw [if_pos low, if_pos (le_trans low grows)]
    · rw [if_neg low]
      have above := not_le.mp low
      unfold keep
      by_cases new : key best ≤ key y
      · rw [if_pos new, if_pos (le_trans (le_of_lt above) new), if_pos new]
      · rw [if_neg new]
        split <;> rfl

end LastMax
