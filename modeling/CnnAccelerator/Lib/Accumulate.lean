import Mathlib.Algebra.BigOperators.Fin
import Mathlib.Algebra.Order.BigOperators.Group.Finset
import Mathlib.Algebra.Order.BigOperators.Ring.Finset
import Mathlib.Algebra.BigOperators.Ring.Finset

/- Sums formed one term at a time in a register: the running value of the loop, bounds on it
   from bounds on the terms, and the two's complement register that holds it. -/
namespace Accumulate
variable {α β : Type*} {n w : ℕ}

/-- The register after the first `m` turns of a loop over `n` terms. -/
def loop [Add α] (z : α) (t : Fin n → α) : ℕ → α
  | 0 => z
  | m + 1 => if h : m < n then loop z t m + t ⟨m, h⟩ else loop z t m

theorem loop_succ [Add α] (z : α) (t : Fin n → α) (m : ℕ) (h : m < n) :
    loop z t (m + 1) = loop z t m + t ⟨m, h⟩ := by
  simp [loop, h]

theorem foldl_eq_loop [Add α] (z : α) (t : Fin n → α) :
    Fin.foldl n (fun acc i => acc + t i) z = loop z t n := by
  have turns : ∀ m (le : m ≤ n),
      Fin.foldl m (fun acc i => acc + t (i.castLE le)) z = loop z t m := by
    intro m
    induction m with
    | zero => intro le; rw [Fin.foldl_zero]; rfl
    | succ m ih =>
      intro le
      rw [Fin.foldl_succ_last, loop_succ z t m le, ← ih (Nat.le_of_lt le)]
      rfl
  exact turns n (Nat.le_refl n)

theorem loop_map [Add α] [Add β] (φ : α → β) (add : ∀ x y, φ (x + y) = φ x + φ y) (z : α)
    (t : Fin n → α) (m : ℕ) : φ (loop z t m) = loop (φ z) (fun i => φ (t i)) m := by
  induction m with
  | zero => rfl
  | succ m ih =>
    unfold loop
    split
    · rw [add, ih]
    · exact ih

theorem loop_eq_sum [AddCommMonoid α] (z : α) (t : Fin n → α) (m : ℕ) :
    loop z t m = z + ∑ i, if i.val < m then t i else 0 := by
  induction m with
  | zero => simp [loop]
  | succ m ih =>
    unfold loop
    split
    · rename_i h
      have last : ∀ i : Fin n, (if i.val < m + 1 then t i else 0) =
          (if i.val < m then t i else 0) + if i = ⟨m, h⟩ then t i else 0 := by
        intro i
        rcases Nat.lt_trichotomy i.val m with lt | eq | gt
        · rw [if_pos (by omega), if_pos lt, if_neg (by simp [Fin.ext_iff]; omega), add_zero]
        · rw [if_pos (by omega), if_neg (by omega), if_pos (by simp [Fin.ext_iff, eq]), zero_add]
        · rw [if_neg (by omega), if_neg (by omega), if_neg (by simp [Fin.ext_iff]; omega), add_zero]
      rw [ih, Finset.sum_congr rfl (fun i _ => last i), Finset.sum_add_distrib, add_assoc]
      simp
    · rename_i past
      rw [ih]
      congr 1
      apply Finset.sum_congr rfl
      intro i _
      rw [if_pos (by omega), if_pos (by omega)]

theorem loop_full [AddCommMonoid α] (z : α) (t : Fin n → α) :
    loop z t n = z + ∑ i, t i := by
  rw [loop_eq_sum]
  congr 1
  apply Finset.sum_congr rfl
  intro i _
  rw [if_pos i.isLt]

theorem loop_bounds [AddCommGroup α] [PartialOrder α] [IsOrderedAddMonoid α] (z : α)
    {t u v : Fin n → α} (term : ∀ i, u i ≤ t i ∧ t i ≤ v i) (zero : ∀ i, u i ≤ 0 ∧ 0 ≤ v i)
    (m : ℕ) : z + ∑ i, u i ≤ loop z t m ∧ loop z t m ≤ z + ∑ i, v i := by
  rw [loop_eq_sum]
  constructor
  · apply add_le_add_right
    apply Finset.sum_le_sum
    intro i _
    split
    · exact (term i).1
    · exact (zero i).1
  · apply add_le_add_right
    apply Finset.sum_le_sum
    intro i _
    split
    · exact (term i).2
    · exact (zero i).2

/- The same loop in a register of `w` bits. -/

theorem loop_ofInt (z : ℤ) (t : Fin n → ℤ) (m : ℕ) :
    loop (BitVec.ofInt w z) (fun i => BitVec.ofInt w (t i)) m = BitVec.ofInt w (loop z t m) := by
  rw [loop_map (BitVec.ofInt w) (fun x y => BitVec.ofInt_add x y)]

section Products
variable [Ring α] [LinearOrder α]

def positives (c : Fin n → α) : α := ∑ i, max (c i) 0

def negatives (c : Fin n → α) : α := ∑ i, max (-c i) 0

variable [IsStrictOrderedRing α]

theorem product_bounds (c : α) {x X : α} (lo : 0 ≤ x) (hi : x ≤ X) :
    -(max (-c) 0 * X) ≤ c * x ∧ c * x ≤ max c 0 * X := by
  have room : 0 ≤ X := le_trans lo hi
  rcases le_total 0 c with pos | neg
  · rw [max_eq_right (neg_nonpos.mpr pos), max_eq_left pos, zero_mul, neg_zero]
    exact ⟨mul_nonneg pos lo, mul_le_mul_of_nonneg_left hi pos⟩
  · rw [max_eq_left (neg_nonneg.mpr neg), max_eq_right neg, zero_mul, neg_mul, neg_neg]
    exact ⟨mul_le_mul_of_nonpos_left hi neg, mul_nonpos_of_nonpos_of_nonneg neg lo⟩

theorem dot_bounds (c : Fin n → α) {x : Fin n → α} {X : α} (inside : ∀ i, 0 ≤ x i ∧ x i ≤ X) :
    -(negatives c * X) ≤ ∑ i, c i * x i ∧ ∑ i, c i * x i ≤ positives c * X := by
  unfold negatives positives
  rw [Finset.sum_mul, Finset.sum_mul, ← Finset.sum_neg_distrib]
  constructor
  · apply Finset.sum_le_sum
    intro i _
    exact (product_bounds (c i) (inside i).1 (inside i).2).1
  · apply Finset.sum_le_sum
    intro i _
    exact (product_bounds (c i) (inside i).1 (inside i).2).2

theorem product_magnitude (c : α) {x X : α} (inside : |x| ≤ X) :
    -(|c| * X) ≤ c * x ∧ c * x ≤ |c| * X := by
  apply abs_le.mp
  rw [abs_mul]
  exact mul_le_mul_of_nonneg_left inside (abs_nonneg c)

end Products

/-- A dot product of rounded-down quotients: the sign of an entry decides which way its
    remainder pushes. -/
theorem dot_truncated (c x : Fin n → ℤ) {q : ℤ} (pos : 0 < q) :
    ∑ i, c i * x i - positives c * (q - 1) ≤ q * ∑ i, c i * (x i / q) ∧
      q * ∑ i, c i * (x i / q) ≤ ∑ i, c i * x i + negatives c * (q - 1) := by
  have parts : q * ∑ i, c i * (x i / q) = ∑ i, c i * x i - ∑ i, c i * (x i % q) := by
    rw [Finset.mul_sum, ← Finset.sum_sub_distrib]
    apply Finset.sum_congr rfl
    intro i _
    have whole : q * (x i / q) = x i - x i % q := by
      have split := Int.mul_ediv_add_emod (x i) q
      omega
    rw [← mul_sub, ← whole, mul_left_comm]
  have rests := dot_bounds c (x := fun i => x i % q) (X := q - 1) (fun i =>
    ⟨Int.emod_nonneg _ (by omega), by have := Int.emod_lt_of_pos (x i) pos; omega⟩)
  omega

end Accumulate
