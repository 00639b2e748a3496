import Mathlib.Algebra.Order.BigOperators.Ring.Finset
import Mathlib.Algebra.Order.Floor.Ring
import Mathlib.Algebra.Order.Group.MinMax
import Mathlib.Tactic.Linarith
import Mathlib.Tactic.Ring

/- Values that stand for others up to an error: what becomes of the error in a dot product and
   in a clipped value, and how far apart two values have to be to compare as what they stand
   for. -/
namespace Nearby
variable {α : Type*} [CommRing α] [LinearOrder α]

/-- `y` stands for `x` with an error of at most `e`. -/
def Near (e x y : α) : Prop := |y - x| ≤ e

theorem near_mono {e d x y : α} (h : Near e x y) (le : e ≤ d) : Near d x y := le_trans h le

variable [IsStrictOrderedRing α]

section Errors
variable {e d x y u v z : α}

theorem near_iff : Near e x y ↔ x - e ≤ y ∧ y ≤ x + e := by
  unfold Near
  rw [abs_le]
  constructor
  · rintro ⟨low, high⟩
    exact ⟨by linarith, by linarith⟩
  · rintro ⟨low, high⟩
    exact ⟨by linarith, by linarith⟩

theorem near_trans (first : Near e x y) (second : Near d y z) : Near (e + d) x z := by
  rw [near_iff] at first second ⊢
  constructor
  · linarith
  · linarith

theorem near_add (h : Near e x y) (k : Near d u v) : Near (e + d) (x + u) (y + v) := by
  rw [near_iff] at h k ⊢
  constructor
  · linarith
  · linarith

theorem near_mul (h : Near e x y) (k : Near d u v) :
    Near (|y| * d + |u| * e) (x * u) (y * v) := by
  have split : y * v - x * u = y * (v - u) + u * (y - x) := by ring
  unfold Near
  calc
    |y * v - x * u| = |y * (v - u) + u * (y - x)| := by rw [split]
    _ ≤ |y * (v - u)| + |u * (y - x)| := abs_add_le _ _
    _ = |y| * |v - u| + |u| * |y - x| := by rw [abs_mul, abs_mul]
    _ ≤ |y| * d + |u| * e :=
      add_le_add (mul_le_mul_of_nonneg_left k (abs_nonneg y))
        (mul_le_mul_of_nonneg_left h (abs_nonneg u))

theorem near_clip (h : Near e x y) : Near e (max 0 x) (max 0 y) := by
  have closer := abs_max_sub_max_le_max 0 y 0 x
  rw [sub_self, abs_zero, max_eq_right (abs_nonneg (y - x))] at closer
  exact le_trans closer h

theorem near_order (h : Near e x y) (k : Near d u v) (apart : e + d < x - u) : v < y := by
  rw [near_iff] at h k
  linarith

end Errors

section Sums
variable {ι : Type*} [Fintype ι] {e d x y u v : ι → α}

theorem near_sum (h : ∀ i, Near (e i) (x i) (y i)) : Near (∑ i, e i) (∑ i, x i) (∑ i, y i) := by
  unfold Near
  rw [← Finset.sum_sub_distrib]
  exact le_trans (Finset.abs_sum_le_sum_abs _ _) (Finset.sum_le_sum fun i _ => h i)

theorem near_dot (h : ∀ i, Near (e i) (x i) (y i)) (k : ∀ i, Near (d i) (u i) (v i)) :
    Near (∑ i, (|y i| * d i + |u i| * e i)) (∑ i, x i * u i) (∑ i, y i * v i) :=
  near_sum fun i => near_mul (h i) (k i)

/-- With one error for each side and a bound on one of them. -/
theorem near_dot_bounded {e d m : α} (h : ∀ i, Near e (x i) (y i)) (k : ∀ i, Near d (u i) (v i))
    (bound : ∀ i, |u i| ≤ m) :
    Near ((∑ i, |y i|) * d + Fintype.card ι * (m * e)) (∑ i, x i * u i) (∑ i, y i * v i) := by
  apply near_mono (near_dot h k)
  calc
    ∑ i, (|y i| * d + |u i| * e) ≤ ∑ i, (|y i| * d + m * e) := by
      apply Finset.sum_le_sum
      intro i _
      have nonneg : 0 ≤ e := le_trans (abs_nonneg _) (h i)
      exact add_le_add_right (mul_le_mul_of_nonneg_right (bound i) nonneg) _
    _ = (∑ i, |y i|) * d + Fintype.card ι * (m * e) := by
      rw [Finset.sum_add_distrib, ← Finset.sum_mul, Finset.sum_const, Finset.card_univ,
        nsmul_eq_mul]

end Sums

section Truncation
variable [FloorRing α]

/-- The integer part, without the digits behind the point. -/
def towardZero (x : α) : ℤ := if 0 ≤ x then ⌊x⌋ else ⌈x⌉

theorem towardZero_near (x : α) : Near 1 x (towardZero x : α) := by
  have below := Int.floor_le x
  have next := Int.lt_floor_add_one x
  have above := Int.le_ceil x
  have last := Int.ceil_lt_add_one x
  unfold towardZero
  rw [near_iff]
  split
  · exact ⟨by linarith, by linarith⟩
  · exact ⟨by linarith, by linarith⟩

theorem towardZero_inside {x : α} {n : ℤ} (low : 0 ≤ x) (high : x ≤ n) :
    0 ≤ towardZero x ∧ towardZero x ≤ n := by
  unfold towardZero
  rw [if_pos low]
  exact ⟨Int.floor_nonneg.mpr low, Int.floor_le_iff.mpr (lt_of_le_of_lt high (by simp))⟩

theorem towardZero_lt {x : α} {n : ℤ} (inside : |x| < n) :
    -n < towardZero x ∧ towardZero x < n := by
  obtain ⟨low, high⟩ := abs_lt.mp inside
  unfold towardZero
  split
  · rename_i pos
    have nonneg := Int.floor_nonneg.mpr pos
    have less := Int.floor_lt.mpr high
    constructor
    · omega
    · exact less
  · rename_i neg
    have nonpos : ⌈x⌉ ≤ 0 := Int.ceil_le.mpr (by simpa using le_of_lt (not_le.mp neg))
    have more : -n < ⌈x⌉ := Int.lt_ceil.mpr (by simpa using low)
    constructor
    · exact more
    · omega

end Truncation

end Nearby
