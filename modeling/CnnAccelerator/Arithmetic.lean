import CnnAccelerator.ConvBlock
import CnnAccelerator.FullyConnectedLayer
import CnnAccelerator.Lib.Accumulate
import Mathlib.Tactic.Linarith

/- The two fixed-point loops against exact integer sums: `convFilter` and `neuron` accumulate
   in 32 bits and return bit 31 next to bits 22 to 8. -/
namespace CnnAccelerator
open Accumulate

/-- conv_res of the process conv_filter after `m` turns of its loop. -/
def convAcc (imageData : DataArray49bit) (m : ℕ) : DoubleFixedPoint :=
  loop convBias (fun i : Fin 49 => mulSigned (convWeights.get i) (imageData.get i)) m

/-- mult of the process in neuron after `m` turns of its loop. -/
def neuronAcc (data weight : DataArray16bit) (m : ℕ) : DoubleFixedPoint :=
  loop 0 (fun i : Fin 16 => mulSigned (weight.get i) (data.get i)) m

/- The exact values of both, turn by turn and as sums. -/

def convSum (imageData : DataArray49bit) (m : ℕ) : ℤ :=
  loop 0x0001DA4C (fun i : Fin 49 => (convWeights.get i).toInt * (imageData.get i).toInt) m

def neuronSum (data weight : DataArray16bit) (m : ℕ) : ℤ :=
  loop 0 (fun i : Fin 16 => (weight.get i).toInt * (data.get i).toInt) m

def convExact (imageData : DataArray49bit) : ℤ :=
  0x0001DA4C + ∑ i : Fin 49, (convWeights.get i).toInt * (imageData.get i).toInt

def neuronExact (data weight : DataArray16bit) : ℤ :=
  ∑ i : Fin 16, (weight.get i).toInt * (data.get i).toInt

theorem convSum_full (imageData : DataArray49bit) : convSum imageData 49 = convExact imageData :=
  loop_full _ _

theorem neuronSum_full (data weight : DataArray16bit) :
    neuronSum data weight 16 = neuronExact data weight := by
  unfold neuronSum neuronExact
  rw [loop_full, zero_add]

theorem convFilter_acc (imageData : DataArray49bit) :
    convFilter imageData = toFixedPoint (convAcc imageData 49) := by
  unfold convFilter convAcc
  rw [foldl_eq_loop]
  rfl

theorem neuron_acc (data weight : DataArray16bit) :
    neuron data weight = toFixedPoint (neuronAcc data weight 16) := by
  unfold neuron neuronAcc
  rw [foldl_eq_loop]
  rfl

theorem mulSigned_ofInt (a b : FixedPoint) :
    mulSigned a b = BitVec.ofInt 32 (a.toInt * b.toInt) := by
  unfold mulSigned
  rw [BitVec.ofInt_mul]
  rfl

theorem word_bounds (a : FixedPoint) : -32768 ≤ a.toInt ∧ a.toInt ≤ 32767 := by
  have lo := BitVec.le_toInt a
  have hi := BitVec.toInt_lt (x := a)
  omega

theorem word_ofInt {z : ℤ} (low : -32768 ≤ z) (high : z ≤ 32767) :
    (BitVec.ofInt 16 z).toInt = z := by
  rw [BitVec.toInt_ofInt]
  apply Int.bmod_eq_of_le_mul_two
  · omega
  · omega

theorem word_magnitude (a : FixedPoint) : |a.toInt| ≤ 32768 := by
  have word := word_bounds a
  rw [abs_le]
  omega

theorem convAcc_ofInt (imageData : DataArray49bit) (m : ℕ) :
    convAcc imageData m = BitVec.ofInt 32 (convSum imageData m) := by
  unfold convAcc convSum
  rw [← loop_ofInt]
  simp only [mulSigned_ofInt]
  rfl

theorem neuronAcc_ofInt (data weight : DataArray16bit) (m : ℕ) :
    neuronAcc data weight m = BitVec.ofInt 32 (neuronSum data weight m) := by
  unfold neuronAcc neuronSum
  rw [← loop_ofInt]
  simp only [mulSigned_ofInt]
  rfl

def Fits (z : ℤ) : Prop := -2 ^ 31 ≤ z ∧ z < 2 ^ 31

theorem ofInt_fits {z : ℤ} (fits : Fits z) : (BitVec.ofInt 32 z).toInt = z :=
  BitVec.toInt_ofInt_eq_self (by decide) fits.1 fits.2

/-- The values whose slice of bits 31 and 22 to 8 is the floor of the quotient by 256. -/
def FitsSlice (z : ℤ) : Prop := -2 ^ 23 ≤ z ∧ z < 2 ^ 23

theorem toFixedPoint_toInt (acc : DoubleFixedPoint) : (toFixedPoint acc).toInt =
    acc.toInt / 256 % 2 ^ 15 - if acc.toInt < 0 then 2 ^ 15 else 0 := by
  have bound := acc.isLt
  unfold toFixedPoint
  rw [BitVec.toInt_eq_toNat_cond, BitVec.toInt_eq_toNat_cond, BitVec.toNat_append,
    BitVec.extractLsb_toNat, BitVec.extractLsb_toNat, ← Nat.shiftLeft_add_eq_or_of_lt (by omega)]
  simp only [Nat.shiftRight_eq_div_pow, Nat.shiftLeft_eq]
  split <;> split <;> split <;> omega

theorem toFixedPoint_nonneg (acc : DoubleFixedPoint) :
    0 ≤ (toFixedPoint acc).toInt ↔ 0 ≤ acc.toInt := by
  rw [toFixedPoint_toInt]
  split <;> omega

theorem toFixedPoint_exact {acc : DoubleFixedPoint} (fits : FitsSlice acc.toInt) :
    (toFixedPoint acc).toInt = acc.toInt / 256 := by
  obtain ⟨lo, hi⟩ := fits
  rw [toFixedPoint_toInt]
  split <;> omega

theorem slice_exact_iff (z : ℤ) :
    (toFixedPoint (BitVec.ofInt 32 z)).toInt = z / 256 ↔ FitsSlice z := by
  constructor
  · intro exact
    have word := word_bounds (toFixedPoint (BitVec.ofInt 32 z))
    unfold FitsSlice
    omega
  · intro fits
    have same : (BitVec.ofInt 32 z).toInt = z := by
      unfold FitsSlice at fits
      exact ofInt_fits ⟨by omega, by omega⟩
    rw [toFixedPoint_exact (by rw [same]; exact fits), same]

theorem relu_toInt (data : FixedPoint) : (relu data).toInt = max 0 data.toInt := by
  unfold relu
  split
  · rename_i nonneg
    have pos : 0 ≤ data.toInt := BitVec.sle_iff_toInt_le.mp nonneg
    rw [max_eq_right pos]
  · rename_i less
    have neg : ¬ 0 ≤ data.toInt := fun pos => less (BitVec.sle_iff_toInt_le.mpr pos)
    rw [max_eq_left (by omega)]
    rfl

theorem convSum_fits (imageData : DataArray49bit) (m : ℕ) : Fits (convSum imageData m) := by
  have total : ∑ i : Fin 49, |(convWeights.get i).toInt| * 32768 = 142311424 := by decide +kernel
  have bounds := loop_bounds (0x0001DA4C : ℤ)
    (t := fun i : Fin 49 => (convWeights.get i).toInt * (imageData.get i).toInt)
    (u := fun i => -(|(convWeights.get i).toInt| * 32768))
    (v := fun i => |(convWeights.get i).toInt| * 32768)
    (fun i => product_magnitude _ (word_magnitude _))
    (fun i => ⟨by simp, by positivity⟩) m
  rw [Finset.sum_neg_distrib, total] at bounds
  unfold Fits convSum
  omega

theorem convAcc_toInt (imageData : DataArray49bit) (m : ℕ) :
    (convAcc imageData m).toInt = convSum imageData m := by
  rw [convAcc_ofInt]
  exact ofInt_fits (convSum_fits imageData m)

theorem convFilter_nonneg (imageData : DataArray49bit) :
    0 ≤ (convFilter imageData).toInt ↔ 0 ≤ convExact imageData := by
  rw [convFilter_acc, toFixedPoint_nonneg, convAcc_toInt, convSum_full]

theorem dot_products_exact_iff :
    (∀ data weight : DataArray16bit, (neuron data weight).toInt = neuronExact data weight / 256 ↔
      -2 ^ 23 ≤ neuronExact data weight ∧ neuronExact data weight < 2 ^ 23) ∧
    ∀ imageData : DataArray49bit,
      (∀ m ≤ 49, (convAcc imageData m).toInt = convSum imageData m) ∧
      (0 ≤ (convFilter imageData).toInt ↔ 0 ≤ convExact imageData) ∧
      ((convFilter imageData).toInt = convExact imageData / 256 ↔
        -2 ^ 23 ≤ convExact imageData ∧ convExact imageData < 2 ^ 23) ∧
      (convExact imageData < 0 → relu (convFilter imageData) = 0) := by
  constructor
  · intro data weight
    rw [neuron_acc, neuronAcc_ofInt, neuronSum_full]
    exact slice_exact_iff _
  · intro imageData
    refine ⟨fun m _ => convAcc_toInt imageData m, convFilter_nonneg imageData, ?_, ?_⟩
    · rw [convFilter_acc, convAcc_ofInt, convSum_full]
      exact slice_exact_iff _
    · intro neg
      have low : ¬ 0 ≤ (convFilter imageData).toInt := by
        rw [convFilter_nonneg]
        omega
      rw [BitVec.toInt_inj.symm, relu_toInt, max_eq_left (by omega)]
      rfl

end CnnAccelerator
