import CnnAccelerator.Arithmetic
import CnnAccelerator.Net

/- Both layers on images of Q7.8 words from 0 to 256. The filter constants bound every
   feature by 3829, and that bound decides what the second layer can do. -/
namespace CnnAccelerator
open Accumulate

abbrev Image := Vector FixedPoint 784

def Pixels (image : Image) : Prop := ∀ i (hi : i < 784), 0 ≤ image[i].toInt ∧ image[i].toInt ≤ 256

def imageWindow (image : Image) (k : Fin 16) : DataArray49bit :=
  Vector.ofFn fun i => image.get ⟨49 * k + i, by omega⟩

theorem imageWindow_get (image : Image) (k : Fin 16) {i : ℕ} (hi : i < 49) :
    (imageWindow image k)[i] = image[49 * k.val + i] := by
  unfold imageWindow
  rw [Vector.getElem_ofFn]
  rfl

/-- What the positive and the negative entries of a weight row add up to. -/
structure RowFits (row : DataArray16bit) : Prop where
  positives : positives (fun k : Fin 16 => (row.get k).toInt) ≤ 2190
  negatives : negatives (fun k : Fin 16 => (row.get k).toInt) ≤ 2190

/-- nn_weights.c, row by row. -/
def nnWeights : DataMatrix := #v[
  #v[0xFED5, 0xFFE4, 0xFFDE, 0xFFEF, 0x004D, 0x003A, 0x0039, 0xFFEF,
    0x00B1, 0xFF32, 0x00C9, 0xFF09, 0xFF8A, 0x008D, 0xFFFC, 0xFF63],
  #v[0x0095, 0xFF60, 0xFFD6, 0x015F, 0xFF9B, 0x0005, 0xFF6F, 0xFFED,
    0xFF6C, 0x003E, 0xFE6C, 0x006D, 0x0034, 0xFFB8, 0xFFC7, 0x012A],
  #v[0xFFC3, 0x008C, 0xFFBA, 0xFE48, 0x0010, 0xFF9D, 0x0003, 0x0008,
    0x0095, 0x004E, 0x00B3, 0x0044, 0xFFE9, 0xFFE4, 0x0038, 0xFF0F]]

theorem nnWeights_fit (j : Fin 3) : RowFits (nnWeights.get j) := by
  match j with
  | 0 | 1 | 2 => exact ⟨by decide +kernel, by decide +kernel⟩

theorem slice_imageWindow (image : Image) (k : Fin 16) :
    slice 49 image.toList k = imageWindow image k := by
  ext i hi : 1
  have inside : 49 * k.val + i < 784 := by omega
  rw [imageWindow_get image k hi]
  simp [slice, inside]

theorem features_window (image : Image) (k : Fin 16) :
    (features image.toList).get k = feature (imageWindow image k) := by
  change (features image.toList)[k.val] = _
  unfold features
  rw [Vector.getElem_ofFn, slice_imageWindow]

theorem window_pixels {image : Image} (pixels : Pixels image) (k : Fin 16) (i : Fin 49) :
    0 ≤ ((imageWindow image k).get i).toInt ∧ ((imageWindow image k).get i).toInt ≤ 256 := by
  have word : (imageWindow image k).get i = image[49 * k.val + i] := imageWindow_get image k i.isLt
  rw [word]
  exact pixels (49 * k + i) (by omega)

theorem convSum_pixels {image : Image} (pixels : Pixels image) (k : Fin 16) (m : ℕ) :
    -131508 ≤ convSum (imageWindow image k) m ∧ convSum (imageWindow image k) m ≤ 980300 := by
  have up : ∑ i : Fin 49, max (convWeights.get i).toInt 0 * 256 = 858880 := by decide +kernel
  have down : ∑ i : Fin 49, max (-(convWeights.get i).toInt) 0 * 256 = 252928 := by decide +kernel
  have bounds := loop_bounds (0x0001DA4C : ℤ)
    (t := fun i : Fin 49 => (convWeights.get i).toInt * ((imageWindow image k).get i).toInt)
    (u := fun i => -(max (-(convWeights.get i).toInt) 0 * 256))
    (v := fun i => max (convWeights.get i).toInt 0 * 256)
    (fun i => product_bounds _ (window_pixels pixels k i).1 (window_pixels pixels k i).2)
    (fun i => ⟨by simp, by positivity⟩) m
  rw [Finset.sum_neg_distrib, up, down] at bounds
  unfold convSum
  omega

theorem convExact_pixels {image : Image} (pixels : Pixels image) (k : Fin 16) :
    -131508 ≤ convExact (imageWindow image k) ∧ convExact (imageWindow image k) ≤ 980300 := by
  rw [← convSum_full]
  exact convSum_pixels pixels k 49

theorem convFilter_pixels {image : Image} (pixels : Pixels image) (k : Fin 16) :
    (convFilter (imageWindow image k)).toInt = convExact (imageWindow image k) / 256 := by
  have bounds := convExact_pixels pixels k
  rw [convFilter_acc, convAcc_ofInt, convSum_full, slice_exact_iff]
  unfold FitsSlice
  omega

theorem feature_exact {image : Image} (pixels : Pixels image) (k : Fin 16) :
    ((features image.toList).get k).toInt = max 0 (convExact (imageWindow image k) / 256) := by
  rw [features_window]
  unfold feature
  rw [relu_toInt, convFilter_pixels pixels]

theorem feature_bounds {image : Image} (pixels : Pixels image) (k : Fin 16) :
    0 ≤ ((features image.toList).get k).toInt ∧ ((features image.toList).get k).toInt ≤ 3829 := by
  have bounds := convExact_pixels pixels k
  rw [feature_exact pixels]
  omega

theorem neuronSum_row {image : Image} {row : DataArray16bit} (pixels : Pixels image)
    (fits : RowFits row) (m : ℕ) : FitsSlice (neuronSum (features image.toList) row m) := by
  have bounds := loop_bounds (0 : ℤ)
    (t := fun k : Fin 16 => (row.get k).toInt * ((features image.toList).get k).toInt)
    (u := fun k => -(max (-(row.get k).toInt) 0 * 3829))
    (v := fun k => max (row.get k).toInt 0 * 3829)
    (fun k => product_bounds _ (feature_bounds pixels k).1 (feature_bounds pixels k).2)
    (fun k => ⟨by simp, by positivity⟩) m
  have up : ∑ k : Fin 16, max (row.get k).toInt 0 ≤ 2190 := fits.positives
  have down : ∑ k : Fin 16, max (-(row.get k).toInt) 0 ≤ 2190 := fits.negatives
  rw [Finset.sum_neg_distrib, ← Finset.sum_mul, ← Finset.sum_mul] at bounds
  unfold FitsSlice neuronSum
  omega

theorem FitsSlice.fits {z : ℤ} (h : FitsSlice z) : Fits z := by
  unfold FitsSlice at h
  unfold Fits
  omega

structure LayersExact (image : Image) (row : DataArray16bit) : Prop where
  convAcc : ∀ k : Fin 16, ∀ m ≤ 49,
    (convAcc (imageWindow image k) m).toInt = convSum (imageWindow image k) m
  convSlice : ∀ k : Fin 16,
    (convFilter (imageWindow image k)).toInt = convExact (imageWindow image k) / 256
  conv : ∀ k : Fin 16,
    ((features image.toList).get k).toInt = max 0 (convExact (imageWindow image k) / 256)
  neuronAcc : ∀ m ≤ 16, (neuronAcc (features image.toList) row m).toInt =
    neuronSum (features image.toList) row m
  score : (neuron (features image.toList) row).toInt =
    neuronExact (features image.toList) row / 256

theorem score_exact {image : Image} {row : DataArray16bit} (pixels : Pixels image)
    (fits : RowFits row) : (neuron (features image.toList) row).toInt =
      neuronExact (features image.toList) row / 256 := by
  rw [neuron_acc, neuronAcc_ofInt, neuronSum_full, slice_exact_iff, ← neuronSum_full]
  exact neuronSum_row pixels fits 16

theorem two_layers_exact : (∀ j : Fin 3, RowFits (nnWeights.get j)) ∧
    ∀ (image : Image) (row : DataArray16bit), Pixels image → RowFits row →
      LayersExact image row := by
  refine ⟨nnWeights_fit, fun image row pixels fits => ?_⟩
  exact {
    convAcc := fun k m _ => convAcc_toInt _ m
    convSlice := convFilter_pixels pixels
    conv := feature_exact pixels
    neuronAcc := by
      intro m _
      rw [neuronAcc_ofInt]
      exact ofInt_fits (neuronSum_row pixels fits m).fits
    score := score_exact pixels fits }

theorem white_pixels : Pixels (Vector.replicate 784 256) := by
  intro i hi
  rw [Vector.getElem_replicate]
  decide

theorem two_layers_exact_shipped : LayersExact (Vector.replicate 784 256) (nnWeights.get 0) :=
  two_layers_exact.2 _ _ white_pixels (nnWeights_fit 0)

theorem neuronSum_fits {image : Image} (pixels : Pixels image) (row : DataArray16bit) (m : ℕ) :
    Fits (neuronSum (features image.toList) row m) := by
  have term (k : Fin 16) :
      -(3829 * 32768) ≤ (row.get k).toInt * ((features image.toList).get k).toInt ∧
        (row.get k).toInt * ((features image.toList).get k).toInt ≤ 3829 * 32768 := by
    obtain ⟨low, high⟩ := feature_bounds pixels k
    obtain ⟨down, up⟩ := word_bounds (row.get k)
    constructor
    · nlinarith
    · nlinarith
  have bounds := loop_bounds (0 : ℤ)
    (t := fun k : Fin 16 => (row.get k).toInt * ((features image.toList).get k).toInt)
    (u := fun _ => -(3829 * 32768)) (v := fun _ => 3829 * 32768)
    term (fun _ => by omega) m
  simp only [Finset.sum_const, Finset.card_univ, Fintype.card_fin, nsmul_eq_mul] at bounds
  unfold Fits neuronSum
  omega

theorem score_signs (image : Image) (rows : DataMatrix) (pixels : Pixels image) (j : ℕ)
    (hj : j < 3) :
    (∀ m ≤ 16, Fits (neuronSum (features image.toList) rows[j] m) ∧
      (neuronAcc (features image.toList) rows[j] m).toInt =
        neuronSum (features image.toList) rows[j] m) ∧
    ((neurons (features image.toList) rows)[j].toInt < 0 ↔
      neuronExact (features image.toList) rows[j] < 0) := by
  have exact (m : ℕ) : (neuronAcc (features image.toList) rows[j] m).toInt =
      neuronSum (features image.toList) rows[j] m := by
    rw [neuronAcc_ofInt]
    exact ofInt_fits (neuronSum_fits pixels rows[j] m)
  constructor
  · exact fun m _ => ⟨neuronSum_fits pixels rows[j] m, exact m⟩
  · rw [neurons_get _ _ _ hj, ← not_le, ← not_le]
    apply not_congr
    rw [neuron_acc, toFixedPoint_nonneg, exact, neuronSum_full]

theorem score_signs_shipped :
    ((neurons (features (Vector.replicate 784 256).toList) nnWeights).get 0).toInt < 0 ↔
      neuronExact (features (Vector.replicate 784 256).toList) (nnWeights.get 0) < 0 :=
  (score_signs (Vector.replicate 784 256) nnWeights white_pixels 0 (by decide)).2

/- The network without truncation: 16 fractional bits after the first layer, 24 after the
   second. -/

def exactFeature (image : Image) (k : Fin 16) : ℤ := max 0 (convExact (imageWindow image k))

def exactScore (image : Image) (row : DataArray16bit) : ℤ :=
  ∑ k : Fin 16, (row.get k).toInt * exactFeature image k

def rowPositives (row : DataArray16bit) : ℤ := positives fun k : Fin 16 => (row.get k).toInt

def rowNegatives (row : DataArray16bit) : ℤ := negatives fun k : Fin 16 => (row.get k).toInt

theorem feature_truncates {image : Image} (pixels : Pixels image) (k : Fin 16) :
    ((features image.toList).get k).toInt = exactFeature image k / 256 := by
  rw [feature_exact pixels]
  unfold exactFeature
  omega

theorem score_error {image : Image} {row : DataArray16bit} (pixels : Pixels image)
    (fits : RowFits row) :
    -255 * rowPositives row - 65280 ≤
        65536 * (neuron (features image.toList) row).toInt - exactScore image row ∧
      65536 * (neuron (features image.toList) row).toInt - exactScore image row ≤
        255 * rowNegatives row := by
  have score := score_exact pixels fits
  have layer := dot_truncated (fun k : Fin 16 => (row.get k).toInt) (exactFeature image)
    (show (0 : ℤ) < 256 by omega)
  have sum : neuronExact (features image.toList) row =
      ∑ k : Fin 16, (row.get k).toInt * (exactFeature image k / 256) := by
    unfold neuronExact
    simp only [feature_truncates pixels]
  rw [← sum] at layer
  -- what is left is the last floor, of the sum itself
  unfold rowPositives rowNegatives exactScore
  omega

/-- The error of both truncations, and the margin beyond which it cannot change a ranking. -/
theorem truncation_error (image : Image) (a b : DataArray16bit) (pixels : Pixels image)
    (fitsA : RowFits a) (fitsB : RowFits b) :
    (-255 * rowPositives a - 65280 ≤
        65536 * (neuron (features image.toList) a).toInt - exactScore image a ∧
      65536 * (neuron (features image.toList) a).toInt - exactScore image a ≤
        255 * rowNegatives a) ∧
    (exactScore image a - exactScore image b > 255 * (rowPositives a + rowNegatives b) + 65280 →
      (neuron (features image.toList) a).toInt > (neuron (features image.toList) b).toInt) := by
  have errorA := score_error pixels fitsA
  have errorB := score_error pixels fitsB
  refine ⟨errorA, fun margin => ?_⟩
  omega

theorem white_feature (k : Fin 16) : exactFeature (Vector.replicate 784 256) k = 727372 := by
  have window : imageWindow (Vector.replicate 784 256) k = Vector.replicate 49 256 := by
    ext i hi : 1
    rw [imageWindow_get _ _ hi, Vector.getElem_replicate, Vector.getElem_replicate]
  unfold exactFeature
  rw [window]
  decide +kernel

theorem truncation_error_shipped :
    (neuron (features (Vector.replicate 784 256).toList) (nnWeights.get 1)).toInt >
      (neuron (features (Vector.replicate 784 256).toList) (nnWeights.get 0)).toInt :=
  (truncation_error (Vector.replicate 784 256) (nnWeights.get 1) (nnWeights.get 0) white_pixels
    (nnWeights_fit 1) (nnWeights_fit 0)).2 <| by
      unfold exactScore
      simp only [white_feature]
      decide +kernel

end CnnAccelerator
