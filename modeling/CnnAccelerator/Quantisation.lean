import CnnAccelerator.Layout
import CnnAccelerator.Lib.Nearby
import Mathlib.Data.Rat.Floor

/- From the trained network to the words in memory: what the export of its parameters and of a
   picture does to the scores. -/
namespace CnnAccelerator
open Accumulate Tiling Nearby Notebook Aggregate

namespace Notebook
namespace ConvNNv3

/-- conv.weight, conv.bias and NN.weight. -/
structure Trained where
  convWeight : List (List ℚ)
  convBias : ℚ
  nnWeight : List (List ℚ)
  convShape : Shape convWeight 7 7
  nnShape : Shape nnWeight 3 16

namespace Trained

def convolution (net : Trained) (x : List (List ℚ)) (p q : ℕ) : ℚ :=
  net.convBias + ∑ r : Fin 7, ∑ c : Fin 7,
    entry net.convWeight r c * entry x (7 * p + r) (7 * q + c)

/-- F.relu(self.conv(x)), reshaped. -/
def hiddenAt (net : Trained) (x : List (List ℚ)) (k : ℕ) : ℚ :=
  max 0 (net.convolution x (k / 4) (k % 4))

def forward (net : Trained) (x : List (List ℚ)) (j : ℕ) : ℚ :=
  ∑ k : Fin 16, entry net.nnWeight j k * net.hiddenAt x k

end Trained

end ConvNNv3

structure Picture (x : List (List ℚ)) : Prop where
  shape : Shape x 28 28
  inside : ∀ v ∈ x.flatten, 0 ≤ v ∧ v ≤ 1

/-- What the export relies on of Fxp(x, signed=True, n_int, n_frac): in its range it keeps
    `nFrac` digits behind the point and drops the rest. -/
def Truncates (fxp : ℕ → ℕ → ℚ → ℤ) : Prop :=
  ∀ nInt nFrac x, |x| < 2 ^ nInt → fxp nInt nFrac x = towardZero (x * 2 ^ nFrac)

def exported (fxp : ℕ → ℕ → ℚ → ℤ) (rows : List (List ℚ)) : List FixedPoint :=
  rows.flatten.map fun v => BitVec.ofInt 16 (fxp 7 8 v)

/-- The filter and the bias of conv_filter.vhd are those of the network. -/
structure InVHDL (fxp : ℕ → ℕ → ℚ → ℤ) (net : ConvNNv3.Trained) : Prop where
  range : ∀ z ∈ net.convWeight.flatten, |z| < 128
  filter : net.convWeight.map (·.map (fxp 7 8)) = shippedFilter
  biasRange : |net.convBias| < 32768
  bias : fxp 15 16 net.convBias = 0x0001DA4C

structure InWeights (fxp : ℕ → ℕ → ℚ → ℤ) (net : ConvNNv3.Trained) (rows : DataMatrix) :
    Prop where
  range : ∀ z ∈ net.nnWeight.flatten, |z| < 128
  weights : ∀ (j : Fin 3) (k : Fin 16),
    ((rows.get j).get k).toInt = fxp 7 8 (entry net.nnWeight j k)

theorem cell_map {α β : Type*} (f : α → β) (x : List (List α)) (i j : ℕ) :
    cell (x.map (·.map f)) i j = (cell x i j).map f := by
  unfold cell
  rw [List.getElem?_map]
  cases x[i]? with
  | none => rfl
  | some row => simp

theorem entry_map {α β : Type*} [Zero α] [Zero β] {f : α → β} (zero : f 0 = 0)
    (x : List (List α)) (i j : ℕ) : entry (x.map (·.map f)) i j = f (entry x i j) := by
  unfold entry
  rw [cell_map, ← zero, Option.getD_map]

theorem entry_inside {α : Type*} [Zero α] {P : α → Prop} {x : List (List α)}
    (inside : ∀ v ∈ x.flatten, P v) (zero : P 0) (i j : ℕ) : P (entry x i j) := by
  unfold entry
  cases here : cell x i j with
  | none => exact zero
  | some v =>
    obtain ⟨row, first, second⟩ := Option.bind_eq_some_iff.mp here
    exact inside v (List.mem_flatten.mpr
      ⟨row, List.mem_of_getElem? first, List.mem_of_getElem? second⟩)

section Words
variable {fxp : ℕ → ℕ → ℚ → ℤ} (truncates : Truncates fxp)
include truncates

theorem fxp_zero : fxp 7 8 0 = 0 := by
  rw [truncates 7 8 0 (by norm_num)]
  norm_num [towardZero]

theorem fxp_near (nInt nFrac : ℕ) {x : ℚ} (range : |x| < 2 ^ nInt) :
    Near 1 (2 ^ nFrac * x) (fxp nInt nFrac x : ℚ) := by
  rw [truncates nInt nFrac x range, mul_comm]
  exact towardZero_near _

theorem fxp_word_near {x : ℚ} (range : |x| < 128) : Near 1 (256 * x) (fxp 7 8 x : ℚ) := by
  have near := fxp_near truncates 7 8 (x := x) (by norm_num; exact range)
  norm_num at near ⊢
  exact near

theorem pixel_range {v : ℚ} (inside : 0 ≤ v ∧ v ≤ 1) : 0 ≤ fxp 7 8 v ∧ fxp 7 8 v ≤ 256 := by
  rw [truncates 7 8 v (by rw [abs_of_nonneg inside.1]; linarith [inside.2])]
  exact towardZero_inside (by linarith [inside.1]) (by push_cast; linarith [inside.2])

theorem pixel_word {v : ℚ} (inside : 0 ≤ v ∧ v ≤ 1) :
    (BitVec.ofInt 16 (fxp 7 8 v)).toInt = fxp 7 8 v := by
  obtain ⟨low, high⟩ := pixel_range truncates inside
  exact word_ofInt (by omega) (by omega)

end Words

end Notebook

theorem shipped_entries (i : ℕ) (hi : i < 49) :
    cell shippedFilter (i / 7) (i % 7) = some convWeights[i].toInt := by
  obtain ⟨constant, read, entries⟩ :=
    constant_read shipped_shape (by decide) (by decide) shipped_prints
  obtain rfl : convWeights = constant := Option.some.inj (shipped_constant.symm.trans read)
  exact entries i hi

theorem exactFeature_position {image : Image} {rows : List (List FixedPoint)}
    (shape : Shape rows 28 28) (list : image.toList = (tiled rows 7 4 4).flatten) (k : Fin 16) :
    exactFeature image k = max 0 (0x0001DA4C + ∑ r : Fin 7, ∑ c : Fin 7, entry shippedFilter r c *
      entry (rows.map (·.map BitVec.toInt)) (7 * (k / 4) + r) (7 * (k % 4) + c)) := by
  have integers : Shape (rows.map (·.map BitVec.toInt)) 28 28 := shape_map shape _
  have sum := window_convolution shipped_entries 0x0001DA4C integers k.isLt
  rw [conv_cell _ _ integers (by omega) (by omega)] at sum
  unfold exactFeature
  rw [← slice_imageWindow, convExact_filterSum, slice_streamWindow, list, List.map_flatten,
    ← tiled_map, ← Option.some.inj sum]

theorem magnitudes {n : ℕ} (c : Fin n → ℤ) : positives c + negatives c = ∑ i, |c i| := by
  unfold positives negatives
  rw [← Finset.sum_add_distrib]
  apply Finset.sum_congr rfl
  intro i _
  exact max_zero_add_max_neg_zero_eq_abs_self (c i)

theorem shippedFilter_magnitude :
    ∑ r : Fin 7, ∑ c : Fin 7, |((entry shippedFilter r c : ℤ) : ℚ)| = 4343 := by
  have integers : ∑ r : Fin 7, ∑ c : Fin 7, |entry shippedFilter r c| = 4343 := by decide +kernel
  exact_mod_cast integers

/-- How far 65536 times a score can be from 2^24 times that of the network. -/
def scoreError (row : DataArray16bit) : ℤ :=
  17143 * (rowPositives row + rowNegatives row) + 16020288

/- The network in the units of its export: 8 fractional bits for each factor of a product. -/

theorem convolution_scaled (net : ConvNNv3.Trained) (x : List (List ℚ)) (p q : ℕ) :
    65536 * net.convolution x p q = 65536 * net.convBias + ∑ r : Fin 7, ∑ c : Fin 7,
      256 * entry net.convWeight r c * (256 * entry x (7 * p + r) (7 * q + c)) := by
  unfold ConvNNv3.Trained.convolution
  rw [mul_add, Finset.mul_sum]
  congr 1
  apply Finset.sum_congr rfl
  intro r _
  rw [Finset.mul_sum]
  apply Finset.sum_congr rfl
  intro c _
  ring

theorem forward_scaled (net : ConvNNv3.Trained) (x : List (List ℚ)) (j : Fin 3) :
    2 ^ 24 * net.forward x j =
      ∑ k : Fin 16, 256 * entry net.nnWeight j k * (65536 * net.hiddenAt x k) := by
  unfold ConvNNv3.Trained.forward
  rw [Finset.mul_sum]
  apply Finset.sum_congr rfl
  intro k _
  ring

theorem pixel_entry {x : List (List ℚ)} (picture : Picture x) (i j : ℕ) :
    0 ≤ entry x i j ∧ entry x i j ≤ 1 :=
  entry_inside picture.inside ⟨le_refl 0, zero_le_one⟩ i j

section Errors
variable {fxp : ℕ → ℕ → ℚ → ℤ} (truncates : Truncates fxp) {net : ConvNNv3.Trained}
  {x : List (List ℚ)} (picture : Picture x)
include truncates picture

theorem picture_words : (x.map (·.map fun v => BitVec.ofInt 16 (fxp 7 8 v))).map
    (·.map BitVec.toInt) = x.map (·.map (fxp 7 8)) := by
  rw [List.map_map]
  apply List.map_congr_left
  intro row member
  rw [Function.comp_apply, List.map_map]
  apply List.map_congr_left
  intro v inside
  exact pixel_word truncates (picture.inside v (List.mem_flatten.mpr ⟨row, member, inside⟩))

theorem convolution_near (vhdl : InVHDL fxp net) (p q : ℕ) :
    Near 16888 (65536 * net.convolution x p q)
      ((0x0001DA4C + ∑ r : Fin 7, ∑ c : Fin 7, entry shippedFilter r c *
        entry (x.map (·.map (fxp 7 8))) (7 * p + r) (7 * q + c) : ℤ) : ℚ) := by
  have bias : Near 1 (65536 * net.convBias) ((0x0001DA4C : ℤ) : ℚ) := by
    have near := fxp_near truncates 15 16 (x := net.convBias)
      (by norm_num; exact vhdl.biasRange)
    rw [vhdl.bias] at near
    norm_num at near ⊢
    exact near
  have weight (r c : ℕ) :
      Near 1 (256 * entry net.convWeight r c) ((entry shippedFilter r c : ℤ) : ℚ) := by
    rw [← vhdl.filter, entry_map (fxp_zero truncates)]
    exact fxp_word_near truncates
      (entry_inside (P := (|·| < 128)) vhdl.range (by norm_num) r c)
  have pixel (i j : ℕ) :
      Near 1 (256 * entry x i j) ((entry (x.map (·.map (fxp 7 8))) i j : ℤ) : ℚ) := by
    obtain ⟨low, high⟩ := pixel_entry picture i j
    rw [entry_map (fxp_zero truncates)]
    exact fxp_word_near truncates (by rw [abs_of_nonneg low]; linarith)
  have white (i j : ℕ) : |256 * entry x i j| ≤ 256 := by
    obtain ⟨low, high⟩ := pixel_entry picture i j
    rw [abs_of_nonneg (by linarith)]
    linarith
  have sums := near_add bias <| near_sum fun r : Fin 7 =>
    near_dot_bounded (fun c : Fin 7 => weight r c) (fun c => pixel (7 * p + r) (7 * q + c))
      fun c => white (7 * p + r) (7 * q + c)
  have total : 1 + ∑ r : Fin 7, ((∑ c : Fin 7, |((entry shippedFilter r c : ℤ) : ℚ)|) * 1 +
      (Fintype.card (Fin 7) : ℚ) * (256 * 1)) = 16888 := by
    simp only [mul_one, Finset.sum_add_distrib, shippedFilter_magnitude, Finset.sum_const,
      Finset.card_univ, Fintype.card_fin]
    norm_num
  rw [total] at sums
  rw [convolution_scaled]
  push_cast
  exact sums

theorem exactScore_near (vhdl : InVHDL fxp net) {rows : DataMatrix}
    (weights : InWeights fxp net rows) {image : Image} (list : image.toList =
      (tiled (x.map (·.map fun v => BitVec.ofInt 16 (fxp 7 8 v))) 7 4 4).flatten)
    (pixels : Pixels image) (j : Fin 3) :
    Near ((16888 * (rowPositives (rows.get j) + rowNegatives (rows.get j)) + 15955008 : ℤ) : ℚ)
      (2 ^ 24 * net.forward x j) ((exactScore image (rows.get j) : ℤ) : ℚ) := by
  have square : Shape (x.map (·.map fun v => BitVec.ofInt 16 (fxp 7 8 v))) 28 28 :=
    shape_map picture.shape _
  have feature (k : Fin 16) :
      Near 16888 (65536 * net.hiddenAt x k) ((exactFeature image k : ℤ) : ℚ) := by
    have near := near_clip (convolution_near truncates picture vhdl (k / 4) (k % 4))
    rw [exactFeature_position square list, picture_words truncates picture]
    unfold ConvNNv3.Trained.hiddenAt
    rw [mul_max_of_nonneg _ _ (by norm_num), mul_zero]
    push_cast at near ⊢
    exact near
  have weight (k : Fin 16) : Near 1 (256 * entry net.nnWeight j k)
      ((((rows.get j).get k).toInt : ℤ) : ℚ) := by
    rw [weights.weights]
    exact fxp_word_near truncates
      (entry_inside (P := (|·| < 128)) weights.range (by norm_num) j k)
  have most (k : Fin 16) : |65536 * net.hiddenAt x k| ≤ 997188 := by
    have positive : 0 ≤ net.hiddenAt x k := le_max_left _ _
    have bound : ((exactFeature image k : ℤ) : ℚ) ≤ 980300 := by
      exact_mod_cast max_le (by norm_num) (convExact_pixels pixels k).2
    have low := (near_iff.mp (feature k)).1
    rw [abs_of_nonneg (by positivity)]
    linarith
  have magnitude : ((rowPositives (rows.get j) + rowNegatives (rows.get j) : ℤ) : ℚ) =
      ∑ k : Fin 16, |((((rows.get j).get k).toInt : ℤ) : ℚ)| := by
    unfold rowPositives rowNegatives
    rw [magnitudes]
    push_cast
    rfl
  have exact : ((exactScore image (rows.get j) : ℤ) : ℚ) = ∑ k : Fin 16,
      ((((rows.get j).get k).toInt : ℤ) : ℚ) * ((exactFeature image k : ℤ) : ℚ) := by
    unfold exactScore
    push_cast
    rfl
  have error : ((16888 * (rowPositives (rows.get j) + rowNegatives (rows.get j)) +
      15955008 : ℤ) : ℚ) = (∑ k : Fin 16, |((((rows.get j).get k).toInt : ℤ) : ℚ)|) * 16888 +
      (Fintype.card (Fin 16) : ℚ) * (997188 * 1) := by
    rw [← magnitude, Fintype.card_fin]
    push_cast
    ring
  rw [forward_scaled, exact, error]
  exact near_dot_bounded weight feature most

theorem stored_image : ∃ image : Image, image.toList = exported fxp (tiled x 7 4 4) ∧
    image.toList = (tiled (x.map (·.map fun v => BitVec.ofInt 16 (fxp 7 8 v))) 7 4 4).flatten ∧
    Pixels image := by
  have square : Shape x (4 * 7) (4 * 7) := picture.shape
  have words : exported fxp (tiled x 7 4 4) =
      (tiled (x.map (·.map fun v => BitVec.ofInt 16 (fxp 7 8 v))) 7 4 4).flatten := by
    unfold exported
    rw [List.map_flatten, ← tiled_map]
  have size : (exported fxp (tiled x 7 4 4)).length = 784 := by
    unfold exported
    rw [List.length_map, flatten_length (tiled_shape square)]
  obtain ⟨image, list⟩ : ∃ image : Image, image.toList = exported fxp (tiled x 7 4 4) :=
    ⟨⟨(exported fxp (tiled x 7 4 4)).toArray, by simpa using size⟩, rfl⟩
  refine ⟨image, list, by rw [list, words], fun i hi => ?_⟩
  have member : image[i] ∈ exported fxp (tiled x 7 4 4) := by
    rw [← list]
    simp
  obtain ⟨v, stored, pixel⟩ := List.mem_map.mp member
  have inside := picture.inside v ((tiled_perm square).mem_iff.mp stored)
  rw [← pixel, pixel_word truncates inside]
  exact pixel_range truncates inside

theorem score_near (vhdl : InVHDL fxp net) {rows : DataMatrix} (weights : InWeights fxp net rows)
    (fits : ∀ j : Fin 3, RowFits (rows.get j)) :
    ∃ out, rearrangeImageForMemory x 7 = some out ∧ ∀ j : Fin 3,
      Near ((scoreError (rows.get j) : ℤ) : ℚ) (2 ^ 24 * net.forward x j)
        ((65536 * (neuron (features (exported fxp out)) (rows.get j)).toInt : ℤ) : ℚ) := by
  have square : Shape x (4 * 7) (4 * 7) := picture.shape
  obtain ⟨image, stored, list, pixels⟩ := stored_image truncates picture
  refine ⟨tiled x 7 4 4, rearrange_tiled square (by decide) (by decide), fun j => ?_⟩
  have first := exactScore_near truncates picture vhdl weights list pixels j
  obtain ⟨low, high⟩ := score_error pixels (fits j)
  have positive : 0 ≤ rowPositives (rows.get j) := by
    unfold rowPositives positives
    exact Finset.sum_nonneg fun k _ => le_max_right _ _
  have negative : 0 ≤ rowNegatives (rows.get j) := by
    unfold rowNegatives negatives
    exact Finset.sum_nonneg fun k _ => le_max_right _ _
  rw [stored] at low high
  have second : Near
      ((255 * (rowPositives (rows.get j) + rowNegatives (rows.get j)) + 65280 : ℤ) : ℚ)
      ((exactScore image (rows.get j) : ℤ) : ℚ)
      ((65536 * (neuron (features (exported fxp (tiled x 7 4 4))) (rows.get j)).toInt : ℤ) :
        ℚ) := by
    rw [near_iff]
    constructor
    · exact_mod_cast (by omega)
    · exact_mod_cast (by omega)
  apply near_mono (near_trans first second)
  unfold scoreError
  push_cast
  linarith

end Errors

section Scores
variable {e d x y : ℚ} {s t : ℤ} (h : Near e x ((65536 * s : ℤ) : ℚ))
include h

theorem score_order (k : Near d y ((65536 * t : ℤ) : ℚ)) (apart : e + d < x - y) : t < s := by
  have order := near_order h k apart
  have integers : 65536 * t < 65536 * s := by exact_mod_cast order
  omega

theorem score_nonneg (reach : e ≤ x) : 0 ≤ s := by
  have low := (near_iff.mp h).1
  have nonneg : (0 : ℚ) ≤ ((65536 * s : ℤ) : ℚ) := by linarith
  have integer : 0 ≤ 65536 * s := by exact_mod_cast nonneg
  omega

theorem score_negative (clear : x < -e) : s < 0 := by
  have high := (near_iff.mp h).2
  have negative : ((65536 * s : ℤ) : ℚ) < 0 := by linarith
  have integer : 65536 * s < 0 := by exact_mod_cast negative
  omega

end Scores

/-- The export keeps a network whose rows cannot leave the 16 bits of a score: the accelerator
    scores a stored picture as ConvNNv3 does, up to `scoreError`, and ranks two classes as
    ConvNNv3 does if their scores are further apart than both errors. -/
theorem quantised_network (fxp : ℕ → ℕ → ℚ → ℤ) (net : ConvNNv3.Trained) (rows : DataMatrix)
    (x : List (List ℚ)) (truncates : Truncates fxp) (vhdl : InVHDL fxp net)
    (weights : InWeights fxp net rows) (fits : ∀ j : Fin 3, RowFits (rows.get j))
    (picture : Picture x) :
    ∃ out, rearrangeImageForMemory x 7 = some out ∧
      (∀ j : Fin 3, Near ((scoreError (rows.get j) : ℤ) : ℚ) (2 ^ 24 * net.forward x j)
        ((65536 * (neuron (features (exported fxp out)) (rows.get j)).toInt : ℤ) : ℚ)) ∧
      ∀ i j : Fin 3, ((scoreError (rows.get i) + scoreError (rows.get j) : ℤ) : ℚ) <
          2 ^ 24 * (net.forward x i - net.forward x j) →
        (neuron (features (exported fxp out)) (rows.get j)).toInt <
          (neuron (features (exported fxp out)) (rows.get i)).toInt := by
  obtain ⟨out, stored, near⟩ := score_near truncates picture vhdl weights fits
  refine ⟨out, stored, near, fun i j apart => ?_⟩
  rw [mul_sub] at apart
  push_cast at apart
  exact score_order (near i) (near j) apart

/- The parameters the notebook prints, the bias as it is in conv_filter.vhd. -/

def trainedFilter : List (List ℚ) := [
  [-1.1298487, -0.27229133, 0.28714627, 0.37493512, 0.907366, 0.1431789, 0.5347539],
  [-0.2581845, -0.4241132, -0.10635767, -0.34131074, 0.02841576, 0.21795687, 1.1256728],
  [0.08687092, -0.12886696, -0.18294106, 0.01583078, 0.14978798, 0.2600748, 1.822983],
  [0.02083484, -0.23739645, -0.07607995, 0.03428378, 0.33496696, 0.12257625, 1.507085],
  [0.09251168, -0.10718158, 0.1141251, 0.16347924, 0.19863708, 0.08806781, 1.1991171],
  [0.19172686, -0.1688782, -0.16837654, 0.19224697, 0.09232251, -0.24064474, 0.6898716],
  [0.11634796, 0.15621877, 0.32756346, 0.45236462, -0.01670279, -0.03087329, 1.1322131]]

def trainedRows : List (List ℚ) := [
  [-1.1708761, -0.11018552, -0.1340647, -0.06756116, 0.3034926, 0.22939438, 0.22623716,
    -0.06675144, 0.6924737, -0.80566144, 0.787699, -0.96738493, -0.4626782, 0.55083805,
    -0.01935794, -0.6140885],
  [0.5845825, -0.6278944, -0.16487497, 1.3738074, -0.39733022, 0.01982391, -0.5668211,
    -0.07740854, -0.5817984, 0.24467559, -1.5793062, 0.42918614, 0.20654063, -0.2838261,
    -0.2258676, 1.1652552],
  [-0.24211721, 0.5505759, -0.2768999, -1.7206484, 0.06268372, -0.38855788, 0.01366592,
    0.0326157, 0.58268404, 0.30764765, 0.70122194, 0.2658134, -0.0905917, -0.11125002,
    0.22172555, -0.94411045]]

def trainedNet : ConvNNv3.Trained where
  convWeight := trainedFilter
  convBias := 121420 / 65536
  nnWeight := trainedRows
  convShape := ⟨by decide, by decide⟩
  nnShape := ⟨by decide, by decide⟩

/-- For examples: Fxp with overflow saturate and rounding trunc. -/
def saturating (nInt nFrac : ℕ) (x : ℚ) : ℤ :=
  max (-2 ^ (nInt + nFrac)) (min (2 ^ (nInt + nFrac) - 1) (towardZero (x * 2 ^ nFrac)))

theorem saturating_truncates : Truncates saturating := by
  intro nInt nFrac x range
  have inside : |x * 2 ^ nFrac| < ((2 ^ (nInt + nFrac) : ℤ) : ℚ) := by
    rw [abs_mul, abs_of_pos (a := (2 : ℚ) ^ nFrac) (by positivity)]
    push_cast
    rw [pow_add]
    exact mul_lt_mul_of_pos_right range (by positivity)
  obtain ⟨low, high⟩ := towardZero_lt inside
  unfold saturating
  rw [min_eq_right (by omega), max_eq_right (by omega)]

theorem trained_vhdl : InVHDL saturating trainedNet where
  range := by decide +kernel
  filter := by decide +kernel
  biasRange := by decide +kernel
  bias := by decide +kernel

theorem trained_weights : InWeights saturating trainedNet nnWeights where
  range := by decide +kernel
  weights := by decide +kernel

def corners : List (List ℚ) :=
  (List.range 28).map fun i => (List.range 28).map fun j =>
    if 21 ≤ j ∧ (i < 7 ∨ 21 ≤ i) then 1 else 0

theorem corners_picture : Picture corners where
  shape := ⟨by decide +kernel, by decide +kernel⟩
  inside := by decide +kernel

theorem quantised_network_corners : ∃ out, rearrangeImageForMemory corners 7 = some out ∧
    (neuron (features (exported saturating out)) (nnWeights.get 0)).toInt <
      (neuron (features (exported saturating out)) (nnWeights.get 1)).toInt := by
  obtain ⟨out, stored, _, order⟩ := quantised_network saturating trainedNet nnWeights corners
    saturating_truncates trained_vhdl trained_weights nnWeights_fit corners_picture
  exact ⟨out, stored, order 1 0 (by decide +kernel)⟩

end CnnAccelerator
