import CnnAccelerator.Aggregate
import CnnAccelerator.Precision
import Mathlib.Data.BitVec

/- The order of the stored image, the order of the printed filter and the index of the loop in
   conv_filter, against the convolution the network was trained with. -/
namespace CnnAccelerator
open Tiling Notebook Aggregate

def filterSum (bias : ℤ) (convWeights : DataArray49bit) (imageData : Vector ℤ 49) : ℤ :=
  bias + ∑ i : Fin 49, (convWeights.get i).toInt * imageData.get i

/-- Window `k` of a stream: the dma puts word 49 * k + i at index i. -/
def streamWindow (stream : List ℤ) (k : ℕ) : Vector ℤ 49 :=
  Vector.ofFn fun i => stream.getD (49 * k + i) 0

theorem convExact_filterSum (imageData : DataArray49bit) :
    convExact imageData = filterSum 0x0001DA4C convWeights (imageData.map BitVec.toInt) := by
  have read (i : Fin 49) : (imageData.map BitVec.toInt).get i = (imageData.get i).toInt := by
    change (imageData.map BitVec.toInt)[i.val] = _
    rw [Vector.getElem_map]
    rfl
  simp [convExact, filterSum, read]

theorem slice_streamWindow (ws : List FixedPoint) (k : ℕ) :
    (slice 49 ws k).map BitVec.toInt = streamWindow (ws.map BitVec.toInt) k := by
  ext i hi : 1
  simp only [slice, streamWindow, Vector.getElem_map, Vector.getElem_ofFn,
    List.getD_eq_getElem?_getD, List.getElem?_map]
  cases ws[49 * k + i]? <;> rfl

theorem streamWindow_tiled {image : List (List ℤ)} (shape : Shape image 28 28) {k : ℕ} (hk : k < 16)
    {i : ℕ} (hi : i < 49) : (streamWindow (tiled image 7 4 4).flatten k)[i] =
      entry image (7 * (k / 4) + i / 7) (7 * (k % 4) + i % 7) := by
  have word := tiled_cell (w := 7) (R := 4) (C := 4) shape (k := k) (r := i / 7) (c := i % 7) hk
    (by omega) (by omega)
  rw [show k * 7 * 7 + i / 7 * 7 + i % 7 = 49 * k + i by omega] at word
  rw [streamWindow, Vector.getElem_ofFn, List.getD_eq_getElem?_getD, word]
  rfl

theorem conv_cell (F : List (List ℤ)) (bias : ℤ) {image : List (List ℤ)}
    (shape : Shape image 28 28) {p q : ℕ} (hp : p < 4) (hq : q < 4) :
    cell (ConvNNv3.conv F bias image) p q = some (bias + ∑ r : Fin 7, ∑ c : Fin 7,
      entry F r c * entry image (7 * p + r) (7 * q + c)) := by
  obtain ⟨row, rows, rfl⟩ := List.exists_cons_of_length_pos (l := image) (by simp [shape.height])
  have wide := shape.width row (by simp)
  unfold ConvNNv3.conv ConvNNv3.conv2d cell
  rw [shape.height, List.headD_cons, wide, List.getElem?_map, List.getElem?_range hp]
  simp only [Option.map_some, Option.bind_some]
  rw [List.getElem?_map, List.getElem?_range hq]
  rfl

theorem conv_shape (F : List (List ℤ)) (bias : ℤ) {image : List (List ℤ)}
    (shape : Shape image 28 28) : Shape (ConvNNv3.conv F bias image) 4 4 := by
  obtain ⟨row, rows, rfl⟩ := List.exists_cons_of_length_pos (l := image) (by simp [shape.height])
  have wide := shape.width row (by simp)
  unfold ConvNNv3.conv ConvNNv3.conv2d
  rw [shape.height, List.headD_cons, wide]
  constructor
  · simp
  · intro line member
    obtain ⟨p, _, rfl⟩ := List.mem_map.mp member
    simp

theorem hidden_get (F : List (List ℤ)) (bias : ℤ) {image : List (List ℤ)}
    (shape : Shape image 28 28) (k : ℕ) : (ConvNNv3.hidden F bias image)[k]? =
      (cell (ConvNNv3.conv F bias image) (k / 4) (k % 4)).map (max 0 ·) := by
  have width : ∀ row ∈ (ConvNNv3.conv F bias image).map (·.map (max 0 ·)), row.length = 4 := by
    intro row member
    obtain ⟨line, inside, rfl⟩ := List.mem_map.mp member
    rw [List.length_map]
    exact (conv_shape F bias shape).width line inside
  have here := flatten_get width (k / 4) (Nat.mod_lt k (by decide))
  rw [Nat.mul_comm, Nat.div_add_mod] at here
  unfold ConvNNv3.hidden
  rw [here]
  unfold cell
  rw [List.getElem?_map]
  cases (ConvNNv3.conv F bias image)[k / 4]? with
  | none => rfl
  | some row => simp

theorem window_convolution {F : List (List ℤ)} {constant : DataArray49bit}
    (reads : ∀ i (hi : i < 49), cell F (i / 7) (i % 7) = some constant[i].toInt) (bias : ℤ)
    {image : List (List ℤ)} (shape : Shape image 28 28) {k : ℕ} (hk : k < 16) :
    cell (ConvNNv3.conv F bias image) (k / 4) (k % 4) =
      some (filterSum bias constant (streamWindow (tiled image 7 4 4).flatten k)) := by
  have products : ∀ i : Fin 49, (constant.get i).toInt *
      (streamWindow (tiled image 7 4 4).flatten k).get i =
        entry F (i / 7) (i % 7) * entry image (7 * (k / 4) + i / 7) (7 * (k % 4) + i % 7) := by
    intro i
    have weight : entry F (i / 7) (i % 7) = (constant.get i).toInt := by
      unfold entry
      rw [reads i i.isLt]
      rfl
    have pixel : (streamWindow (tiled image 7 4 4).flatten k).get i =
        entry image (7 * (k / 4) + i / 7) (7 * (k % 4) + i % 7) :=
      streamWindow_tiled shape hk i.isLt
    rw [weight, pixel]
  have sums := sum_cells (fun r c => entry F r c *
    entry image (7 * (k / 4) + r) (7 * (k % 4) + c)) 7 7
  rw [conv_cell F bias shape (by omega) (by omega), ← sums]
  unfold filterSum
  rw [Finset.sum_congr rfl fun i _ => products i]

/-- The stored image has every pixel once, window by window; the printed filter reads back entry
    by entry; and the sums over the windows are the vector of ConvNNv3, in its order. -/
theorem layouts_agree (hex : ℤ → List Char) :
    (∀ (w R C : ℕ) (image : List (List ℤ)), 0 < w → 0 < R → Shape image (R * w) (C * w) →
      ∃ out, rearrangeImageForMemory image w = some out ∧ Shape out (R * C) (w * w) ∧
        out.flatten.Perm image.flatten ∧
        ∀ k < R * C, ∀ r < w, ∀ c < w, out.flatten[k * w * w + r * w + c]? =
          cell image (w * (k / C) + r) (w * (k % C) + c)) ∧
    ∀ F : List (List ℤ), Shape F 7 7 → (∀ z ∈ F.flatten, HexPrints hex z) →
      ∃ constant : DataArray49bit,
        readConstant 49 (weightsToVHDL (F.map (·.map hex))) = some constant ∧
        (∀ i (hi : i < 49), cell F (i / 7) (i % 7) = some constant[i].toInt) ∧
        ∀ (bias : ℤ) (image : List (List ℤ)), Shape image 28 28 →
          ∃ out, rearrangeImageForMemory image 7 = some out ∧ ∀ k < 16,
            cell (ConvNNv3.conv F bias image) (k / 4) (k % 4) =
              some (filterSum bias constant (streamWindow out.flatten k)) ∧
            (ConvNNv3.hidden F bias image)[k]? =
              some (max 0 (filterSum bias constant (streamWindow out.flatten k))) := by
  constructor
  · intro w R C image hw hR shape
    exact ⟨tiled image w R C, rearrange_tiled shape hw hR, tiled_shape shape, tiled_perm shape,
      fun k hk r hr c hc => tiled_cell shape hk hr hc⟩
  · intro F shape prints
    obtain ⟨constant, read, entries⟩ := constant_read shape (by decide) (by decide) prints
    refine ⟨constant, read, entries, fun bias image square => ?_⟩
    refine ⟨tiled image 7 4 4, rearrange_tiled (R := 4) (C := 4) square (by decide) (by decide), ?_⟩
    intro k hk
    have sum := window_convolution entries bias square hk
    refine ⟨sum, ?_⟩
    rw [hidden_get F bias square, sum]
    rfl

/-- The filter of conv_filter.vhd as the notebook has it. -/
def shippedFilter : List (List ℤ) := [
  [-289, -69, 73, 95, 232, 36, 136],
  [-66, -108, -27, -87, 7, 55, 288],
  [22, -32, -46, 4, 38, 66, 466],
  [5, -60, -19, 8, 85, 31, 385],
  [23, -27, 29, 41, 50, 22, 306],
  [49, -43, -43, 49, 23, -61, 176],
  [29, 39, 83, 115, -4, -7, 289]]

def hexChar (n : ℕ) : Char :=
  ['0', '1', '2', '3', '4', '5', '6', '7', '8', '9', 'A', 'B', 'C', 'D', 'E', 'F'].getD n '0'

/-- For examples: the hex method of a 16-bit word. -/
def fxpHex (z : ℤ) : List Char :=
  let word := (z % 65536).toNat
  ['0', 'x', hexChar (word / 4096 % 16), hexChar (word / 256 % 16), hexChar (word / 16 % 16),
    hexChar (word % 16)]

theorem shipped_prints : ∀ z ∈ shippedFilter.flatten, HexPrints fxpHex z := by
  unfold HexPrints
  decide +kernel

theorem shipped_shape : Shape shippedFilter 7 7 := ⟨by decide, by decide⟩

theorem shipped_constant :
    readConstant 49 (weightsToVHDL (shippedFilter.map (·.map fxpHex))) = some convWeights := by
  decide +kernel

theorem layouts_agree_shipped :
    (∃ out, rearrangeImageForMemory [[(0 : ℤ), 1, 2, 3], [4, 5, 6, 7]] 2 = some out ∧
      out.flatten.Perm [0, 1, 2, 3, 4, 5, 6, 7]) ∧
    ∃ constant : DataArray49bit,
      readConstant 49 (weightsToVHDL (shippedFilter.map (·.map fxpHex))) = some constant ∧
      ∃ out, rearrangeImageForMemory (List.replicate 28 (List.replicate 28 (1 : ℤ))) 7 = some out ∧
        cell (ConvNNv3.conv shippedFilter 0 (List.replicate 28 (List.replicate 28 1))) 2 3 =
          some (filterSum 0 constant (streamWindow out.flatten 11)) := by
  constructor
  · obtain ⟨out, stored, _, perm, _⟩ := (layouts_agree fxpHex).1 2 1 2
      [[0, 1, 2, 3], [4, 5, 6, 7]] (by decide) (by decide) ⟨by decide, by decide⟩
    exact ⟨out, stored, perm⟩
  · obtain ⟨constant, read, _, sums⟩ :=
      (layouts_agree fxpHex).2 shippedFilter shipped_shape shipped_prints
    obtain ⟨out, stored, windows⟩ := sums 0 (List.replicate 28 (List.replicate 28 1))
      ⟨by decide, by decide⟩
    exact ⟨constant, read, out, stored, (windows 11 (by decide)).1⟩

end CnnAccelerator
