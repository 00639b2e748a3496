import CnnAccelerator.DataType
import CnnAccelerator.Lib.Tiling

/- CNN_MNIST_FPGA.ipynb: the order in which an image is stored for the dma, and the filter
   printed as a VHDL constant. Texts are lists of characters. -/
namespace CnnAccelerator
open Tiling

namespace Notebook
variable {α : Type*}

def entry [Zero α] (x : List (List α)) (i j : ℕ) : α := (cell x i j).getD 0

/-- image[i*w:(i+1)*w, j*w:(j+1)*w] -/
def windowAt (image : List (List α)) (w i j : ℕ) : List (List α) :=
  (image.extract (i * w) ((i + 1) * w)).map (·.extract (j * w) ((j + 1) * w))

/-- `none` where Python raises: a division by zero, or image[0] of an image without rows. -/
def rearrangeImageForMemory [Zero α] (image : List (List α)) (windowWidth : ℕ) :
    Option (List (List α)) :=
  if windowWidth = 0 then none
  else image.head?.map fun row =>
    let nbWindowRows := image.length / windowWidth
    let nbWindowCols := row.length / windowWidth
    let zeros := List.replicate (nbWindowRows * nbWindowCols)
      (List.replicate (windowWidth ^ 2) 0)
    (List.range nbWindowRows).foldl (fun rearrangedImage i =>
      (List.range nbWindowCols).foldl (fun rearrangedImage j =>
        rearrangedImage.set (i * nbWindowCols + j) (windowAt image windowWidth i j).flatten)
        rearrangedImage) zeros

def npFlip (rows : List (List α)) : List (List α) := rows.reverse.map List.reverse

def weightText (weight : List Char) : List Char := ['X', '"'] ++ weight.drop 2 ++ ['"', ',', ' ']

def weightsToVHDL (listWeights : List (List (List Char))) : List Char :=
  let outputStr := (npFlip listWeights).foldl (fun outputStr row =>
    row.foldl (fun outputStr weight => outputStr ++ weightText weight) outputStr ++ ['\n', ' '])
    ['(']
  outputStr.take (outputStr.length - 4) ++ [')', ';', '\n']

namespace ConvNNv3

/-- nn.Conv2d of one channel without padding: the cross-correlation at the strided positions. -/
def conv2d (kernel stride : ℕ) (weight : List (List ℤ)) (bias : ℤ) (x : List (List ℤ)) :
    List (List ℤ) :=
  let rows := (x.length - kernel) / stride + 1
  let cols := ((x.headD []).length - kernel) / stride + 1
  (List.range rows).map fun p => (List.range cols).map fun q =>
    bias + ∑ r : Fin kernel, ∑ c : Fin kernel,
      entry weight r c * entry x (stride * p + r) (stride * q + c)

def conv (weight : List (List ℤ)) (bias : ℤ) (x : List (List ℤ)) : List (List ℤ) :=
  conv2d 7 7 weight bias x

def hidden (weight : List (List ℤ)) (bias : ℤ) (x : List (List ℤ)) : List ℤ :=
  ((conv weight bias x).map (·.map (max 0 ·))).flatten

end ConvNNv3

section Windows
variable {image : List (List α)} {w R C : ℕ} (shape : Shape image (R * w) (C * w))
include shape

theorem windowAt_shape {i j : ℕ} (hi : i < R) (hj : j < C) : Shape (windowAt image w i j) w w := by
  have rows : (i + 1) * w ≤ R * w := Nat.mul_le_mul_right w hi
  have cols : (j + 1) * w ≤ C * w := Nat.mul_le_mul_right w hj
  constructor
  · simp only [windowAt, List.length_map, List.length_take, List.length_drop, shape.height]
    rw [Nat.succ_mul] at rows ⊢
    omega
  · intro row member
    unfold windowAt at member
    obtain ⟨line, inside, rfl⟩ := List.mem_map.mp member
    have width := shape.width line (List.mem_of_mem_drop (List.mem_of_mem_take inside))
    simp only [List.length_take, List.length_drop, width]
    rw [Nat.succ_mul] at cols ⊢
    omega

omit shape in
theorem windowAt_cell (i j : ℕ) {r c : ℕ} (hr : r < w) (hc : c < w) :
    cell (windowAt image w i j) r c = cell image (w * i + r) (w * j + c) := by
  have size (k : ℕ) : (k + 1) * w - k * w = w := by
    rw [Nat.succ_mul]
    omega
  unfold cell windowAt
  rw [List.getElem?_map, List.getElem?_take, if_pos (by rw [size]; exact hr), List.getElem?_drop,
    Nat.mul_comm i w]
  cases image[w * i + r]? with
  | none => rfl
  | some row =>
    simp only [Option.map_some, Option.bind_some]
    rw [List.getElem?_take, if_pos (by rw [size]; exact hc), List.getElem?_drop, Nat.mul_comm j w]

/-- What the two loops leave in the array: window `k` in row `k`. -/
def tiled (image : List (List α)) (w R C : ℕ) : List (List α) :=
  (List.range (R * C)).map fun k => (windowAt image w (k / C) (k % C)).flatten

omit shape in
theorem tiled_map {β : Type*} (f : α → β) (w R C : ℕ) :
    tiled (image.map (·.map f)) w R C = (tiled image w R C).map (·.map f) := by
  simp [tiled, windowAt, List.map_flatten, List.map_take, List.map_drop, Function.comp_def]

theorem rearrange_tiled [Zero α] (hw : 0 < w) (hR : 0 < R) :
    rearrangeImageForMemory image w = some (tiled image w R C) := by
  have pos : 0 < image.length := by
    rw [shape.height]
    exact Nat.mul_pos hR hw
  obtain ⟨row, rows, rfl⟩ := List.exists_cons_of_length_pos pos
  unfold rearrangeImageForMemory
  rw [if_neg (by omega)]
  simp only [List.head?_cons, Option.map_some, shape.height, shape.width row (by simp),
    Nat.mul_div_cancel _ hw]
  rw [fill_rows (fun i j => (windowAt (row :: rows) w i j).flatten) R C _ (by simp)]
  rfl

theorem tiled_shape : Shape (tiled image w R C) (R * C) (w * w) where
  height := by simp [tiled]
  width := by
    intro row member
    obtain ⟨k, inside, rfl⟩ := List.mem_map.mp member
    obtain ⟨hi, hj⟩ := split_pair (List.mem_range.mp inside)
    exact flatten_length (windowAt_shape shape hi hj)

theorem tiled_cell {k r c : ℕ} (hk : k < R * C) (hr : r < w) (hc : c < w) :
    (tiled image w R C).flatten[k * w * w + r * w + c]? =
      cell image (w * (k / C) + r) (w * (k % C) + c) := by
  obtain ⟨hi, hj⟩ := split_pair hk
  have window := windowAt_shape shape hi hj
  rw [Nat.mul_assoc, Nat.add_assoc, flatten_get (tiled_shape shape).width k (pair_lt hr hc)]
  unfold cell tiled
  rw [List.getElem?_map, List.getElem?_range hk, Option.map_some, Option.bind_some]
  rw [flatten_get window.width r hc]
  exact windowAt_cell _ _ hr hc

theorem tiled_perm : (tiled image w R C).flatten.Perm image.flatten := by
  have cells : (tiled image w R C).flatten.map some = (List.range (R * C)).flatMap fun k =>
      (List.range w).flatMap fun r => (List.range w).map fun c =>
        cell image (k / C * w + r) (k % C * w + c) := by
    unfold tiled
    rw [List.map_flatten, List.map_map, ← List.flatMap_def]
    apply List.flatMap_congr
    intro k inside
    obtain ⟨hi, hj⟩ := split_pair (List.mem_range.mp inside)
    have window := windowAt_shape shape hi hj
    rw [Function.comp_apply, flatten_cells window]
    apply List.flatMap_congr
    intro r row
    apply List.map_congr_left
    intro c column
    rw [windowAt_cell _ _ (List.mem_range.mp row) (List.mem_range.mp column), Nat.mul_comm w,
      Nat.mul_comm w]
  apply (List.map_perm_map_iff (Option.some_injective α)).mp
  rw [cells, flatten_cells shape]
  exact tiles_perm (cell image) R C w w

end Windows

/-- The image whose windows are a given stream. -/
def untiled [Zero α] (stream : List α) (w R C : ℕ) : List (List α) :=
  table (R * w) (C * w) fun i j =>
    stream.getD ((i / w * C + j / w) * w * w + i % w * w + j % w) 0

theorem untiled_shape [Zero α] (stream : List α) (w R C : ℕ) :
    Shape (untiled stream w R C) (R * w) (C * w) :=
  table_shape _ _ _

theorem untiled_range [Zero α] (f : ℕ → α) (w R C : ℕ) :
    untiled ((List.range (R * C * (w * w))).map f) w R C = table (R * w) (C * w) fun i j =>
      f ((i / w * C + j / w) * w * w + i % w * w + j % w) := by
  unfold untiled table
  apply List.map_congr_left
  intro i row
  apply List.map_congr_left
  intro j column
  rw [List.mem_range] at row column
  obtain ⟨hi, hr⟩ := split_pair row
  obtain ⟨hj, hc⟩ := split_pair column
  have window := pair_lt hi hj
  have place := pair_lt hr hc
  have inside := pair_lt window place
  rw [← Nat.mul_assoc, ← Nat.add_assoc] at inside
  simp [inside]

theorem untiled_cell [Zero α] (stream : List α) {w R C k r c : ℕ} (hk : k < R * C) (hr : r < w)
    (hc : c < w) : cell (untiled stream w R C) (w * (k / C) + r) (w * (k % C) + c) =
      some (stream.getD (k * w * w + r * w + c) 0) := by
  obtain ⟨hi, hj⟩ := split_pair hk
  obtain ⟨row, line⟩ := div_pair hr (k / C)
  obtain ⟨column, place⟩ := div_pair hc (k % C)
  rw [Nat.mul_comm w, Nat.mul_comm w, untiled, table_cell _ (pair_lt hi hr) (pair_lt hj hc), row,
    line, column, place, Nat.mul_comm (k / C), Nat.div_add_mod]

theorem tiled_untiled [Zero α] {stream : List α} {w R C : ℕ}
    (size : stream.length = R * C * (w * w)) :
    (tiled (untiled stream w R C) w R C).flatten = stream := by
  have shape := untiled_shape stream w R C
  apply List.ext_getElem? fun n => ?_
  by_cases inside : n < R * C * (w * w)
  · obtain ⟨window, rest⟩ := split_pair inside
    obtain ⟨row, column⟩ := split_pair rest
    have place : n / (w * w) * w * w + n % (w * w) / w * w + n % (w * w) % w = n := by
      rw [Nat.mul_assoc, Nat.add_assoc, Nat.mul_comm (n % (w * w) / w), Nat.div_add_mod,
        Nat.mul_comm (n / (w * w)), Nat.div_add_mod]
    have word := (tiled_cell shape window row column).trans
      (untiled_cell stream window row column)
    rw [place] at word
    rw [word, List.getD_eq_getElem?_getD, List.getElem?_eq_getElem (by omega), Option.getD_some]
  · rw [List.getElem?_eq_none (by rw [flatten_length (tiled_shape shape)]; omega),
      List.getElem?_eq_none (by omega)]

end Notebook
end CnnAccelerator
