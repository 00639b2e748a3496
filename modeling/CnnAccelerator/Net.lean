import CnnAccelerator.ConvBlock
import CnnAccelerator.FullyConnectedLayer
import CnnAccelerator.TransferLog

/- The network the accelerator is for: feature registers, weight rows and the best class
   so far, changed by one completed transfer at a time. -/
namespace CnnAccelerator
open Dma

def feature (imageData : DataArray49bit) : FixedPoint := relu (convFilter imageData)

def windows (z : ℕ) (ws : List FixedPoint) : List (Vector FixedPoint z) :=
  (List.range ((ws.length - 1) / z + 1)).map fun j => window z (ws.take (z * (j + 1)))

structure Net where
  conv : DataArray16bit
  rows : DataMatrix
  best : Argmax
  deriving DecidableEq, Repr

namespace Net

def reset : Net := ⟨Vector.replicate 16 0, Vector.replicate 3 (Vector.replicate 16 0), Argmax.reset⟩

def scores (N : Net) : DataArray3bit := neurons N.conv N.rows

/-- An image replaces features; weights replace rows and are followed by one sample. -/
def finish (N : Net) (t : Transfer) : Net :=
  match t.kind with
  | .image => { N with conv := RingFill.fill 16 N.conv ((windows 49 t.words).map feature) }
  | .weight =>
    let rows := RingFill.fill 16 N.rows (windows 16 t.words)
    { N with rows := rows, best := N.best.sample (neurons N.conv rows) }

def after (N : Net) (ts : List Transfer) : Net := ts.foldl finish N

@[simp] theorem after_nil (N : Net) : N.after [] = N := rfl

@[simp] theorem after_append (N : Net) (ts us : List Transfer) :
    N.after (ts ++ us) = (N.after ts).after us := by
  simp [after]

@[simp] theorem after_singleton (N : Net) (t : Transfer) : N.after [t] = N.finish t := rfl

end Net

def slice (n : ℕ) (ws : List FixedPoint) (k : ℕ) : Vector FixedPoint n :=
  Vector.ofFn fun m => ws.getD (n * k + m) 0

def features (ws : List FixedPoint) : DataArray16bit :=
  Vector.ofFn fun k => feature (slice 49 ws k)

def rowsOf (ws : List FixedPoint) : DataMatrix := Vector.ofFn fun j => slice 16 ws j

def Kind.wholeLength : Kind → ℕ
  | .image => 784
  | .weight => 48

def lastOf (k : Kind) (ts : List Transfer) : Option (List FixedPoint) :=
  ((ts.filter (·.kind = k)).map (·.words)).getLast?

theorem lastOf_snoc (k : Kind) (ts : List Transfer) (t : Transfer) :
    lastOf k (ts ++ [t]) = if t.kind = k then some t.words else lastOf k ts := by
  by_cases same : t.kind = k <;> simp [lastOf, same]

theorem window_slice {z : ℕ} (ws : List FixedPoint) {j : ℕ} (full : z * (j + 1) ≤ ws.length) :
    window z (ws.take (z * (j + 1))) = slice z ws j := by
  ext m hm : 1
  have word := window_get ws hm full
  unfold slice
  rw [Vector.getElem_ofFn, List.getD_eq_getElem?_getD, ← word, Option.getD_some]

theorem windows_slices {z m : ℕ} {ws : List FixedPoint} (pos : 0 < z)
    (len : ws.length = z * (m + 1)) : windows z ws = (List.range (m + 1)).map (slice z ws) := by
  have count : (ws.length - 1) / z = m := by
    rw [len, Nat.mul_succ, Nat.add_sub_assoc pos, Nat.mul_add_div pos]
    simp [Nat.div_eq_of_lt (Nat.sub_lt pos Nat.one_pos)]
  unfold windows
  rw [count]
  apply List.map_congr_left
  intro j member
  apply window_slice
  rw [len]
  exact Nat.mul_le_mul_left _ (List.mem_range.mp member)

theorem finish_image {N : Net} {ws : List FixedPoint} (len : ws.length = 784) :
    (N.finish ⟨.image, ws⟩).conv = features ws := by
  have slices := windows_slices (z := 49) (m := 15) (by decide) len
  ext k hk : 1
  simp only [Net.finish, slices]
  rw [RingFill.fill_full 16 _ _ (by simp) (by omega) k hk]
  simp [features]

theorem finish_weight {N : Net} {ws : List FixedPoint} (len : ws.length = 48) :
    (N.finish ⟨.weight, ws⟩).rows = rowsOf ws := by
  have slices := windows_slices (z := 16) (m := 2) (by decide) len
  ext j hj : 1
  simp only [Net.finish, slices]
  rw [RingFill.fill_full 16 _ _ (by simp) (by omega) j hj]
  simp [rowsOf]

theorem finish_scores (N : Net) {X W : List FixedPoint} (image : X.length = 784)
    (weight : W.length = 48) : ((N.finish ⟨.image, X⟩).finish ⟨.weight, W⟩).scores =
      neurons (features X) (rowsOf W) := by
  have conv := finish_image (N := N) image
  have rows := finish_weight (N := N.finish ⟨.image, X⟩) weight
  rw [← conv, ← rows]
  rfl

theorem after_inference (N : Net) {X W : List FixedPoint} (image : X.length = 784)
    (weight : W.length = 48) : (N.after [⟨.image, X⟩, ⟨.weight, W⟩]).best =
      N.best.sample (neurons (features X) (rowsOf W)) := by
  rw [← finish_scores N image weight]
  rfl

/-- Whole transfers leave nothing of the banks they found. -/
theorem after_whole (N : Net) {ts : List Transfer}
    (whole : ∀ t ∈ ts, t.words.length = t.kind.wholeLength) :
    (N.after ts).conv = ((lastOf .image ts).map features).getD N.conv ∧
      (N.after ts).rows = ((lastOf .weight ts).map rowsOf).getD N.rows := by
  induction ts using List.reverseRecOn with
  | nil => exact ⟨rfl, rfl⟩
  | append_singleton ts t ih =>
    obtain ⟨conv, rows⟩ := ih fun t member => whole t (by simp [member])
    have len := whole t (by simp)
    obtain ⟨k, ws⟩ := t
    rw [Net.after_append, Net.after_singleton, lastOf_snoc, lastOf_snoc]
    cases k with
    | image => exact ⟨finish_image len, rows⟩
    | weight => exact ⟨conv, finish_weight len⟩

end CnnAccelerator
