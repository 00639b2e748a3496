import CnnAccelerator.ByteMemory
import CnnAccelerator.HeaderFile
import CnnAccelerator.Quantisation

/- From the trained network to the class that a call returns: the arrays as the notebook prints
   them, compiled and read by the dma, through every call since reset. -/
namespace CnnAccelerator
open Clocked Dma Tiling Nearby Notebook HeaderFile

/-- The words of an array that the notebook prints and the compiler reads. -/
def arrayOf (fxp : ℕ → ℕ → ℚ → ℤ) (hex : ℤ → List Char) (rows : List (List ℚ))
    (varName : List Char) : Option (List FixedPoint) :=
  (readArray (valsToHFile (rows.map (·.map fun v => hex (fxp 7 8 v))) varName)).map Prod.snd

/-- Call `n` finds a picture and the weights of the network in its buffers. -/
structure Stored (fxp : ℕ → ℕ → ℚ → ℤ) (hex : ℤ → List Char) (net : ConvNNv3.Trained)
    (bytes : ℕ → BitVec 32 → BitVec 8) (n : ℕ) (c : BitVec 32 × BitVec 32) (x : List (List ℚ)) :
    Prop where
  picture : Picture x
  image : ∃ varName ws, '{' ∉ varName ∧
    ((rearrangeImageForMemory x 7).bind fun out => arrayOf fxp hex out varName) = some ws ∧
    Holds (bytes (2 * n)) c.1 ws
  weights : ∃ varName ws, '{' ∉ varName ∧ arrayOf fxp hex net.nnWeight varName = some ws ∧
    Holds (bytes (2 * n + 1)) c.2 ws

/-- The picture whose windows are those that the dma reads of a stored one. -/
def pictureRead (x : List (List ℚ)) : List (List ℚ) :=
  untiled (asRead 49 (tiled x 7 4 4).flatten) 7 4 4

/-- The network with the rows of weights that the dma reads of the stored ones. -/
def Notebook.ConvNNv3.Trained.asRead (net : ConvNNv3.Trained) : ConvNNv3.Trained :=
  { net with
    nnWeight := table 3 16 fun j t => net.nnWeight.flatten.getD (16 * j / 2 + t) 0
    nnShape := table_shape _ _ _ }

def exportedRows (fxp : ℕ → ℕ → ℚ → ℤ) (net : ConvNNv3.Trained) : DataMatrix :=
  rowsOf (exported fxp net.nnWeight)

structure Deployable (fxp : ℕ → ℕ → ℚ → ℤ) (net : ConvNNv3.Trained) : Prop where
  vhdl : InVHDL fxp net
  range : ∀ z ∈ net.nnWeight.flatten, |z| < 128

theorem picture_stored {x : List (List ℚ)} (picture : Picture x) :
    (tiled x 7 4 4).flatten.length = 784 ∧ ∀ v ∈ (tiled x 7 4 4).flatten, 0 ≤ v ∧ v ≤ 1 := by
  have square : Shape x (4 * 7) (4 * 7) := picture.shape
  constructor
  · exact flatten_length (tiled_shape square)
  · intro v member
    exact picture.inside v ((tiled_perm square).mem_iff.mp member)

theorem tiled_pictureRead {x : List (List ℚ)} (picture : Picture x) :
    (tiled (pictureRead x) 7 4 4).flatten = asRead 49 (tiled x 7 4 4).flatten :=
  tiled_untiled (by rw [asRead_length, (picture_stored picture).1])

theorem pictureRead_picture {x : List (List ℚ)} (picture : Picture x) :
    Picture (pictureRead x) where
  shape := untiled_shape _ 7 4 4
  inside := by
    intro v member
    have stored := (tiled_perm (untiled_shape _ 7 4 4)).mem_iff.mpr member
    rw [← pictureRead, tiled_pictureRead picture] at stored
    exact asRead_inside (picture_stored picture).2 49 v stored

theorem weights_stored (net : ConvNNv3.Trained) : net.nnWeight.flatten.length = 48 :=
  flatten_length net.nnShape

theorem weights_asRead (net : ConvNNv3.Trained) :
    net.asRead.nnWeight.flatten = asRead 16 net.nnWeight.flatten := by
  have size := weights_stored net
  unfold ConvNNv3.Trained.asRead asRead
  rw [table_flatten, size]

theorem deployable_asRead {fxp : ℕ → ℕ → ℚ → ℤ} {net : ConvNNv3.Trained}
    (deployable : Deployable fxp net) : Deployable fxp net.asRead where
  vhdl := ⟨deployable.vhdl.range, deployable.vhdl.filter, deployable.vhdl.biasRange,
    deployable.vhdl.bias⟩
  range := by
    rw [weights_asRead]
    exact asRead_inside (P := (|·| < 128)) deployable.range 16

section Arrays
variable {fxp : ℕ → ℕ → ℚ → ℤ} (truncates : Truncates fxp)
include truncates

theorem fxp_word {v : ℚ} (range : |v| < 128) : -32768 ≤ fxp 7 8 v ∧ fxp 7 8 v ≤ 32767 := by
  have inside : |v * 2 ^ 8| < ((32768 : ℤ) : ℚ) := by
    rw [abs_mul, abs_of_pos (a := (2 : ℚ) ^ 8) (by norm_num)]
    push_cast
    linarith
  have bounds := towardZero_lt inside
  rw [truncates 7 8 v (by norm_num; exact range)]
  omega

theorem arrayOf_exported {hex : ℤ → List Char}
    (prints : ∀ z, -32768 ≤ z → z ≤ 32767 → HexConstant hex z) {varName : List Char}
    (named : '{' ∉ varName) {rows : List (List ℚ)} {h w : ℕ} (shape : Shape rows h w)
    (some_row : 0 < h) (wide : 0 < w) (range : ∀ v ∈ rows.flatten, |v| < 128) :
    arrayOf fxp hex rows varName = some (exported fxp rows) := by
  have integers : rows.map (·.map fun v => hex (fxp 7 8 v)) =
      (rows.map (·.map (fxp 7 8))).map (·.map hex) := by
    simp [Function.comp_def]
  have integral : Shape (rows.map (·.map (fxp 7 8))) h w := shape_map shape _
  have constants : ∀ z ∈ (rows.map (·.map (fxp 7 8))).flatten, HexConstant hex z := by
    intro z member
    rw [← List.map_flatten] at member
    obtain ⟨v, inside, rfl⟩ := List.mem_map.mp member
    obtain ⟨low, high⟩ := fxp_word truncates (range v inside)
    exact prints _ low high
  obtain ⟨ws, read, words⟩ := array_read named (shape_rows integral some_row)
    (shape_entries integral wide) constants
  have same : ws = exported fxp rows := by
    have back := congrArg (List.map (BitVec.ofInt 16)) words
    simp only [List.map_map, Function.comp_def, BitVec.ofInt_toInt, List.map_id'] at back
    rw [back, ← List.map_flatten, List.map_map]
    rfl
  unfold arrayOf
  rw [integers, read, same]
  rfl

theorem exportedRows_entry {net : ConvNNv3.Trained} (range : ∀ z ∈ net.nnWeight.flatten, |z| < 128)
    (j : Fin 3) (k : Fin 16) : (((exportedRows fxp net).get j).get k).toInt =
      fxp 7 8 (entry net.nnWeight j k) := by
  have word : ((exportedRows fxp net).get j).get k =
      ((cell net.nnWeight j k).map fun v => BitVec.ofInt 16 (fxp 7 8 v)).getD 0 := by
    change (rowsOf (exported fxp net.nnWeight))[j.val][k.val] = _
    have here := flatten_get net.nnShape.width j k.isLt
    simp only [rowsOf, slice, Vector.getElem_ofFn, exported]
    rw [List.getD_eq_getElem?_getD, List.getElem?_map, Nat.mul_comm, here]
  rw [word]
  unfold entry
  cases value : cell net.nnWeight j k with
  | none =>
    rw [Option.getD_none, fxp_zero truncates]
    rfl
  | some v =>
    have small := entry_inside (P := (|·| < 128)) range (by norm_num) j k
    unfold entry at small
    rw [value] at small
    obtain ⟨low, high⟩ := fxp_word truncates small
    exact word_ofInt low high

end Arrays

section Calls
variable {fxp : ℕ → ℕ → ℚ → ℤ} {hex : ℤ → List Char} {net : ConvNNv3.Trained}
  {bytes : ℕ → BitVec 32 → BitVec 8} (truncates : Truncates fxp)
  (prints : ∀ z, -32768 ≤ z → z ≤ 32767 → HexConstant hex z) (deployable : Deployable fxp net)
include truncates

theorem exported_asRead (b : ℕ) (rows : List (List ℚ)) : asRead b (exported fxp rows) =
    (asRead b rows.flatten).map fun v => BitVec.ofInt 16 (fxp 7 8 v) := by
  apply asRead_map
  rw [fxp_zero truncates]
  rfl

include prints

theorem image_fetched {n : ℕ} {c : BitVec 32 × BitVec 32} {x : List (List ℚ)}
    (stored : Stored fxp hex net bytes n c x) :
    fetch (bytewise (bytes (2 * n))) .image c.1 784 =
      exported fxp (tiled (pictureRead x) 7 4 4) := by
  obtain ⟨picture, ⟨varName, ws, named, read, holds⟩, _⟩ := stored
  obtain ⟨size, inside⟩ := picture_stored picture
  have square : Shape x (4 * 7) (4 * 7) := picture.shape
  have pixels : ∀ v ∈ (tiled x 7 4 4).flatten, |v| < 128 := by
    intro v member
    obtain ⟨low, high⟩ := inside v member
    rw [abs_of_nonneg low]
    linarith
  rw [rearrange_tiled square (by decide) (by decide), Option.bind_some,
    arrayOf_exported truncates prints named (tiled_shape square) (by decide) (by decide) pixels]
    at read
  obtain rfl := Option.some.inj read
  rw [fetch_image holds (by rw [exported, List.length_map, size]), exported_asRead truncates,
    ← tiled_pictureRead picture]
  rfl

include deployable

theorem weights_fetched {n : ℕ} {c : BitVec 32 × BitVec 32} {x : List (List ℚ)}
    (stored : Stored fxp hex net bytes n c x) :
    fetch (bytewise (bytes (2 * n + 1))) .weight c.2 48 = exported fxp net.asRead.nnWeight := by
  obtain ⟨_, _, varName, ws, named, read, holds⟩ := stored
  rw [arrayOf_exported truncates prints named net.nnShape (by decide) (by decide)
    deployable.range] at read
  obtain rfl := Option.some.inj read
  rw [fetch_weight holds (by rw [exported, List.length_map, weights_stored]),
    exported_asRead truncates, ← weights_asRead]
  rfl

theorem scores_stored (fits : ∀ j : Fin 3, RowFits ((exportedRows fxp net.asRead).get j)) {n : ℕ}
    {c : BitVec 32 × BitVec 32} {x : List (List ℚ)} (stored : Stored fxp hex net bytes n c x)
    (j : Fin 3) :
    Near ((scoreError ((exportedRows fxp net.asRead).get j) : ℤ) : ℚ)
      (2 ^ 24 * net.asRead.forward (pictureRead x) j)
      ((65536 * ((Accelerator.scoresOf (fun n => bytewise (bytes n)) n c).get j).toInt : ℤ) :
        ℚ) := by
  have image := image_fetched truncates prints stored
  have weights := weights_fetched truncates prints deployable stored
  have picture := pictureRead_picture stored.picture
  have square : Shape (pictureRead x) (4 * 7) (4 * 7) := picture.shape
  have read := deployable_asRead deployable
  have words : InWeights fxp net.asRead (exportedRows fxp net.asRead) :=
    ⟨read.range, exportedRows_entry truncates read.range⟩
  obtain ⟨out, tiles, near⟩ := score_near truncates picture read.vhdl words fits
  obtain rfl : tiled (pictureRead x) 7 4 4 = out :=
    Option.some.inj ((rearrange_tiled square (by decide) (by decide)).symm.trans tiles)
  have score : (Accelerator.scoresOf (fun n => bytewise (bytes n)) n c).get j =
      neuron (features (exported fxp (tiled (pictureRead x) 7 4 4)))
        ((exportedRows fxp net.asRead).get j) := by
    unfold Accelerator.scoresOf exportedRows
    rw [image, weights]
    exact neurons_get _ _ _ j.isLt
  rw [score]
  exact near j

end Calls

def rowError (fxp : ℕ → ℕ → ℚ → ℤ) (net : ConvNNv3.Trained) (j : Fin 3) : ℚ :=
  ((scoreError ((exportedRows fxp net).get j) : ℤ) : ℚ)

/-- Class `j` of the last picture is not rejected, and it is ahead of the other classes of all
    pictures by more than both errors. -/
structure Leads (fxp : ℕ → ℕ → ℚ → ℤ) (net : ConvNNv3.Trained) (pictures : ℕ → List (List ℚ))
    (last : ℕ) (j : Fin 3) : Prop where
  positive : rowError fxp net j ≤ 2 ^ 24 * net.forward (pictures last) j
  ahead : ∀ n ≤ last, ∀ i ≠ j, rowError fxp net j + rowError fxp net i <
    2 ^ 24 * net.forward (pictures last) j - 2 ^ 24 * net.forward (pictures n) i

namespace Accelerator

/-- The class a call returns is that of the trained network on what the dma reads: if a class of
    the last picture leads all pictures since reset it is returned, and if the network has only
    negative scores for all of them class 0 is. -/
theorem deployed_class (fxp : ℕ → ℕ → ℚ → ℤ) (hex : ℤ → List Char) (net : ConvNNv3.Trained)
    (bytes : ℕ → BitVec 32 → BitVec 8) (pictures : ℕ → List (List ℚ)) (power : Accelerator)
    (calls : List (BitVec 32 × BitVec 32)) (c : BitVec 32 × BitVec 32) (ins : List In)
    (truncates : Truncates fxp) (prints : ∀ z, -32768 ≤ z → z ≤ 32767 → HexConstant hex z)
    (deployable : Deployable fxp net)
    (fits : ∀ j : Fin 3, RowFits ((exportedRows fxp net.asRead).get j))
    (h : Answered (fun n => bytewise (bytes n)) power (calls ++ [c]) ins)
    (stored : ∀ n d, (calls ++ [c])[n]? = some d → Stored fxp hex net bytes n d (pictures n)) :
    (∀ j : Fin 3, Leads fxp net.asRead (fun n => pictureRead (pictures n)) calls.length j →
      (run step power.reset ins).registerInst.asReaddata = BitVec.ofNat 32 j) ∧
    ((∀ n ≤ calls.length, ∀ j : Fin 3,
        2 ^ 24 * net.asRead.forward (pictureRead (pictures n)) j < -rowError fxp net.asRead j) →
      (run step power.reset ins).registerInst.asReaddata = 0) := by
  have near : ∀ n d, (calls ++ [c])[n]? = some d → ∀ j : Fin 3,
      Near (rowError fxp net.asRead j) (2 ^ 24 * net.asRead.forward (pictureRead (pictures n)) j)
        ((65536 * ((scoresOf (fun n => bytewise (bytes n)) n d).get j).toInt : ℤ) : ℚ) :=
    fun n d here j => scores_stored truncates prints deployable fits (stored n d here) j
  -- from here on the memory counts for its scores only
  generalize (fun n => bytewise (bytes n)) = content at h near
  have member : ∀ v ∈ (calls ++ [c]).mapIdx (scoresOf content), ∃ n d,
      n ≤ calls.length ∧ (calls ++ [c])[n]? = some d ∧ v = scoresOf content n d := by
    intro v inside
    obtain ⟨n, bound, eq⟩ := List.mem_mapIdx.mp inside
    rw [List.length_append, List.length_singleton] at bound
    exact ⟨n, _, by omega, List.getElem?_eq_getElem _, eq.symm⟩
  have champion := Argmax.champion_samples ((calls ++ [c]).mapIdx (scoresOf content))
  rw [answered_result h]
  constructor
  · intro j leads
    have here : (calls ++ [c])[calls.length]? = some c := by simp
    have last : scoresOf content calls.length c ∈ (calls ++ [c]).mapIdx (scoresOf content) := by
      rw [List.mapIdx_append]
      simp
    refine Argmax.champion_front champion last
      (score_nonneg (near _ _ here j) leads.positive) ?_
    intro v inside i other
    obtain ⟨n, d, early, there, rfl⟩ := member v inside
    exact score_order (near _ _ here j) (near _ _ there i) (leads.ahead n early i other)
  · intro rejected
    refine Argmax.champion_rejected champion ?_
    intro v inside i
    obtain ⟨n, d, early, there, rfl⟩ := member v inside
    exact score_negative (near _ _ there i) (rejected n early i)

/- Four white windows, after reset. -/

def patch (n : ℕ) : ℚ := if n / 49 ∈ [0, 2, 7, 8] then 1 else 0

def patches : List (List ℚ) := untiled ((List.range (4 * 4 * (7 * 7))).map patch) 7 4 4

theorem patches_tiled : (tiled patches 7 4 4).flatten = (List.range 784).map patch :=
  tiled_untiled (by simp)

theorem patches_picture : Picture patches where
  shape := untiled_shape _ 7 4 4
  inside := by
    intro v member
    have stored := (tiled_perm (untiled_shape _ 7 4 4)).mem_iff.mpr member
    rw [← patches, patches_tiled] at stored
    obtain ⟨n, _, rfl⟩ := List.mem_map.mp stored
    unfold patch
    split <;> norm_num

theorem patches_read : pictureRead patches = table (4 * 7) (4 * 7) fun i j =>
    (fun n => patch (49 * (n / 49) / 2 + n % 49))
      ((i / 7 * 4 + j / 7) * 7 * 7 + i % 7 * 7 + j % 7) := by
  unfold pictureRead
  rw [patches_tiled, asRead_range]
  exact untiled_range _ 7 4 4

def patchWord (n : ℕ) : FixedPoint := if n / 49 ∈ [0, 2, 7, 8] then 256 else 0

def shippedWord (n : ℕ) : FixedPoint := (nnWeights.toList.flatMap (·.toList)).getD n 0

def patchesBytes (n : ℕ) : BitVec 32 → BitVec 8 :=
  bytesOf (if n = 1 then shippedWord else patchWord)

def burstWords (b m : ℕ) (words : ℕ → FixedPoint) : List (List FixedPoint) :=
  (List.range m).map fun q => (List.range b).map fun t => words (b * q / 2 + t)

def patchesCall : List In :=
  [] ++ promptPlace ++ silent idleBus :: promptLoad (burstWords 49 16 patchWord) ++
    silent idleBus :: promptLast (burstWords 16 3 shippedWord) ++ [silent (readBus 0)]

theorem patches_answered :
    Answered (fun n => bytewise (patchesBytes n)) powerUp ([] ++ [(0, 0)]) patchesCall :=
  .read .reset (prompt_call (burstWords 49 16 patchWord) (burstWords 16 3 shippedWord))
    (by decide +kernel) (by decide +kernel) (by decide +kernel)

theorem patches_words : exported saturating (tiled patches 7 4 4) =
    (List.range 784).map patchWord := by
  unfold exported
  rw [patches_tiled, List.map_map]
  apply List.map_congr_left
  intro n _
  rw [Function.comp_apply, patch, patchWord]
  split
  · decide +kernel
  · decide +kernel

theorem shipped_words : exported saturating trainedNet.nnWeight =
    (List.range 48).map shippedWord := by
  decide +kernel

theorem patches_stored :
    Stored saturating fxpHex trainedNet patchesBytes 0 (0, 0) patches where
  picture := patches_picture
  image := by
    have square : Shape patches (4 * 7) (4 * 7) := patches_picture.shape
    refine ⟨['t'], _, by decide, ?_, holds_bytesOf patchWord (m := 784) (by decide)⟩
    rw [rearrange_tiled square (by decide) (by decide), Option.bind_some,
      arrayOf_exported saturating_truncates (fun z => fxpHex_constant) (by decide)
        (tiled_shape square) (by decide) (by decide) (by rw [patches_tiled]; decide +kernel),
      patches_words]
  weights := by
    refine ⟨['n'], _, by decide, ?_, holds_bytesOf shippedWord (m := 48) (by decide)⟩
    rw [arrayOf_exported saturating_truncates (fun z => fxpHex_constant) (by decide)
      trainedNet.nnShape (by decide) (by decide) trained_weights.range, shipped_words]

theorem trained_deployable : Deployable saturating trainedNet :=
  ⟨trained_vhdl, trained_weights.range⟩

theorem trained_rows : exportedRows saturating trainedNet.asRead =
    rowsOf ((List.range 48).map fun n => shippedWord (16 * (n / 16) / 2 + n % 16)) := by
  have words := exported_asRead saturating_truncates 16 trainedNet.nnWeight
  rw [← weights_asRead, shipped_words, asRead_range] at words
  exact congrArg rowsOf words.symm

theorem trained_fit (j : Fin 3) : RowFits ((exportedRows saturating trainedNet.asRead).get j) := by
  rw [trained_rows]
  match j with
  | 0 | 1 | 2 => exact ⟨by decide +kernel, by decide +kernel⟩

theorem patches_leads :
    Leads saturating trainedNet.asRead (fun _ => pictureRead patches) 0 2 where
  positive := by
    rw [patches_read]
    decide +kernel
  ahead := by
    intro n _
    rw [patches_read]
    decide +kernel

theorem deployed_class_patches :
    (run step powerUp.reset patchesCall).registerInst.asReaddata = 2 :=
  (deployed_class saturating fxpHex trainedNet patchesBytes (fun _ => patches) powerUp []
    (0, 0) patchesCall saturating_truncates (fun z => fxpHex_constant) trained_deployable
    trained_fit patches_answered (fun n d here => by
      match n with
      | 0 =>
        simp only [List.nil_append, List.getElem?_cons_zero, Option.some.injEq] at here
        subst here
        exact patches_stored
      | n + 1 => simp at here)).1 2 patches_leads

end Accelerator
end CnnAccelerator
