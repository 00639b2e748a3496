import CnnAccelerator.Precision
import CnnAccelerator.Sessions
import Mathlib.Data.BitVec
import Mathlib.Data.List.GetD

/- The memory behind the master agent of the interconnect: byte addresses, and words of two
   bytes at even ones. A burst starts burstSize bytes after the last, half of what it reads. -/
namespace CnnAccelerator
open Clocked Dma

/-- av_address_aligned of a master with two byte lanes. -/
def aligned (a : BitVec 32) : BitVec 32 := a.extractLsb' 1 31 ++ 0#1

theorem aligned_toNat (a : BitVec 32) : (aligned a).toNat = 2 * (a.toNat / 2) := by
  have bound := a.isLt
  unfold aligned
  simp only [BitVec.toNat_append, BitVec.extractLsb'_toNat, BitVec.toNat_ofNat, Nat.zero_mod,
    Nat.or_zero, Nat.shiftLeft_eq, Nat.shiftRight_eq_div_pow, Nat.pow_one]
  omega

theorem aligned_burst (base : BitVec 32) (n : ℕ) : aligned (base + BitVec.ofNat 32 n) =
    aligned base + BitVec.ofNat 32 (2 * ((base.toNat % 2 + n) / 2)) := by
  apply BitVec.eq_of_toNat_eq
  simp only [aligned_toNat, BitVec.toNat_add, BitVec.toNat_ofNat]
  omega

theorem aligned_even {a : BitVec 32} (even : a.toNat % 2 = 0) : aligned a = a := by
  apply BitVec.eq_of_toNat_eq
  rw [aligned_toNat]
  omega

/-- Word `n` of a burst at `a`, the low byte first. -/
def bytewise (bytes : BitVec 32 → BitVec 8) : Memory := fun a n =>
  bytes (aligned a + BitVec.ofNat 32 (2 * n + 1)) ++ bytes (aligned a + BitVec.ofNat 32 (2 * n))

/-- The words between the base address, with bit 0 `e`, and the start of burst `q`. -/
def Kind.wordOffset (k : Kind) (e q : ℕ) : ℕ := (e + k.burstSize * q) / 2

theorem wordAt_bytewise (bytes : BitVec 32 → BitVec 8) (k : Kind) (base : BitVec 32) (j : ℕ) :
    wordAt (bytewise bytes) k base j = bytewise bytes base
      (k.wordOffset (base.toNat % 2) (j / k.burstSize) + j % k.burstSize) := by
  unfold wordAt bytewise Kind.wordOffset
  rw [aligned_burst, BitVec.add_assoc, BitVec.add_assoc, ← BitVec.ofNat_add, ← BitVec.ofNat_add,
    ← Nat.add_assoc, ← Nat.mul_add]

/- Word `t` of burst `q` is word `b * q + t` of its transfer. -/

theorem place_lt {b m q t : ℕ} (burst : q < m) (inside : t < b) : b * q + t < b * m := by
  have last := Nat.mul_le_mul_left b burst
  rw [Nat.mul_succ] at last
  omega

theorem place_split {b t : ℕ} (inside : t < b) (q : ℕ) :
    (b * q + t) / b = q ∧ (b * q + t) % b = t := by
  constructor
  · rw [Nat.mul_add_div (by omega), Nat.div_eq_of_lt inside, Nat.add_zero]
  · rw [Nat.mul_add_mod, Nat.mod_eq_of_lt inside]

theorem fetch_getD (mem : Memory) (k : Kind) (base : BitVec 32) {n j : ℕ} (inside : j < n) :
    (fetch mem k base n).getD j 0 = wordAt mem k base j := by
  simp [fetch, inside]

theorem fetch_burst (bytes : BitVec 32 → BitVec 8) (k : Kind) (base : BitVec 32) {m q t : ℕ}
    (burst : q < m) (inside : t < k.burstSize) :
    (fetch (bytewise bytes) k base (k.burstSize * m)).getD (k.burstSize * q + t) 0 =
      bytewise bytes base (k.wordOffset (base.toNat % 2) q + t) := by
  obtain ⟨number, place⟩ := place_split inside q
  rw [fetch_getD _ _ _ (place_lt burst inside), wordAt_bytewise, number, place]

theorem fetch_ext {k : Kind} {base : BitVec 32} {m : ℕ} {bytes : BitVec 32 → BitVec 8}
    {X : List FixedPoint} (size : X.length = k.burstSize * m)
    (words : ∀ q < m, ∀ t < k.burstSize,
      bytewise bytes base (k.wordOffset (base.toNat % 2) q + t) = X.getD (k.burstSize * q + t) 0) :
    fetch (bytewise bytes) k base (k.burstSize * m) = X := by
  have pos := k.burstSize_pos
  apply List.ext_getElem (by rw [fetch_length, size])
  intro j hj hX
  have burst : j / k.burstSize < m := Nat.div_lt_of_lt_mul (by omega)
  have inside := Nat.mod_lt j pos
  have word := (fetch_burst bytes k base burst inside).trans (words _ burst _ inside)
  rw [Nat.div_add_mod] at word
  rwa [List.getD_eq_getElem _ 0 hj, List.getD_eq_getElem _ 0 hX] at word

/-- A transfer of `m` bursts from an even address reads the first `burstSize * (m + 1)` bytes at
    most, of the `2 * burstSize * m` it is meant to read. -/
theorem fetch_footprint (k : Kind) {base base' : BitVec 32} {m : ℕ}
    {bytes bytes' : BitVec 32 → BitVec 8} (even : base.toNat % 2 = 0) (even' : base'.toNat % 2 = 0)
    (same : ∀ x < 2 * (k.wordOffset 0 (m - 1) + k.burstSize),
      bytes (base + BitVec.ofNat 32 x) = bytes' (base' + BitVec.ofNat 32 x)) :
    fetch (bytewise bytes) k base (k.burstSize * m) =
      fetch (bytewise bytes') k base' (k.burstSize * m) := by
  refine fetch_ext (fetch_length _ _ _ _) ?_
  intro q burst t inside
  have last := Nat.mul_le_mul_left k.burstSize (show q ≤ m - 1 by omega)
  have within : k.wordOffset 0 q + t < k.wordOffset 0 (m - 1) + k.burstSize := by
    unfold Kind.wordOffset
    omega
  rw [fetch_burst bytes' k base' burst inside, even, even', bytewise, bytewise,
    aligned_even even, aligned_even even', same _ (by omega), same _ (by omega)]

/-- Where two bursts in a row read the same word, they bring the same. -/
def Overlaps (k : Kind) (e m : ℕ) (X : List FixedPoint) : Prop :=
  ∀ q, q + 1 < m → ∀ s < k.burstSize, ∀ t < k.burstSize,
    k.wordOffset e q + s = k.wordOffset e (q + 1) + t →
      X.getD (k.burstSize * q + s) 0 = X.getD (k.burstSize * (q + 1) + t) 0

def bytesOf (words : ℕ → FixedPoint) : BitVec 32 → BitVec 8 := fun a =>
  (words (a.toNat / 2)).extractLsb' (8 * (a.toNat % 2)) 8

theorem bytewise_bytesOf (words : ℕ → FixedPoint) {base : BitVec 32} (first : base.toNat < 2)
    {w : ℕ} (inside : w < 2 ^ 31) : bytewise (bytesOf words) base w = words w := by
  have origin : aligned base = 0#32 := by
    apply BitVec.eq_of_toNat_eq
    rw [aligned_toNat, BitVec.toNat_ofNat]
    omega
  have low : (BitVec.ofNat 32 (2 * w)).toNat = 2 * w := by
    rw [BitVec.toNat_ofNat, Nat.mod_eq_of_lt (by omega)]
  have high : (BitVec.ofNat 32 (2 * w + 1)).toNat = 2 * w + 1 := by
    rw [BitVec.toNat_ofNat, Nat.mod_eq_of_lt (by omega)]
  unfold bytewise bytesOf
  rw [origin, BitVec.zero_add, BitVec.zero_add, low, high, Nat.mul_add_div Nat.zero_lt_two,
    Nat.mul_add_mod, Nat.mul_div_cancel_left _ Nat.zero_lt_two, Nat.mul_mod_right]
  exact (BitVec.extractLsb'_append_extractLsb'_eq_extractLsb' rfl).trans BitVec.extractLsb'_eq_self

/-- Words that give a transfer of `m` bursts the words `X`, if any do: those of the last burst
    that reads the place. -/
def placed (k : Kind) (e m : ℕ) (X : List FixedPoint) (w : ℕ) : FixedPoint :=
  let q := min ((2 * w + 1 - e) / k.burstSize) (m - 1)
  X.getD (k.burstSize * q + (w - k.wordOffset e q)) 0

theorem placed_word {k : Kind} {e m : ℕ} {X : List FixedPoint}
    (overlap : Overlaps k e m X) {q t : ℕ} (burst : q < m) (inside : t < k.burstSize) :
    placed k e m X (k.wordOffset e q + t) = X.getD (k.burstSize * q + t) 0 := by
  have pos := k.burstSize_pos
  obtain ⟨d, small, place⟩ : ∃ d, d < 2 * k.burstSize ∧
      2 * (k.wordOffset e q + t) + 1 - e = k.burstSize * q + d :=
    ⟨2 * (k.wordOffset e q + t) + 1 - e - k.burstSize * q, by
      unfold Kind.wordOffset
      omega, by
      unfold Kind.wordOffset
      omega⟩
  unfold placed
  simp only [place, Nat.mul_add_div pos]
  by_cases front : d < k.burstSize
  · rw [Nat.div_eq_of_lt front, Nat.add_zero, min_eq_left (by omega), Nat.add_sub_cancel_left]
  · have one : d / k.burstSize = 1 := by
      rw [Nat.div_eq_iff pos]
      omega
    rw [one]
    by_cases next : q + 1 < m
    · have later : k.wordOffset e (q + 1) ≤ k.wordOffset e q + t := by
        unfold Kind.wordOffset at place ⊢
        rw [Nat.mul_succ]
        omega
      have step : k.wordOffset e q ≤ k.wordOffset e (q + 1) := by
        unfold Kind.wordOffset
        rw [Nat.mul_succ]
        omega
      rw [min_eq_left (by omega)]
      exact (overlap q next t inside _ (by omega) (by omega)).symm
    · rw [min_eq_right (by omega), show m - 1 = q by omega, Nat.add_sub_cancel_left]

theorem deliverable_iff (k : Kind) {m : ℕ} (fits : k.burstSize * (m + 1) ≤ 2 ^ 32)
    {X : List FixedPoint} (size : X.length = k.burstSize * m) :
    (∃ bytes base, fetch (bytewise bytes) k base (k.burstSize * m) = X) ↔
      ∃ e < 2, Overlaps k e m X := by
  constructor
  · rintro ⟨bytes, base, rfl⟩
    refine ⟨base.toNat % 2, Nat.mod_lt _ Nat.zero_lt_two, ?_⟩
    intro q next s hs t ht same
    rw [fetch_burst bytes k base (by omega) hs, fetch_burst bytes k base next ht, same]
  · rintro ⟨e, bit, overlap⟩
    have small : (BitVec.ofNat 32 e).toNat = e := by
      rw [BitVec.toNat_ofNat, Nat.mod_eq_of_lt (by omega)]
    refine ⟨bytesOf (placed k e m X), BitVec.ofNat 32 e, fetch_ext size ?_⟩
    intro q burst t inside
    have last := place_lt burst inside
    rw [Nat.mul_succ] at fits
    rw [small, Nat.mod_eq_of_lt bit, bytewise_bytesOf _ (by omega) (by
      unfold Kind.wordOffset
      omega)]
    exact placed_word overlap burst inside

theorem deliverable_iff_shipped : ¬ ∃ bytes base,
    fetch (bytewise bytes) .weight base 48 = nnWeights.toList.flatMap (·.toList) := by
  intro some
  obtain ⟨e, bit, overlap⟩ :=
    (deliverable_iff .weight (m := 3) (by decide) (by decide)).mp some
  have same := overlap 0 (by decide) 8 (by decide) 0 (by decide) (by
    unfold Kind.wordOffset
    rw [Kind.burstSize_weight]
    omega)
  exact absurd same (by decide +kernel)

structure Holds (bytes : BitVec 32 → BitVec 8) (base : BitVec 32) (ws : List FixedPoint) :
    Prop where
  even : base.toNat % 2 = 0
  words : ∀ e (he : e < ws.length),
    bytes (base + BitVec.ofNat 32 (2 * e + 1)) ++ bytes (base + BitVec.ofNat 32 (2 * e)) = ws[e]

theorem holds_word {bytes : BitVec 32 → BitVec 8} {base : BitVec 32} {ws : List FixedPoint}
    (holds : Holds bytes base ws) {e : ℕ} (he : e < ws.length) :
    bytewise bytes base e = ws.getD e 0 := by
  rw [List.getD_eq_getElem ws 0 he, ← holds.words e he, bytewise, aligned_even holds.even]

theorem holds_bytesOf (words : ℕ → FixedPoint) {m : ℕ} (fits : m ≤ 2 ^ 31) :
    Holds (bytesOf words) 0 ((List.range m).map words) := by
  refine ⟨rfl, ?_⟩
  intro e he
  rw [List.length_map, List.length_range] at he
  have word := bytewise_bytesOf words (show (0 : BitVec 32).toNat < 2 by decide)
    (show e < 2 ^ 31 by omega)
  rw [List.getElem_map, List.getElem_range]
  rwa [bytewise, aligned_even rfl] at word

/-- An array as a transfer with bursts of `b` words reads it: a burst starts at half of where it
    is meant to start. -/
def asRead {α : Type*} [Zero α] (b : ℕ) (ws : List α) : List α :=
  (List.range ws.length).map fun n => ws.getD (b * (n / b) / 2 + n % b) 0

/-- No word is read from behind its own place. -/
theorem read_lt (b : ℕ) {n m : ℕ} (inside : n < m) : b * (n / b) / 2 + n % b < m := by
  have split := Nat.div_add_mod n b
  omega

section AsRead
variable {α β : Type*} [Zero α] [Zero β]

theorem asRead_length (b : ℕ) (ws : List α) : (asRead b ws).length = ws.length := by
  simp [asRead]

theorem asRead_burst {b : ℕ} {ws : List α} {q t : ℕ} (inside : t < b)
    (short : b * q + t < ws.length) :
    (asRead b ws).getD (b * q + t) 0 = ws.getD (b * q / 2 + t) 0 := by
  obtain ⟨number, place⟩ := place_split inside q
  simp [asRead, short, number, place]

theorem asRead_map {f : α → β} (zero : f 0 = 0) (b : ℕ) (ws : List α) :
    asRead b (ws.map f) = (asRead b ws).map f := by
  simp [asRead, List.getD_eq_getElem?_getD, ← zero]

theorem asRead_range (b : ℕ) (f : ℕ → α) (m : ℕ) : asRead b ((List.range m).map f) =
    (List.range m).map fun n => f (b * (n / b) / 2 + n % b) := by
  unfold asRead
  rw [List.length_map, List.length_range]
  apply List.map_congr_left
  intro n inside
  simp [read_lt b (List.mem_range.mp inside)]

theorem asRead_inside {P : α → Prop} {ws : List α} (inside : ∀ v ∈ ws, P v) (b : ℕ) :
    ∀ v ∈ asRead b ws, P v := by
  intro v member
  obtain ⟨n, range, rfl⟩ := List.mem_map.mp member
  have early := read_lt b (List.mem_range.mp range)
  rw [List.getD_eq_getElem ws 0 early]
  exact inside _ (List.getElem_mem early)

end AsRead

theorem fetch_asRead {bytes : BitVec 32 → BitVec 8} {base : BitVec 32} {ws : List FixedPoint}
    (holds : Holds bytes base ws) (k : Kind) {m : ℕ} (size : ws.length = k.burstSize * m) :
    fetch (bytewise bytes) k base (k.burstSize * m) = asRead k.burstSize ws := by
  refine fetch_ext (by rw [asRead_length, size]) ?_
  intro q burst t inside
  have short : k.burstSize * q + t < ws.length := by
    rw [size]
    exact place_lt burst inside
  rw [asRead_burst inside short, Kind.wordOffset, holds.even, Nat.zero_add,
    holds_word holds (by omega)]

theorem fetch_image {bytes : BitVec 32 → BitVec 8} {base : BitVec 32} {X : List FixedPoint}
    (holds : Holds bytes base X) (pixels : X.length = 784) :
    fetch (bytewise bytes) .image base 784 = asRead 49 X :=
  fetch_asRead holds .image (m := 16) pixels

theorem fetch_weight {bytes : BitVec 32 → BitVec 8} {base : BitVec 32} {W : List FixedPoint}
    (holds : Holds bytes base W) (entries : W.length = 48) :
    fetch (bytewise bytes) .weight base 48 = asRead 16 W :=
  fetch_asRead holds .weight (m := 3) entries

theorem slice_asRead {n : ℕ} {ws : List FixedPoint} {q : ℕ}
    (inside : n * (2 * q + 1) ≤ ws.length) : slice n (asRead n ws) (2 * q) = slice n ws q := by
  rw [Nat.mul_succ] at inside
  ext t ht : 1
  simp only [slice, Vector.getElem_ofFn]
  rw [asRead_burst ht (by omega), Nat.mul_left_comm, Nat.mul_div_cancel_left _ Nat.zero_lt_two]

namespace Accelerator

/-- With the arrays of main.c in the memory, every other window is a tile, in the order of the
    first eight, and class 2 is scored with the weights of class 1. -/
theorem arrays_loaded (bytes : ℕ → BitVec 32 → BitVec 8) (power : Accelerator)
    (calls : List (BitVec 32 × BitVec 32)) (c : BitVec 32 × BitVec 32) (ins : List In)
    (h : Answered (fun n => bytewise (bytes n)) power (calls ++ [c]) ins) (X W : List FixedPoint)
    (image : Holds (bytes (2 * calls.length)) c.1 X) (pixels : X.length = 784)
    (weights : Holds (bytes (2 * calls.length + 1)) c.2 W) (entries : W.length = 48) :
    ((run step power.reset ins).convBlockInst.convRegs = features (asRead 49 X) ∧
      (run step power.reset ins).nnInst.weightDataReg = rowsOf (asRead 16 W)) ∧
      (∀ (q : ℕ) (hq : q < 8), (run step power.reset ins).convBlockInst.convRegs[2 * q] =
        feature (slice 49 X q)) ∧
      (run step power.reset ins).nnInst.weightDataReg.get 2 = slice 16 W 1 := by
  obtain ⟨conv, rows⟩ := between_banks (answered_between h)
  rw [fetch_image image pixels] at conv
  rw [fetch_weight weights entries] at rows
  refine ⟨⟨conv, rows⟩, ?_, ?_⟩
  · intro q hq
    rw [conv, features, Vector.getElem_ofFn, slice_asRead (by omega)]
  · rw [rows]
    change (rowsOf (asRead 16 W))[2] = _
    rw [rowsOf, Vector.getElem_ofFn]
    exact slice_asRead (q := 1) (by omega)

/- An image of zeros, and weights each of whose bytes is its own address. -/

def ownAddress (n : ℕ) : BitVec 32 → BitVec 8 := if n = 1 then (·.setWidth 8) else fun _ => 0

def zeroPixels : List FixedPoint := List.replicate 784 0

def addressRows : List (List FixedPoint) :=
  (List.range 3).map fun j => (List.range 16).map fun t =>
    BitVec.ofNat 16 (257 * (16 * j + 2 * t) + 256)

def addressWeights : List FixedPoint :=
  (List.range 48).map fun e => BitVec.ofNat 16 (257 * (2 * e) + 256)

def addressCall : List In :=
  [] ++ promptPlace ++ silent idleBus :: promptLoad zeroImage ++
    silent idleBus :: promptLast addressRows ++ [silent (readBus 0)]

theorem address_answered :
    Answered (fun n => bytewise (ownAddress n)) powerUp [(0, 0)] addressCall :=
  .read .reset (prompt_call zeroImage addressRows) (by decide +kernel) (by decide +kernel)
    (by decide +kernel)

theorem address_image : Holds (ownAddress (2 * 0)) 0 zeroPixels := by
  refine ⟨rfl, ?_⟩
  intro e he
  simp only [zeroPixels, List.getElem_replicate]
  change (0 : BitVec 8) ++ (0 : BitVec 8) = (0 : BitVec 16)
  decide

theorem address_weights : Holds (ownAddress (2 * 0 + 1)) 0 addressWeights := by
  have words : ∀ e ∈ List.range 48,
      ownAddress 1 (0 + BitVec.ofNat 32 (2 * e + 1)) ++ ownAddress 1 (0 + BitVec.ofNat 32 (2 * e)) =
        BitVec.ofNat 16 (257 * (2 * e) + 256) := by
    decide +kernel
  refine ⟨rfl, ?_⟩
  intro e he
  simp only [addressWeights, List.length_map, List.length_range] at he
  simp only [addressWeights, List.getElem_map, List.getElem_range]
  exact words e (List.mem_range.mpr he)

theorem arrays_loaded_addresses :
    ((run step powerUp.reset addressCall).convBlockInst.convRegs =
        features (asRead 49 zeroPixels) ∧
      (run step powerUp.reset addressCall).nnInst.weightDataReg =
        rowsOf (asRead 16 addressWeights)) ∧
      (∀ (q : ℕ) (hq : q < 8),
        (run step powerUp.reset addressCall).convBlockInst.convRegs[2 * q] =
          feature (slice 49 zeroPixels q)) ∧
      (run step powerUp.reset addressCall).nnInst.weightDataReg.get 2 =
        slice 16 addressWeights 1 :=
  arrays_loaded ownAddress powerUp [] (0, 0) addressCall address_answered zeroPixels addressWeights
    address_image List.length_replicate address_weights (by decide)

structure SameBytes (b₁ b₂ : ℕ → BitVec 32 → BitVec 8) (n : ℕ) (c₁ c₂ : BitVec 32 × BitVec 32) :
    Prop where
  even : ∀ a ∈ [c₁.1, c₁.2, c₂.1, c₂.2], a.toNat % 2 = 0
  image : ∀ x < 832, b₁ (2 * n) (c₁.1 + BitVec.ofNat 32 x) = b₂ (2 * n) (c₂.1 + BitVec.ofNat 32 x)
  weights : ∀ x < 64,
    b₁ (2 * n + 1) (c₁.2 + BitVec.ofNat 32 x) = b₂ (2 * n + 1) (c₂.2 + BitVec.ofNat 32 x)

theorem same_scores {b₁ b₂ : ℕ → BitVec 32 → BitVec 8} {n : ℕ} {c₁ c₂ : BitVec 32 × BitVec 32}
    (same : SameBytes b₁ b₂ n c₁ c₂) :
    scoresOf (fun n => bytewise (b₁ n)) n c₁ = scoresOf (fun n => bytewise (b₂ n)) n c₂ := by
  have even := same.even
  simp only [List.forall_mem_cons, List.not_mem_nil, false_implies, implies_true,
    and_true] at even
  obtain ⟨image₁, weight₁, image₂, weight₂⟩ := even
  have image := fetch_footprint .image (m := 16) image₁ image₂ same.image
  have weight := fetch_footprint .weight (m := 3) weight₁ weight₂ same.weights
  simp only [Kind.burstSize_image, Kind.burstSize_weight, Nat.reduceMul] at image weight
  simp only [scoresOf, image, weight]

/-- The last 736 of the 1568 bytes of an image and the last 32 of the 96 bytes of the weights
    have no influence. -/
theorem unread_bytes (b₁ b₂ : ℕ → BitVec 32 → BitVec 8) (power₁ power₂ : Accelerator)
    (calls₁ calls₂ : List (BitVec 32 × BitVec 32)) (ins₁ ins₂ : List In)
    (h₁ : Answered (fun n => bytewise (b₁ n)) power₁ calls₁ ins₁)
    (h₂ : Answered (fun n => bytewise (b₂ n)) power₂ calls₂ ins₂)
    (size : calls₁.length = calls₂.length)
    (same : ∀ n c₁ c₂, calls₁[n]? = some c₁ → calls₂[n]? = some c₂ → SameBytes b₁ b₂ n c₁ c₂) :
    (run step power₁.reset ins₁).registerInst.asReaddata =
      (run step power₂.reset ins₂).registerInst.asReaddata := by
  rw [answered_result h₁, answered_result h₂]
  have scores : calls₁.mapIdx (scoresOf fun n => bytewise (b₁ n)) =
      calls₂.mapIdx (scoresOf fun n => bytewise (b₂ n)) := by
    apply List.ext_getElem (by simpa using size)
    intro n hn₁ hn₂
    rw [List.getElem_mapIdx, List.getElem_mapIdx]
    exact same_scores (same n _ _ (List.getElem?_eq_getElem _) (List.getElem?_eq_getElem _))
  rw [scores]

/- The same, with the rest of both buffers filled with ones. -/

def addressThenOnes (n : ℕ) : BitVec 32 → BitVec 8 := fun a =>
  if a < (if n = 1 then 64 else 832) then ownAddress n a else 255

def otherPowerUp : Accelerator :=
  { powerUp with registerInst := ⟨true, true, 7, 7, 7, 7, 7, 7, 7, 7⟩, argmaxInst := ⟨7, 2⟩ }

theorem unread_bytes_addresses :
    (run step powerUp.reset addressCall).registerInst.asReaddata =
      (run step otherPowerUp.reset addressCall).registerInst.asReaddata :=
  unread_bytes ownAddress addressThenOnes powerUp otherPowerUp [(0, 0)] [(0, 0)] addressCall
    addressCall address_answered
    (.read .reset (prompt_call zeroImage addressRows) (by decide +kernel) (by decide +kernel)
      (by decide +kernel)) rfl (by
    intro n c₁ c₂ first second
    match n with
    | 0 =>
      simp only [List.getElem?_cons_zero, Option.some.injEq] at first second
      subst first second
      exact ⟨by simp, by decide +kernel, by decide +kernel⟩
    | n + 1 => simp at first)

end Accelerator
end CnnAccelerator
