import CnnAccelerator.Scores
import CnnAccelerator.Transfers

/- Transfers of more windows than their bank has cells: conv_block checks the number of a
   window before it stores it, fully_connected_layer does not. -/
namespace CnnAccelerator
open Clocked Dma

/-- The newest of `m` windows whose number ends in the 4 bits of `k`. -/
def newest (m k : ℕ) : ℕ := k + 16 * ((m - 1 - k) / 16)

theorem newest_bounds {m k : ℕ} (hk : k < 16) (many : 16 ≤ m) :
    newest m k % 16 = k ∧ newest m k < m ∧ m ≤ newest m k + 16 := by
  unfold newest
  omega

theorem newest_first {k : ℕ} (hk : k < 16) : newest 16 k = k := by
  unfold newest
  omega

/-- The check of conv_block before a store: 'check that it fits in the array'. -/
def InArray (imageCnt : BitVec 4) : Prop := 0 ≤ imageCnt ∧ imageCnt ≤ 15

theorem in_array (imageCnt : BitVec 4) : InArray imageCnt := by
  unfold InArray
  bv_omega

namespace Accelerator

/-- An image transfer of whole windows, at least one for each register: `i` is the cycle that
    starts it, `ins` its cycles and `j` the one after, in which the last window is stored. -/
structure ImageTransfer (power : Accelerator) (pre : List In) (i : In) (ins : List In) (L : ℕ) :
    Prop where
  idle : (run step power.reset pre).dmaInst.state = .idle
  started : ((run step power.reset pre).dmaIn i.am).starts = some .image
  length : ((run step power.reset pre).dmaIn i.am).imageLength.toNat = L
  aligned : L % 49 = 0
  enough : 784 ≤ L
  inside : ∀ c ∈ trace step (run step power.reset (pre ++ [i])) ins, c.1.dmaInst.state ≠ .idle
  ended : (run step power.reset (pre ++ [i] ++ ins)).dmaInst.state = .idle

def words (s : Accelerator) (ins : List In) : List FixedPoint :=
  stored (trace am s.dmaInst (s.dmaInputs ins))

def imagePulses (s : Accelerator) (ins : List In) : List (Pulse Kind.image.burstSize) :=
  pulses .image ((states step s ins).map dmaInst)

/-- Surplus windows leave the feature map alone: every register has the window of its own
    number, and the check keeps windows 16 and up from the store. -/
structure WindowsKept (s : Accelerator) (ins : List In) (j : In) : Prop where
  stored : ∀ k (hk : k < 16), (run step s (ins ++ [j])).convBlockInst.convRegs[k] =
    feature (slice 49 (words s ins) k)
  rejected : ∀ n p, 16 ≤ n → (imagePulses s ins)[n]? = some p → ¬ InArray p.cnt

section Transfer
variable {power : Accelerator} {pre : List In} {i : In} {ins : List In} {L : ℕ}
  (t : ImageTransfer power pre i ins L)
include t

theorem transfer_finished : Finished .image ((run step power.reset pre).dmaIn i.am).imageAddr
    ((run step power.reset pre).dmaIn i.am).imageLength
    (run step power.reset (pre ++ [i])).dmaInst
    ((run step power.reset (pre ++ [i])).dmaInputs ins) := by
  apply busy_finished (begun_busy t.idle t.started)
  constructor
  · exact dma_inside t.inside
  · rw [← dma_run, ← run_append]
    exact t.ended

theorem transfer_words : (words (run step power.reset (pre ++ [i])) ins).length = L :=
  (transfer_finished t).done.length.1.symm.trans t.length

theorem transfer_pulses : imagePulses (run step power.reset (pre ++ [i])) ins =
    (List.range (L / 49)).map fun n => ⟨true, decide (n + 1 = L / 49), BitVec.ofNat 4 n,
      window Kind.image.burstSize ((words (run step power.reset (pre ++ [i])) ins).take
        (Kind.image.burstSize * (n + 1)))⟩ := by
  have sizes := finished_pulses (transfer_finished t)
    (by rw [t.length]; exact t.aligned) (by rw [t.length]; exact Nat.le_trans (by decide) t.enough)
  rw [t.length] at sizes
  unfold imagePulses
  rw [← dma_states]
  exact sizes

theorem transfer_windows :
    (imagePulses (run step power.reset (pre ++ [i])) ins).length = L / 49 := by
  rw [transfer_pulses t, List.length_map, List.length_range]

theorem transfer_ready (j : In) :
    (run step power.reset (pre ++ [i] ++ ins ++ [j])).convBlockInst.reluRegsReadyReg = true := by
  have start := (transfer_finished t).done.start
  rw [← dma_run, ← run_append] at start
  rw [run_append _ _ _ [j]]
  exact (step_passed (coupled_history power _) j .image).trans start

theorem transfer_registers (j : In) (k : ℕ) (hk : k < 16) :
    (run step (run step power.reset (pre ++ [i])) (ins ++ [j])).convBlockInst.convRegs[k] =
      feature (slice 49 (words (run step power.reset (pre ++ [i])) ins) (newest (L / 49) k)) := by
  have enough := t.enough
  have aligned := t.aligned
  obtain ⟨cell, inside, last⟩ := newest_bounds hk (show 16 ≤ L / 49 by omega)
  have bank := bank_run (coupled_history power (pre ++ [i])) ins j .image
  have shown : pulses .image ((states step (run step power.reset (pre ++ [i])) ins).map dmaInst) =
      _ := transfer_pulses t
  rw [shown, Bank.absorb_numbered] at bank
  have regs := congrArg (fun b : DataArray16bit => b[k]) bank
  refine regs.trans ?_
  rw [RingFill.fill_newest _ k hk cell
    (by rw [List.length_map, List.length_map, List.length_range]; exact inside)
    (by rw [List.length_map, List.length_map, List.length_range]; exact last)]
  rw [List.getElem_map, List.getElem_map, List.getElem_range, window_slice]
  · rfl
  · rw [transfer_words t, Kind.burstSize_image]
    omega

theorem windows_kept_iff (j : In) :
    (run step power.reset (pre ++ [i] ++ ins ++ [j])).convBlockInst.reluRegsReadyReg = true ∧
      (WindowsKept (run step power.reset (pre ++ [i])) ins j ↔ L = 784) ∧
      ((∀ k (hk : k < 16), (run step (run step power.reset (pre ++ [i]))
          (ins ++ [j])).convBlockInst.convRegs[k] =
            feature (slice 49 (words (run step power.reset (pre ++ [i])) ins) k)) ↔
        ∀ k < 16, feature (slice 49 (words (run step power.reset (pre ++ [i])) ins)
            (newest (L / 49) k)) =
          feature (slice 49 (words (run step power.reset (pre ++ [i])) ins) k)) := by
  have enough := t.enough
  have aligned := t.aligned
  have registers := transfer_registers t j
  refine ⟨transfer_ready t j, ⟨?_, ?_⟩, ⟨?_, ?_⟩⟩
  · intro kept
    by_contra more
    have surplus : 16 < (imagePulses (run step power.reset (pre ++ [i])) ins).length := by
      rw [transfer_windows t]
      omega
    exact kept.rejected 16 _ (Nat.le_refl 16) (List.getElem?_eq_getElem surplus) (in_array _)
  · intro exact
    have count : L / 49 = 16 := by omega
    constructor
    · intro k hk
      rw [registers k hk, count, newest_first hk]
    · intro n p surplus some
      rw [List.getElem?_eq_none (by rw [transfer_windows t]; omega)] at some
      contradiction
  · intro stored k hk
    rw [← registers k hk, stored k hk]
  · intro same k hk
    rw [registers k hk, same k hk]

end Transfer

def startImage (windows : ℕ) : List In :=
  [silent (writeBus 3 (BitVec.ofNat 32 (49 * windows))), silent (writeBus 0 1)]

def serving (image : List (List FixedPoint)) : List In := (serve image).map (⟨idleBus, ·⟩)

theorem windows_kept_ramp : WindowsKept (run step powerUp.reset (startImage 16 ++ [silent idleBus]))
    (serving rampImage) (silent idleBus) :=
  (windows_kept_iff (L := 784)
    ⟨by decide +kernel, by decide +kernel, by decide +kernel, rfl, by decide, by decide +kernel,
      by decide +kernel⟩ (silent idleBus)).2.1.mpr rfl

def surplusImage : List (List FixedPoint) :=
  List.replicate 16 (List.replicate 49 0) ++ [List.replicate 49 256]

theorem surplus_transfer : ImageTransfer powerUp (startImage 17) (silent idleBus)
    (serving surplusImage) 833 :=
  ⟨by decide +kernel, by decide +kernel, by decide +kernel, rfl, by decide, by decide +kernel,
    by decide +kernel⟩

theorem surplus_words : words (run step powerUp.reset (startImage 17 ++ [silent idleBus]))
    (serving surplusImage) = surplusImage.flatten := by
  decide +kernel

theorem surplus_window_overwrites :
    ImageTransfer powerUp (startImage 17) (silent idleBus) (serving surplusImage) 833 ∧
      (run step (run step powerUp.reset (startImage 17 ++ [silent idleBus]))
        (serving surplusImage ++ [silent idleBus])).convBlockInst.convRegs[0] = 2841 ∧
      feature (slice 49 (words (run step powerUp.reset (startImage 17 ++ [silent idleBus]))
        (serving surplusImage)) 0) = 474 ∧
      ¬ WindowsKept (run step powerUp.reset (startImage 17 ++ [silent idleBus]))
        (serving surplusImage) (silent idleBus) := by
  have white : (run step (run step powerUp.reset (startImage 17 ++ [silent idleBus]))
      (serving surplusImage ++ [silent idleBus])).convBlockInst.convRegs[0] = 2841 := by
    rw [transfer_registers surplus_transfer (silent idleBus) 0 (by decide), surplus_words]
    decide +kernel
  have black : feature (slice 49 (words (run step powerUp.reset (startImage 17 ++
      [silent idleBus])) (serving surplusImage)) 0) = 474 := by
    rw [surplus_words]
    decide +kernel
  refine ⟨surplus_transfer, white, black, fun kept => ?_⟩
  have same := kept.stored 0 (by decide)
  rw [white, black] at same
  exact absurd same (by decide)

end Accelerator

namespace Dma

/-- Runs whose starts latch lengths in `L` only, whatever the memory does. -/
def latches (L : Kind → BitVec 32 → Prop) : Monitor Dma In Unit where
  next _ _ _ := ()
  allow _ r i := ∀ k, r.state = .idle → i.starts = some k → L k (i.length k)

/-- Weights of one to three rows, the last one cut short or not. -/
def RowLength (k : Kind) (len : BitVec 32) : Prop :=
  k = .weight → 1 ≤ len.toNat ∧ len.toNat ≤ 48

instance (k : Kind) (len : BitVec 32) : Decidable (RowLength k len) :=
  inferInstanceAs (Decidable (_ → _))

theorem latched_row {r : Dma} (h : Latched RowLength r) (write : r.weight.write = true) :
    r.weight.cnt.toNat < 3 := by
  have up : (r.chan .weight).write = true := write
  show (r.chan .weight).cnt.toNat < 3
  obtain ⟨_, h⟩ := h
  cases h with
  | rest => exact absurd up (rest_no_pulse .weight)
  | @done _ k len ws h latched =>
    cases k with
    | image =>
      have other := h.other
      simp only [Kind.other] at other
      simp [other, Channel.cleared] at up
    | weight =>
      obtain ⟨pos, high⟩ := latched rfl
      have total := h.length.1
      rw [h.cnt, BitVec.toNat_ofNat, Kind.burstSize_weight]
      omega
  | @busy _ k p base len ws h latched =>
    obtain ⟨rfl, rfl, some⟩ := busy_pulse h up
    obtain ⟨pos, high⟩ := latched rfl
    have short := h.unfinished pos (by omega)
    have whole := h.aligned (by simp)
    have more := List.length_pos_iff.mpr some
    rw [h.cnt, BitVec.toNat_ofNat]
    simp only [Kind.burstSize_weight] at whole ⊢
    omega

theorem mem_pulses {k : Kind} {regs : List Dma} {p : Pulse k.burstSize}
    (member : p ∈ pulses k regs) :
    ∃ r ∈ regs, (r.chan k).write = p.write ∧ (r.chan k).cnt = p.cnt := by
  unfold pulses at member
  obtain ⟨r, inside, shown⟩ := List.mem_filterMap.mp member
  simp only [Option.ite_none_right_eq_some, Option.some.injEq] at shown
  obtain ⟨_, rfl⟩ := shown
  exact ⟨r, inside, rfl, rfl⟩

theorem fourth_row {r : Dma} {base len : BitVec 32} {ins : List In}
    (h : r.Busy .weight .start base len [])
    (inside : ∀ c ∈ trace am r ins, c.1.state ≠ .idle) (long : ¬ RowLength .weight len)
    (enough : (run am r ins).state = .idle ∨ 64 ≤ (stored (trace am r ins)).length) :
    ∃ r' ∈ states am r ins, (r'.chan .weight).write = true ∧ (r'.chan .weight).cnt = 3 := by
  have shown : ∃ p ∈ pulses .weight (states am r ins), p.write = true ∧ p.cnt = 3 := by
    rcases transfer_run h ins inside with ⟨p, u⟩ | f
    · have going := u.busy.state
      have rows : 64 ≤ (stored (trace am r ins)).length := by
        rcases enough with idle | rows
        · simp [idle] at going
        · exact rows
      rw [u.pulses]
      refine ⟨_, List.mem_map_of_mem (List.mem_range.mpr (?_ : 3 < _)), rfl, rfl⟩
      rw [Kind.burstSize_weight]
      omega
    · obtain ⟨total, pos, _⟩ := f.done.length
      have rows : 48 < (stored (trace am r ins)).length := by
        by_contra short
        exact long fun _ => by omega
      rw [f.pulses]
      by_cases last : ((stored (trace am r ins)).length - 1) / Kind.weight.burstSize = 3
      · refine ⟨lastPulse .weight (stored (trace am r ins)),
          List.mem_append_right _ (List.mem_singleton_self _), rfl, ?_⟩
        unfold lastPulse
        rw [last]
        rfl
      · refine ⟨_, List.mem_append_left _
          (List.mem_map_of_mem (List.mem_range.mpr (?_ : 3 < _))), rfl, rfl⟩
        rw [Kind.burstSize_weight] at last ⊢
        omega
  obtain ⟨p, member, write, cnt⟩ := shown
  obtain ⟨r', state, sameWrite, sameCnt⟩ := mem_pulses member
  exact ⟨r', state, sameWrite.trans write, sameCnt.trans cnt⟩

end Dma

namespace Accelerator

def latching (L : Kind → BitVec 32 → Prop) : Monitor Accelerator In Unit :=
  (latches L).comap dmaInst fun s i => s.dmaIn i.am

def RowInRange (s : Accelerator) : Prop :=
  s.dmaInst.weight.write = true → s.convBlockInst.reluRegsReadyReg = false →
    s.dmaInst.weight.cnt.toNat < 3

theorem latched_run {L : Kind → BitVec 32 → Prop} (power : Accelerator) {ins : List In}
    (ok : (latching L).Allows step () power.reset ins) :
    Latched L (run step power.reset ins).dmaInst :=
  (latching L).allows_invariant step (P := fun s _ => Latched L s.dmaInst)
    (latched_rest L) (fun _ _ _ h allowed => latched_step h allowed) ok

theorem rows_in_range (power : Accelerator) {ins : List In}
    (ok : (latching RowLength).Allows step () power.reset ins) :
    ∀ s ∈ states step power.reset ins, RowInRange s := by
  intro s member
  obtain ⟨xs, ys, rfl, rfl⟩ := mem_states.mp member
  intro write _
  exact latched_row (latched_run power ((latching RowLength).allows_left step ok)) write

theorem row_escapes (power : Accelerator) {ins : List In}
    (up : (run step power.reset ins).dmaInst.weight.write = true)
    (fourth : (run step power.reset ins).dmaInst.weight.cnt = 3) :
    ¬ RowInRange (run step power.reset ins) := by
  intro inRange
  have low : (run step power.reset ins).convBlockInst.reluRegsReadyReg = false := by
    apply Bool.eq_false_iff.mpr
    intro passed
    have none := ((coupled_history power ins).fresh .image passed).2.1 .weight
    simp [pulses, chan, up] at none
  have small := inRange up low
  rw [fourth] at small
  exact absurd small (by decide)

/-- Weights of at most three rows keep the row number in range, and any other length takes it
    out as soon as the memory has delivered a fourth row. -/
theorem row_index_in_range (power : Accelerator) :
    (∀ ins, (latching RowLength).Allows step () power.reset ins →
      RowInRange (run step power.reset ins)) ∧
    ∀ pre i ins, (run step power.reset pre).dmaInst.state = .idle →
      ((run step power.reset pre).dmaIn i.am).starts = some .weight →
      ¬ RowLength .weight ((run step power.reset pre).dmaIn i.am).weightLength →
      (∀ c ∈ trace step (run step power.reset (pre ++ [i])) ins, c.1.dmaInst.state ≠ .idle) →
      ((run step power.reset (pre ++ [i] ++ ins)).dmaInst.state = .idle ∨
        64 ≤ (words (run step power.reset (pre ++ [i])) ins).length) →
      ∃ s ∈ states step (run step power.reset (pre ++ [i])) ins, ¬ RowInRange s := by
  constructor
  · intro ins ok write _
    exact latched_row (latched_run power ok) write
  · intro pre i ins idle started long inside enough
    rw [run_append _ _ _ ins, dma_run] at enough
    obtain ⟨r, member, write, cnt⟩ := fourth_row (begun_busy idle started)
      (dma_inside inside) long enough
    rw [dma_states, List.mem_map] at member
    obtain ⟨s, state, rfl⟩ := member
    refine ⟨s, state, ?_⟩
    obtain ⟨xs, ys, rfl, rfl⟩ := mem_states.mp state
    rw [← run_append] at write cnt ⊢
    exact row_escapes power write cnt

theorem environment_latches {L : Kind → BitVec 32 → Prop} {m : Responses} {s : Accelerator}
    {ins : List In} (ok : (environment L).Allows step m s ins) :
    (latching L).Allows step () s ins := by
  induction ins generalizing s m with
  | nil => trivial
  | cons i ins ih => exact ⟨ok.1.2, ih ok.2⟩

theorem row_index_three_rows :
    (run step powerUp.reset weightsOnly.dropLast).dmaInst.weight.write = true ∧
      RowInRange (run step powerUp.reset weightsOnly.dropLast) :=
  ⟨by decide +kernel, (row_index_in_range powerUp).1 weightsOnly.dropLast
    (environment_latches (L := RowLength) (m := .none) (by decide +kernel))⟩

def fourRows : List In :=
  [silent (writeBus 5 64), silent (writeBus 1 1), silent idleBus] ++
    serving (List.replicate 4 (List.replicate 16 0))

theorem row_index_four_rows :
    (environment fun _ _ => True).Allows step .none powerUp.reset fourRows ∧
      (run step powerUp.reset fourRows).dmaInst.weight.write = true ∧
      (run step powerUp.reset fourRows).convBlockInst.reluRegsReadyReg = false ∧
      (run step powerUp.reset fourRows).dmaInst.weight.cnt.toNat = 3 ∧
      ¬ RowInRange (run step powerUp.reset fourRows) := by
  have cnt : (run step powerUp.reset fourRows).dmaInst.weight.cnt.toNat = 3 := by decide +kernel
  have write : (run step powerUp.reset fourRows).dmaInst.weight.write = true := by decide +kernel
  have low : (run step powerUp.reset fourRows).convBlockInst.reluRegsReadyReg = false := by
    decide +kernel
  refine ⟨by decide +kernel, write, low, cnt, fun inRange => ?_⟩
  have small := inRange write low
  omega

end Accelerator
end CnnAccelerator
