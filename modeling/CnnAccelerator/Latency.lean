import CnnAccelerator.Driver

/- How many cycles a transfer takes: one for each word, two for each command, and those the
   memory wastes. From it, how long pred_image has to wait. -/
namespace CnnAccelerator
open Clocked

namespace Dma

/-- A cycle in which the memory stalls a command or leaves a gap between two words. -/
def wasted (r : Dma) (i : In) : Bool :=
  match r.state with
  | .burst _ .wait => i.waitrequest
  | .burst _ .read => !i.readdatavalid
  | _ => false

/-- The useful cycles of a transfer up to its phase `p` with `n` words. -/
def spent (k : Kind) (p : Phase) (n : ℕ) : ℕ :=
  n + 2 * (n / k.burstSize) +
    match p with
    | .start => 0
    | .wait => 1
    | .read => 2

def cycles (k : Kind) (n : ℕ) : ℕ := n + 2 * ((n - 1) / k.burstSize + 1)

theorem spent_step {r : Dma} {k : Kind} {p : Phase} {base len : BitVec 32} {ws : List FixedPoint}
    (h : r.Busy k p base len ws) (i : In) :
    spent k (nextPhase k p ws.length i) (store ws r i).length + (if r.wasted i then 1 else 0) =
      spent k p ws.length + 1 := by
  cases p with
  | start => simp [spent, nextPhase, store, stores, wasted, h.state]
  | wait => cases go : i.waitrequest <;> simp [spent, nextPhase, store, stores, wasted, h.state, go]
  | read =>
    cases valid : i.readdatavalid with
    | false => simp [spent, nextPhase, store, stores, wasted, h.state, valid]
    | true =>
      rw [store_word h.state valid]
      by_cases full : (ws.length + 1) % k.burstSize = 0
      · simp [spent, nextPhase, wasted, h.state, valid, full, div_full full]
        omega
      · simp [spent, nextPhase, wasted, h.state, valid, full, div_inside full]
        omega

theorem spent_last (k : Kind) (n : ℕ) : spent k .read n + 1 = cycles k (n + 1) := by
  simp only [spent, cycles, Nat.add_sub_cancel]
  omega

theorem spent_lt (k : Kind) (p : Phase) {n len : ℕ} (short : n < len) :
    spent k p n < cycles k len := by
  have windows : n / k.burstSize ≤ (len - 1) / k.burstSize := Nat.div_le_div_right (by omega)
  unfold spent cycles
  cases p <;> simp only <;> omega

theorem rest_run {r : Dma} {ins : List In} (idle : r.state = .idle)
    (calm : ∀ i ∈ ins, i.starts = none) :
    (run am r ins).state = .idle ∧ (trace am r ins).countP (fun c => c.1.wasted c.2) = 0 := by
  induction ins generalizing r with
  | nil => exact ⟨idle, rfl⟩
  | cons i ins ih =>
    have rest := unstarted_rest idle (calm i (by simp))
    have next : (r.am i).state = .idle := by
      rw [rest]
      rfl
    obtain ⟨still, none⟩ := ih next fun j member => calm j (by simp [member])
    refine ⟨still, ?_⟩
    rw [trace_cons, List.countP_cons_of_neg (by simp [wasted, idle]), none]

theorem busy_idle_iff {r : Dma} {k : Kind} {p : Phase} {base len : BitVec 32}
    {ws : List FixedPoint} (h : r.Busy k p base len ws)
    (fits : 0 < len.toNat ∧ len.toNat ≤ 2 ^ 17) {ins : List In}
    (calm : ∀ i ∈ ins, i.starts = none) :
    (run am r ins).state = .idle ↔
      cycles k len.toNat + (trace am r ins).countP (fun c => c.1.wasted c.2) ≤
        spent k p ws.length + ins.length := by
  induction ins generalizing r p ws with
  | nil =>
    have short := spent_lt k p (h.unfinished fits.1 fits.2)
    rw [run_nil, h.state]
    simp
    omega
  | cons i ins ih =>
    have later : ∀ j ∈ ins, j.starts = none := fun j member => calm j (by simp [member])
    rw [run_cons, trace_cons, List.countP_cons, List.length_cons]
    dsimp only
    rcases busy_step h i with ⟨next, _⟩ | ⟨done, rfl, valid, last⟩
    · have step := spent_step h i
      rw [ih next later]
      omega
    · obtain ⟨still, none⟩ := rest_run done.state later
      have useful : r.wasted i = false := by simp [wasted, h.state, valid]
      have total := spent_last k ws.length
      rw [none, useful, last.1, ← total]
      simp [still]

theorem takes_length {k : Kind} {len : ℕ} {p : Phase} {n : ℕ} {ms rest : List MasterIn}
    {us : List FixedPoint} (enough : takes k len p n ms = some (us, rest)) :
    cycles k len + rest.length ≤ spent k p n + ms.length := by
  induction ms generalizing p n us with
  | nil => simp [takes] at enough
  | cons m ms ih =>
    rw [List.length_cons]
    cases p with
    | start =>
      have later := ih enough
      simp only [spent] at later ⊢
      omega
    | wait =>
      simp only [takes] at enough
      have later := ih enough
      split at later <;> simp only [spent] at later ⊢ <;> omega
    | read =>
      simp only [takes] at enough
      split at enough
      · split at enough
        · rename_i last
          obtain ⟨rfl, rfl⟩ := Prod.mk.inj (Option.some.inj enough)
          have total := spent_last k n
          rw [← last]
          omega
        · obtain ⟨⟨vs, rest'⟩, some, eq⟩ := Option.map_eq_some_iff.mp enough
          obtain ⟨rfl, rfl⟩ := Prod.mk.inj eq
          have later := ih some
          by_cases full : (n + 1) % k.burstSize = 0
          · simp only [spent, full, ↓reduceIte, div_full full] at later ⊢
            omega
          · simp only [spent, full, ↓reduceIte, div_inside full] at later ⊢
            omega
      · have later := ih enough
        omega

end Dma

namespace Accelerator
open Dma

def wasted (s : Accelerator) (i : In) : Bool := s.dmaInst.wasted (s.dmaIn i.am)

theorem quiet_calm {s : Accelerator} {ins : List In} (quiet : Quiet s ins) :
    ∀ i ∈ s.dmaInputs ins, i.starts = none := by
  intro i member
  obtain ⟨c, within, rfl⟩ := List.mem_map.mp member
  exact quiet_starts (fun k => quiet c within k) _

theorem inputs_length (s : Accelerator) (ins : List In) :
    (s.dmaInputs ins).length = ins.length := by
  induction ins generalizing s with
  | nil => rfl
  | cons i ins ih => exact congrArg (· + 1) (ih (s.step i))

/-- The exact length of a transfer: begun in cycle `i`, with no other start up to then, it is over
    after a cycle for each word, two for each command, and the cycles that the memory wastes. -/
theorem transfer_latency (power : Accelerator) (k : Kind) (pre : List In) (i : In) (ins : List In)
    (idle : (run step power.reset pre).dmaInst.state = .idle)
    (started : ((run step power.reset pre).dmaIn i.am).starts = some k)
    (low : 1 ≤ (((run step power.reset pre).dmaIn i.am).length k).toNat)
    (high : (((run step power.reset pre).dmaIn i.am).length k).toNat ≤ 131072)
    (quiet : Quiet (run step power.reset (pre ++ [i])) ins) :
    (run step power.reset (pre ++ [i] ++ ins)).dmaInst.state = .idle ↔
      cycles k (((run step power.reset pre).dmaIn i.am).length k).toNat +
        (trace step (run step power.reset (pre ++ [i])) ins).countP (fun c => wasted c.1 c.2) ≤
          ins.length := by
  have ended := busy_idle_iff (begun_busy idle started) ⟨low, high⟩ (quiet_calm quiet)
  rw [run_append _ _ _ ins, dma_run, ended, dma_trace, List.countP_map, inputs_length]
  have none : spent k .start ([] : List FixedPoint).length = 0 := by simp [spent]
  rw [none, Nat.zero_add]
  exact Iff.rfl

def startWindow : List In := [silent (writeBus 3 49), silent (writeBus 0 1)]

def stalledWindow : List In :=
  stalled idleBus :: stalled idleBus :: silent idleBus ::
    List.replicate 49 ⟨idleBus, ⟨true, 7, false⟩⟩

theorem stalledWindow_calm : Calm (stalledWindow.map In.as).dropLast := by
  have waiting : (stalledWindow.map In.as).dropLast = waits 51 := by decide +kernel
  rw [waiting]
  exact calm_waits 51

theorem transfer_latency_stalled :
    (run step powerUp.reset
        (startWindow ++ [silent idleBus] ++ stalledWindow)).dmaInst.state = .idle ↔
      cycles .image 49 + (trace step (run step powerUp.reset (startWindow ++ [silent idleBus]))
        stalledWindow).countP (fun c => wasted c.1 c.2) ≤ stalledWindow.length :=
  transfer_latency powerUp .image startWindow (silent idleBus) stalledWindow (by decide)
    (by decide) (by decide) (by decide) (quiet_of_calm (by decide) stalledWindow_calm)

def loadCycles (t : Timing) (waitTime : BitVec 8) : ℕ :=
  t.gap .image 3 + waitTime.toNat * t.round + t.gap .weight 0 + t.gap .weight 1 +
    t.gap .weight 2 + 3

def lastCycles (t : Timing) (waitTime : BitVec 8) : ℕ :=
  t.gap .weight 3 + waitTime.toNat * t.round + t.gap .weight 4

section Calls
variable {t : Timing} {waitTime : BitVec 8} {image weights : BitVec 32} {place : List In} {i : In}
  {load : List In} {j : In} {last : List In} {r : In}
  (call : Call t waitTime image weights place i load j last r)
include call

theorem call_lengths :
    load.length = loadCycles t waitTime ∧ last.length = lastCycles t waitTime := by
  have first := congrArg List.length call.load
  have second := congrArg List.length call.last
  simp [placeWeights, readResult, spin, setUp, waits] at first second
  unfold loadCycles lastCycles
  omega

theorem finished_long {power : Accelerator} {pre : List In}
    (finished : ReadsFinished power pre place i load j last r) :
    816 ≤ loadCycles t waitTime ∧ 56 ≤ lastCycles t waitTime := by
  have idle := (begins_iff_idle (call_image_pulse call power pre).1).mp finished.image
  have again := (begins_iff_idle (call_weight_pulse call power pre).1).mp finished.weight
  obtain ⟨X, restX, takesX, _⟩ :=
    servedWithin_iff.mp ((call_weight_idle call power pre idle).mp again)
  obtain ⟨W, restW, takesW, spare⟩ :=
    servedWithin_iff.mp ((call_sampled call power pre again).mp finished.sampled)
  have image := takes_length takesX
  have weight := takes_length takesW
  obtain ⟨sizeX, sizeW⟩ := call_lengths call
  rw [List.length_map] at image weight
  simp [cycles, spent, Kind.wholeLength] at image weight
  omega

end Calls

theorem answered_am (bus : List RegisterMap.In) (ms : List MasterIn)
    (room : ms.length ≤ bus.length) : (answered bus ms).map In.am =
      ms ++ List.replicate (bus.length - ms.length) ⟨false, 0, false⟩ := by
  induction bus generalizing ms with
  | nil =>
    obtain rfl := List.length_eq_zero_iff.mp (Nat.le_zero.mp room)
    rfl
  | cons b bus ih =>
    cases ms with
    | nil => simpa [answered, silent, List.replicate_succ] using ih [] (Nat.zero_le _)
    | cons m ms => simpa [answered] using ih ms (by simpa using room)

theorem served_prompt {k : Kind} {spare : ℕ} {bus : List RegisterMap.In} {ms : List MasterIn}
    {us : List FixedPoint} (serves : takes k k.wholeLength .start 0 ms = some (us, []))
    (room : ms.length + spare ≤ bus.length) : servedWithin k spare (answered bus ms) = true := by
  refine servedWithin_iff.mpr
    ⟨us, [] ++ List.replicate (bus.length - ms.length) ⟨false, 0, false⟩, ?_, ?_⟩
  · rw [answered_am bus ms (by omega)]
    exact takes_more serves _
  · simp
    omega

theorem answered_call (t : Timing) (waitTime : BitVec 8) (image weights : BitVec 32) :
    ∃ b bus c bus', ∀ ms ms', Call t waitTime image weights (answered (placeImage t image) [])
      (silent b) (answered bus ms) (silent c) (answered bus' ms') (silent (readBus 0)) := by
  obtain ⟨b, bus, first⟩ : ∃ b bus, placeWeights t waitTime weights = b :: bus :=
    List.exists_cons_of_ne_nil (by simp [placeWeights, spin])
  obtain ⟨c, bus', second⟩ :
      ∃ c bus', spin t .weight waitTime ++ waits (t.gap .weight 4) = c :: bus' :=
    List.exists_cons_of_ne_nil (by simp [spin])
  refine ⟨b, bus, c, bus', fun ms ms' => ⟨answered_as _ _, ?_, ?_⟩⟩
  · rw [List.map_cons, answered_as, first]
    rfl
  · rw [List.map_append, List.map_cons, answered_as, readResult, second]
    rfl

theorem placed_idle (t : Timing) (image : BitVec 32) :
    (run step powerUp.reset (answered (placeImage t image) [])).dmaInst.state = .idle := by
  have quiet : Quiet powerUp.reset (answered (placeImage t image) []) := by
    apply quiet_of_calm
    · intro k
      cases k <;> rfl
    · rw [answered_as]
      exact calm_setUp t .image image
  exact (quiet_idle rfl quiet []).1

/-- pred_image can read a finished result exactly when its two fixed delays last for 816 and for
    56 cycles: with less there is no memory fast enough. -/
theorem delay_long_enough_iff (t : Timing) (waitTime : BitVec 8) (image weights : BitVec 32) :
    (∃ power pre place i load j last r, Call t waitTime image weights place i load j last r ∧
        ReadsFinished power pre place i load j last r) ↔
      816 ≤ loadCycles t waitTime ∧ 56 ≤ lastCycles t waitTime := by
  constructor
  · rintro ⟨power, pre, place, i, load, j, last, r, call, finished⟩
    exact finished_long call finished
  · rintro ⟨loads, lasts⟩
    obtain ⟨b, bus, c, bus', calls⟩ := answered_call t waitTime image weights
    have call := calls (serve rampImage) (serve rampWeight)
    obtain ⟨sizeX, sizeW⟩ := call_lengths call
    have busX := congrArg List.length (answered_as bus (serve rampImage))
    have busW := congrArg List.length (answered_as bus' (serve rampWeight))
    rw [List.length_map] at busX busW
    have lengthX : (serve rampImage).length = 816 := by decide +kernel
    have lengthW : (serve rampWeight).length = 54 := by decide +kernel
    have takesX : takes .image 784 .start 0 (serve rampImage) = some (rampImage.flatten, []) := by
      decide +kernel
    have takesW : takes .weight 48 .start 0 (serve rampWeight) =
        some (rampWeight.flatten, []) := by
      decide +kernel
    exact ⟨powerUp, [], _, _, _, _, _, _, call, (reads_finished_iff call powerUp []).mpr
      ⟨placed_idle t image, served_prompt takesX (by omega), served_prompt takesW (by omega)⟩⟩

end Accelerator
end CnnAccelerator
