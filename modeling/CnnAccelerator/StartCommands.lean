import CnnAccelerator.Accelerator
import CnnAccelerator.AvalonSlave

/- Start writes of the driver against transfers begun by the dma. A start is a pulse of
   one cycle after the write, and the dma looks at it in IDLE only. -/
namespace CnnAccelerator

def Kind.startAddress : Kind → BitVec 3
  | .image => 0
  | .weight => 1

namespace Accelerator
open Clocked

def startWrite (k : Kind) (i : In) : Bool :=
  i.as.write && i.as.address == k.startAddress && i.as.writedata.getLsbD 0

def startReg (s : Accelerator) : Kind → Bool
  | .image => s.registerInst.startImageReg
  | .weight => s.registerInst.startWeightReg

def begins (k : Kind) (s : Accelerator) (i : In) : Bool :=
  s.dmaInst.state = .idle ∧ (s.step i).dmaInst.state = .burst k .start

/-- A start write whose pulse meets the dma in IDLE. -/
def honoured (k : Kind) (s : Accelerator) (i : In) : Bool :=
  startWrite k i ∧ (s.step i).dmaInst.state = .idle

theorem startReg_step (s : Accelerator) (i : In) (k : Kind) :
    (s.step i).startReg k = startWrite k i := by
  cases k <;>
    simp only [startReg, step, clock, RegisterMap.step, RegisterMap.slaveWrite, startWrite,
      Kind.startAddress] <;>
    split <;> (try split) <;> simp_all

theorem startReg_exclusive (power : Accelerator) (ins : List In) :
    ¬ ((run step power.reset ins).startReg .image = true ∧
      (run step power.reset ins).startReg .weight = true) := by
  apply run_invariant (P := fun s => ¬ (startReg s .image = true ∧ startReg s .weight = true))
  · simp [startReg, reset, RegisterMap.reset]
  · intro s i _
    rw [startReg_step, startReg_step]
    simp only [startWrite, Kind.startAddress, Bool.and_eq_true, beq_iff_eq]
    rintro ⟨⟨⟨_, image⟩, _⟩, ⟨⟨_, weight⟩, _⟩⟩
    simp [image] at weight

def pulsing (k : Kind) (s : Accelerator) : Bool := s.dmaInst.state = .idle ∧ s.startReg k

theorem dmaIn_starts {s : Accelerator} {k : Kind} (i : MasterIn)
    (one : ¬ (s.startReg .image = true ∧ s.startReg .weight = true)) :
    (s.dmaIn i).starts = some k ↔ s.startReg k = true := by
  simp only [startReg, not_and, Bool.not_eq_true] at one
  cases image : s.registerInst.startImageReg <;> cases weight : s.registerInst.startWeightReg <;>
    cases k <;> simp_all [Dma.In.starts, dmaIn, startReg]

theorem begins_pulse {s : Accelerator} {i : In} {k : Kind} (begun : begins k s i = true) :
    s.dmaInst.state = .idle ∧ (s.dmaIn i.am).starts = some k := by
  obtain ⟨idle, next⟩ := of_decide_eq_true begun
  refine ⟨idle, ?_⟩
  rw [step_dmaInst] at next
  rcases Dma.idle_step idle (s.dmaIn i.am) with ⟨_, rest⟩ | ⟨k', some, busy⟩
  · rw [rest] at next
    contradiction
  · rw [busy.state] at next
    obtain ⟨rfl, _⟩ := StateType.burst.inj next
    exact some

theorem begins_eq_pulsing {s : Accelerator} (k : Kind) (i : In)
    (one : ¬ (s.startReg .image = true ∧ s.startReg .weight = true)) :
    begins k s i = pulsing k s := by
  unfold begins pulsing
  rw [Bool.eq_iff_iff, decide_eq_true_iff, decide_eq_true_iff]
  apply and_congr_right
  intro idle
  rw [← dmaIn_starts i.am one, step_dmaInst]
  rcases Dma.idle_step idle (s.dmaIn i.am) with ⟨none, rest⟩ | ⟨k', some, busy⟩
  · simp [none, rest, Dma.reset]
  · simp [some, busy.state]

theorem pulsing_step (k : Kind) (s : Accelerator) (i : In) :
    pulsing k (s.step i) = honoured k s i := by
  simp only [pulsing, honoured, startReg_step, and_comm]

theorem begun_count (k : Kind) (power : Accelerator) (ins : List In) :
    (trace step power.reset ins).countP (fun c => begins k c.1 c.2) +
        (if pulsing k (run step power.reset ins) then 1 else 0) =
      (trace step power.reset ins).countP (fun c => honoured k c.1 c.2) := by
  induction ins using List.reverseRecOn with
  | nil => cases k <;> rfl
  | append_singleton ins i ih =>
    have one := startReg_exclusive power ins
    simp only [trace_append, trace_cons, trace_nil, List.countP_append, List.countP_singleton,
      run_append, run_cons, run_nil, pulsing_step, begins_eq_pulsing k i one, ih.symm]

/-- With no pulse up, the transfers begun are the start writes whose
    pulse met the dma in IDLE: a start during a transfer is dropped. -/
theorem starts_honoured (k : Kind) (power : Accelerator) (ins : List In)
    (calm : (run step power.reset ins).startReg k = false) :
    (trace step power.reset ins).countP (fun c => begins k c.1 c.2) =
      (trace step power.reset ins).countP (fun c => honoured k c.1 c.2) := by
  simpa [pulsing, calm] using begun_count k power ins

def lostStart : List In :=
  [silent (writeBus 3 1), silent (writeBus 0 1), silent idleBus, silent (writeBus 0 1),
    silent idleBus, ⟨idleBus, ⟨true, 7, false⟩⟩]

theorem starts_honoured_lost_start :
    (trace step powerUp.reset lostStart).countP (fun c => begins .image c.1 c.2) =
      (trace step powerUp.reset lostStart).countP (fun c => honoured .image c.1 c.2) :=
  starts_honoured .image powerUp lostStart (by decide +kernel)

theorem start_during_transfer_lost :
    (run step powerUp.reset lostStart).dmaInst.state = .idle ∧
      (∀ k, (run step powerUp.reset lostStart).startReg k = false) ∧
      (trace step powerUp.reset lostStart).countP (fun c => begins .image c.1 c.2) = 1 ∧
      (trace step powerUp.reset lostStart).countP (fun c => startWrite .image c.2) = 2 := by
  refine ⟨by decide +kernel, ?_, by decide +kernel, by decide +kernel⟩
  intro k
  cases k <;> decide +kernel

end Accelerator
end CnnAccelerator
