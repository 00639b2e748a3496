import CnnAccelerator.Accelerator
import CnnAccelerator.AvalonMaster

/- The simulator's reading of the two processes with incomplete sensitivity lists: they
   recompute when a listed signal changes and show their last outputs otherwise. The
   clocked processes and the processes with complete lists are those of the circuit. -/
namespace CnnAccelerator
open Clocked

structure AmList where
  stateReg : StateType
  startImage : Bool
  startWeight : Bool
  waitrequest : Bool
  burstCntWeightReg : BitVec 9
  wordCntReg : BitVec 17
  readdatavalid : Bool
  deriving DecidableEq, Repr

def amList (r : Dma) (i : Dma.In) : AmList :=
  ⟨r.state, i.startImage, i.startWeight, i.waitrequest, r.weight.burstCnt, r.wordCnt,
    i.readdatavalid⟩

def convList (r : Dma) : Bool × Bool := (r.image.write, r.image.start)

structure EventDriven where
  circuit : Accelerator
  amSeen : AmList
  amNext : Dma
  convSeen : Bool × Bool
  convReg : FixedPoint
  deriving DecidableEq, Repr

namespace EventDriven

def amOut (e : EventDriven) (i : Accelerator.In) : Dma :=
  let r := e.circuit.dmaInst
  let j := e.circuit.dmaIn i.am
  if amList r j = e.amSeen then e.amNext else r.am j

def convOut (e : EventDriven) : FixedPoint :=
  let r := e.circuit.dmaInst
  if convList r = e.convSeen then e.convReg else convFilter r.image.data

def step (e : EventDriven) (i : Accelerator.In) : EventDriven :=
  { circuit := e.circuit.clock i (e.amOut i) e.convOut
    amSeen := amList e.circuit.dmaInst (e.circuit.dmaIn i.am)
    amNext := e.amOut i
    convSeen := convList e.circuit.dmaInst
    convReg := e.convOut }

/-- When reset is released `AM` has run on the reset state, under whatever the master
    inputs were; conv_filter shows an arbitrary value. -/
def afterReset (power : Accelerator) (i : MasterIn) (shown : FixedPoint) : EventDriven :=
  { circuit := power.reset
    amSeen := amList Dma.reset (power.reset.dmaIn i)
    amNext := Dma.reset.am (power.reset.dmaIn i)
    convSeen := convList Dma.reset
    convReg := shown }

theorem am_settled (r : Dma) (i j : Dma.In) (quiet : amList (r.am i) j = amList r i) :
    (r.am i).am j = r.am i := by
  simp only [amList, AmList.mk.injEq] at quiet
  obtain ⟨state, image, weight, wait, _, word, valid⟩ := quiet
  cases h : r.state with
  | idle =>
    rcases Dma.idle_step h i with ⟨none, rest⟩ | ⟨k, _, busy⟩
    · have still : j.starts = Option.none := by
        simpa [Dma.In.starts, image, weight] using none
      rw [rest]
      exact Dma.unstarted_rest rfl still
    · simp [busy.state, h] at state
  | burst k p =>
    cases p with
    | start => simp [Dma.am_start i h, Dma.burstStart, h] at state
    | wait =>
      cases stall : i.waitrequest with
      | false => simp [Dma.am_wait i h, Dma.burstWait, stall, h] at state
      | true =>
        have held (l : Dma.In) (stalled : l.waitrequest = true) : r.am l = r := by
          rw [Dma.am_wait l h]
          simp [Dma.burstWait, stalled, ← h]
        rw [held i stall, held j (wait.trans stall)]
    | read =>
      cases gap : i.readdatavalid with
      | false =>
        have held (l : Dma.In) (none : l.readdatavalid = false) : r.am l = r := by
          rw [Dma.am_read l h]
          simp [Dma.burstRead, none, ← h]
        rw [held i gap, held j (valid.trans gap)]
      | true =>
        -- a word moves the word counter even where it leaves the state alone
        rw [Dma.read_wordCnt h gap] at word
        bv_omega

/-- What the two processes showed last, against the state of the circuit. -/
structure Faithful (e : EventDriven) : Prop where
  reached : e.circuit.dmaInst.Reached
  shown : e.amNext = e.circuit.dmaInst
  before : ∃ r i, e.amSeen = amList r i ∧ r.am i = e.circuit.dmaInst
  pulse : e.circuit.dmaInst.image.write = true → e.convSeen.1 = false

theorem faithful_am {e : EventDriven} (h : Faithful e) (i : Accelerator.In) :
    e.amOut i = e.circuit.dmaInst.am (e.circuit.dmaIn i.am) := by
  obtain ⟨r, j, seen, edge⟩ := h.before
  simp only [amOut]
  split
  · rename_i quiet
    rw [seen, ← edge] at quiet
    rw [h.shown, ← edge]
    exact (am_settled r j _ quiet).symm
  · rfl

theorem faithful_conv {e : EventDriven} (h : Faithful e)
    (read : e.circuit.dmaInst.image.write = true) :
    e.convOut = convFilter e.circuit.dmaInst.image.data := by
  have changed : convList e.circuit.dmaInst ≠ e.convSeen := by
    intro same
    have low := h.pulse read
    rw [← same, convList, read] at low
    simp at low
  simp [convOut, changed]

theorem faithful_circuit {e : EventDriven} (h : Faithful e) (i : Accelerator.In) :
    (e.step i).circuit = e.circuit.step i := by
  have am := faithful_am h i
  cases read : e.circuit.dmaInst.image.write with
  | true => simp only [step, Accelerator.step, am, faithful_conv h read]
  | false => simp [step, Accelerator.step, am, Accelerator.clock, ConvBlock.regs, read]

theorem faithful_step {e : EventDriven} (h : Faithful e) (i : Accelerator.In) :
    Faithful (e.step i) := by
  have circuit := faithful_circuit h i
  constructor
  · rw [circuit]
    exact Dma.reached_step h.reached _
  · rfl
  · exact ⟨e.circuit.dmaInst, e.circuit.dmaIn i.am, rfl, by rw [circuit]; rfl⟩
  · rw [circuit]
    intro up
    by_contra low
    have was : e.circuit.dmaInst.image.write = true := by simpa [step, convList] using low
    have single := Dma.pulse_single (k := .image) h.reached (e.circuit.dmaIn i.am) was
    simp only [Accelerator.step_dmaInst] at up
    exact absurd up (by simpa [Dma.chan] using single)

theorem faithful_run (power : Accelerator) (i : MasterIn) (shown : FixedPoint)
    (ins : List Accelerator.In) : Faithful (run step (afterReset power i shown) ins) := by
  apply run_invariant (P := Faithful)
  · refine ⟨Dma.latched_rest _, rfl, ⟨Dma.reset, power.reset.dmaIn i, rfl, rfl⟩, ?_⟩
    simp [afterReset, Accelerator.reset, Dma.reset, Channel.cleared]
  · exact fun e i h => faithful_step h i

/-- Simulation and synthesis agree: in every cycle on all `_next` values, on the
    convolution wherever it is stored, and so on every register. -/
theorem simulation_eq_synthesis (power : Accelerator) (i₀ : MasterIn) (shown : FixedPoint)
    (ins : List Accelerator.In) (i : Accelerator.In) :
    let e := run step (afterReset power i₀ shown) ins
    e.circuit = run Accelerator.step power.reset ins ∧
      e.amOut i = e.circuit.dmaInst.am (e.circuit.dmaIn i.am) ∧
      (e.circuit.dmaInst.image.write = true →
        e.convOut = convFilter e.circuit.dmaInst.image.data) := by
  refine ⟨?_, faithful_am (faithful_run power i₀ shown ins) i,
    faithful_conv (faithful_run power i₀ shown ins)⟩
  induction ins using List.reverseRecOn with
  | nil => rfl
  | append_singleton ins j ih =>
    simp only [run_append, run_cons, run_nil]
    rw [faithful_circuit (faithful_run power i₀ shown ins) j, ih]

end EventDriven
end CnnAccelerator
