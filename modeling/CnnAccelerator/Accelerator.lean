import CnnAccelerator.ConvBlock
import CnnAccelerator.FullyConnectedLayer
import CnnAccelerator.RegisterMap
import CnnAccelerator.Dma
import CnnAccelerator.Lib.Clocked

/- CNN_accelerator.vhd: the five components wired together, one edge of clk at a time. -/
namespace CnnAccelerator

structure Accelerator where
  registerInst : RegisterMap
  dmaInst : Dma
  convBlockInst : ConvBlock
  nnInst : FullyConnectedLayer
  argmaxInst : Argmax
  deriving DecidableEq, Repr

namespace Accelerator
open Clocked

structure In where
  as : RegisterMap.In
  am : MasterIn
  deriving DecidableEq, Repr

/-- The asynchronous reset, from whatever the registers held. -/
def reset (s : Accelerator) : Accelerator :=
  ⟨s.registerInst.reset, Dma.reset, ConvBlock.reset, FullyConnectedLayer.reset, Argmax.reset⟩

def dmaIn (s : Accelerator) (i : MasterIn) : Dma.In :=
  { startImage := s.registerInst.startImageReg
    startWeight := s.registerInst.startWeightReg
    imageAddr := s.registerInst.imageAddrReg
    imageLength := s.registerInst.imageLengthReg
    weightAddr := s.registerInst.weightAddrReg
    weightLength := s.registerInst.weightLengthReg
    readdatavalid := i.readdatavalid
    readdata := i.readdata
    waitrequest := i.waitrequest }

def predictions (s : Accelerator) : DataArray3bit :=
  neurons s.nnInst.reluDataReg s.nnInst.weightDataReg

def prediction (s : Accelerator) : BitVec 32 := s.argmaxInst.dataO

/-- The clocked processes, given the outputs of the processes `AM` and `conv_filter`. -/
def clock (s : Accelerator) (i : In) (dmaNext : Dma) (convolvedRes : FixedPoint) : Accelerator :=
  { registerInst := s.registerInst.step i.as s.predictions s.prediction
    dmaInst := dmaNext
    convBlockInst := s.convBlockInst.regs s.dmaInst.image.write s.dmaInst.image.start
      s.dmaInst.image.cnt (relu convolvedRes)
    nnInst := s.nnInst.step s.convBlockInst.reluRegsReadyReg s.convBlockInst.convRegs
      s.dmaInst.weight.write s.dmaInst.weight.start s.dmaInst.weight.cnt s.dmaInst.weight.data
    argmaxInst := s.argmaxInst.step s.nnInst.writeReg s.predictions }

def step (s : Accelerator) (i : In) : Accelerator :=
  s.clock i (s.dmaInst.am (s.dmaIn i.am)) (convFilter s.dmaInst.image.data)

@[simp] theorem step_dmaInst (s : Accelerator) (i : In) :
    (s.step i).dmaInst = s.dmaInst.am (s.dmaIn i.am) := rfl

def dmaInputs (s : Accelerator) (ins : List In) : List Dma.In :=
  inputs step (fun s i => s.dmaIn i.am) s ins

theorem dma_run (s : Accelerator) (ins : List In) :
    (run step s ins).dmaInst = run Dma.am s.dmaInst (s.dmaInputs ins) :=
  run_component (fun _ _ => rfl) s ins

theorem dma_trace (s : Accelerator) (ins : List In) : trace Dma.am s.dmaInst (s.dmaInputs ins) =
    (trace step s ins).map fun c => (c.1.dmaInst, c.1.dmaIn c.2.am) :=
  trace_component (fun _ _ => rfl) s ins

theorem dma_inside {s : Accelerator} {ins : List In}
    (inside : ∀ c ∈ trace step s ins, c.1.dmaInst.state ≠ .idle) :
    ∀ c ∈ trace Dma.am s.dmaInst (s.dmaInputs ins), c.1.state ≠ .idle := by
  intro c member
  rw [dma_trace, List.mem_map] at member
  obtain ⟨cycle, within, rfl⟩ := member
  exact inside cycle within

theorem dma_states (s : Accelerator) (ins : List In) :
    states Dma.am s.dmaInst (s.dmaInputs ins) = (states step s ins).map dmaInst :=
  states_component (fun _ _ => rfl) s ins

/- The slave port in a cycle without an access, with a write and with a read. -/

def idleBus : RegisterMap.In := ⟨0, false, false, 0⟩

def writeBus (a : BitVec 3) (d : BitVec 32) : RegisterMap.In := ⟨a, false, true, d⟩

def readBus (a : BitVec 3) : RegisterMap.In := ⟨a, true, false, 0⟩

def silent (b : RegisterMap.In) : In := ⟨b, ⟨false, 0, false⟩⟩

/-- For examples: one state the registers may power up in. -/
def powerUp : Accelerator :=
  ⟨⟨false, false, 0, 0, 0, 0, 0, 0, 0, 0⟩, Dma.reset, ConvBlock.reset,
    FullyConnectedLayer.reset, Argmax.reset⟩

end Accelerator
end CnnAccelerator
