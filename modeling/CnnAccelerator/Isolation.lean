import CnnAccelerator.Accelerator

/- The slave port during a transfer. Base, length and burst size are latched when the dma
   leaves IDLE, and from then on only the master inputs reach the datapath. -/
namespace CnnAccelerator
open Clocked

namespace Dma

theorem am_memory {r : Dma} (busy : r.state ≠ .idle) {i j : In}
    (valid : i.readdatavalid = j.readdatavalid) (data : i.readdata = j.readdata)
    (wait : i.waitrequest = j.waitrequest) : r.am i = r.am j := by
  cases h : r.state with
  | idle => exact absurd h busy
  | burst k p =>
    cases p with
    | start => rw [am_start i h, am_start j h]
    | wait =>
      rw [am_wait i h, am_wait j h]
      unfold burstWait
      rw [wait]
    | read =>
      rw [am_read i h, am_read j h]
      unfold burstRead
      rw [valid, data]

end Dma

namespace Accelerator

structure Datapath where
  dma : Dma
  conv : ConvBlock
  nn : FullyConnectedLayer
  scores : DataArray3bit
  argmax : Argmax
  deriving DecidableEq, Repr

def datapath (s : Accelerator) : Datapath :=
  ⟨s.dmaInst, s.convBlockInst, s.nnInst, s.predictions, s.argmaxInst⟩

theorem datapath_step {s t : Accelerator} {i j : In} (same : s.datapath = t.datapath)
    (next : s.dmaInst.am (s.dmaIn i.am) = t.dmaInst.am (t.dmaIn j.am)) :
    (s.step i).datapath = (t.step j).datapath := by
  simp only [datapath, Datapath.mk.injEq] at same
  obtain ⟨dma, conv, nn, scores, argmax⟩ := same
  rw [dma] at next
  simp only [datapath, predictions, step, clock, next, dma, conv, nn, argmax]

theorem datapath_busy {s t : Accelerator} {i j : In} (same : s.datapath = t.datapath)
    (busy : s.dmaInst.state ≠ .idle) (am : i.am = j.am) :
    (s.step i).datapath = (t.step j).datapath := by
  have dma : s.dmaInst = t.dmaInst := congrArg Datapath.dma same
  apply datapath_step same
  rw [← dma]
  apply Dma.am_memory busy
  · rw [dmaIn, dmaIn, am]
  · rw [dmaIn, dmaIn, am]
  · rw [dmaIn, dmaIn, am]

/-- Two runs that part in the cycle in which a transfer begins and share the memory: until the
    transfer is over nothing behind the register map can tell them apart. -/
theorem accesses_leave_datapath (power : Accelerator) (pre : List In) (i j : In)
    (ins jns : List In) (memory : (i :: ins).map In.am = (j :: jns).map In.am)
    (busy : ∀ c ∈ trace step ((run step power.reset pre).step i) ins, c.1.dmaInst.state ≠ .idle) :
    (states step (run step power.reset pre) (i :: ins)).map datapath =
      (states step (run step power.reset pre) (j :: jns)).map datapath := by
  obtain ⟨first, later⟩ := List.cons.inj memory
  have begun : ((run step power.reset pre).step i).datapath =
      ((run step power.reset pre).step j).datapath := by
    apply datapath_step rfl
    rw [first]
  have next : ∀ (s t : Accelerator) (i j : In), s.datapath = t.datapath →
      s.dmaInst.state ≠ .idle → i.am = j.am → (s.step i).datapath = (t.step j).datapath :=
    fun _ _ _ _ same inside am => datapath_busy same inside am
  have rest := states_alike next ins jns _ _ later begun busy
  simp only [states, List.map_cons, rest]

def imageAlone : List In :=
  [silent idleBus, silent idleBus, ⟨idleBus, ⟨true, 7, false⟩⟩]

def imageOverwritten : List In :=
  [silent (writeBus 3 5), silent (writeBus 2 4096), ⟨writeBus 1 1, ⟨true, 7, false⟩⟩]

theorem accesses_leave_datapath_image :
    (states step (run step powerUp.reset [silent (writeBus 3 1), silent (writeBus 0 1)])
        (silent idleBus :: imageAlone)).map datapath =
      (states step (run step powerUp.reset [silent (writeBus 3 1), silent (writeBus 0 1)])
        (silent (writeBus 0 1) :: imageOverwritten)).map datapath :=
  accesses_leave_datapath powerUp [silent (writeBus 3 1), silent (writeBus 0 1)] (silent idleBus)
    (silent (writeBus 0 1)) imageAlone imageOverwritten (by decide) (by decide +kernel)

end Accelerator
end CnnAccelerator
