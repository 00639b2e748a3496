import CnnAccelerator.DataType

/- conv_filter.vhd, ReLU.vhd and conv_block.vhd. -/
namespace CnnAccelerator

/-- Written in the order of the VHDL aggregate, which starts at index 48. -/
def convWeights : DataArray49bit := #v[
  0x0121, 0xFFF9, 0xFFFC, 0x0073, 0x0053, 0x0027, 0x001D,
  0x00B0, 0xFFC3, 0x0017, 0x0031, 0xFFD5, 0xFFD5, 0x0031,
  0x0132, 0x0016, 0x0032, 0x0029, 0x001D, 0xFFE5, 0x0017,
  0x0181, 0x001F, 0x0055, 0x0008, 0xFFED, 0xFFC4, 0x0005,
  0x01D2, 0x0042, 0x0026, 0x0004, 0xFFD2, 0xFFE0, 0x0016,
  0x0120, 0x0037, 0x0007, 0xFFA9, 0xFFE5, 0xFF94, 0xFFBE,
  0x0088, 0x0024, 0x00E8, 0x005F, 0x0049, 0xFFBB, 0xFEDF].reverse

def convBias : DoubleFixedPoint := 0x0001DA4C

def convFilter (imageData : DataArray49bit) : FixedPoint :=
  toFixedPoint (Fin.foldl 49
    (fun convRes i => convRes + mulSigned convWeights[i] imageData[i]) convBias)

def relu (data : FixedPoint) : FixedPoint := if BitVec.sle 0 data then data else 0

structure ConvBlock where
  reluRegsReadyReg : Bool
  convRegs : DataArray16bit
  deriving DecidableEq, Repr

namespace ConvBlock

def reset : ConvBlock := ⟨false, Vector.replicate 16 0⟩

def regs (s : ConvBlock) (imageRead imageStart : Bool) (imageCnt : BitVec 4)
    (reluRes : FixedPoint) : ConvBlock :=
  { reluRegsReadyReg := imageRead && imageStart
    convRegs :=
      if imageRead then
        if 0 ≤ imageCnt ∧ imageCnt ≤ 15 then
          s.convRegs.setIfInBounds imageCnt.toNat reluRes
        else s.convRegs
      else s.convRegs }

/-- The range check of the source never fails on a 4-bit counter. -/
theorem regs_convRegs (s : ConvBlock) (read start : Bool) (cnt : BitVec 4) (res : FixedPoint) :
    (s.regs read start cnt res).convRegs =
      if read then s.convRegs.setIfInBounds cnt.toNat res else s.convRegs := by
  have inRange : 0 ≤ cnt ∧ cnt ≤ 15 := by bv_omega
  simp only [regs, if_pos inRange]

end ConvBlock
end CnnAccelerator
