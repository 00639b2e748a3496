import CnnAccelerator.DataType

/- register_map.vhd: the Avalon slave seen by the driver. -/
namespace CnnAccelerator

structure RegisterMap where
  startImageReg : Bool
  startWeightReg : Bool
  imageAddrReg : BitVec 32
  imageLengthReg : BitVec 32
  weightAddrReg : BitVec 32
  weightLengthReg : BitVec 32
  prediction0Reg : BitVec 32
  prediction1Reg : BitVec 32
  prediction2Reg : BitVec 32
  asReaddata : BitVec 32
  deriving DecidableEq, Repr

namespace RegisterMap

structure In where
  address : BitVec 3
  read : Bool
  write : Bool
  writedata : BitVec 32
  deriving DecidableEq, Repr

/-- Only the start bits and the read data have an asynchronous reset. -/
def reset (s : RegisterMap) : RegisterMap :=
  { s with startImageReg := false, startWeightReg := false, asReaddata := 0 }

def slaveWrite (s : RegisterMap) (i : In) (predictions : DataArray3bit) : RegisterMap :=
  let s := { s with
    startImageReg := false
    startWeightReg := false
    prediction0Reg := predictions[0].setWidth 32
    prediction1Reg := predictions[1].setWidth 32
    prediction2Reg := predictions[2].setWidth 32 }
  if i.write then
    match i.address with
    | 0b000 => { s with startImageReg := i.writedata.getLsbD 0 }
    | 0b001 => { s with startWeightReg := i.writedata.getLsbD 0 }
    | 0b010 => { s with imageAddrReg := i.writedata }
    | 0b011 => { s with imageLengthReg := i.writedata }
    | 0b100 => { s with weightAddrReg := i.writedata }
    | 0b101 => { s with weightLengthReg := i.writedata }
    | _ => s
  else s

def slaveRead (s : RegisterMap) (i : In) (prediction : BitVec 32) : BitVec 32 :=
  if i.read then
    match i.address with
    | 0b000 => prediction
    | 0b001 => s.prediction0Reg
    | 0b010 => s.imageAddrReg
    | 0b011 => s.imageLengthReg
    | 0b100 => s.weightAddrReg
    | 0b101 => s.weightLengthReg
    | 0b110 => s.prediction1Reg
    | _ => s.prediction2Reg
  else s.asReaddata

def step (s : RegisterMap) (i : In) (predictions : DataArray3bit) (prediction : BitVec 32) :
    RegisterMap :=
  { s.slaveWrite i predictions with asReaddata := s.slaveRead i prediction }

end RegisterMap
end CnnAccelerator
