import CnnAccelerator.DataType

/- neuron.vhd, fully_connected_layer.vhd and argmax.vhd. -/
namespace CnnAccelerator

def neuron (data weight : DataArray16bit) : FixedPoint :=
  toFixedPoint (Fin.foldl 16 (fun mult i => mult + mulSigned weight[i] data[i]) 0)

structure FullyConnectedLayer where
  reluDataReg : DataArray16bit
  weightDataReg : DataMatrix
  writeReg : Bool
  deriving DecidableEq, Repr

namespace FullyConnectedLayer

def reset : FullyConnectedLayer :=
  ⟨Vector.replicate 16 0, Vector.replicate 3 (Vector.replicate 16 0), false⟩

/-- An index past row 2 is an error in VHDL simulation. Here it stores nothing; a result that
    depends on the rows is about runs whose weights have at most three. -/
def step (s : FullyConnectedLayer) (reluRead : Bool) (reluData : DataArray16bit)
    (weightRead start : Bool) (weightCnt : BitVec 4) (weightData : DataArray16bit) :
    FullyConnectedLayer :=
  { reluDataReg := if reluRead then reluData else s.reluDataReg
    weightDataReg :=
      if reluRead then s.weightDataReg
      else if weightRead then s.weightDataReg.setIfInBounds weightCnt.toNat weightData
      else s.weightDataReg
    writeReg := start }

end FullyConnectedLayer

def neurons (relu : DataArray16bit) (rows : DataMatrix) : DataArray3bit :=
  rows.map (neuron relu)

@[simp] theorem neurons_get (relu : DataArray16bit) (rows : DataMatrix) (j : ℕ) (hj : j < 3) :
    (neurons relu rows)[j] = neuron relu rows[j] := by
  simp [neurons]

structure Argmax where
  maxValReg : FixedPoint
  maxIdxReg : Nat
  deriving DecidableEq, Repr

namespace Argmax

def reset : Argmax := ⟨0, 0⟩

/-- The body of the sampling loop: a score not below the running maximum replaces it. -/
def compare (data : DataArray3bit) (s : Argmax) (i : Fin 3) : Argmax :=
  if BitVec.sle s.maxValReg data[i] then ⟨data[i], i⟩ else s

def sample (s : Argmax) (data : DataArray3bit) : Argmax := Fin.foldl 3 (compare data) s

def step (s : Argmax) (read : Bool) (data : DataArray3bit) : Argmax :=
  if read then s.sample data else s

def dataO (s : Argmax) : BitVec 32 := BitVec.ofNat 32 s.maxIdxReg

end Argmax
end CnnAccelerator
