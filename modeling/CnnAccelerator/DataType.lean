import Mathlib.Data.Nat.Notation

/- data_type.vhd. std_logic is Bool and the numeric_std types are BitVec: the
   metalogical values 'U' and 'X' are not modelled, so a register without a reset
   starts from an arbitrary defined value. -/
namespace CnnAccelerator

abbrev FixedPoint := BitVec 16 -- Q7.8 (signed)
abbrev DoubleFixedPoint := BitVec 32 -- S15.16 (signed)
abbrev DataArray49bit := Vector FixedPoint 49
abbrev DataArray16bit := Vector FixedPoint 16
abbrev DataArray3bit := Vector FixedPoint 3
abbrev DataMatrix := Vector DataArray16bit 3

/-- The signed product of numeric_std, as wide as both operands together. -/
def mulSigned (a b : FixedPoint) : DoubleFixedPoint := a.signExtend 32 * b.signExtend 32

/-- acc(31) & acc(22 downto 8) -/
def toFixedPoint (acc : DoubleFixedPoint) : FixedPoint :=
  acc.extractLsb 31 31 ++ acc.extractLsb 22 8

end CnnAccelerator
