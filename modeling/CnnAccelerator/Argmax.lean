import CnnAccelerator.FullyConnectedLayer
import CnnAccelerator.Lib.Clocked
import CnnAccelerator.Lib.LastMax
import Mathlib.Data.Int.Order.Basic

/- argmax.vhd alone: a sample against the running maximum in its two registers. -/
namespace CnnAccelerator
open Clocked

namespace Argmax
open LastMax

def score (s : Argmax) : ℤ := s.maxValReg.toInt

def entry (data : DataArray3bit) (i : Fin 3) : Argmax := ⟨data.get i, i⟩

/-- The highest of three scores with its index; the last one if there are several. -/
def winner (data : DataArray3bit) : Argmax :=
  lastMax score (entry data 0) [entry data 1, entry data 2]

theorem sample_lastMax (s : Argmax) (data : DataArray3bit) :
    s.sample data = lastMax score s [entry data 0, entry data 1, entry data 2] := by
  have compares (s : Argmax) (i : Fin 3) : compare data s i = keep score s (entry data i) := by
    unfold compare keep
    by_cases le : s.maxValReg.toInt ≤ data[i].toInt
    · exact (if_pos (BitVec.sle_iff_toInt_le.mpr le)).trans (if_pos le).symm
    · exact (if_neg (mt BitVec.sle_iff_toInt_le.mp le)).trans (if_neg le).symm
  simp [sample, lastMax, Fin.foldl_succ, compares]

theorem sample_winner (s : Argmax) (data : DataArray3bit) :
    s.sample data = if s.score ≤ (winner data).score then winner data else s := by
  rw [sample_lastMax]
  exact lastMax_incumbent score s _ _

theorem sample_own_iff (s : Argmax) (data : DataArray3bit) :
    s.sample data = winner data ↔ s.score ≤ (winner data).score := by
  rw [sample_winner]
  split
  · exact iff_of_true rfl ‹_›
  · constructor
    · intro same
      exact le_of_eq (congrArg score same)
    · intro reached
      contradiction

theorem winner_entry (data : DataArray3bit) : ∃ i, winner data = entry data i := by
  have member := lastMax_member score (entry data 0) [entry data 1, entry data 2]
  simp only [List.mem_cons, List.not_mem_nil, or_false] at member
  rcases member with h | h | h
  · exact ⟨0, h⟩
  · exact ⟨1, h⟩
  · exact ⟨2, h⟩

theorem winner_index (data : DataArray3bit) : (winner data).maxIdxReg < 3 := by
  obtain ⟨i, wins⟩ := winner_entry data
  rw [wins]
  exact i.isLt

theorem winner_highest (data : DataArray3bit) (i : Fin 3) :
    (entry data i).score ≤ (winner data).score := by
  apply le_lastMax
  match i with
  | 0 | 1 | 2 => simp

/-- With `s` in its registers argmax reports the class of `w`, whose score is new. -/
def Yields (s w : Argmax) : Prop := s.score ≤ w.score ∨ s.maxIdxReg = w.maxIdxReg

def SameClass (s t w : Argmax) : Prop :=
  (Yields s w ∧ Yields t w) ∨
    (w.score < s.score ∧ w.score < t.score ∧ s.maxIdxReg = t.maxIdxReg)

theorem sample_index (s : Argmax) (data : DataArray3bit) :
    (s.sample data).maxIdxReg =
      if s.score ≤ (winner data).score then (winner data).maxIdxReg else s.maxIdxReg := by
  rw [sample_winner]
  split <;> rfl

theorem same_index_iff (s t : Argmax) (data : DataArray3bit) :
    (s.sample data).maxIdxReg = (t.sample data).maxIdxReg ↔ SameClass s t (winner data) := by
  rw [sample_index, sample_index]
  unfold SameClass Yields
  split <;> split <;> omega

theorem sample_bound {s : Argmax} (bound : s.maxIdxReg < 3) (data : DataArray3bit) :
    (s.sample data).maxIdxReg < 3 := by
  rw [sample_index]
  split
  · exact winner_index data
  · exact bound

theorem dataO_eq_iff {s t : Argmax} (hs : s.maxIdxReg < 3) (ht : t.maxIdxReg < 3) :
    s.dataO = t.dataO ↔ s.maxIdxReg = t.maxIdxReg := by
  unfold dataO
  rw [BitVec.toNat_eq, BitVec.toNat_ofNat, BitVec.toNat_ofNat]
  omega

def cycle (s : Argmax) (c : Bool × DataArray3bit) : Argmax := s.step c.1 c.2

theorem cycle_unread {s : Argmax} {ins : List (Bool × DataArray3bit)}
    (unread : ∀ c ∈ ins, c.1 = false) : run cycle s ins = s := by
  induction ins with
  | nil => rfl
  | cons c ins ih =>
    have low := unread c (by simp)
    have held : s.cycle c = s := by simp [cycle, step, low]
    rw [run_cons, held]
    exact ih fun d member => unread d (by simp [member])

def Reports (s : Argmax) (data : DataArray3bit) : Prop :=
  ∃ i : Fin 3, s.dataO = BitVec.ofNat 32 i ∧ ∀ j : Fin 3, (data.get j).toInt ≤ (data.get i).toInt

theorem reports_index {s : Argmax} (data : DataArray3bit) (i : Fin 3) (index : s.maxIdxReg = i) :
    Reports s data ↔ ∀ j : Fin 3, (data.get j).toInt ≤ (data.get i).toInt := by
  constructor
  · rintro ⟨i', shown, highest⟩
    obtain rfl : i = i' := by
      unfold dataO at shown
      rw [index, BitVec.toNat_eq, BitVec.toNat_ofNat, BitVec.toNat_ofNat] at shown
      omega
    exact highest
  · intro highest
    exact ⟨i, by rw [dataO, index], highest⟩

/-- The first sample after reset is compared with a running maximum of 0 and class 0. -/
theorem first_sample_iff (before after : List (Bool × DataArray3bit)) (data : DataArray3bit)
    (early : ∀ c ∈ before, c.1 = false) (late : ∀ c ∈ after, c.1 = false) :
    Reports (run cycle reset (before ++ (true, data) :: after)) data ↔
      (∃ j : Fin 3, 0 ≤ (data.get j).toInt) ∨
        ∀ j : Fin 3, (data.get j).toInt ≤ (data.get 0).toInt := by
  have sampled : run cycle reset (before ++ (true, data) :: after) = reset.sample data := by
    rw [run_append, cycle_unread early, run_cons, cycle_unread late]
    rfl
  obtain ⟨i, wins⟩ := winner_entry data
  have highest : ∀ j : Fin 3, (data.get j).toInt ≤ (data.get i).toInt := by
    intro j
    have le := winner_highest data j
    rw [wins] at le
    exact le
  have kept := sample_winner reset data
  rw [wins] at kept
  rw [sampled]
  by_cases reached : 0 ≤ (data.get i).toInt
  · have new : reset.sample data = entry data i := kept.trans (if_pos reached)
    rw [new, reports_index data i rfl]
    exact iff_of_true highest (Or.inl ⟨i, reached⟩)
  · have old : reset.sample data = reset := kept.trans (if_neg reached)
    rw [old, reports_index data 0 rfl]
    constructor
    · exact Or.inr
    · rintro (⟨j, nonneg⟩ | zero)
      · exact absurd (le_trans nonneg (highest j)) reached
      · exact zero

theorem first_sample_tb :
    Reports (run cycle reset ([] ++ (true, #v[1, 2, 1]) :: [])) #v[1, 2, 1] :=
  (first_sample_iff [] [] #v[1, 2, 1] (by simp) (by simp)).mpr (Or.inl ⟨0, by decide⟩)

theorem negative_scores_report_zero :
    ¬ Reports (run cycle reset [(true, #v[-2, -1, -3])]) #v[-2, -1, -3] := by
  intro reports
  have highest := (reports_index #v[-2, -1, -3] 0 rfl).mp reports 1
  revert highest
  decide

end Argmax

end CnnAccelerator
