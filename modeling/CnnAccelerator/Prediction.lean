import CnnAccelerator.Driver

/- The class that a call returns. The two registers of argmax are the only ones a new inference
   does not overwrite: they keep the best score since reset. -/
namespace CnnAccelerator
open Clocked Dma

namespace Accelerator

def readPrediction (s : Accelerator) : BitVec 32 :=
  s.registerInst.slaveRead (readBus 0) s.prediction

/-- `seg` performs a complete image transfer of `X` and then a complete weight transfer of
    `W`, from a drained state up to a sample of the scores. -/
structure Inference (power : Accelerator) (pre seg : List In) (X W : List FixedPoint) : Prop where
  drained : Drained (run step power.reset pre)
  image : X.length = 784
  weight : W.length = 48
  transfers : (history power (pre ++ seg)).done =
    (history power pre).done ++ [⟨.image, X⟩, ⟨.weight, W⟩]
  sampled : Sampled (run step power.reset (pre ++ seg))

theorem inference_argmax {power : Accelerator} {pre seg : List In} {X W : List FixedPoint}
    (h : Inference power pre seg X W) : (run step power.reset (pre ++ seg)).argmaxInst =
      (run step power.reset pre).argmaxInst.sample (neurons (features X) (rowsOf W)) := by
  rw [sampled_best (coupled_history power _) h.sampled,
    sampled_best (coupled_history power pre) h.drained.sampled, h.transfers,
    Net.after_append, after_inference _ h.image h.weight]

theorem inference_read {power : Accelerator} {pre seg : List In} {X W : List FixedPoint}
    (h : Inference power pre seg X W) (r : In) :
    (run step power.reset (pre ++ seg ++ [r])).argmaxInst =
      (run step power.reset pre).argmaxInst.sample (neurons (features X) (rowsOf W)) := by
  rw [run_snoc, step_held h.sampled.2.2, inference_argmax h]

theorem argmax_index (power : Accelerator) (ins : List In) :
    (run step power.reset ins).argmaxInst.maxIdxReg < 3 := by
  apply run_invariant (P := fun s : Accelerator => s.argmaxInst.maxIdxReg < 3)
  · exact Nat.zero_lt_succ 2
  · intro s i bound
    simp only [step, clock, Argmax.step]
    split
    · exact Argmax.sample_bound bound _
    · exact bound

/-- Two inferences on the same image and weights report the same class exactly when the
    running maxima they found do not tell the classes apart. -/
theorem same_class_iff {power₁ power₂ : Accelerator} {pre₁ seg₁ pre₂ seg₂ : List In}
    {X W : List FixedPoint} (h₁ : Inference power₁ pre₁ seg₁ X W)
    (h₂ : Inference power₂ pre₂ seg₂ X W) :
    readPrediction (run step power₁.reset (pre₁ ++ seg₁)) =
        readPrediction (run step power₂.reset (pre₂ ++ seg₂)) ↔
      Argmax.SameClass (run step power₁.reset pre₁).argmaxInst
        (run step power₂.reset pre₂).argmaxInst
        (Argmax.winner (neurons (features X) (rowsOf W))) := by
  have bound₁ := argmax_index power₁ (pre₁ ++ seg₁)
  have bound₂ := argmax_index power₂ (pre₂ ++ seg₂)
  change Argmax.dataO _ = Argmax.dataO _ ↔ _
  rw [Argmax.dataO_eq_iff bound₁ bound₂, inference_argmax h₁, inference_argmax h₂,
    Argmax.same_index_iff]

theorem call_inference {t : Timing} {waitTime : BitVec 8} {base base' : BitVec 32}
    {place : List In} {i : In} {load : List In} {j : In} {last : List In} {r : In}
    (call : Call t waitTime base base' place i load j last r) {power : Accelerator} {pre : List In}
    (drained : Drained (run step power.reset pre))
    (low : ∀ k, (run step power.reset pre).startReg k = false) {X W : List FixedPoint}
    (takesX : (takes .image 784 .start 0 (load.map In.am)).map Prod.fst = some X)
    (takesW : (takes .weight 48 .start 0 (last.map In.am)).map Prod.fst = some W)
    (spare : servedWithin .weight 2 last = true) :
    Inference power pre (place ++ i :: load ++ j :: last) X W := by
  have quiet := call_place_quiet call low
  have words : history power pre = ⟨[], (history power pre).done⟩ :=
    Log.ext (logged_words (coupled_history power pre).logged drained.1) rfl
  obtain ⟨idle, watched⟩ := quiet_idle drained.1 quiet (history power pre).done
  rw [← run_append] at idle
  rw [← words, ← history_append] at watched
  obtain ⟨⟨_, spareX⟩, someX, rfl⟩ := Option.map_eq_some_iff.mp takesX
  obtain ⟨⟨_, spareW⟩, someW, rfl⟩ := Option.map_eq_some_iff.mp takesW
  obtain ⟨sizeX, sizeW, log⟩ := call_transfers call power pre idle someX someW
  have again := (call_weight_idle call power pre idle).mpr
    (servedWithin_iff.mpr ⟨_, spareX, someX, Nat.zero_le _⟩)
  refine ⟨drained, sizeX, sizeW, ?_, ?_⟩
  · rw [← List.append_assoc, ← List.append_assoc, log, watched]
  · rw [← List.append_assoc, ← List.append_assoc]
    exact (call_sampled call power pre again).mpr spare

def servedCall (weight : List (List FixedPoint)) : List In :=
  servedPlace ++ silent idleBus :: servedLoad zeroImage ++ silent idleBus :: servedLast weight

theorem servedCall_drained {weight : List (List FixedPoint)}
    (spare : servedWithin .weight 2 (servedLast weight) = true) :
    Drained (run step powerUp.reset (servedCall weight ++ [silent (readBus 0)])) ∧
      ∀ k, (run step powerUp.reset (servedCall weight ++ [silent (readBus 0)])).startReg k =
        false := by
  have call := served_call zeroImage weight
  have idle := (call_weight_idle call powerUp [] (by decide +kernel)).mpr (by decide +kernel)
  exact call_drained call powerUp [] idle spare

def afterCall : List In := servedCall classZero ++ [silent (readBus 0)]

theorem powerUp_drained : Drained (run step powerUp.reset []) := by
  refine ⟨rfl, fun k => ?_⟩
  cases k <;> exact ⟨rfl, rfl, rfl⟩

theorem powerUp_low (k : Kind) : (run step powerUp.reset []).startReg k = false := by
  cases k <;> rfl

theorem first_inference : Inference powerUp [] (servedCall classOne) zeroImage.flatten
    classOne.flatten :=
  call_inference (served_call zeroImage classOne) powerUp_drained powerUp_low
    (by decide +kernel) (by decide +kernel) (by decide +kernel)

theorem earlier_inference : Inference powerUp [] (servedCall classZero) zeroImage.flatten
    classZero.flatten :=
  call_inference (served_call zeroImage classZero) powerUp_drained powerUp_low
    (by decide +kernel) (by decide +kernel) (by decide +kernel)

theorem afterCall_drained : Drained (run step powerUp.reset afterCall) ∧
    ∀ k, (run step powerUp.reset afterCall).startReg k = false :=
  servedCall_drained (by decide +kernel)

theorem second_inference : Inference powerUp afterCall (servedCall classOne) zeroImage.flatten
    classOne.flatten :=
  call_inference (served_call zeroImage classOne) afterCall_drained.1 afterCall_drained.2
    (by decide +kernel) (by decide +kernel) (by decide +kernel)

theorem same_class_iff_after_call :
    readPrediction (run step powerUp.reset ([] ++ servedCall classOne)) =
        readPrediction (run step powerUp.reset (afterCall ++ servedCall classOne)) ↔
      Argmax.SameClass (run step powerUp.reset []).argmaxInst
        (run step powerUp.reset afterCall).argmaxInst
        (Argmax.winner (neurons (features zeroImage.flatten) (rowsOf classOne.flatten))) :=
  same_class_iff first_inference second_inference

theorem afterCall_argmax : (run step powerUp.reset afterCall).argmaxInst = ⟨0x01DA, 0⟩ := by
  have argmax := inference_read earlier_inference (silent (readBus 0))
  rw [classZero_scores] at argmax
  exact argmax.trans (by decide)

theorem class_kept_from_earlier_call :
    Inference powerUp [] (servedCall classOne) zeroImage.flatten classOne.flatten ∧
      Inference powerUp afterCall (servedCall classOne) zeroImage.flatten classOne.flatten ∧
      readPrediction (run step powerUp.reset ([] ++ servedCall classOne)) = 1 ∧
      readPrediction (run step powerUp.reset (afterCall ++ servedCall classOne)) = 0 := by
  refine ⟨first_inference, second_inference, ?_, ?_⟩
  · change Argmax.dataO _ = 1
    rw [inference_argmax first_inference, classOne_scores]
    decide
  · change Argmax.dataO _ = 0
    rw [inference_argmax second_inference, classOne_scores, afterCall_argmax]
    decide

end Accelerator
end CnnAccelerator
