import CnnAccelerator.Prediction
import CnnAccelerator.Surplus

/- The accelerator at rest is a function of the transfers completed since reset: banks and
   scores from the last of them, argmax from all. -/
namespace CnnAccelerator
open Clocked Dma

namespace Argmax

theorem winner_last (data : DataArray3bit) : ∃ j : Fin 3, winner data = entry data j ∧
    (∀ i : Fin 3, (data.get i).toInt ≤ (data.get j).toInt) ∧
    ∀ i : Fin 3, j < i → (data.get i).toInt < (data.get j).toInt := by
  obtain ⟨front, back, split, above⟩ :=
    LastMax.lastMax_last score (entry data 0) [entry data 1, entry data 2]
  have highest := winner_highest data
  change _ = front ++ winner data :: back at split
  change ∀ x ∈ back, x.score < (winner data).score at above
  match front with
  | [] =>
    obtain ⟨wins, rfl⟩ := List.cons.inj split
    rw [← wins] at above highest
    refine ⟨0, wins.symm, highest, fun i later => ?_⟩
    match i with
    | 1 | 2 => exact above (entry data _) (by simp)
  | [a] =>
    obtain ⟨_, rest⟩ := List.cons.inj split
    obtain ⟨wins, rfl⟩ := List.cons.inj rest
    rw [← wins] at above highest
    refine ⟨1, wins.symm, highest, fun i later => ?_⟩
    match i with
    | 2 => exact above (entry data 2) (by simp)
  | [a, b] =>
    obtain ⟨_, rest⟩ := List.cons.inj split
    obtain ⟨_, rest⟩ := List.cons.inj rest
    obtain ⟨wins, rfl⟩ := List.cons.inj rest
    rw [← wins] at highest
    refine ⟨2, wins.symm, highest, fun i later => ?_⟩
    omega
  | a :: b :: c :: more =>
    have size := congrArg List.length split
    simp at size

/-- What argmax holds after the samples `scores` since reset: the last of the highest scores and
    its index, or the reset state where all were negative. -/
inductive Champion (scores : List DataArray3bit) : Argmax → Prop where
  | none (negative : ∀ v ∈ scores, ∀ i : Fin 3, (v.get i).toInt < 0) : Champion scores reset
  | some (front : List DataArray3bit) (v : DataArray3bit) (back : List DataArray3bit) (j : Fin 3)
      (split : scores = front ++ v :: back) (reached : 0 ≤ (v.get j).toInt)
      (before : ∀ u ∈ front, ∀ i : Fin 3, (u.get i).toInt ≤ (v.get j).toInt)
      (highest : ∀ i : Fin 3, (v.get i).toInt ≤ (v.get j).toInt)
      (last : ∀ i : Fin 3, j < i → (v.get i).toInt < (v.get j).toInt)
      (after : ∀ u ∈ back, ∀ i : Fin 3, (u.get i).toInt < (v.get j).toInt) :
      Champion scores (entry v j)

theorem champion_score {scores : List DataArray3bit} {s : Argmax} (h : Champion scores s) :
    0 ≤ s.score ∧ ∀ v ∈ scores, ∀ i : Fin 3, (v.get i).toInt ≤ s.score := by
  cases h with
  | none negative => exact ⟨le_refl _, fun v member i => le_of_lt (negative v member i)⟩
  | some front v back j split reached before highest last after =>
    refine ⟨reached, fun u member i => ?_⟩
    rw [split] at member
    rcases List.mem_append.mp member with early | late
    · exact before u early i
    · rcases List.mem_cons.mp late with same | later
      · rw [same]
        exact highest i
      · exact le_of_lt (after u later i)

theorem champion_front {scores : List DataArray3bit} {s : Argmax} (h : Champion scores s)
    {v : DataArray3bit} {j : Fin 3} (inside : v ∈ scores) (reached : 0 ≤ (v.get j).toInt)
    (ahead : ∀ u ∈ scores, ∀ i ≠ j, (u.get i).toInt < (v.get j).toInt) :
    s.dataO = BitVec.ofNat 32 j := by
  have below := (champion_score h).2 v inside j
  cases h with
  | none negative =>
    have low := negative v inside j
    omega
  | some front u back i split reached' before highest last after =>
    by_cases same : i = j
    · rw [same]
      rfl
    · have less := ahead u (by simp [split]) i same
      change (v.get j).toInt ≤ (u.get i).toInt at below
      omega

theorem champion_rejected {scores : List DataArray3bit} {s : Argmax} (h : Champion scores s)
    (negative : ∀ v ∈ scores, ∀ i : Fin 3, (v.get i).toInt < 0) : s.dataO = 0 := by
  cases h with
  | none => rfl
  | some front v back j split reached before highest last after =>
    have low := negative v (by simp [split]) j
    omega

theorem champion_sample {scores : List DataArray3bit} {s : Argmax} (h : Champion scores s)
    (data : DataArray3bit) : Champion (scores ++ [data]) (s.sample data) := by
  obtain ⟨j, wins, highest, last⟩ := winner_last data
  obtain ⟨reached, below⟩ := champion_score h
  have kept := sample_winner s data
  rw [wins] at kept
  by_cases beats : s.score ≤ (entry data j).score
  · rw [kept, if_pos beats]
    refine .some scores data [] j rfl (le_trans reached beats) ?_ highest last (by simp)
    intro u member i
    exact le_trans (below u member i) beats
  · rw [kept, if_neg beats]
    have lower (i : Fin 3) : (data.get i).toInt < s.score :=
      lt_of_le_of_lt (highest i) (not_le.mp beats)
    cases h with
    | none negative =>
      refine .none fun v member i => ?_
      rcases List.mem_append.mp member with old | new
      · exact negative v old i
      · rw [List.mem_singleton.mp new]
        exact lower i
    | some front v back j' split reached before highest' last' after =>
      refine .some front v (back ++ [data]) j' (by simp [split]) reached before highest' last' ?_
      intro u member i
      rcases List.mem_append.mp member with old | new
      · exact after u old i
      · rw [List.mem_singleton.mp new]
        exact lower i

theorem champion_samples (scores : List DataArray3bit) :
    Champion scores (scores.foldl sample reset) := by
  induction scores using List.reverseRecOn with
  | nil => exact .none (by simp)
  | append_singleton scores data ih =>
    rw [List.foldl_append]
    exact champion_sample ih data

end Argmax

namespace Net

def samples (N : Net) : List Transfer → List DataArray3bit
  | [] => []
  | t :: ts =>
    match t.kind with
    | .image => samples (N.finish t) ts
    | .weight => (N.finish t).scores :: samples (N.finish t) ts

theorem samples_append (N : Net) (ts us : List Transfer) :
    N.samples (ts ++ us) = N.samples ts ++ (N.after ts).samples us := by
  induction ts generalizing N with
  | nil => rfl
  | cons t ts ih =>
    obtain ⟨k, ws⟩ := t
    cases k with
    | image => exact ih _
    | weight => exact congrArg (_ :: ·) (ih _)

theorem after_best (N : Net) (ts : List Transfer) :
    (N.after ts).best = (N.samples ts).foldl Argmax.sample N.best := by
  induction ts generalizing N with
  | nil => rfl
  | cons t ts ih =>
    obtain ⟨k, ws⟩ := t
    cases k with
    | image => exact ih _
    | weight => exact ih _

end Net

namespace Accelerator

structure Settled (s : Accelerator) (N : Net) : Prop where
  conv : s.convBlockInst.convRegs = N.conv
  relu : s.nnInst.reluDataReg = N.conv
  rows : s.nnInst.weightDataReg = N.rows
  scores : s.predictions = N.scores
  best : s.argmaxInst = N.best

theorem coupled_settled {N₀ : Net} {s : Accelerator} {g : Log} (h : Coupled N₀ s g)
    (drained : Drained s) : Settled s (N₀.after g.done) := by
  have bank (k : Kind) : s.bank k = (N₀.after g.done).bank k := by
    have banks := h.banks k
    have quiet : pulses k [s.dmaInst] = [] := by
      simp [pulses, (drained.2 k).1, (drained.2 k).2.1]
    rwa [quiet, sent_idle drained.1, Bank.absorb_nil, Bank.absorb_nil] at banks
  have relu := h.relu (drained.2 .image).2.1 (drained.2 .image).2.2
  have rows : s.nnInst.weightDataReg = (N₀.after g.done).rows := bank .weight
  refine ⟨bank .image, relu, rows, ?_, sampled_best h drained.sampled⟩
  rw [predictions, relu, rows]
  rfl

/-- In every run of images of any lengths and weights of at most three rows, on any memory, the
    accelerator at rest holds the network that its completed transfers make. -/
theorem drained_settled (power : Accelerator) (ins : List In)
    (ok : (latching RowLength).Allows step () power.reset ins)
    (drained : Drained (run step power.reset ins)) :
    (∀ s ∈ states step power.reset ins, RowInRange s) ∧
      Settled (run step power.reset ins) (Net.reset.after (history power ins).done) :=
  ⟨rows_in_range power ok, coupled_settled (coupled_history power ins) drained⟩

instance (s : Accelerator) : Decidable (Drained s) :=
  inferInstanceAs (Decidable (_ ∧ ∀ _ : Kind, _ ∧ _ ∧ _))

theorem ramp_latches :
    (latching RowLength).Allows step () powerUp.reset (inference rampImage rampWeight) :=
  environment_latches (L := RowLength) (m := .none) (by decide +kernel)

theorem drained_settled_ramp :
    (∀ s ∈ states step powerUp.reset (inference rampImage rampWeight), RowInRange s) ∧
      Settled (run step powerUp.reset (inference rampImage rampWeight))
        (Net.reset.after (history powerUp (inference rampImage rampWeight)).done) :=
  drained_settled powerUp (inference rampImage rampWeight) ramp_latches (by decide +kernel)

theorem argmax_later {N₀ : Net} {s : Accelerator} {g : Log} (h : Coupled N₀ s g) (i j : In) :
    ((s.step i).step j).argmaxInst = (N₀.after g.done).best := by
  have passed := step_passed h i .weight
  cases up : (s.dmaInst.chan .weight).start with
  | false =>
    rw [up] at passed
    rw [step_held passed, step_argmax h i up]
  | true =>
    rw [up] at passed
    obtain ⟨len, us, done⟩ := logged_start h.logged up
    have next := coupled_step h i
    have quiet := no_pulse_start ((next.fresh .weight passed).2.1 .weight)
    have same : (log.next g s.dmaInst (s.dmaIn i.am)).done = g.done := by
      rw [log_idle done.state]
    rw [step_argmax next j quiet, same]

theorem argmax_history (power : Accelerator) (ins : List In) (i j : In) :
    (run step power.reset (ins ++ [i, j])).argmaxInst =
      (Net.reset.after (history power ins).done).best := by
  rw [run_append]
  exact argmax_later (coupled_history power ins) i j

/-- In every cycle of such a run, in the middle of transfers too, argmax holds the last of the
    highest scores of all samples since reset: one for each transfer of weights that was complete
    two cycles before. -/
theorem running_champion (power : Accelerator) (ins : List In) (i j : In)
    (ok : (latching RowLength).Allows step () power.reset (ins ++ [i, j])) :
    (∀ s ∈ states step power.reset (ins ++ [i, j]), RowInRange s) ∧
      Argmax.Champion (Net.reset.samples (history power ins).done)
        (run step power.reset (ins ++ [i, j])).argmaxInst := by
  refine ⟨rows_in_range power ok, ?_⟩
  rw [argmax_history, Net.after_best]
  exact Argmax.champion_samples _

theorem running_champion_ramp :
    (∀ s ∈ states step powerUp.reset (inference rampImage rampWeight ++
        [silent idleBus, silent idleBus]), RowInRange s) ∧
      Argmax.Champion (Net.reset.samples (history powerUp (inference rampImage rampWeight)).done)
        (run step powerUp.reset (inference rampImage rampWeight ++
          [silent idleBus, silent idleBus])).argmaxInst :=
  running_champion powerUp (inference rampImage rampWeight) (silent idleBus) (silent idleBus)
    (environment_latches (L := RowLength) (m := .none) (by decide +kernel))

end Accelerator
end CnnAccelerator
