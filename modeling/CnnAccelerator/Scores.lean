import CnnAccelerator.Refinement
import CnnAccelerator.ResponseOrder

/- Runs of the whole circuit whose transfers all have the lengths of the network, against
   the streams the memory delivered. -/
namespace CnnAccelerator
open Clocked Dma

def WholeLength (k : Kind) (len : BitVec 32) : Prop := len.toNat = k.wholeLength

instance (k : Kind) (len : BitVec 32) : Decidable (WholeLength k len) :=
  inferInstanceAs (Decidable (_ = _))

theorem WholeLength.whole (k : Kind) (len : BitVec 32) (h : WholeLength k len) : Whole k len := by
  intro _
  rw [h]
  cases k <;> rfl

def lastFeatures (ts : List Transfer) : DataArray16bit :=
  ((lastOf .image ts).map features).getD (Vector.replicate 16 0)

def lastRows (ts : List Transfer) : DataMatrix :=
  ((lastOf .weight ts).map rowsOf).getD (Vector.replicate 3 (Vector.replicate 16 0))

namespace Dma

theorem streams_next {L : Kind → BitVec 32 → Prop} {r : Dma} {m : Responses} {i : In}
    (h : Synced L r m) (allowed : (environment L).allow m r i) (g : Log) :
    streams.next g r i = log.next g r i := by
  cases h with
  | rest => rfl
  | done h => simp [streams, log, Log.next, h.state]
  | busy h latched sync =>
    have same : (if i.readdatavalid then g.words ++ [i.readdata] else g.words) =
        store g.words r i := by
      cases valid : i.readdatavalid with
      | false =>
        have none : r.stores i = false := by
          unfold stores
          split <;> simp [valid]
        simp [store, none]
      | true =>
        have reading := valid_only_read sync allowed.1 valid
        subst reading
        simp [store, stores, h.state, valid]
    simp [streams, log, same]

end Dma

namespace Accelerator

def completed (power : Accelerator) (ins : List In) : List Transfer :=
  ((streams.comap dmaInst fun s i => s.dmaIn i.am).watch step .empty power.reset ins).done

theorem streams_eq_log {L : Kind → BitVec 32 → Prop} (whole : ∀ k len, L k len → Whole k len)
    {s : Accelerator} {m : Responses} {ins : List In} (sync : Synced L s.dmaInst m) (g : Log)
    (ok : (environment L).Allows step m s ins) :
    (streams.comap dmaInst fun s i => s.dmaIn i.am).watch step g s ins =
      logged.watch step g s ins := by
  induction ins generalizing s m g with
  | nil => rfl
  | cons i ins ih =>
    have next := streams_next sync ok.1 g
    rw [Monitor.watch_cons, Monitor.watch_cons]
    simp only [logged, Monitor.comap] at next ih ⊢
    rw [next]
    exact ih (synced_step whole sync ok.1) _ ok.2

theorem completed_eq_history {L : Kind → BitVec 32 → Prop}
    (whole : ∀ k len, L k len → Whole k len) (power : Accelerator) {ins : List In}
    (ok : (environment L).Allows step .none power.reset ins) :
    completed power ins = (history power ins).done :=
  congrArg Log.done (streams_eq_log whole (.rest rfl) _ ok)

theorem completed_length {L : Kind → BitVec 32 → Prop} (power : Accelerator) {ins : List In}
    (ok : (environment L).Allows step .none power.reset ins) :
    ∀ t ∈ (history power ins).done, ∃ len, L t.kind len ∧ len.toNat = t.words.length := by
  have all : Logged L (run step power.reset ins).dmaInst (history power ins).words ∧
      ∀ t ∈ (history power ins).done, ∃ len, L t.kind len ∧ len.toNat = t.words.length := by
    refine (environment L).allows_invariant_beside step logged
      (P := fun s _ g => Logged L s.dmaInst g.words ∧
        ∀ t ∈ g.done, ∃ len, L t.kind len ∧ len.toNat = t.words.length)
      ⟨.rest, by simp [Log.empty]⟩ ?_ ok
    rintro s m g i ⟨logs, lengths⟩ allowed
    cases logged_turn logs (fun k idle => allowed.2 k idle) with
    | goes ws same next =>
      simp only [logged, Monitor.comap, same]
      exact ⟨next, lengths⟩
    | ends t len _ more done latched =>
      simp only [logged, Monitor.comap, more]
      refine ⟨.done done latched, fun u member => ?_⟩
      rcases List.mem_append.mp member with old | new
      · exact lengths u old
      · obtain rfl := List.mem_singleton.mp new
        exact ⟨len, latched, done.length.1⟩
  exact all.2

theorem whole_net (power : Accelerator) {ins : List In}
    (ok : (environment WholeLength).Allows step .none power.reset ins) :
    (∀ t ∈ completed power ins, t.words.length = t.kind.wholeLength) ∧
      (Net.reset.after (history power ins).done).conv = lastFeatures (completed power ins) ∧
      (Net.reset.after (history power ins).done).rows = lastRows (completed power ins) := by
  rw [completed_eq_history WholeLength.whole power ok]
  have lengths : ∀ t ∈ (history power ins).done, t.words.length = t.kind.wholeLength := by
    intro t member
    obtain ⟨len, latched, size⟩ := completed_length power ok t member
    exact size.symm.trans latched
  exact ⟨lengths, after_whole Net.reset lengths⟩

theorem idle_twice {s : Accelerator} {i : In} (before : s.dmaInst.state = .idle)
    (after : (s.step i).dmaInst.state = .idle) : (s.step i).dmaInst = Dma.reset := by
  rcases idle_step before (s.dmaIn i.am) with ⟨_, rest⟩ | ⟨k, _, busy⟩
  · exact rest
  · simp [busy.state] at after

theorem drained_scores {N₀ : Net} {s : Accelerator} {g : Log} (h : Coupled N₀ s g) (i : In)
    (before : s.dmaInst = Dma.reset) (after : (s.step i).dmaInst = Dma.reset) :
    (s.step i).predictions =
      neurons (N₀.after (log.next g s.dmaInst (s.dmaIn i.am)).done).conv
        (N₀.after (log.next g s.dmaInst (s.dmaIn i.am)).done).rows := by
  have next := coupled_step h i
  have low (k : Kind) : (s.step i).passed k = false := by
    rw [step_passed h, before, chan_reset]
    rfl
  have rows := next.banks .weight
  rw [after, reset_pulses, sent_idle rfl] at rows
  have rows : (s.step i).nnInst.weightDataReg = _ := rows
  rw [predictions, next.relu (by rw [after, chan_reset]; rfl) (low .image), rows]
  rfl

/-- End to end: in a third IDLE cycle the predictions are the neurons on the features of the last
    image and the rows of the last weights. -/
theorem scores_of_last_transfers (power : Accelerator) (pre : List In) (i j : In)
    (ok : (environment WholeLength).Allows step .none power.reset (pre ++ [i, j]))
    (idle₀ : (run step power.reset pre).dmaInst.state = .idle)
    (idle₁ : (run step power.reset (pre ++ [i])).dmaInst.state = .idle)
    (idle₂ : (run step power.reset (pre ++ [i, j])).dmaInst.state = .idle) :
    (∀ t ∈ completed power (pre ++ [i, j]), t.words.length = t.kind.wholeLength) ∧
      ∀ m (hm : m < 3), (run step power.reset (pre ++ [i, j])).predictions[m] =
        neuron (lastFeatures (completed power (pre ++ [i, j])))
          (lastRows (completed power (pre ++ [i, j])))[m] := by
  obtain ⟨lengths, conv, rows⟩ := whole_net power ok
  have snoc : pre ++ [i, j] = pre ++ [i] ++ [j] := by simp
  have scores : (run step power.reset (pre ++ [i, j])).predictions =
      neurons (lastFeatures (completed power (pre ++ [i, j])))
        (lastRows (completed power (pre ++ [i, j]))) := by
    rw [← conv, ← rows, snoc, history_snoc, run_append]
    rw [snoc, run_append] at idle₂
    have first : (run step power.reset (pre ++ [i])).dmaInst = Dma.reset := by
      rw [run_append] at idle₁ ⊢
      exact idle_twice idle₀ idle₁
    exact drained_scores (coupled_history power (pre ++ [i])) j first (idle_twice idle₁ idle₂)
  refine ⟨lengths, fun m hm => ?_⟩
  have score := congrArg (fun v : DataArray3bit => v[m]) scores
  exact score.trans (neurons_get _ _ m hm)

/-- The register writes of main.c with a memory that never stalls: the image transfer, the
    weight transfer, and two cycles at rest. -/
def inference (image weight : List (List FixedPoint)) : List In :=
  [silent (writeBus 3 784), silent (writeBus 5 48), silent (writeBus 0 1), silent idleBus] ++
  (serve image).map (⟨idleBus, ·⟩) ++
  [silent (writeBus 1 1), silent idleBus] ++
  (serve weight).map (⟨idleBus, ·⟩) ++
  [silent idleBus, silent idleBus]

def rampImage : List (List FixedPoint) :=
  (List.range 16).map fun j => (List.range 49).map fun i => BitVec.ofNat 16 (49 * j + i)

def rampWeight : List (List FixedPoint) :=
  (List.range 3).map fun j => (List.range 16).map fun i => BitVec.ofNat 16 (16 * j + i)

theorem ramp_scores :
    (run step powerUp.reset (inference rampImage rampWeight ++
        [silent idleBus, silent idleBus])).predictions =
      neurons (lastFeatures (completed powerUp (inference rampImage rampWeight ++
          [silent idleBus, silent idleBus])))
        (lastRows (completed powerUp (inference rampImage rampWeight ++
          [silent idleBus, silent idleBus]))) := by
  ext m hm : 1
  rw [neurons_get]
  exact (scores_of_last_transfers powerUp (inference rampImage rampWeight) (silent idleBus)
    (silent idleBus) (by decide +kernel) (by decide +kernel) (by decide +kernel)
    (by decide +kernel)).2 m hm

/-- `t` was completed by the edge before last, and nothing since. -/
def JustCompleted (power : Accelerator) (ins : List In) (t : Transfer) : Prop :=
  ∃ pre i j, ins = pre ++ [i, j] ∧ completed power (pre ++ [i]) = completed power pre ++ [t] ∧
    completed power ins = completed power (pre ++ [i])

theorem passed_history (power : Accelerator) {ins : List In} {k : Kind}
    (up : (run step power.reset ins).passed k = true) :
    ∃ pre i j ws, ins = pre ++ [i, j] ∧
      (history power (pre ++ [i])).done = (history power pre).done ++ [⟨k, ws⟩] ∧
      (history power ins).done = (history power (pre ++ [i])).done := by
  rcases List.eq_nil_or_concat ins with rfl | ⟨more, j, rfl⟩
  · exact absurd up (by
      cases k <;> simp [passed, reset, ConvBlock.reset, FullyConnectedLayer.reset])
  · rw [List.concat_eq_append, run_snoc,
      step_passed (coupled_history power more)] at up
    rcases List.eq_nil_or_concat more with rfl | ⟨pre, i, rfl⟩
    · exact absurd up (by cases k <;> simp [reset, Dma.reset, chan, Channel.cleared])
    · simp only [List.concat_eq_append] at up ⊢
      have before := coupled_history power pre
      rw [run_snoc, step_dmaInst] at up
      cases logged_turn before.logged (i := (run step power.reset pre).dmaIn i.am)
        (fun _ _ _ => trivial) with
      | goes ws same logged idle quiet => simp [quiet] at up
      | ends t len reading more done =>
        have kind : t.kind = k := by
          rcases t.kind.eq_or_other k with same | other
          · exact same.symm
          · rw [other, done.other] at up
            simp [Channel.cleared] at up
        have still : (run step power.reset (pre ++ [i])).dmaInst.state = .idle := by
          rw [run_append]
          exact done.state
        refine ⟨pre, i, j, t.words, by simp, ?_, ?_⟩
        · rw [history_snoc, more, ← kind]
        · rw [history_snoc, log_idle still]

structure Handshakes (power : Accelerator) (ins : List In) : Prop where
  image : (run step power.reset ins).convBlockInst.reluRegsReadyReg = true →
    ∃ ws, JustCompleted power ins ⟨.image, ws⟩ ∧ ws.length = 784 ∧
      (run step power.reset ins).convBlockInst.convRegs = features ws
  apart : ¬ ((run step power.reset ins).convBlockInst.reluRegsReadyReg = true ∧
    (run step power.reset ins).dmaInst.weight.write = true)
  weight : (run step power.reset ins).nnInst.writeReg = true →
    (∃ ws, JustCompleted power ins ⟨.weight, ws⟩ ∧ ws.length = 48 ∧
      (run step power.reset ins).nnInst.weightDataReg = rowsOf ws) ∧
    (run step power.reset ins).nnInst.reluDataReg = lastFeatures (completed power ins)

theorem passed_last (power : Accelerator) {ins : List In} {k : Kind}
    (ok : (environment WholeLength).Allows step .none power.reset ins)
    (up : (run step power.reset ins).passed k = true) :
    ∃ ws, JustCompleted power ins ⟨k, ws⟩ ∧ ws.length = k.wholeLength ∧
      lastOf k (completed power ins) = some ws := by
  obtain ⟨pre, i, j, ws, rfl, ended, still⟩ := passed_history power up
  have snoc : pre ++ [i, j] = pre ++ [i] ++ [j] := by simp
  have okSnoc : (environment WholeLength).Allows step .none power.reset (pre ++ [i]) := by
    rw [snoc] at ok
    exact (environment WholeLength).allows_left step ok
  have okPre := (environment WholeLength).allows_left step okSnoc
  have last : completed power (pre ++ [i, j]) = completed power pre ++ [⟨k, ws⟩] := by
    rw [completed_eq_history WholeLength.whole power ok, still, ended,
      completed_eq_history WholeLength.whole power okPre]
  refine ⟨ws, ⟨pre, i, j, rfl, ?_, ?_⟩, ?_, ?_⟩
  · rw [completed_eq_history WholeLength.whole power okSnoc, ended,
      completed_eq_history WholeLength.whole power okPre]
  · rw [completed_eq_history WholeLength.whole power ok, still,
      completed_eq_history WholeLength.whole power okSnoc]
  · exact (whole_net power ok).1 ⟨k, ws⟩ (by simp [last])
  · rw [last, lastOf_snoc, if_pos rfl]

theorem handshakes_sample_one_transfer (power : Accelerator) (ins : List In)
    (ok : (environment WholeLength).Allows step .none power.reset ins) :
    Handshakes power ins where
  image up := by
    obtain ⟨ws, just, len, last⟩ := passed_last (k := .image) power ok up
    refine ⟨ws, just, len, ?_⟩
    have bank : _ = (Net.reset.after (history power ins).done).conv :=
      passed_bank (coupled_history power ins) (k := .image) up .image
    rw [(whole_net power ok).2.1, lastFeatures, last] at bank
    exact bank
  apart := by
    rintro ⟨up, write⟩
    have none := ((coupled_history power ins).fresh .image up).2.1 .weight
    simp [pulses, chan, write] at none
  weight up := by
    have h := coupled_history power ins
    constructor
    · obtain ⟨ws, just, len, last⟩ := passed_last (k := .weight) power ok up
      refine ⟨ws, just, len, ?_⟩
      have bank : _ = (Net.reset.after (history power ins).done).rows :=
        passed_bank h (k := .weight) up .weight
      rw [(whole_net power ok).2.2, lastRows, last] at bank
      exact bank
    · rw [passed_relu h up, (whole_net power ok).2.1]

def weightsOnly : List In :=
  [silent (writeBus 5 48), silent (writeBus 1 1), silent idleBus] ++
  (serve rampWeight).map (⟨idleBus, ·⟩) ++ [silent idleBus]

theorem handshakes_after_weights :
    (run step powerUp.reset weightsOnly).nnInst.writeReg = true ∧
      Handshakes powerUp weightsOnly :=
  ⟨by decide +kernel, handshakes_sample_one_transfer powerUp weightsOnly (by decide +kernel)⟩

end Accelerator
end CnnAccelerator
