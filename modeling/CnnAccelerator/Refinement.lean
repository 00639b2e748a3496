import CnnAccelerator.Accelerator
import CnnAccelerator.Net

/- The pipeline refines the network. A window pulse takes one more edge to reach its
   bank; a completed image then takes two edges to reach the fully connected layer, and
   completed weights two edges to be sampled by argmax. -/
namespace CnnAccelerator
open Clocked Dma

/- The bank a kind of pulse writes, convolved_regs or weight_data_reg, and its cells. -/

abbrev Cell : Kind → Type
  | .image => FixedPoint
  | .weight => DataArray16bit

abbrev Kind.cells : Kind → ℕ
  | .image => 16
  | .weight => 3

abbrev Bank (k : Kind) : Type := Vector (Cell k) k.cells

namespace Bank

def value : (k : Kind) → Vector FixedPoint k.burstSize → Cell k
  | .image, data => feature data
  | .weight, data => data

def absorb {k : Kind} (bank : Bank k) (ps : List (Pulse k.burstSize)) : Bank k :=
  ps.foldl (fun b p => if p.write then b.setIfInBounds p.cnt.toNat (value k p.data) else b) bank

@[simp] theorem absorb_nil {k : Kind} (bank : Bank k) : bank.absorb [] = bank := rfl

theorem absorb_append {k : Kind} (bank : Bank k) (ps qs : List (Pulse k.burstSize)) :
    bank.absorb (ps ++ qs) = (bank.absorb ps).absorb qs := by
  simp [absorb]

theorem absorb_numbered {k : Kind} (bank : Bank k) (start : ℕ → Bool)
    (data : ℕ → Vector FixedPoint k.burstSize) (m : ℕ) :
    bank.absorb ((List.range m).map fun j => ⟨true, start j, BitVec.ofNat 4 j, data j⟩) =
      RingFill.fill 16 bank (((List.range m).map data).map (value k)) := by
  induction m with
  | zero => rfl
  | succ m ih =>
    rw [List.range_succ, List.map_append, absorb_append, ih, List.map_append, List.map_append,
      List.map_singleton, List.map_singleton, List.map_singleton, RingFill.fill_snoc]
    simp [absorb]

theorem absorb_pulsesOf {k : Kind} (bank : Bank k) (ws : List FixedPoint) (m : ℕ) :
    bank.absorb (pulsesOf k ws m) = RingFill.fill 16 bank (((List.range m).map fun j =>
      window k.burstSize (ws.take (k.burstSize * (j + 1)))).map (value k)) :=
  absorb_numbered bank (fun _ => false) _ m

theorem absorb_handed {k : Kind} (bank : Bank k) (ws : List FixedPoint) :
    bank.absorb (handed k ⟨k, ws⟩) =
      RingFill.fill 16 bank ((windows k.burstSize ws).map (value k)) := by
  have all : ws.take (k.burstSize * ((ws.length - 1) / k.burstSize + 1)) = ws := by
    apply List.take_of_length_le
    have := Nat.lt_mul_div_succ (ws.length - 1) k.burstSize_pos
    omega
  rw [handed, if_pos rfl, absorb_append, absorb_pulsesOf, windows, List.range_succ,
    List.map_append, List.map_append, List.map_singleton, List.map_singleton, RingFill.fill_snoc,
    all]
  simp [absorb, lastPulse]

end Bank

def Net.bank (N : Net) : (k : Kind) → Bank k
  | .image => N.conv
  | .weight => N.rows

theorem finish_bank (N : Net) (t : Transfer) (k : Kind) :
    (N.bank k).absorb (handed k t) = (N.finish t).bank k := by
  obtain ⟨k', ws⟩ := t
  cases k' <;> cases k
  · exact Bank.absorb_handed (N.bank .image) ws
  · rfl
  · rfl
  · rw [Bank.absorb_handed (N.bank .weight) ws]
    exact congrArg (RingFill.fill 16 N.rows) (List.map_id _)

namespace Accelerator

/-- relu_regs_ready and predictions_ready: the edge before handed over a whole transfer. -/
def passed (s : Accelerator) : Kind → Bool
  | .image => s.convBlockInst.reluRegsReadyReg
  | .weight => s.nnInst.writeReg

def bank (s : Accelerator) : (k : Kind) → Bank k
  | .image => s.convBlockInst.convRegs
  | .weight => s.nnInst.weightDataReg

/-- Registers and network at the end of a run with the log `g`. -/
structure Coupled (N₀ : Net) (s : Accelerator) (g : Log) : Prop where
  logged : Logged (fun _ _ => True) s.dmaInst g.words
  banks : ∀ k, (s.bank k).absorb (pulses k [s.dmaInst]) =
    ((N₀.after g.done).bank k).absorb (sent k s.dmaInst g.words)
  fresh : ∀ k, s.passed k = true → g.words = [] ∧
    (∀ k', pulses k' [s.dmaInst] = []) ∧ ∀ k', s.dmaInst.state ≠ .burst k' .read
  single : ¬ (s.passed .image = true ∧ s.passed .weight = true)
  relu : (s.dmaInst.chan .image).start = false → s.passed .image = false →
    s.nnInst.reluDataReg = (N₀.after g.done).conv
  best : (if (s.dmaInst.chan .weight).start ∨ s.passed .weight then
      s.argmaxInst.sample (N₀.after g.done).scores else s.argmaxInst) = (N₀.after g.done).best

theorem step_held {s : Accelerator} (low : s.passed .weight = false) (i : In) :
    (s.step i).argmaxInst = s.argmaxInst :=
  if_neg (Bool.eq_false_iff.mp low)

section Step
variable {N₀ : Net} {s : Accelerator} {g : Log} (h : Coupled N₀ s g) (i : In)
include h

/-- The registers of a bank are one edge behind the pulses; relu_read_i goes before
    weight_read_i, but the two are never high together. -/
theorem step_bank (k : Kind) :
    (s.step i).bank k = (s.bank k).absorb (pulses k [s.dmaInst]) := by
  cases k with
  | image =>
    have regs := ConvBlock.regs_convRegs s.convBlockInst s.dmaInst.image.write
      s.dmaInst.image.start s.dmaInst.image.cnt (relu (convFilter s.dmaInst.image.data))
    refine regs.trans ?_
    cases write : s.dmaInst.image.write <;> cases start : s.dmaInst.image.start <;>
      simp [Bank.absorb, Bank.value, bank, pulses, chan, write, start, feature]
  | weight =>
    have alone (read : s.convBlockInst.reluRegsReadyReg = true) :
        pulses .weight [s.dmaInst] = [] := (h.fresh .image read).2.1 .weight
    cases read : s.convBlockInst.reluRegsReadyReg <;> cases write : s.dmaInst.weight.write <;>
      cases start : s.dmaInst.weight.start <;>
      simp_all [Bank.absorb, Bank.value, bank, pulses, chan, step, clock, FullyConnectedLayer.step]

theorem step_passed (k : Kind) : (s.step i).passed k = (s.dmaInst.chan k).start := by
  cases k with
  | weight => rfl
  | image =>
    cases up : (s.dmaInst.chan .image).start with
    | false =>
      simp only [chan] at up
      simp [passed, step, clock, ConvBlock.regs, up]
    | true =>
      obtain ⟨len, us, done⟩ := logged_start h.logged up
      have write := done.write
      simp only [chan] at up write
      simp [passed, step, clock, ConvBlock.regs, up, write]

theorem step_single :
    ¬ ((s.step i).passed .image = true ∧ (s.step i).passed .weight = true) := by
  rw [step_passed h, step_passed h]
  rintro ⟨image, weight⟩
  obtain ⟨len, us, done⟩ := logged_start h.logged image
  have low := done.other
  simp only [Kind.other] at low
  simp [low, Channel.cleared] at weight

theorem passed_bank {k : Kind} (up : s.passed k = true) (k' : Kind) :
    s.bank k' = (N₀.after g.done).bank k' := by
  obtain ⟨words, quiet, _⟩ := h.fresh k up
  have banks := h.banks k'
  rwa [quiet, words, sent_nil, Bank.absorb_nil, Bank.absorb_nil] at banks

theorem passed_relu (up : s.passed .weight = true) :
    s.nnInst.reluDataReg = (N₀.after g.done).conv := by
  apply h.relu
  · exact no_pulse_start ((h.fresh .weight up).2.1 .image)
  · exact Bool.eq_false_iff.mpr fun image => h.single ⟨image, up⟩

theorem step_relu (quiet : (s.dmaInst.chan .image).start = false) :
    (s.step i).nnInst.reluDataReg = (N₀.after g.done).conv := by
  have next : (s.step i).nnInst.reluDataReg =
      if s.passed .image then s.bank .image else s.nnInst.reluDataReg := rfl
  rw [next]
  split
  · exact passed_bank h ‹_› .image
  · exact h.relu quiet (Bool.eq_false_iff.mpr ‹_›)

theorem start_waits (up : (s.dmaInst.chan .weight).start = true) : s.passed .weight = false := by
  apply Bool.eq_false_iff.mpr
  intro passed
  have none := no_pulse_start ((h.fresh .weight passed).2.1 .weight)
  simp [up] at none

theorem step_argmax (quiet : (s.dmaInst.chan .weight).start = false) :
    (s.step i).argmaxInst = (N₀.after g.done).best := by
  have next : (s.step i).argmaxInst =
      if s.passed .weight then s.argmaxInst.sample s.predictions else s.argmaxInst := rfl
  have best := h.best
  rw [next]
  split
  · rename_i up
    have scores : s.predictions = (N₀.after g.done).scores := by
      have rows := passed_bank h up .weight
      simp only [bank, Net.bank] at rows
      rw [predictions, passed_relu h up, rows, Net.scores]
    rw [scores]
    rwa [if_pos (Or.inr up)] at best
  · rename_i low
    rwa [if_neg (by simp [quiet, low])] at best

end Step

def Sampled (s : Accelerator) : Prop :=
  s.dmaInst.state = .idle ∧ s.dmaInst.weight.start = false ∧ s.passed .weight = false

instance (s : Accelerator) : Decidable (Sampled s) := inferInstanceAs (Decidable (_ ∧ _))

/-- The dma is idle and no pulse is up. -/
def Drained (s : Accelerator) : Prop :=
  s.dmaInst.state = .idle ∧
    ∀ k, (s.dmaInst.chan k).write = false ∧ (s.dmaInst.chan k).start = false ∧ s.passed k = false

theorem Drained.sampled {s : Accelerator} (drained : Drained s) : Sampled s :=
  ⟨drained.1, (drained.2 .weight).2⟩

theorem sampled_best {N₀ : Net} {s : Accelerator} {g : Log} (h : Coupled N₀ s g)
    (sampled : Sampled s) : s.argmaxInst = (N₀.after g.done).best := by
  have low : ¬ ((s.dmaInst.chan .weight).start = true ∨ s.passed .weight = true) :=
    not_or.mpr ⟨Bool.eq_false_iff.mp sampled.2.1, Bool.eq_false_iff.mp sampled.2.2⟩
  have best := h.best
  rwa [if_neg low] at best

theorem coupled_step {N₀ : Net} {s : Accelerator} {g : Log} (h : Coupled N₀ s g) (i : In) :
    Coupled N₀ (s.step i) (log.next g s.dmaInst (s.dmaIn i.am)) := by
  have single := step_single h i
  cases logged_turn h.logged (i := s.dmaIn i.am) (fun _ _ _ => trivial) with
  | goes ws same logged idle quiet pulse =>
    rw [same]
    constructor
    · exact logged
    · intro k
      rw [step_bank h, h.banks, ← Bank.absorb_append, step_dmaInst, pulse]
    · intro k up
      rw [step_passed h] at up
      obtain ⟨len, us, done⟩ := logged_start h.logged up
      obtain ⟨rfl, calm⟩ := idle done.state
      refine ⟨rfl, fun k' => ?_, calm⟩
      have none := pulse k'
      rwa [sent_idle done.state, sent_nil, List.nil_append] at none
    · exact single
    · intro _ passed
      exact step_relu h i (by rwa [step_passed h] at passed)
    · rw [step_dmaInst, quiet, step_passed h]
      cases up : (s.dmaInst.chan .weight).start with
      | false => simpa using step_argmax h i up
      | true =>
        -- the last row arrives on this edge, argmax samples it on the one after next
        have best := h.best
        rw [if_pos (Or.inl up)] at best
        simpa [step_held (start_waits h up) i] using best
  | ends t len reading more done _ pulse =>
    -- a word is being stored, so no earlier transfer has a pulse up
    have low (k : Kind) : (s.dmaInst.chan k).start = false := by
      apply Bool.eq_false_iff.mpr
      intro up
      obtain ⟨len, us, idle⟩ := logged_start h.logged up
      simp [idle.state] at reading
    have net : N₀.after (g.done ++ [t]) = (N₀.after g.done).finish t := by simp
    rw [more]
    constructor
    · exact .done done trivial
    · intro k
      rw [step_bank h, h.banks, ← Bank.absorb_append, step_dmaInst, pulse, finish_bank, net,
        sent_nil, Bank.absorb_nil]
    · intro k up
      rw [step_passed h, low] at up
      contradiction
    · exact single
    · intro up _
      rw [step_relu h i (low .image), net]
      cases kind : t.kind with
      | weight => simp [Net.finish, kind]
      | image =>
        have start := done.start
        rw [kind] at start
        simp [start] at up
    · rw [step_dmaInst, step_passed h, low, step_argmax h i (low .weight), net]
      cases kind : t.kind with
      | weight =>
        have start := done.start
        rw [kind] at start
        simp [start, Net.finish, kind, Net.scores]
      | image =>
        have other := done.other
        rw [kind] at other
        simp only [Kind.other] at other
        simp [other, Channel.cleared, Net.finish, kind]

def logged : Monitor Accelerator In Log := log.comap dmaInst fun s i => s.dmaIn i.am

theorem coupled_run {N₀ : Net} {s : Accelerator} {g : Log} (h : Coupled N₀ s g)
    (ins : List In) : Coupled N₀ (run step s ins) (logged.watch step g s ins) :=
  Monitor.watch_invariant _ step (P := fun s g => Coupled N₀ s g) h
    (fun _ _ i h => coupled_step h i) ins

theorem begun_busy {s : Accelerator} {pre : List In} {i : In} {k : Kind}
    (idle : (run step s pre).dmaInst.state = .idle)
    (started : ((run step s pre).dmaIn i.am).starts = some k) :
    (run step s (pre ++ [i])).dmaInst.Busy k .start (((run step s pre).dmaIn i.am).addr k)
      (((run step s pre).dmaIn i.am).length k) [] := by
  rw [run_snoc, step_dmaInst]
  exact started_busy idle started

theorem bank_run {N₀ : Net} {s : Accelerator} {g : Log} (h : Coupled N₀ s g) (ins : List In)
    (j : In) (k : Kind) : (run step s (ins ++ [j])).bank k =
      (s.bank k).absorb (pulses k ((states step s ins).map dmaInst)) := by
  induction ins using List.reverseRecOn generalizing j with
  | nil => exact step_bank h j k
  | append_singleton ins i ih =>
    have last := step_bank (coupled_run h (ins ++ [i])) j k
    rw [run_snoc, last, ih i, states_snoc, List.map_append, pulses_append, Bank.absorb_append,
      run_snoc]
    rfl

def history (power : Accelerator) (ins : List In) : Log :=
  logged.watch step .empty power.reset ins

theorem coupled_reset (power : Accelerator) : Coupled .reset power.reset .empty where
  logged := .rest
  banks := by
    intro k
    have none : sent k power.reset.dmaInst [] = [] := sent_nil k _
    have quiet : pulses k [power.reset.dmaInst] = [] := reset_pulses k
    rw [quiet, show Log.empty.words = [] from rfl, none]
    cases k <;> rfl
  fresh := by
    intro k up
    cases k <;> simp [passed, reset, ConvBlock.reset, FullyConnectedLayer.reset] at up
  single := by simp [passed, reset, ConvBlock.reset]
  relu := fun _ _ => rfl
  best := rfl

theorem coupled_history (power : Accelerator) (ins : List In) :
    Coupled .reset (run step power.reset ins) (history power ins) :=
  coupled_run (coupled_reset power) ins

theorem history_append (power : Accelerator) (xs ys : List In) : history power (xs ++ ys) =
    logged.watch step (history power xs) (run step power.reset xs) ys :=
  logged.watch_append step _ _ xs ys

theorem history_snoc (power : Accelerator) (ins : List In) (i : In) :
    history power (ins ++ [i]) = log.next (history power ins) (run step power.reset ins).dmaInst
      ((run step power.reset ins).dmaIn i.am) := by
  simp [history, logged, Monitor.comap]

end Accelerator
end CnnAccelerator
