import CnnAccelerator.Driver
import CnnAccelerator.Lib.Progress

/- When a transfer ends, over endless runs of the memory. The end is an equality of a 17-bit
   word count with the 32-bit length minus one. -/
namespace CnnAccelerator
open Clocked

namespace Dma

/-- A memory that accepts every command in the end, and goes on delivering while it owes
    words. -/
structure Serves (r : Dma) (m : Responses) (env : ℕ → In) : Prop where
  accepts : ∀ t, (stateAt am r env t).read = true → ∃ u, t ≤ u ∧ (env u).waitrequest = false
  delivers : ∀ t, (stateAt (slave.product am) (r, m) env t).2.pending ≠ [] →
    ∃ u, t ≤ u ∧ (env u).readdatavalid = true

/-- Cycle `t` is the first in IDLE: the start output is up and `n` words are in. -/
structure Ends (k : Kind) (n : ℕ) (r : Dma) (env : ℕ → In) (t : ℕ) : Prop where
  idle : (stateAt am r env t).state = .idle
  first : ∀ u < t, (stateAt am r env u).state ≠ .idle
  start : ((stateAt am r env t).chan k).start = true
  words : (stored (trace am r ((List.range t).map env))).length = n

def phaseRank : Phase → ℕ
  | .start => 2
  | .wait => 1
  | .read => 0

def helps (p : Phase) (i : In) : Prop :=
  match p with
  | .start => True
  | .wait => i.waitrequest = false
  | .read => i.readdatavalid = true

/-- Inside a transfer the memory owes at least the words up to the next command. -/
structure Owed (k : Kind) (base len : BitVec 32) (p : Phase) (ws : List FixedPoint)
    (s : Dma × Responses) : Prop where
  busy : s.1.Busy k p base len ws
  owed : untilCommand k p ws.length ≤ s.2.pending.length

def Ranked (k : Kind) (base len : BitVec 32) (n : ℕ) (s : Dma × Responses) : Prop :=
  ∃ p ws, Owed k base len p ws s ∧ n = 3 * (len.toNat - ws.length) + phaseRank p

theorem owed_next {r : Dma} {k : Kind} {p : Phase} {base len : BitVec 32}
    {ws : List FixedPoint} {m : Responses} (h : r.Busy k p base len ws) {i : In}
    (owed : untilCommand k p ws.length ≤ m.pending.length) :
    untilCommand k (nextPhase k p ws.length i) (store ws r i).length ≤
      (m.next r i).pending.length := by
  cases p with
  | start => simp [untilCommand, nextPhase]
  | wait =>
    cases go : i.waitrequest with
    | true => simp [untilCommand, nextPhase, go]
    | false =>
      have size : (BitVec.ofNat 7 k.burstSize).toNat = k.burstSize := by cases k <;> rfl
      simp [untilCommand, nextPhase, go, Responses.next, accepts, h.read, h.burstcountOut rfl, size]
      omega
  | read =>
    cases valid : i.readdatavalid with
    | false =>
      simpa [nextPhase, valid, store, stores, h.state, Responses.next, accepts, h.read] using owed
    | true =>
      rw [untilCommand_word k ws.length i valid] at owed
      simp [store, stores, h.state, valid, Responses.next, accepts, h.read]
      omega

theorem owed_keeps {k : Kind} {p : Phase} {base len : BitVec 32} {ws : List FixedPoint}
    {s : Dma × Responses} {i : In} (h : Owed k base len p ws s) (unhelpful : ¬ helps p i) :
    Owed k base len p ws (slave.product am s i) := by
  have next := owed_next (i := i) h.busy h.owed
  cases p with
  | start => exact absurd trivial unhelpful
  | wait =>
    have stall : i.waitrequest = true := by simpa [helps] using unhelpful
    refine ⟨?_, by simp [untilCommand]⟩
    show (s.1.am i).Busy k .wait base len ws
    rw [busy_wait_stall h.busy stall]
    exact h.busy
  | read =>
    have gap : i.readdatavalid = false := by simpa [helps] using unhelpful
    constructor
    · show (s.1.am i).Busy k .read base len ws
      rw [busy_read_gap h.busy gap]
      exact h.busy
    · change _ ≤ (s.2.next s.1 i).pending.length
      simpa [nextPhase, gap, store, stores, h.busy.state] using next

theorem owed_falls {k : Kind} {p : Phase} {base len : BitVec 32} {ws : List FixedPoint}
    {s : Dma × Responses} {i : In} (h : Owed k base len p ws s) (helpful : helps p i)
    (fits : 0 < len.toNat ∧ len.toNat ≤ 2 ^ 17) :
    (s.1.am i).state = .idle ∨ ∃ m < 3 * (len.toNat - ws.length) + phaseRank p,
      Ranked k base len m (slave.product am s i) := by
  rcases busy_step h.busy i with ⟨busy, _⟩ | ⟨done, _⟩
  · refine Or.inr ⟨_, ?_, _, _, ⟨busy, owed_next h.busy h.owed⟩, rfl⟩
    have short := h.busy.unfinished fits.1 fits.2
    cases p with
    | start => simp [nextPhase, store, stores, h.busy.state, phaseRank]
    | wait =>
      have go : i.waitrequest = false := helpful
      simp [nextPhase, go, store, stores, h.busy.state, phaseRank]
    | read =>
      have valid : i.readdatavalid = true := helpful
      by_cases full : (ws.length + 1) % k.burstSize = 0
      · simp [nextPhase, valid, full, store, stores, h.busy.state, phaseRank]
        omega
      · simp [nextPhase, full, store, stores, h.busy.state, valid, phaseRank]
        omega
  · exact Or.inl done.state

theorem product_dma (r : Dma) (m : Responses) (env : ℕ → In) (t : ℕ) :
    (stateAt (slave.product am) (r, m) env t).1 = stateAt am r env t := by
  have wired : ∀ p i, (slave.product am p i).1 = am p.1 i := fun _ _ => rfl
  exact stateAt_component (f := Prod.fst) wired (r, m) env t

section Endless
variable {r : Dma} {k : Kind} {base len : BitVec 32} {env : ℕ → In}
  (h : r.Busy k .start base len [])
include h

theorem served_idle {m : Responses} (serves : Serves r m env)
    (fits : 0 < len.toNat ∧ len.toNat ≤ 2 ^ 17) : ∃ t, (stateAt am r env t).state = .idle := by
  have falls : ∀ n t, Ranked k base len n (stateAt (slave.product am) (r, m) env t) →
      ∃ u, t ≤ u ∧ ((stateAt (slave.product am) (r, m) env u).1.state = .idle ∨
        ∃ n' < n, Ranked k base len n' (stateAt (slave.product am) (r, m) env u)) := by
    rintro n t ⟨p, ws, owed, rfl⟩
    have fair : ∃ u, t ≤ u ∧ helps p (env u) := by
      cases p with
      | start => exact ⟨t, Nat.le_refl t, trivial⟩
      | wait =>
        apply serves.accepts
        rw [← product_dma r m, owed.busy.read]
        rfl
      | read =>
        apply serves.delivers
        apply List.ne_nil_of_length_pos
        have room := Nat.mod_lt ws.length k.burstSize_pos
        have pending := owed.owed
        simp only [untilCommand, ↓reduceIte] at pending
        omega
    obtain ⟨u, later, still, helpful⟩ := helped (fun _ _ => owed_keeps) owed fair
    exact ⟨u + 1, by omega, owed_falls still helpful fits⟩
  have first : Ranked k base len (3 * len.toNat + 2)
      (stateAt (slave.product am) (r, m) env 0) :=
    ⟨.start, [], ⟨h, by simp [untilCommand]⟩, rfl⟩
  obtain ⟨u, _, idle⟩ := reaches_of_rank (fun s => s.1.state = .idle) falls first
  rw [product_dma r m] at idle
  exact ⟨u, idle⟩

theorem first_idle_ends {t : ℕ} (idle : (stateAt am r env t).state = .idle)
    (first : ∀ u < t, (stateAt am r env u).state ≠ .idle) :
    Ends k len.toNat r env t ∧ 1 ≤ len.toNat ∧ len.toNat ≤ 131072 := by
  have inside : ∀ c ∈ trace am r ((List.range t).map env), c.1.state ≠ .idle := by
    intro c member
    obtain ⟨xs, ys, split, state⟩ := mem_trace.mp member
    have before : xs.length < t := by
      have size := congrArg List.length split
      simp at size
      omega
    have front : xs = (List.range xs.length).map env := by
      have take := congrArg (List.take xs.length) split
      rw [List.take_left, ← List.map_take, List.take_range,
        Nat.min_eq_left (Nat.le_of_lt before)] at take
      exact take.symm
    rw [state, front, ← stateAt_run]
    exact first _ before
  rw [stateAt_run] at idle
  rcases transfer_run h _ inside with ⟨p, u⟩ | f
  · have going := u.busy.state
    simp [idle] at going
  · obtain ⟨total, pos, high⟩ := f.done.length
    refine ⟨⟨?_, first, ?_, total.symm⟩, by omega, by omega⟩
    · rw [stateAt_run]
      exact f.done.state
    · rw [stateAt_run]
      exact f.done.start

theorem ends_iff {m : Responses} (serves : Serves r m env) :
    (∃ t, Ends k len.toNat r env t) ↔ 1 ≤ len.toNat ∧ len.toNat ≤ 131072 := by
  constructor
  · rintro ⟨t, ends⟩
    exact (first_idle_ends h ends.idle ends.first).2
  · rintro ⟨low, high⟩
    obtain ⟨t, idle, first⟩ := first_reached (fun s : Dma => s.state = .idle)
      (served_idle h serves ⟨low, high⟩)
    exact ⟨t, (first_idle_ends h idle first).1⟩

theorem never_idle (unreached : ¬ (1 ≤ len.toNat ∧ len.toNat ≤ 131072)) (t : ℕ) :
    (stateAt am r env t).state ≠ .idle := by
  intro idle
  obtain ⟨u, idle, first⟩ := first_reached (fun s : Dma => s.state = .idle) ⟨t, idle⟩
  exact unreached (first_idle_ends h idle first).2

end Endless

end Dma

namespace Accelerator
open Dma

def dmaEnv (s : Accelerator) (env : ℕ → In) (t : ℕ) : Dma.In :=
  (stateAt step s env t).dmaIn (env t).am

theorem dma_at (s : Accelerator) (env : ℕ → In) (t : ℕ) :
    (stateAt step s env t).dmaInst = stateAt am s.dmaInst (s.dmaEnv env) t :=
  stateAt_component (f := dmaInst) step_dmaInst s env t

theorem started_dma {power : Accelerator} {k : Kind} {pre : List In} {i : In}
    (idle : (run step power.reset pre).dmaInst.state = .idle)
    (started : ((run step power.reset pre).dmaIn i.am).starts = some k) :
    (run step power.reset (pre ++ [i])).dmaInst.Busy k .start
      (((run step power.reset pre).dmaIn i.am).addr k)
      (written k.lengthAddress (power.lengthReg k) (pre.map In.as)) [] := by
  have busy := begun_busy idle started
  have length : power.reset.lengthReg k = power.lengthReg k := by cases k <;> rfl
  rw [dmaIn_length, lengthReg_run, length] at busy
  exact busy

/-- The transfer begun in cycle `i`, with `N` the value last written to its length register
    and any words still owed to earlier transfers. -/
theorem transfer_ends_iff (power : Accelerator) (k : Kind) (N : BitVec 32) (pre : List In) (i : In)
    (env : ℕ → In) (m : Responses)
    (length : written k.lengthAddress (power.lengthReg k) (pre.map In.as) = N)
    (idle : (run step power.reset pre).dmaInst.state = .idle)
    (started : ((run step power.reset pre).dmaIn i.am).starts = some k)
    (serves : Serves (run step power.reset (pre ++ [i])).dmaInst m
      ((run step power.reset (pre ++ [i])).dmaEnv env)) :
    (∃ t, Ends k N.toNat (run step power.reset (pre ++ [i])).dmaInst
      ((run step power.reset (pre ++ [i])).dmaEnv env) t) ↔ 1 ≤ N.toNat ∧ N.toNat ≤ 131072 := by
  have busy := started_dma idle started
  rw [length] at busy
  exact ends_iff busy serves

def steady (t : ℕ) : In := ⟨idleBus, ⟨decide (2 ≤ t % 51), 0, false⟩⟩

theorem steady_serves (s : Accelerator) (m : Responses) :
    Serves s.dmaInst m (s.dmaEnv steady) where
  accepts t _ := ⟨t, Nat.le_refl t, rfl⟩
  delivers t _ := by
    refine ⟨51 * t + 2, by omega, ?_⟩
    have within : 2 ≤ (51 * t + 2) % 51 := by omega
    simp only [dmaEnv, dmaIn, steady, within, decide_true]

def startLength (n : BitVec 32) : List In := [silent (writeBus 3 n), silent (writeBus 0 1)]

theorem transfer_ends_one_window :
    ∃ t, Ends .image 49 (run step powerUp.reset (startLength 49 ++ [silent idleBus])).dmaInst
      ((run step powerUp.reset (startLength 49 ++ [silent idleBus])).dmaEnv steady) t :=
  (transfer_ends_iff powerUp .image 49 (startLength 49) (silent idleBus) steady .none
    (by decide) (by decide) (by decide) (steady_serves _ _)).mpr (by decide)

theorem transfer_never_ends_zero :
    written 3 (powerUp.lengthReg .image) ((startLength 0).map In.as) = 0 ∧
      (run step powerUp.reset (startLength 0)).dmaInst.state = .idle ∧
      ((run step powerUp.reset (startLength 0)).dmaIn (silent idleBus).am).starts = some .image ∧
      Serves (run step powerUp.reset (startLength 0 ++ [silent idleBus])).dmaInst .none
        ((run step powerUp.reset (startLength 0 ++ [silent idleBus])).dmaEnv steady) ∧
      (∀ t, (stateAt step (run step powerUp.reset (startLength 0 ++ [silent idleBus]))
        steady t).dmaInst.state ≠ .idle) ∧
      ¬ ∃ t, Ends .image 0 (run step powerUp.reset (startLength 0 ++ [silent idleBus])).dmaInst
        ((run step powerUp.reset (startLength 0 ++ [silent idleBus])).dmaEnv steady) t := by
  have idle : (run step powerUp.reset (startLength 0)).dmaInst.state = .idle := by decide
  have started : ((run step powerUp.reset (startLength 0)).dmaIn (silent idleBus).am).starts =
      some .image := by decide
  have never (t : ℕ) :
      (stateAt am (run step powerUp.reset (startLength 0 ++ [silent idleBus])).dmaInst
        ((run step powerUp.reset (startLength 0 ++ [silent idleBus])).dmaEnv steady) t).state ≠
          .idle :=
    never_idle (started_dma idle started) (by decide) t
  refine ⟨by decide, idle, started, steady_serves _ _, ?_, ?_⟩
  · intro t
    rw [dma_at]
    exact never t
  · rintro ⟨t, ends⟩
    exact never t ends.idle

end Accelerator
end CnnAccelerator
