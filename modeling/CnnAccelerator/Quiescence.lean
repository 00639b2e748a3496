import CnnAccelerator.Memory
import CnnAccelerator.RunningMaximum
import CnnAccelerator.Termination

/- When the processor starts nothing more: on a memory that goes on serving, the accelerator
   comes to rest with the network of all requests. -/
namespace CnnAccelerator
open Clocked Dma

namespace Dma

/-- The lengths at which a transfer ends, and ends with a whole burst: any number of windows that
    the word counter can count, but one to three rows. -/
def Ending (k : Kind) (len : BitVec 32) : Prop :=
  len.toNat % k.burstSize = 0 ∧ (0 < len.toNat ∧ len.toNat ≤ 2 ^ 17) ∧ RowLength k len

instance (k : Kind) (len : BitVec 32) : Decidable (Ending k len) :=
  inferInstanceAs (Decidable (_ ∧ _ ∧ _))

theorem ending_whole (k : Kind) (len : BitVec 32) (h : Ending k len) : Whole k len :=
  fun _ => h.1

section Busy
variable {r : Dma} {k : Kind} {p : Phase} {base len : BitVec 32} {ws : List FixedPoint} {i : In}
  (h : r.Busy k p base len ws)
include h

theorem owed_busy : Owed k base len p ws (r, ⟨0, List.replicate (untilCommand k p ws.length) 0⟩) :=
  ⟨h, by simp⟩

theorem busy_keeps (unhelpful : ¬ helps p i) : (r.am i).Busy k p base len ws :=
  (owed_keeps (owed_busy h) unhelpful).busy

theorem busy_falls (helpful : helps p i) (fits : 0 < len.toNat ∧ len.toNat ≤ 2 ^ 17) :
    (r.am i).state = .idle ∨ ∃ p' us, (r.am i).Busy k p' base len us ∧
      3 * (len.toNat - us.length) + phaseRank p' < 3 * (len.toNat - ws.length) + phaseRank p := by
  rcases owed_falls (owed_busy h) helpful fits with idle | ⟨n, lower, p', us, owed, rank⟩
  · exact .inl idle
  · exact .inr ⟨p', us, owed.busy, by omega⟩

end Busy

theorem fed_owes {content : ℕ → Memory} {L : Kind → BitVec 32 → Prop} {r : Dma} {m : Supply}
    {g : Log} {k : Kind} (h : Fed content L r m g) (reads : r.state = .burst k .read) :
    m.pending ≠ [] := by
  cases h with
  | idle state silent empty words all => simp [state] at reads
  | @busy k' p base len qs h latched asked before words owed =>
    obtain ⟨rfl, rfl⟩ : k' = k ∧ p = .read := by simpa [h.state] using reads
    apply List.ne_nil_of_length_pos
    have room := Nat.mod_lt g.words.length k'.burstSize_pos
    simp only [owed, owing, untilCommand, ↓reduceIte, List.length_map, List.length_range']
    omega

theorem fed_empty {content : ℕ → Memory} {L : Kind → BitVec 32 → Prop} {r : Dma} {m : Supply}
    {g : Log} (h : Fed content L r m g) (idle : r.state = .idle) : m.pending = [] := by
  cases h with
  | idle state silent empty words all => exact empty
  | busy h latched asked before words owed => simp [h.state] at idle

end Dma

namespace Accelerator

def upTo (pre : List In) (env : ℕ → In) (t : ℕ) : List In := pre ++ (List.range t).map env

theorem upTo_succ (pre : List In) (env : ℕ → In) (t : ℕ) :
    upTo pre env (t + 1) = upTo pre env t ++ [env t] := by
  simp [upTo, List.range_succ]

theorem run_upTo (s : Accelerator) (pre : List In) (env : ℕ → In) (t : ℕ) :
    run step s (upTo pre env t) = stateAt step (run step s pre) env t := by
  rw [upTo, run_append, stateAt_run]

/-- A memory that keeps the protocol, accepts every command in the end and goes on delivering
    while it owes words. -/
structure Fair (content : ℕ → Memory) (power : Accelerator) (pre : List In) (env : ℕ → In) :
    Prop where
  protocol : ∀ t, (supplied content Ending).Allows step .none power.reset (upTo pre env t)
  accepts : ∀ t, (run step power.reset (upTo pre env t)).dmaInst.read = true →
    ∃ u, t ≤ u ∧ (env u).am.waitrequest = false
  delivers : ∀ t, ((supplied content Ending).watch step .none power.reset
    (upTo pre env t)).pending ≠ [] → ∃ u, t ≤ u ∧ (env u).am.readdatavalid = true

def helpful (p : Phase) (i : In) : Prop :=
  match p with
  | .start => True
  | .wait => i.am.waitrequest = false
  | .read => i.am.readdatavalid = true

theorem helpful_iff (p : Phase) (s : Accelerator) (i : In) :
    helps p (s.dmaIn i.am) ↔ helpful p i := by
  cases p with
  | start => exact Iff.rfl
  | wait => exact Iff.rfl
  | read => exact Iff.rfl

def Remaining (n : ℕ) (s : Accelerator) : Prop :=
  ∃ k p base len ws, s.dmaInst.Busy k p base len ws ∧ (0 < len.toNat ∧ len.toNat ≤ 2 ^ 17) ∧
    n = 3 * (len.toNat - ws.length) + phaseRank p

section Rest
variable {content : ℕ → Memory} {power : Accelerator} {pre : List In} {env : ℕ → In}
  (fair : Fair content power pre env)

section Fairness
include fair

theorem fair_fed (t : ℕ) : Fed content Ending (run step power.reset (upTo pre env t)).dmaInst
    ((supplied content Ending).watch step .none power.reset (upTo pre env t))
    (history power (upTo pre env t)) :=
  fed_run ending_whole power (fair.protocol t)

theorem fair_idle (t : ℕ) :
    ∃ u, t ≤ u ∧ (run step power.reset (upTo pre env u)).dmaInst.state = .idle := by
  have falls : ∀ n t, Remaining n (stateAt step (run step power.reset pre) env t) →
      ∃ u, t ≤ u ∧ ((stateAt step (run step power.reset pre) env u).dmaInst.state = .idle ∨
        ∃ m < n, Remaining m (stateAt step (run step power.reset pre) env u)) := by
    rintro n t ⟨k, p, base, len, ws, busy, fits, rfl⟩
    have some : ∃ u, t ≤ u ∧ helpful p (env u) := by
      rw [← run_upTo] at busy
      cases p with
      | start => exact ⟨t, Nat.le_refl t, trivial⟩
      | wait =>
        apply fair.accepts
        rw [busy.read]
        rfl
      | read => exact fair.delivers t (fed_owes (fair_fed fair t) busy.state)
    obtain ⟨u, later, still, helps⟩ := helped
      (P := fun s : Accelerator => s.dmaInst.Busy k p base len ws)
      (fun s i h unhelpful => busy_keeps h (mt (helpful_iff p s i).mp unhelpful)) busy some
    refine ⟨u + 1, by omega, ?_⟩
    rcases busy_falls still ((helpful_iff p _ _).mpr helps) fits with idle | ⟨p', us, next, lower⟩
    · exact .inl idle
    · exact .inr ⟨_, lower, k, p', base, len, us, next, fits, rfl⟩
  have now := fair_fed fair t
  rw [run_upTo] at now
  cases now with
  | idle state silent empty words all => exact ⟨t, Nat.le_refl t, by rw [run_upTo, state]⟩
  | @busy k p base len qs h latched asked before words owed =>
    obtain ⟨u, later, idle⟩ := reaches_of_rank (fun s : Accelerator => s.dmaInst.state = .idle)
      falls ⟨k, p, base, len, _, h, latched.2.1, rfl⟩
    exact ⟨u, later, by rw [run_upTo, idle]⟩

end Fairness

variable (content power pre) (calm : ∀ t k, startWrite k (env t) = false)
include calm

theorem calm_low {t : ℕ} (later : 0 < t) (k : Kind) :
    (run step power.reset (upTo pre env t)).startReg k = false := by
  obtain ⟨u, rfl⟩ := Nat.exists_eq_succ_of_ne_zero (Nat.pos_iff_ne_zero.mp later)
  rw [upTo_succ, run_snoc, startReg_step]
  exact calm u k

theorem calm_requests (d : ℕ) :
    ((supplied content Ending).watch step .none power.reset (upTo pre env (1 + d))).requests =
      ((supplied content Ending).watch step .none power.reset (pre ++ [env 0])).requests := by
  induction d with
  | zero => rfl
  | succ d ih =>
    have none := quiet_starts (fun k => calm_low power pre calm
      (show 0 < 1 + d by omega) k) (env (1 + d)).am
    rw [← ih, ← Nat.add_assoc, upTo_succ, Monitor.watch_append]
    change (Supply.next content _ _ _).requests = _
    simp only [Supply.next, none, Option.map_none, Option.toList_none, List.append_nil, ite_self]

theorem calm_rest {t : ℕ} (later : 0 < t)
    (idle : (run step power.reset (upTo pre env t)).dmaInst.state = .idle) (d : ℕ) :
    (run step power.reset (upTo pre env (t + 1 + d))).dmaInst = Dma.reset := by
  induction d with
  | zero =>
    rw [Nat.add_zero, upTo_succ, run_snoc]
    exact quiet_step idle (calm_low power pre calm later) _
  | succ d ih =>
    rw [← Nat.add_assoc, upTo_succ, run_snoc]
    exact quiet_step (by rw [ih]; rfl) (calm_low power pre calm (by omega)) _

theorem calm_drained {t : ℕ} (later : 0 < t)
    (idle : (run step power.reset (upTo pre env t)).dmaInst.state = .idle) (d : ℕ) :
    Drained (run step power.reset (upTo pre env (t + 2 + d))) := by
  have rest := calm_rest power pre calm later idle d
  have low := calm_low power pre calm (show 0 < t + 1 + d by omega)
  rw [show t + 2 + d = t + 1 + d + 1 by omega, upTo_succ, run_snoc]
  apply quiet_drained _ _ low
  · rw [rest]
    rfl
  · intro k
    rw [rest, chan_reset]
    rfl

end Rest

/-- Started no more, the accelerator comes to rest and stays there, holding the network of the
    requests made so far: every one of them is completed, with the words of its own addresses,
    however long the memory takes. -/
theorem comes_to_rest (content : ℕ → Memory) (power : Accelerator) (pre : List In) (env : ℕ → In)
    (fair : Fair content power pre env) (calm : ∀ t k, startWrite k (env t) = false) :
    ∃ t, ∀ u, t ≤ u → Drained (run step power.reset (upTo pre env u)) ∧
      Settled (run step power.reset (upTo pre env u)) (Net.reset.after (fulfilled content
        ((supplied content Ending).watch step .none power.reset (pre ++ [env 0])).requests)) := by
  obtain ⟨t, later, idle⟩ := fair_idle fair 1
  refine ⟨t + 2, fun u after => ?_⟩
  obtain ⟨d, rfl⟩ := Nat.exists_eq_add_of_le after
  have drained := calm_drained power pre calm later idle d
  have done := ((fed_brought (fair_fed fair (t + 2 + d))).rest drained.1).2
  have requests := calm_requests content power pre calm (t + 1 + d)
  rw [show 1 + (t + 1 + d) = t + 2 + d by omega] at requests
  have settled := coupled_settled (coupled_history power _) drained
  rw [done, requests] at settled
  exact ⟨drained, settled⟩

/- One window from a memory of sevens, and then nothing. -/

def oneWindow (t : ℕ) : In := ⟨idleBus, ⟨decide (3 ≤ t ∧ t < 52), 7, false⟩⟩

def sevens : ℕ → Memory := fun _ _ _ => 7

theorem oneWindow_calm (t : ℕ) (k : Kind) : startWrite k (oneWindow t) = false := rfl

theorem oneWindow_served : (supplied sevens Ending).Allows step .none powerUp.reset
    (upTo (startLength 49) oneWindow 52) := by
  decide +kernel

theorem oneWindow_over :
    (run step powerUp.reset (upTo (startLength 49) oneWindow 52)).dmaInst.state = .idle := by
  decide +kernel

theorem oneWindow_protocol (d : ℕ) : (supplied sevens Ending).Allows step .none powerUp.reset
    (upTo (startLength 49) oneWindow (52 + d)) := by
  induction d with
  | zero => exact oneWindow_served
  | succ d ih =>
    have none := quiet_starts (fun k => calm_low powerUp (startLength 49)
      oneWindow_calm (show 0 < 52 + d by omega) k) (oneWindow (52 + d)).am
    rw [← Nat.add_assoc, upTo_succ, Monitor.allows_append]
    refine ⟨ih, ⟨fun valid => ?_, fun k _ starts => ?_⟩, trivial⟩
    · have inside : 3 ≤ 52 + d ∧ 52 + d < 52 := of_decide_eq_true valid
      omega
    · rw [none] at starts
      contradiction

theorem oneWindow_fair : Fair sevens powerUp (startLength 49) oneWindow where
  protocol := by
    intro t
    by_cases early : t ≤ 52
    · obtain ⟨d, total⟩ := Nat.exists_eq_add_of_le early
      have whole := oneWindow_served
      rw [total, upTo, List.range_add, List.map_append, ← List.append_assoc] at whole
      exact (supplied sevens Ending).allows_left step whole
    · obtain ⟨d, rfl⟩ := Nat.exists_eq_add_of_le (Nat.le_of_not_le early)
      exact oneWindow_protocol d
  accepts := fun t _ => ⟨t, Nat.le_refl t, rfl⟩
  delivers := by
    intro t pending
    by_cases early : t < 52
    · exact ⟨51, by omega, by decide⟩
    · exfalso
      obtain ⟨d, rfl⟩ := Nat.exists_eq_add_of_le (Nat.le_of_not_lt early)
      have idle : (run step powerUp.reset (upTo (startLength 49) oneWindow
          (52 + d))).dmaInst.state = .idle := by
        cases d with
        | zero => exact oneWindow_over
        | succ d =>
          rw [show 52 + (d + 1) = 52 + 1 + d by omega,
            calm_rest powerUp (startLength 49) oneWindow_calm (by decide) oneWindow_over d]
          rfl
      exact pending (fed_empty (fed_run ending_whole powerUp (oneWindow_protocol d)) idle)

theorem comes_to_rest_one_window : ∃ t, ∀ u, t ≤ u →
    Drained (run step powerUp.reset (upTo (startLength 49) oneWindow u)) ∧
      Settled (run step powerUp.reset (upTo (startLength 49) oneWindow u))
        (Net.reset.after (fulfilled sevens ((supplied sevens Ending).watch step .none
          powerUp.reset (startLength 49 ++ [oneWindow 0])).requests)) :=
  comes_to_rest sevens powerUp (startLength 49) oneWindow oneWindow_fair oneWindow_calm

end Accelerator
end CnnAccelerator
