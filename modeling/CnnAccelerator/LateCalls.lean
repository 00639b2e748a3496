import CnnAccelerator.Sessions

/- What a call of pred_image returns on any memory: when the memory is late, the class that the
   accelerator held before; and never a class of anything but whole transfers of calls. -/
namespace CnnAccelerator
open Clocked Dma

namespace Accelerator

/-- No transfer of weights is under way, and argmax has seen the scores of the last one. -/
structure Unweighted (s : Accelerator) : Prop where
  free : ∀ p, s.dmaInst.state ≠ .burst .weight p
  start : (s.dmaInst.chan .weight).start = false
  passed : s.passed .weight = false

theorem unweighted_drained {s : Accelerator} (drained : Drained s) : Unweighted s where
  free := by
    intro p busy
    rw [drained.1] at busy
    contradiction
  start := (drained.2 .weight).2.1
  passed := (drained.2 .weight).2.2

theorem Unweighted.sampled {s : Accelerator} (h : Unweighted s) (idle : s.dmaInst.state = .idle) :
    Sampled s :=
  ⟨idle, h.start, h.passed⟩

section Step
variable {N₀ : Net} {s : Accelerator} {g : Log} (h : Coupled N₀ s g) (unweighted : Unweighted s)
  {i : In} (none : begins .weight s i = false)
include h unweighted none

theorem unweighted_step :
    Unweighted (s.step i) ∧ (s.step i).argmaxInst = s.argmaxInst := by
  have passed : (s.step i).passed .weight = false := by
    rw [step_passed h, unweighted.start]
  refine ⟨?_, step_held unweighted.passed i⟩
  cases logged_turn h.logged (i := s.dmaIn i.am) (fun _ _ _ => trivial) with
  | goes ws same logged idle quiet pulse =>
    refine ⟨fun p busy => ?_, quiet .weight, passed⟩
    cases now : s.dmaInst.state with
    | idle =>
      rcases idle_step now (s.dmaIn i.am) with ⟨_, rest⟩ | ⟨k, _, started⟩
      · rw [step_dmaInst, rest] at busy
        contradiction
      · rw [step_dmaInst, started.state] at busy
        obtain ⟨rfl, _⟩ := StateType.burst.inj busy
        exact Bool.eq_false_iff.mp none (decide_eq_true ⟨now, started.state⟩)
    | burst k q =>
      rw [step_dmaInst] at busy
      obtain rfl := logged_kind h.logged now busy
      exact unweighted.free q now
  | ends t len reading more done _ pulse =>
    have image : t.kind = .image := by
      cases kind : t.kind with
      | image => rfl
      | weight =>
        rw [kind] at reading
        exact absurd reading (unweighted.free .read)
    have other := done.other
    rw [image] at other
    refine ⟨fun p busy => ?_, ?_, passed⟩
    · rw [step_dmaInst, done.state] at busy
      contradiction
    · rw [step_dmaInst]
      exact congrArg Channel.start other

end Step

theorem unweighted_run {N₀ : Net} {s : Accelerator} {g : Log} (h : Coupled N₀ s g)
    (unweighted : Unweighted s) {ins : List In}
    (none : ∀ c ∈ trace step s ins, begins .weight c.1 c.2 = false) :
    Unweighted (run step s ins) ∧ (run step s ins).argmaxInst = s.argmaxInst := by
  induction ins generalizing s g with
  | nil => exact ⟨unweighted, rfl⟩
  | cons i ins ih =>
    obtain ⟨first, later⟩ := List.forall_mem_cons.mp none
    obtain ⟨next, held⟩ := unweighted_step h unweighted first
    obtain ⟨last, same⟩ := ih (coupled_step h i) next later
    exact ⟨last, same.trans held⟩

theorem quiet_begins {s : Accelerator} {ins : List In} (quiet : Quiet s ins) (k : Kind) :
    ∀ c ∈ trace step s ins, begins k c.1 c.2 = false := by
  intro c member
  apply Bool.eq_false_iff.mpr
  intro begun
  have pulse := (begins_pulse begun).2
  rw [quiet_starts (quiet c member)] at pulse
  contradiction

theorem unserved_done {s : Accelerator} {g : Log} {k : Kind} {p : Phase} {base len : BitVec 32}
    (h : s.dmaInst.Busy k p base len g.words) (fits : 0 < len.toNat ∧ len.toNat ≤ 2 ^ 17)
    {ins : List In} (short : takes k len.toNat p g.words.length (ins.map In.am) = none) :
    (logged.watch step g s ins).done = g.done := by
  rw [← inputs_master s ins] at short
  obtain ⟨_, _, same⟩ := takes_none h fits short
  rw [logged_watch]
  exact same

theorem last_two (ins : List In) (long : 2 ≤ ins.length) : ∃ xs a b, ins = xs ++ [a, b] := by
  rcases List.eq_nil_or_concat ins with rfl | ⟨front, b, rfl⟩
  · simp at long
  · rcases List.eq_nil_or_concat front with rfl | ⟨xs, a, rfl⟩
    · simp at long
    · exact ⟨xs, a, b, by simp⟩

section Calls
variable {t : Timing} {waitTime : BitVec 8} {image weights : BitVec 32} {place : List In} {i : In}
  {load : List In} {j : In} {last : List In} {r : In}
  (call : Call t waitTime image weights place i load j last r) {power : Accelerator}
  {pre : List In} (drained : Drained (run step power.reset pre))
  (low : ∀ k, (run step power.reset pre).startReg k = false)
include call drained low

theorem call_load_unweighted :
    (run step power.reset (pre ++ place)).dmaInst.state = .idle ∧
      Unweighted (run step power.reset (pre ++ place ++ i :: load)) ∧
      (run step power.reset (pre ++ place ++ i :: load)).argmaxInst =
        (run step power.reset pre).argmaxInst := by
  have quiet := call_place_quiet call low
  have idle : (run step power.reset (pre ++ place)).dmaInst.state = .idle := by
    rw [run_append]
    exact (quiet_idle drained.1 quiet []).1
  obtain ⟨placed, same⟩ := unweighted_run (coupled_history power pre)
    (unweighted_drained drained) (quiet_begins quiet .weight)
  rw [← run_append] at placed same
  have none : ∀ c ∈ trace step (run step power.reset (pre ++ place)) (i :: load),
      begins .weight c.1 c.2 = false := by
    rw [trace_cons, List.forall_mem_cons]
    refine ⟨Bool.eq_false_iff.mpr fun begun => ?_, quiet_begins (call_load_quiet call _) .weight⟩
    have pulse := (begins_pulse begun).2
    rw [(call_image_pulse call power pre).1] at pulse
    contradiction
  obtain ⟨loaded, held⟩ := unweighted_run (coupled_history power (pre ++ place)) placed none
  rw [← run_append] at loaded held
  exact ⟨idle, loaded, held.trans same⟩

theorem late_image (late : takes .image 784 .start 0 (load.map In.am) = none) :
    (run step power.reset (pre ++ place ++ i :: load ++ j :: last)).argmaxInst =
      (run step power.reset pre).argmaxInst := by
  obtain ⟨idle, unweighted, same⟩ := call_load_unweighted call drained low
  have busy : ¬ (run step power.reset (pre ++ place ++ i :: load)).dmaInst.state = .idle := by
    rw [call_weight_idle call power pre idle, servedWithin_iff]
    rintro ⟨X, spare, enough, _⟩
    rw [show Kind.image.wholeLength = 784 from rfl, late] at enough
    contradiction
  have none : ∀ c ∈ trace step (run step power.reset (pre ++ place ++ i :: load)) (j :: last),
      begins .weight c.1 c.2 = false := by
    rw [trace_cons, List.forall_mem_cons]
    refine ⟨Bool.eq_false_iff.mpr fun begun => busy (begins_pulse begun).1, ?_⟩
    exact quiet_begins (quiet_append.mp (call_last_quiet call _)).1 .weight
  rw [run_append, ← same]
  exact (unweighted_run (coupled_history power _) unweighted none).2

theorem late_weights (served : servedWithin .image 0 load = true)
    (late : servedWithin .weight 2 last = false) :
    (run step power.reset (pre ++ place ++ i :: load ++ j :: last)).argmaxInst =
      (run step power.reset pre).argmaxInst := by
  obtain ⟨idle, unweighted, same⟩ := call_load_unweighted call drained low
  have again := (call_weight_idle call power pre idle).mpr served
  have sampled := unweighted.sampled again
  have best := sampled_best (coupled_history power _) sampled
  rw [same] at best
  obtain ⟨pulse, length⟩ := call_weight_pulse call power pre
  by_cases long : 2 ≤ last.length
  · obtain ⟨ys, a, b, rfl⟩ := last_two last long
    have short : takes .weight 48 .start 0 (ys.map In.am) = none := by
      apply Option.eq_none_iff_forall_ne_some.mpr
      rintro ⟨W, rest⟩ enough
      have more := takes_more enough [a.am, b.am]
      have inTime : servedWithin .weight 2 (ys ++ [a, b]) = true :=
        servedWithin_iff.mpr ⟨W, rest ++ [a.am, b.am], by rwa [List.map_append], by simp⟩
      rw [late] at inTime
      contradiction
    have missed : (history power (pre ++ place ++ i :: load ++ j :: ys)).done =
        (history power (pre ++ place ++ i :: load)).done := by
      obtain ⟨busy, fits⟩ := half_busy again pulse length
      have first := log_idle again (history power (pre ++ place ++ i :: load))
        ((run step power.reset (pre ++ place ++ i :: load)).dmaIn j.am)
      rw [history_append, Monitor.watch_cons]
      change (logged.watch step (log.next _ _ _) _ ys).done = _
      rw [first]
      exact unserved_done (g := ⟨[], _⟩) busy fits (by rwa [length])
    have sampledBefore := argmax_history power (pre ++ place ++ i :: load ++ j :: ys) a b
    rw [missed, ← best, List.append_assoc] at sampledBefore
    exact sampledBefore
  · rcases last with _ | ⟨b, _ | ⟨c, more⟩⟩
    · rw [run_snoc, ← same]
      exact step_held unweighted.passed j
    · exact (argmax_history power _ j b).trans best.symm
    · simp at long

/-- In every call on a drained accelerator, whatever the memory does, the class returned is the
    one after a sample of the scores of this call if the memory served it in time, and the one
    from before the call if not. -/
theorem call_returns :
    (run step power.reset
        (pre ++ place ++ i :: load ++ j :: last ++ [r])).registerInst.asReaddata =
      (match callScores load last with
        | some scores => (run step power.reset pre).argmaxInst.sample scores
        | none => (run step power.reset pre).argmaxInst).dataO := by
  rw [run_snoc, call_result call]
  refine congrArg Argmax.dataO ?_
  unfold callScores
  cases image : takes .image 784 .start 0 (load.map In.am) with
  | none => exact late_image call drained low image
  | some X =>
    have served : servedWithin .image 0 load = true :=
      servedWithin_iff.mpr ⟨X.1, X.2, image, Nat.zero_le _⟩
    cases weight : takes .weight 48 .start 0 (last.map In.am) with
    | none =>
      apply late_weights call drained low served
      unfold servedWithin
      rw [show Kind.weight.wholeLength = 48 from rfl, weight]
      rfl
    | some W =>
      by_cases spare : 2 ≤ W.2.length
      · have inference := call_inference call drained low
          (by rw [image]; rfl) (by rw [weight]; rfl)
          (servedWithin_iff.mpr ⟨W.1, W.2, weight, spare⟩)
        have sampled := inference_argmax inference
        simp only [if_pos spare]
        simpa only [List.append_assoc] using sampled
      · simp only [if_neg spare]
        apply late_weights call drained low served
        unfold servedWithin
        rw [show Kind.weight.wholeLength = 48 from rfl, weight]
        simpa using spare

end Calls

/- A call that the memory serves, and one that it stalls. -/

def firstCall : List In := servedCall classOne ++ [silent (readBus 0)]

theorem firstCall_drained : Drained (run step powerUp.reset firstCall) ∧
    ∀ k, (run step powerUp.reset firstCall).startReg k = false :=
  servedCall_drained (by decide +kernel)

theorem firstCall_class : (run step powerUp.reset firstCall).argmaxInst.dataO = 1 := by
  have argmax := inference_read first_inference (silent (readBus 0))
  rw [classOne_scores] at argmax
  exact (congrArg Argmax.dataO argmax).trans (by decide)

theorem call_returns_stalled :
    (run step powerUp.reset (firstCall ++ stalledPlace ++ stalled idleBus :: stalledLoad ++
      stalled idleBus :: stalledLast ++ [stalled (readBus 0)])).registerInst.asReaddata = 1 := by
  have returns := call_returns stalled_call firstCall_drained.1 firstCall_drained.2
  have late : callScores stalledLoad stalledLast = none := by decide +kernel
  rw [late] at returns
  exact returns.trans firstCall_class

/-- Calls of `pred_image` one after the other, however the memory serves them, and between them
    any accesses that set no start bit. -/
inductive Driven : List (BitVec 32 × BitVec 32) → List In → Prop where
  | reset : Driven [] []
  | other {calls : List (BitVec 32 × BitVec 32)} {pre : List In} (h : Driven calls pre) (i : In)
      (calm : ∀ k, startWrite k i = false) : Driven calls (pre ++ [i])
  | call {calls : List (BitVec 32 × BitVec 32)} {pre : List In} (h : Driven calls pre)
      {t : Timing} {waitTime : BitVec 8} {image weights : BitVec 32} {place : List In} {i : In}
      {load : List In} {j : In} {last : List In} {r : In}
      (call : Call t waitTime image weights place i load j last r) :
      Driven (calls ++ [(image, weights)]) (pre ++ place ++ i :: load ++ j :: last ++ [r])

theorem driven_requested {content : ℕ → Memory} {power : Accelerator}
    {calls : List (BitVec 32 × BitVec 32)} {ins : List In} (driven : Driven calls ins)
    (ok : (memory content).Allows step .none power.reset ins) :
    ∃ qs, qs.Sublist (calls.flatMap callRequests) ∧ Requested content power ins qs := by
  induction driven with
  | reset => exact ⟨[], List.nil_sublist _, requested_reset content power⟩
  | other _ i calm ih =>
    obtain ⟨qs, sublist, requested⟩ := ih ((memory content).allows_left step ok)
    exact ⟨qs, sublist, requested_other requested calm ok⟩
  | @call calls pre _ t waitTime image weights place i load j last r call ih =>
    obtain ⟨qs, sublist, requested⟩ := ih (by
      simp only [List.append_assoc] at ok
      exact (memory content).allows_left step ok)
    refine ⟨_, ?_, requested_call call requested ok⟩
    have kept (p : Prop) [Decidable p] (q : Request) : (if p then [q] else []).Sublist [q] := by
      split
      · exact List.Sublist.refl _
      · exact List.nil_sublist _
    rw [calls_snoc]
    exact (sublist.append (kept _ _)).append (kept _ _)

inductive Returned : List (BitVec 32 × BitVec 32) → List In → Prop where
  | read {calls : List (BitVec 32 × BitVec 32)} {pre : List In} (driven : Driven calls pre)
      {t : Timing} {waitTime : BitVec 8} {image weights : BitVec 32} {place : List In} {i : In}
      {load : List In} {j : In} {last : List In} {r : In}
      (call : Call t waitTime image weights place i load j last r) :
      Returned (calls ++ [(image, weights)]) (pre ++ place ++ i :: load ++ j :: last ++ [r])

/-- However late the memory is and whatever the timing of the calls, a call returns the class of
    whole transfers: of the starts of all calls so far the dma acts on some, in their order, and
    the class is the running maximum over the first of these, each with the words at its own
    burst addresses. -/
theorem driven_result (content : ℕ → Memory) (power : Accelerator)
    (calls : List (BitVec 32 × BitVec 32)) (ins : List In) (returned : Returned calls ins)
    (ok : (memory content).Allows step .none power.reset ins) :
    ((memory content).watch step .none power.reset ins).requests.Sublist
        (calls.flatMap callRequests) ∧
      ∃ qs s, qs <+: ((memory content).watch step .none power.reset ins).requests ∧
        Argmax.Champion (Net.reset.samples (fulfilled content qs)) s ∧
        (run step power.reset ins).registerInst.asReaddata = s.dataO := by
  cases returned with
  | @read calls pre driven t waitTime image weights place i load j last r call =>
    obtain ⟨asked, sublist, requested⟩ := driven_requested (.call driven call) ok
    obtain ⟨xs, a, b, split⟩ := last_two (pre ++ place ++ i :: load ++ j :: last) (by simp; omega)
    rw [← requested.asked] at sublist
    refine ⟨sublist, ?_⟩
    have allows := requested.allows
    rw [run_snoc, call_result call]
    rw [split, List.append_assoc] at allows ⊢
    have begun := requests_prefix content WholeLength
      ((supplied content WholeLength).watch step .none power.reset xs) (run step power.reset xs)
      ([a, b] ++ [r])
    rw [← Monitor.watch_append] at begun
    obtain ⟨qs, before, done⟩ := fed_done (fed_run WholeLength.whole power
      ((supplied content WholeLength).allows_left step allows))
    have held := argmax_history power xs a b
    rw [done, Net.after_best] at held
    exact ⟨qs, _, before.trans begun, Argmax.champion_samples _, congrArg Argmax.dataO held⟩

def stalledSecond : List In :=
  [] ++ promptPlace ++ silent idleBus :: promptLoad zeroImage ++
    silent idleBus :: promptLast classZero ++ [silent (readBus 0)] ++ stalledPlace ++
    stalled idleBus :: stalledLoad ++ stalled idleBus :: stalledLast ++ [stalled (readBus 0)]

theorem stalledSecond_returned : Returned [(0, 0), (0, 0)] stalledSecond :=
  .read (.call .reset (prompt_call zeroImage classZero)) stalled_call

theorem driven_result_stalled :
    ((memory twoCalls).watch step .none powerUp.reset stalledSecond).requests.Sublist
        ([(0, 0), (0, 0)].flatMap callRequests) ∧
      ∃ qs s, qs <+: ((memory twoCalls).watch step .none powerUp.reset stalledSecond).requests ∧
        Argmax.Champion (Net.reset.samples (fulfilled twoCalls qs)) s ∧
        (run step powerUp.reset stalledSecond).registerInst.asReaddata = s.dataO :=
  driven_result twoCalls powerUp [(0, 0), (0, 0)] stalledSecond stalledSecond_returned
    (by decide +kernel)

end Accelerator
end CnnAccelerator
