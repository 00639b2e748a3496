import CnnAccelerator.DmaTransfer
import CnnAccelerator.Lib.Clocked

/- The dma as an Avalon read master, for any inputs from reset on. -/
namespace CnnAccelerator.Dma
open Clocked

def accepts (r : Dma) (i : In) : Bool := r.read && !i.waitrequest

theorem reached_run (ins : List In) : Reached (run am reset ins) :=
  run_invariant (P := Reached) (latched_rest _) (fun _ i h => reached_step h i) ins

theorem reached_read {r : Dma} (h : Reached r) (read : r.read = true) :
    ∃ k base len ws, r.Busy k .wait base len ws := by
  obtain ⟨ws, h⟩ := h
  cases h with
  | rest => simp [reset] at read
  | done h => simp [h.read] at read
  | @busy _ k p base len _ h =>
    have waiting : p = .wait := by simpa [h.read] using read
    subst waiting
    exact ⟨k, base, len, ws, h⟩

theorem rest_no_pulse (k : Kind) : (reset.chan k).write ≠ true := by
  simp [Channel.cleared]

theorem pulse_single {r : Dma} {k : Kind} (h : Reached r) (i : In)
    (up : (r.chan k).write = true) : ((r.am i).chan k).write = false := by
  apply Bool.eq_false_iff.mpr
  intro again
  obtain ⟨_, h⟩ := h
  cases h with
  | rest => exact rest_no_pulse k up
  | done h =>
    rcases idle_step h.state i with ⟨_, rest⟩ | ⟨k', _, busy⟩
    · rw [rest] at again
      exact rest_no_pulse k again
    · exact (busy_pulse busy again).2.2 rfl
  | busy h =>
    -- a burst just filled: this is its Start state, and Wait comes next
    obtain ⟨_, rfl, _⟩ := busy_pulse h up
    have waiting := (busy_pulse (busy_start_step h i) again).2.1
    simp at waiting

/-- Words still to come before the next command of the transfer. -/
def untilCommand (k : Kind) (p : Phase) (n : ℕ) : ℕ :=
  if p = .read then k.burstSize - n % k.burstSize else 0

theorem untilCommand_word (k : Kind) (n : ℕ) (i : In) (valid : i.readdatavalid = true) :
    untilCommand k .read n = untilCommand k (nextPhase k .read n i) (n + 1) + 1 := by
  have mod := Nat.mod_lt n k.burstSize_pos
  by_cases full : (n + 1) % k.burstSize = 0
  · have last : n % k.burstSize + 1 = k.burstSize := by
      cases k <;> simp at full mod ⊢ <;> omega
    simp only [untilCommand, nextPhase, valid, full, and_self, ↓reduceIte, reduceCtorEq]
    omega
  · have inside : (n + 1) % k.burstSize = n % k.burstSize + 1 := by
      cases k <;> simp at full mod ⊢ <;> omega
    have reading : nextPhase k .read n i = .read := by simp [nextPhase, full]
    simp only [reading, untilCommand, ↓reduceIte, inside]
    omega

theorem words_until_command {r : Dma} {k : Kind} {p : Phase} {base len : BitVec 32}
    {ws : List FixedPoint} (h : r.Busy k p base len ws) (seg : List In) (j : In)
    (quiet : ∀ c ∈ trace am r seg, c.1.state ≠ .idle ∧ accepts c.1 c.2 = false)
    (next : accepts (run am r seg) j = true) :
    (run am r seg).state = .burst k .wait ∧
      (trace am r seg).countP (fun c => c.1.state = .burst k .read ∧ c.2.readdatavalid) =
        untilCommand k p ws.length := by
  induction seg generalizing r p ws with
  | nil =>
    have waiting : p = .wait := by
      have read : r.read = true := by
        simp only [run_nil, accepts, Bool.and_eq_true] at next
        exact next.1
      simpa [h.read] using read
    subst waiting
    exact ⟨h.state, by simp [untilCommand]⟩
  | cons i seg ih =>
    simp only [trace_cons, List.mem_cons, forall_eq_or_imp] at quiet
    obtain ⟨⟨_, unaccepted⟩, quiet⟩ := quiet
    rcases busy_step h i with ⟨busy, _⟩ | ⟨done, _⟩
    · obtain ⟨state, count⟩ := ih busy quiet next
      refine ⟨state, ?_⟩
      rw [trace_cons, List.countP_cons, count]
      cases p with
      | start => simp [h.state, nextPhase, untilCommand]
      | wait =>
        have stalled : i.waitrequest = true := by simpa [accepts, h.read] using unaccepted
        simp [h.state, nextPhase, untilCommand, stalled]
      | read =>
        cases valid : i.readdatavalid with
        | false => simp [stores, h.state, store, nextPhase, untilCommand, valid]
        | true =>
          rw [untilCommand_word k ws.length i valid]
          simp [stores, h.state, store, valid]
    · -- the last word of the transfer: IDLE comes before any further command
      cases seg with
      | nil => simp [accepts, done.read] at next
      | cons i' seg =>
        exact absurd done.state (quiet (r.am i, i') (by simp)).1

structure ReadProtocol (r : Dma) (i : In) : Prop where
  held : r.read = true → i.waitrequest = true →
    (r.am i).read = true ∧ (r.am i).address = r.address ∧
      (r.am i).burstcountOut = r.burstcountOut
  once : r.read = true → i.waitrequest = false → (r.am i).read = false
  size : r.read = true →
    (∃ p, r.state = .burst .image p) ∧ r.burstcountOut = 49 ∨
      (∃ p, r.state = .burst .weight p) ∧ r.burstcountOut = 16
  filled : accepts r i = true → ∀ seg j,
    (∀ c ∈ trace am (r.am i) seg, c.1.state ≠ .idle ∧ accepts c.1 c.2 = false) →
    accepts (run am (r.am i) seg) j = true →
    ∃ k, r.state = .burst k .wait ∧ (run am (r.am i) seg).state = .burst k .wait ∧
      (trace am (r.am i) seg).countP
        (fun c => c.1.state = .burst k .read ∧ c.2.readdatavalid) = r.burstcountOut.toNat

theorem reached_protocol {r : Dma} (h : Reached r) (i : In) : ReadProtocol r i where
  held read stall := by
    obtain ⟨k, base, len, ws, busy⟩ := reached_read h read
    rw [busy_wait_stall busy stall]
    exact ⟨read, rfl, rfl⟩
  once read go := by
    obtain ⟨k, base, len, ws, busy⟩ := reached_read h read
    simpa using (busy_wait_step busy go).read
  size read := by
    obtain ⟨k, base, len, ws, busy⟩ := reached_read h read
    cases k with
    | image => exact Or.inl ⟨⟨.wait, busy.state⟩, busy.burstcountOut rfl⟩
    | weight => exact Or.inr ⟨⟨.wait, busy.state⟩, busy.burstcountOut rfl⟩
  filled accepted seg j quiet next := by
    simp only [accepts, Bool.and_eq_true, Bool.not_eq_eq_eq_not, Bool.not_true] at accepted
    obtain ⟨k, base, len, ws, busy⟩ := reached_read h accepted.1
    have reading := busy_wait_step busy accepted.2
    obtain ⟨state, count⟩ := words_until_command reading seg j quiet next
    refine ⟨k, busy.state, state, ?_⟩
    rw [count, busy.burstcountOut rfl, untilCommand, if_pos rfl, busy.aligned (by simp)]
    cases k <;> rfl

theorem read_master_protocol (ins : List In) (i : In) :
    ReadProtocol (run am reset ins) i :=
  reached_protocol (reached_run ins) i

end CnnAccelerator.Dma
