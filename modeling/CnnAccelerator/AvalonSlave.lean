import CnnAccelerator.TransferTrace

/- The memory behind the Avalon master port: it answers each accepted burst with
   am_burstcount words, in order, from the cycle after acceptance on. -/
namespace CnnAccelerator.Dma
open Clocked

/-- `pending` has one entry for each word still to be delivered: the number of the
    transfer whose command asked for it. -/
structure Responses where
  begun : ℕ
  pending : List ℕ
  deriving DecidableEq, Repr

namespace Responses

def none : Responses := ⟨0, []⟩

def next (m : Responses) (r : Dma) (i : In) : Responses :=
  { begun := if r.state = .idle ∧ (r.am i).state ≠ .idle then m.begun + 1 else m.begun
    pending := (if i.readdatavalid then m.pending.tail else m.pending) ++
      if accepts r i then List.replicate r.burstcountOut.toNat m.begun else [] }

end Responses

def slave : Monitor Dma In Responses where
  next := Responses.next
  allow m _ i := i.readdatavalid = true → m.pending ≠ []

instance (m : Responses) (r : Dma) (i : In) : Decidable (slave.allow m r i) :=
  inferInstanceAs (Decidable (i.readdatavalid = true → m.pending ≠ []))

/-- A memory that never stalls: a cycle for the command, one for its acceptance, and
    then a word in every cycle. -/
def serve : List (List FixedPoint) → List MasterIn
  | [] => []
  | burst :: bursts =>
    ⟨false, 0, false⟩ :: ⟨false, 0, false⟩ ::
      (burst.map fun w => ⟨true, w, false⟩) ++ serve bursts

def InStep (m : Responses) (k : Kind) (p : Phase) (n : ℕ) : Prop :=
  m.pending = List.replicate (untilCommand k p n) m.begun

theorem in_step_first (k : Kind) : InStep .none k .start ([] : List FixedPoint).length := by
  simp [InStep, untilCommand, Responses.none]

theorem begun_step {r : Dma} {k : Kind} {p : Phase} {base len : BitVec 32}
    {ws : List FixedPoint} {m : Responses} (h : r.Busy k p base len ws) (i : In) :
    (m.next r i).begun = m.begun := by
  simp [Responses.next, h.state]

theorem valid_only_read {k : Kind} {p : Phase} {n : ℕ} {m : Responses} {i : In}
    (sync : InStep m k p n) (allowed : i.readdatavalid = true → m.pending ≠ [])
    (valid : i.readdatavalid = true) : p = .read := by
  have waiting := allowed valid
  rw [sync] at waiting
  unfold untilCommand at waiting
  by_cases reading : p = .read
  · exact reading
  · simp [reading] at waiting

theorem in_step_next {r : Dma} {k : Kind} {p : Phase} {base len : BitVec 32}
    {ws : List FixedPoint} {m : Responses} (h : r.Busy k p base len ws) {i : In}
    (sync : InStep m k p ws.length) (allowed : i.readdatavalid = true → m.pending ≠ []) :
    InStep (m.next r i) k (nextPhase k p ws.length i) (store ws r i).length := by
  have only := valid_only_read sync allowed
  have kept := begun_step (m := m) h i
  simp only [InStep] at sync ⊢
  rw [kept]
  cases p with
  | start =>
    have gap : i.readdatavalid = false := by simpa using only
    simp [Responses.next, gap, sync, accepts, h.read, untilCommand, nextPhase]
  | wait =>
    have gap : i.readdatavalid = false := by simpa using only
    have fresh : (store ws r i).length % k.burstSize = 0 := by
      simpa [store, stores, h.state] using h.aligned (by simp)
    have size : (BitVec.ofNat 7 k.burstSize).toNat = k.burstSize := by cases k <;> rfl
    cases go : i.waitrequest with
    | true => simp [Responses.next, gap, sync, accepts, h.read, untilCommand, nextPhase, go]
    | false =>
      simp [Responses.next, gap, sync, accepts, h.read, untilCommand, nextPhase, go, fresh,
        h.burstcountOut rfl, size]
  | read =>
    cases valid : i.readdatavalid with
    | false =>
      simp [Responses.next, valid, sync, accepts, h.read, nextPhase, store, stores, h.state]
    | true =>
      have word := untilCommand_word k ws.length i valid
      simp [Responses.next, valid, sync, accepts, h.read, store, stores, h.state, word]

theorem delivered_eq_stored {r : Dma} {k : Kind} {p : Phase} {base len : BitVec 32}
    {ws : List FixedPoint} {m : Responses} (h : r.Busy k p base len ws)
    (sync : InStep m k p ws.length) (ins : List In)
    (inside : ∀ c ∈ trace am r ins, c.1.state ≠ .idle) (answers : slave.Allows am m r ins) :
    delivered (trace am r ins) = stored (trace am r ins) := by
  induction ins generalizing r p ws m with
  | nil => rfl
  | cons i ins ih =>
    simp only [trace_cons, List.mem_cons, forall_eq_or_imp] at inside
    have same : i.readdatavalid = r.stores i := by
      cases valid : i.readdatavalid with
      | false =>
        simp only [stores, valid]
        split <;> rfl
      | true =>
        have reading := valid_only_read sync answers.1 valid
        subst reading
        simp [stores, h.state, valid]
    have rest : delivered (trace am (r.am i) ins) = stored (trace am (r.am i) ins) := by
      rcases busy_step h i with ⟨busy, _⟩ | ⟨done, _⟩
      · exact ih busy (in_step_next h sync answers.1) inside.2 answers.2
      · cases ins with
        | nil => rfl
        | cons j ins => exact absurd done.state (inside.2 (r.am i, j) (by simp))
    simp only [trace_cons, delivered, stored, List.filterMap_cons, ← same]
    simp only [delivered, stored] at rest
    rw [rest]

end CnnAccelerator.Dma
