import CnnAccelerator.TransferLog

/- The counters of a transfer, whatever its length and whatever the memory does: the registers
   wrap, the number of bursts completed does not. -/
namespace CnnAccelerator.Dma
open Clocked

/-- The bursts completed in the transfer under way. A burst is completed by the edge that takes
    Read back to Start. -/
def bursts : Monitor Dma In ℕ where
  next b r i :=
    match r.state, (r.am i).state with
    | .idle, _ => 0
    | .burst _ .read, .burst _ .start => b + 1
    | _, _ => b
  allow _ _ _ := True

structure Counters (r : Dma) (k : Kind) (b : ℕ) : Prop where
  burstcount : r.burstcount.toNat = k.burstSize
  burstCnt : (r.chan k).burstCnt.toNat ≤ k.burstSize - 1
  wordCnt : r.wordCnt.toNat = (k.burstSize * b + (r.chan k).burstCnt.toNat) % 2 ^ 17
  cnt : ((r.chan k).cnt.toNat : ℤ) = ((b : ℤ) - 1) % 16

/-- What a cycle of Read does with the counters: the index of its store, the subtraction in the
    test for a full burst, and the test that ends the transfer. -/
structure InBounds (r : Dma) (k : Kind) (i : In) : Prop where
  index : (r.chan k).burstCnt.toNat < k.burstSize
  last : (r.burstcount.setWidth 7 - 1).toNat + 1 = r.burstcount.toNat
  exit : (r.am i).state = .idle →
    r.wordCnt.setWidth 32 = (r.chan k).length - 1 ∧ r.burstcount ≠ 0

theorem bursts_idle {r : Dma} (h : r.state = .idle) (b : ℕ) (i : In) : bursts.next b r i = 0 := by
  simp [bursts, h]

theorem bursts_busy {r : Dma} {k : Kind} {p p' : Phase} (h : r.state = .burst k p) {i : In}
    (stays : (r.am i).state = .burst k p') (b : ℕ) :
    bursts.next b r i = if p = .read ∧ p' = .start then b + 1 else b := by
  cases p <;> cases p' <;> simp [bursts, h, stays]

theorem bursts_step {r : Dma} {k : Kind} {p : Phase} {base len : BitVec 32}
    {ws : List FixedPoint} (h : r.Busy k p base len ws) {i : In}
    (stays : (r.am i).state = .burst k (nextPhase k p ws.length i)) :
    bursts.next (ws.length / k.burstSize) r i = (store ws r i).length / k.burstSize := by
  rw [bursts_busy h.state stays]
  cases p with
  | start => simp [store, stores, h.state]
  | wait => simp [store, stores, h.state]
  | read =>
    cases valid : i.readdatavalid with
    | false => simp [store, stores, h.state, nextPhase, valid]
    | true =>
      rw [store_word h.state valid]
      by_cases full : (ws.length + 1) % k.burstSize = 0
      · simp [nextPhase, valid, full, div_full full]
      · simp [nextPhase, full, div_inside full]

inductive Tallied (r : Dma) (ws : List FixedPoint) (b : ℕ) : Prop where
  | idle (h : r.state = .idle)
  | busy {k : Kind} {p : Phase} {base len : BitVec 32} (h : r.Busy k p base len ws)
      (count : b = ws.length / k.burstSize)

theorem tallied_step {r : Dma} {g : Log} {b : ℕ} (h : Tallied r g.words b) (i : In) :
    Tallied (r.am i) (log.next g r i).words (bursts.next b r i) := by
  cases h with
  | idle h =>
    rw [log_idle h, bursts_idle h]
    rcases idle_step h i with ⟨_, rest⟩ | ⟨k, _, busy⟩
    · rw [rest]
      exact .idle rfl
    · exact .busy busy (Nat.zero_div _).symm
  | busy h count =>
    subst count
    rcases busy_step h i with ⟨next, _⟩ | ⟨done, _⟩
    · rw [log_busy g i h.state next.state]
      exact .busy next (bursts_step h next.state)
    · exact .idle done.state

theorem tallied_run (ins : List In) : Tallied (run am reset ins)
    (log.watch am .empty reset ins).words (bursts.watch am 0 reset ins) := by
  apply log.watch_invariant_beside am bursts (P := fun r g b => Tallied r g.words b)
  · exact .idle rfl
  · intro r g b i h
    exact tallied_step h i

theorem tallied_busy {r : Dma} {ws : List FixedPoint} {b : ℕ} (h : Tallied r ws b) {k : Kind}
    {p : Phase} (state : r.state = .burst k p) :
    ∃ base len, r.Busy k p base len ws ∧ b = ws.length / k.burstSize := by
  cases h with
  | idle h => simp [state] at h
  | @busy k' p' base len h count =>
    obtain ⟨rfl, rfl⟩ : k = k' ∧ p = p' := by simpa [state] using h.state
    exact ⟨base, len, h, count⟩

theorem busy_counters {r : Dma} {k : Kind} {p : Phase} {base len : BitVec 32}
    {ws : List FixedPoint} (h : r.Busy k p base len ws) :
    Counters r k (ws.length / k.burstSize) where
  burstcount := busy_burstcount h
  burstCnt := by
    have inside := Nat.mod_lt ws.length k.burstSize_pos
    rw [busy_burstCnt h]
    omega
  wordCnt := by
    rw [busy_burstCnt h, h.wordCnt, BitVec.toNat_ofNat, Nat.div_add_mod]
  cnt := by
    rw [h.cnt, BitVec.toNat_ofNat]
    omega

theorem busy_in_bounds {r : Dma} {k : Kind} {base len : BitVec 32} {ws : List FixedPoint}
    (h : r.Busy k .read base len ws) (i : In) : InBounds r k i where
  index := by
    rw [busy_burstCnt h]
    exact Nat.mod_lt _ k.burstSize_pos
  last := by
    rw [h.burstcount]
    cases k <;> rfl
  exit := by
    intro ends
    rcases busy_step h i with ⟨next, _⟩ | ⟨_, _, _, last⟩
    · simp [next.state] at ends
    · rw [h.wordCnt, h.length, last_word_iff h.unfinished]
      exact ⟨last, burstcount_ne_zero h⟩

/-- In every state of a transfer the counters agree with the bursts completed, and every word
    of it is stored inside its window. -/
theorem counter_invariant (ins : List In) :
    (∀ k p, (run am reset ins).state = .burst k p →
      Counters (run am reset ins) k (bursts.watch am 0 reset ins)) ∧
    ∀ k i, (run am reset ins).state = .burst k .read → InBounds (run am reset ins) k i := by
  constructor
  · intro k p state
    obtain ⟨base, len, busy, count⟩ := tallied_busy (tallied_run ins) state
    rw [count]
    exact busy_counters busy
  · intro k i state
    obtain ⟨base, len, busy, _⟩ := tallied_busy (tallied_run ins) state
    exact busy_in_bounds busy i

def emptyImage : List In :=
  { In.memory ⟨false, 0, false⟩ with startImage := true } ::
    List.replicate 2 (In.memory ⟨false, 0, false⟩) ++ List.replicate 49 (In.memory ⟨true, 0, false⟩)

theorem counter_invariant_empty : Counters (run am reset emptyImage) .image 1 := by
  have one : bursts.watch am 0 reset emptyImage = 1 := by decide +kernel
  have counters := (counter_invariant emptyImage).1 .image .start (by decide +kernel)
  rw [one] at counters
  exact counters

end CnnAccelerator.Dma
