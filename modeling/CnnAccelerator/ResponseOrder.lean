import CnnAccelerator.Accelerator
import CnnAccelerator.AvalonSlave

/- Words of the memory against the transfer that asked for them. The dma always asks
   for full bursts but stops on its word count. -/
namespace CnnAccelerator
open Clocked

/-- A length whose transfer ends with a burst, or never ends at all. -/
def Whole (k : Kind) (len : BitVec 32) : Prop :=
  len.toNat ≤ 2 ^ 17 → len.toNat % k.burstSize = 0

instance (k : Kind) (len : BitVec 32) : Decidable (Whole k len) :=
  inferInstanceAs (Decidable (_ → _))

namespace Dma

def environment (L : Kind → BitVec 32 → Prop) : Monitor Dma In Responses where
  next := Responses.next
  allow m r i := slave.allow m r i ∧
    ∀ k, r.state = .idle → i.starts = some k → L k (i.length k)

instance (L : Kind → BitVec 32 → Prop) [∀ k len, Decidable (L k len)] (m : Responses) (r : Dma)
    (i : In) : Decidable ((environment L).allow m r i) :=
  decidable_of_iff (slave.allow m r i ∧ (r.state = .idle →
      (i.starts = some .image → L .image (i.length .image)) ∧
      (i.starts = some .weight → L .weight (i.length .weight)))) <| by
    constructor
    · rintro ⟨answers, latched⟩
      refine ⟨answers, fun k idle some => ?_⟩
      cases k with
      | image => exact (latched idle).1 some
      | weight => exact (latched idle).2 some
    · rintro ⟨answers, latched⟩
      exact ⟨answers, fun idle => ⟨latched .image idle, latched .weight idle⟩⟩

inductive Synced (L : Kind → BitVec 32 → Prop) : Dma → Responses → Prop where
  | rest {m : Responses} (empty : m.pending = []) : Synced L reset m
  | done {r : Dma} {m : Responses} {k : Kind} {len : BitVec 32} {ws : List FixedPoint}
      (h : r.Done k len ws) (latched : L k len) (empty : m.pending = []) : Synced L r m
  | busy {r : Dma} {m : Responses} {k : Kind} {p : Phase} {base len : BitVec 32}
      {ws : List FixedPoint} (h : r.Busy k p base len ws) (latched : L k len)
      (sync : InStep m k p ws.length) : Synced L r m

theorem synced_idle {L : Kind → BitVec 32 → Prop} {r : Dma} {m : Responses} {i : In}
    (idle : r.state = .idle) (read : r.read = false) (empty : m.pending = [])
    (allowed : (environment L).allow m r i) : Synced L (r.am i) (m.next r i) := by
  have gap : i.readdatavalid = false := by
    cases valid : i.readdatavalid with
    | false => rfl
    | true => exact absurd empty (allowed.1 valid)
  have still : (m.next r i).pending = [] := by
    simp [Responses.next, gap, empty, accepts, read]
  rcases idle_step idle i with ⟨_, rest⟩ | ⟨k, some, busy⟩
  · rw [rest]
    exact .rest still
  · exact .busy busy (allowed.2 k idle some) (by simp [InStep, still, untilCommand])

theorem synced_step {L : Kind → BitVec 32 → Prop} (whole : ∀ k len, L k len → Whole k len)
    {r : Dma} {m : Responses} {i : In} (h : Synced L r m)
    (allowed : (environment L).allow m r i) : Synced L (r.am i) (m.next r i) := by
  cases h with
  | rest empty => exact synced_idle rfl rfl empty allowed
  | done h _ empty => exact synced_idle h.state h.read empty allowed
  | busy h latched sync =>
    have next := in_step_next h sync allowed.1
    rcases busy_step h i with ⟨busy, _⟩ | ⟨done, rfl, valid, last⟩
    · exact .busy busy latched next
    · refine .done done latched ?_
      -- the last word also ends its burst, so the memory owes nothing
      have full := whole _ _ latched (by rw [last.1]; exact last.2.2)
      rw [last.1] at full
      simpa [InStep, nextPhase, valid, full, untilCommand] using next

/-- No word is on its way in IDLE or when a command goes out, and a stored word belongs to
    the transfer that stores it. -/
structure NoStale (r : Dma) (m : Responses) (i : In) : Prop where
  idle : r.state = .idle → m.pending = []
  command : r.read = true → m.pending = []
  word : r.stores i = true → m.pending.head? = some m.begun

theorem synced_no_stale {L : Kind → BitVec 32 → Prop} {r : Dma} {m : Responses} {i : In}
    (h : Synced L r m) (allowed : (environment L).allow m r i) : NoStale r m i := by
  cases h with
  | rest empty =>
    exact ⟨fun _ => empty, fun _ => empty, by simp [stores, reset]⟩
  | done h _ empty =>
    exact ⟨fun _ => empty, fun _ => empty, by simp [stores, h.state]⟩
  | @busy _ _ k p _ _ ws h _ sync =>
    refine ⟨by simp [h.state], ?_, ?_⟩
    · intro read
      have waiting : p = .wait := by simpa [h.read] using read
      simpa [InStep, waiting, untilCommand] using sync
    · intro storing
      cases p with
      | read =>
        have room : k.burstSize - ws.length % k.burstSize ≠ 0 := by
          have := Nat.mod_lt ws.length k.burstSize_pos
          omega
        rw [sync, untilCommand, if_pos rfl, List.head?_replicate, if_neg room]
      | _ => simp [stores, h.state] at storing

end Dma

namespace Accelerator

def environment (L : Kind → BitVec 32 → Prop) : Monitor Accelerator In Dma.Responses :=
  (Dma.environment L).comap dmaInst (fun s i => s.dmaIn i.am)

instance (L : Kind → BitVec 32 → Prop) [∀ k len, Decidable (L k len)] (m : Dma.Responses)
    (s : Accelerator) (i : In) : Decidable ((environment L).allow m s i) :=
  inferInstanceAs (Decidable ((Dma.environment L).allow m s.dmaInst (s.dmaIn i.am)))

theorem synced_run {L : Kind → BitVec 32 → Prop} (whole : ∀ k len, L k len → Whole k len)
    (power : Accelerator) {ins : List In}
    (ok : (environment L).Allows step .none power.reset ins) :
    Dma.Synced L (run step power.reset ins).dmaInst
      ((environment L).watch step .none power.reset ins) :=
  (environment L).allows_invariant step (P := fun s m => Dma.Synced L s.dmaInst m)
    (.rest rfl) (fun _ _ _ h allowed => Dma.synced_step whole h allowed) ok

/-- In every run whose transfers all latch whole lengths, no response outlives its
    transfer. -/
theorem no_stale_response (power : Accelerator) (ins : List In) (i : In)
    (ok : (environment Whole).Allows step .none power.reset (ins ++ [i])) :
    Dma.NoStale (run step power.reset ins).dmaInst
      ((environment Whole).watch step .none power.reset ins)
      ((run step power.reset ins).dmaIn i.am) :=
  Dma.synced_no_stale
    (synced_run (fun _ _ h => h) power ((environment Whole).allows_left step ok))
    ((environment Whole).allows_at step ok)

def shortImage : List In :=
  [silent (writeBus 3 1), silent (writeBus 0 1), silent (writeBus 5 16), silent idleBus,
    silent idleBus, ⟨idleBus, ⟨true, 7, false⟩⟩]

def weightAfter : List In :=
  [silent (writeBus 1 1), silent idleBus, silent idleBus, silent idleBus]

def wholeWeights : List In :=
  [silent (writeBus 5 16), silent (writeBus 1 1), silent idleBus, silent idleBus,
    silent idleBus]

theorem no_stale_response_weights :
    Dma.NoStale (run step powerUp.reset wholeWeights).dmaInst
      ((environment Whole).watch step .none powerUp.reset wholeWeights)
      ((run step powerUp.reset wholeWeights).dmaIn ⟨true, 9, false⟩) :=
  no_stale_response powerUp wholeWeights ⟨idleBus, ⟨true, 9, false⟩⟩ (by decide +kernel)

theorem stale_response_after_short_image :
    (environment fun _ _ => True).Allows step .none powerUp.reset
        (shortImage ++ weightAfter ++ [⟨idleBus, ⟨true, 9, false⟩⟩]) ∧
      (run step powerUp.reset shortImage).dmaInst.state = .idle ∧
      ((environment fun _ _ => True).watch step .none powerUp.reset shortImage).pending =
        List.replicate 48 1 ∧
      (run step powerUp.reset (shortImage ++ weightAfter)).dmaInst.state = .burstWeightRead ∧
      ((environment fun _ _ => True).watch step .none powerUp.reset
        (shortImage ++ weightAfter)).pending.head? = some 1 ∧
      ((environment fun _ _ => True).watch step .none powerUp.reset
        (shortImage ++ weightAfter)).begun = 2 := by
  decide +kernel

end Accelerator
end CnnAccelerator
