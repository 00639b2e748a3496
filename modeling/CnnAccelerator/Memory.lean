import CnnAccelerator.Scores

/- The memory behind the master port, now with its contents: which words a transfer brings. -/
namespace CnnAccelerator
open Clocked

/-- Word `n` of a burst that starts at an address. -/
abbrev Memory := BitVec 32 → ℕ → FixedPoint

namespace Dma

structure Request where
  kind : Kind
  addr : BitVec 32
  length : BitVec 32
  deriving DecidableEq, Repr

/-- Word `j` of a transfer from `base`: a burst starts `burstSize` addresses after the last. -/
def wordAt (mem : Memory) (k : Kind) (base : BitVec 32) (j : ℕ) : FixedPoint :=
  mem (base + BitVec.ofNat 32 (k.burstSize * (j / k.burstSize))) (j % k.burstSize)

def fetch (mem : Memory) (k : Kind) (base : BitVec 32) (n : ℕ) : List FixedPoint :=
  (List.range n).map (wordAt mem k base)

def Request.transfer (mem : Memory) (q : Request) : Transfer :=
  ⟨q.kind, fetch mem q.kind q.addr q.length.toNat⟩

/-- Request `n` is served with words of `content n`: the memory may change between two
    transfers. -/
def fulfilled (content : ℕ → Memory) (qs : List Request) : List Transfer :=
  qs.mapIdx fun n q => q.transfer (content n)

structure Supply where
  requests : List Request
  pending : List FixedPoint
  deriving DecidableEq, Repr

namespace Supply

def none : Supply := ⟨[], []⟩

def next (content : ℕ → Memory) (m : Supply) (r : Dma) (i : In) : Supply :=
  { requests :=
      if r.state = .idle then
        m.requests ++ (i.starts.map fun k => ⟨k, i.addr k, i.length k⟩).toList
      else m.requests
    pending := (if i.readdatavalid then m.pending.tail else m.pending) ++
      if accepts r i then
        (List.range r.burstcountOut.toNat).map (content (m.requests.length - 1) r.address)
      else [] }

end Supply

/-- A slave that delivers the words of its contents in order, with any stalls and gaps, and
    starts that latch lengths in `L`. -/
def supply (content : ℕ → Memory) (L : Kind → BitVec 32 → Prop) : Monitor Dma In Supply where
  next := Supply.next content
  allow m r i := (i.readdatavalid = true → m.pending.head? = some i.readdata) ∧
    ∀ k, r.state = .idle → i.starts = some k → L k (i.length k)

instance (content : ℕ → Memory) (L : Kind → BitVec 32 → Prop) [∀ k len, Decidable (L k len)]
    (m : Supply) (r : Dma) (i : In) : Decidable ((supply content L).allow m r i) :=
  inferInstanceAs (Decidable ((_ → _) ∧ ∀ _ : Kind, _ → _ → _))

@[simp] theorem fetch_length (mem : Memory) (k : Kind) (base : BitVec 32) (n : ℕ) :
    (fetch mem k base n).length = n := by
  simp [fetch]

theorem fetch_succ (mem : Memory) (k : Kind) (base : BitVec 32) (n : ℕ) :
    fetch mem k base (n + 1) = fetch mem k base n ++ [wordAt mem k base n] := by
  simp [fetch, List.range_succ]

theorem fulfilled_snoc (content : ℕ → Memory) (qs : List Request) (q : Request) :
    fulfilled content (qs ++ [q]) = fulfilled content qs ++ [q.transfer (content qs.length)] := by
  simp [fulfilled, List.mapIdx_append]

theorem burst_words (mem : Memory) (k : Kind) (base : BitVec 32) {n : ℕ}
    (aligned : n % k.burstSize = 0) :
    (List.range k.burstSize).map
        (mem (base + BitVec.ofNat 32 (k.burstSize * (n / k.burstSize)))) =
      (List.range' n k.burstSize).map (wordAt mem k base) := by
  rw [List.range'_eq_map_range, List.map_map]
  apply List.map_congr_left
  intro j member
  have inside := List.mem_range.mp member
  obtain ⟨c, rfl⟩ := Nat.dvd_of_mod_eq_zero aligned
  have pos := k.burstSize_pos
  simp [wordAt, Nat.mul_add_div pos, Nat.div_eq_of_lt inside, Nat.mod_eq_of_lt inside,
    Nat.mul_div_cancel_left c pos]

def owing (mem : Memory) (k : Kind) (p : Phase) (base : BitVec 32) (n : ℕ) : List FixedPoint :=
  (List.range' n (untilCommand k p n)).map (wordAt mem k base)

theorem owing_word (mem : Memory) (k : Kind) (base : BitVec 32) (n : ℕ) {i : In}
    (valid : i.readdatavalid = true) : owing mem k .read base n =
      wordAt mem k base n :: owing mem k (nextPhase k .read n i) base (n + 1) := by
  rw [owing, untilCommand_word k n i valid, List.range'_succ, List.map_cons, owing]

inductive Fed (content : ℕ → Memory) (L : Kind → BitVec 32 → Prop) (r : Dma) (m : Supply)
    (g : Log) : Prop where
  | idle (state : r.state = .idle) (silent : r.read = false) (empty : m.pending = [])
      (words : g.words = []) (all : g.done = fulfilled content m.requests)
  | busy {k : Kind} {p : Phase} {base len : BitVec 32} {qs : List Request}
      (h : r.Busy k p base len g.words) (latched : L k len)
      (asked : m.requests = qs ++ [⟨k, base, len⟩]) (before : g.done = fulfilled content qs)
      (words : g.words = fetch (content qs.length) k base g.words.length)
      (owed : m.pending = owing (content qs.length) k p base g.words.length)

theorem fed_idle {content : ℕ → Memory} {L : Kind → BitVec 32 → Prop} {r : Dma} {m : Supply}
    {g : Log} {i : In} (state : r.state = .idle) (silent : r.read = false)
    (empty : m.pending = []) (all : g.done = fulfilled content m.requests)
    (allowed : (supply content L).allow m r i) :
    Fed content L (r.am i) (m.next content r i) (log.next g r i) := by
  have gap : i.readdatavalid = false := by
    cases valid : i.readdatavalid with
    | false => rfl
    | true =>
      have head := allowed.1 valid
      simp [empty] at head
  have still : (m.next content r i).pending = [] := by
    simp [Supply.next, gap, empty, accepts, silent]
  rw [log_idle state]
  rcases idle_step state i with ⟨none, rest⟩ | ⟨k, some, busy⟩
  · rw [rest]
    refine .idle rfl rfl still rfl ?_
    simpa [Supply.next, state, none] using all
  · have asked : (m.next content r i).requests = m.requests ++ [⟨k, i.addr k, i.length k⟩] := by
      simp [Supply.next, state, some]
    refine .busy busy (allowed.2 k state some) asked all rfl ?_
    simp [still, owing, untilCommand]

theorem owing_step {content : ℕ → Memory} {L : Kind → BitVec 32 → Prop} {r : Dma} {m : Supply}
    {k : Kind} {p : Phase} {base len : BitVec 32} {ws : List FixedPoint} {mem : Memory} {i : In}
    (h : r.Busy k p base len ws) (current : content (m.requests.length - 1) = mem)
    (words : ws = fetch mem k base ws.length) (owed : m.pending = owing mem k p base ws.length)
    (allowed : (supply content L).allow m r i) :
    (m.next content r i).pending =
        owing mem k (nextPhase k p ws.length i) base (store ws r i).length ∧
      store ws r i = fetch mem k base (store ws r i).length := by
  have early (outside : p ≠ .read) : i.readdatavalid = false := by
    cases valid : i.readdatavalid with
    | false => rfl
    | true =>
      have head := allowed.1 valid
      simp [owed, owing, untilCommand, outside] at head
  cases p with
  | start =>
    have gap := early (by simp)
    have none : m.pending = [] := by simpa [owing, untilCommand] using owed
    simp only [store, stores, h.state]
    refine ⟨?_, words⟩
    simp [Supply.next, gap, none, accepts, h.read, owing, untilCommand, nextPhase]
  | wait =>
    have gap := early (by simp)
    have none : m.pending = [] := by simpa [owing, untilCommand] using owed
    simp only [store, stores, h.state]
    refine ⟨?_, words⟩
    cases go : i.waitrequest with
    | true => simp [Supply.next, gap, none, accepts, h.read, owing, untilCommand, nextPhase, go]
    | false =>
      have aligned := h.aligned (by simp)
      have size : (BitVec.ofNat 7 k.burstSize).toNat = k.burstSize := by cases k <;> rfl
      simp [Supply.next, gap, none, accepts, h.read, owing, untilCommand, nextPhase, go, aligned,
        h.burstcountOut rfl, size, current, h.address rfl, h.addr, burst_words mem k base aligned]
  | read =>
    cases valid : i.readdatavalid with
    | false =>
      simp only [store, stores, h.state, valid]
      refine ⟨?_, words⟩
      simp [Supply.next, valid, accepts, h.read, nextPhase, owed]
    | true =>
      have first := owing_word mem k base ws.length valid
      have head := allowed.1 valid
      rw [owed, first, List.head?_cons] at head
      have word := (Option.some.inj head).symm
      rw [store_word h.state valid, List.length_append, List.length_singleton, fetch_succ,
        ← words, word]
      refine ⟨?_, rfl⟩
      simp [Supply.next, valid, accepts, h.read, owed, first]

theorem fed_step {content : ℕ → Memory} {L : Kind → BitVec 32 → Prop}
    (whole : ∀ k len, L k len → Whole k len) {r : Dma} {m : Supply} {g : Log} {i : In}
    (h : Fed content L r m g) (allowed : (supply content L).allow m r i) :
    Fed content L (r.am i) (m.next content r i) (log.next g r i) := by
  cases h with
  | idle state silent empty words all => exact fed_idle state silent empty all allowed
  | @busy k p base len qs h latched asked before words owed =>
    have current : content (m.requests.length - 1) = content qs.length := by simp [asked]
    have same : (m.next content r i).requests = m.requests := by simp [Supply.next, h.state]
    obtain ⟨owes, stored⟩ := owing_step h current words owed allowed
    rcases busy_step h i with ⟨next, _⟩ | ⟨done, rfl, valid, last⟩
    · rw [log_busy g i h.state next.state]
      exact .busy next latched (same.trans asked) before stored owes
    · rw [log_done g i h.state done.state]
      have total := done.length.1
      -- the last word also ends its burst, so the memory owes nothing
      have full := whole k len latched (by rw [last.1]; exact last.2.2)
      rw [last.1] at full
      refine .idle done.state done.read ?_ rfl ?_
      · rw [owes]
        simp [owing, nextPhase, valid, full, untilCommand]
      · rw [same, asked, fulfilled_snoc, Request.transfer, before, total]
        simpa using stored

structure Brought (content : ℕ → Memory) (r : Dma) (qs : List Request) (g : Log) : Prop where
  rest : r.state = .idle → g.words = [] ∧ g.done = fulfilled content qs
  transfer : ∀ k p, r.state = .burst k p → ∃ front q, qs = front ++ [q] ∧ q.kind = k ∧
    g.done = fulfilled content front ∧
    g.words = fetch (content front.length) k q.addr g.words.length ∧
    (0 < q.length.toNat → q.length.toNat ≤ 2 ^ 17 → g.words.length < q.length.toNat)

theorem fed_brought {content : ℕ → Memory} {L : Kind → BitVec 32 → Prop} {r : Dma} {m : Supply}
    {g : Log} (h : Fed content L r m g) : Brought content r m.requests g := by
  cases h with
  | idle state silent empty words all =>
    exact ⟨fun _ => ⟨words, all⟩, by simp [state]⟩
  | @busy k p base len qs h latched asked before words owed =>
    refine ⟨by simp [h.state], fun k' p' state => ?_⟩
    obtain ⟨rfl, rfl⟩ : k = k' ∧ p = p' := by simpa [h.state] using state
    exact ⟨qs, ⟨k, base, len⟩, asked, rfl, before, words, h.unfinished⟩

theorem fed_done {content : ℕ → Memory} {L : Kind → BitVec 32 → Prop} {r : Dma} {m : Supply}
    {g : Log} (h : Fed content L r m g) :
    ∃ qs, qs <+: m.requests ∧ g.done = fulfilled content qs := by
  cases h with
  | idle state silent empty words all => exact ⟨m.requests, List.prefix_refl _, all⟩
  | @busy k p base len qs h latched asked before words owed =>
    rw [asked]
    exact ⟨qs, List.prefix_append _ _, before⟩

end Dma

namespace Accelerator
open Dma

def supplied (content : ℕ → Memory) (L : Kind → BitVec 32 → Prop) :
    Monitor Accelerator In Supply :=
  (supply content L).comap dmaInst fun s i => s.dmaIn i.am

instance (content : ℕ → Memory) (L : Kind → BitVec 32 → Prop) [∀ k len, Decidable (L k len)]
    (m : Supply) (s : Accelerator) (i : In) : Decidable ((supplied content L).allow m s i) :=
  inferInstanceAs (Decidable ((supply content L).allow m s.dmaInst (s.dmaIn i.am)))

theorem fed_run {content : ℕ → Memory} {L : Kind → BitVec 32 → Prop}
    (whole : ∀ k len, L k len → Whole k len) (power : Accelerator) {ins : List In}
    (ok : (supplied content L).Allows step .none power.reset ins) :
    Fed content L (run step power.reset ins).dmaInst
      ((supplied content L).watch step .none power.reset ins) (history power ins) := by
  apply (supplied content L).allows_invariant_beside step logged
    (P := fun s m g => Fed content L s.dmaInst m g) _ _ ok
  · exact .idle rfl rfl rfl rfl rfl
  · intro s m g i h allowed
    exact fed_step whole h allowed

theorem requests_prefix (content : ℕ → Memory) (L : Kind → BitVec 32 → Prop) (m : Supply)
    (s : Accelerator) (ins : List In) :
    m.requests <+: ((supplied content L).watch step m s ins).requests := by
  induction ins generalizing m s with
  | nil => exact List.prefix_refl _
  | cons i ins ih =>
    have first : m.requests <+: (m.next content s.dmaInst (s.dmaIn i.am)).requests := by
      unfold Supply.next
      dsimp only
      split
      · exact List.prefix_append _ _
      · exact List.prefix_refl _
    exact first.trans (ih _ _)

/-- Nothing lost, duplicated or out of order between the registers and the feature and weight
    banks: in every run on a memory that keeps the protocol the completed transfers are the
    requests acted on, each with the words at its own burst addresses. -/
theorem transfers_are_requests (content : ℕ → Memory) (power : Accelerator) (ins : List In)
    (ok : (supplied content Whole).Allows step .none power.reset ins) :
    Brought content (run step power.reset ins).dmaInst
      ((supplied content Whole).watch step .none power.reset ins).requests (history power ins) :=
  fed_brought (fed_run (fun _ _ h => h) power ok)

def counting : Memory := fun a n => BitVec.ofNat 16 (a.toNat + n)

theorem transfers_are_requests_ramp :
    Brought (fun _ => counting) (run step powerUp.reset (inference rampImage rampWeight)).dmaInst
      ((supplied (fun _ => counting) Whole).watch step .none powerUp.reset
        (inference rampImage rampWeight)).requests
      (history powerUp (inference rampImage rampWeight)) :=
  transfers_are_requests (fun _ => counting) powerUp (inference rampImage rampWeight)
    (by decide +kernel)

end Accelerator
end CnnAccelerator
