import CnnAccelerator.AvalonSlave

/- The history of a run: the transfers completed so far, in order, each with its words. -/
namespace CnnAccelerator.Dma
open Clocked

structure Transfer where
  kind : Kind
  words : List FixedPoint
  deriving DecidableEq, Repr

@[ext] structure Log where
  words : List FixedPoint -- of the transfer under way
  done : List Transfer
  deriving DecidableEq, Repr

namespace Log

def empty : Log := ⟨[], []⟩

/-- One cycle, after which the transfer under way has the words `ws`. A transfer is
    completed by the edge that takes the dma back to IDLE. -/
def next (g : Log) (r : Dma) (i : In) (ws : List FixedPoint) : Log :=
  match r.state, (r.am i).state with
  | .burst k _, .idle => ⟨[], g.done ++ [⟨k, ws⟩]⟩
  | .burst _ _, .burst _ _ => ⟨ws, g.done⟩
  | .idle, _ => ⟨[], g.done⟩

end Log

def log : Monitor Dma In Log where
  next g r i := g.next r i (store g.words r i)
  allow _ _ _ := True

/-- The words are those the memory delivers between two IDLE states. -/
def streams : Monitor Dma In Log where
  next g r i := g.next r i (if i.readdatavalid then g.words ++ [i.readdata] else g.words)
  allow _ _ _ := True

theorem log_idle {r : Dma} (h : r.state = .idle) (g : Log) (i : In) :
    log.next g r i = ⟨[], g.done⟩ := by
  simp [log, Log.next, h]

theorem log_busy {r : Dma} {k k' : Kind} {p p' : Phase} (g : Log) (i : In)
    (h : r.state = .burst k p) (stays : (r.am i).state = .burst k' p') :
    log.next g r i = ⟨store g.words r i, g.done⟩ := by
  simp [log, Log.next, h, stays]

theorem log_done {r : Dma} {k : Kind} {p : Phase} (g : Log) (i : In)
    (h : r.state = .burst k p) (ends : (r.am i).state = .idle) :
    log.next g r i = ⟨[], g.done ++ [⟨k, store g.words r i⟩]⟩ := by
  simp [log, Log.next, h, ends]

def sent (k : Kind) (r : Dma) (ws : List FixedPoint) : List (Pulse k.burstSize) :=
  match r.state with
  | .burst k' _ => if k' = k then pulsesOf k ws (ws.length / k.burstSize) else []
  | .idle => []

def handed (k : Kind) (t : Transfer) : List (Pulse k.burstSize) :=
  if t.kind = k then pulsesOf k t.words ((t.words.length - 1) / k.burstSize) ++
    [lastPulse k t.words]
  else []

theorem sent_idle {r : Dma} (h : r.state = .idle) (k : Kind) (ws : List FixedPoint) :
    sent k r ws = [] := by
  simp [sent, h]

theorem sent_nil (k : Kind) (r : Dma) : sent k r [] = [] := by
  unfold sent
  split
  · simp [pulsesOf]
  · rfl

/-- What a cycle can do, as the log and the register banks see it. -/
inductive Turn (L : Kind → BitVec 32 → Prop) (g : Log) (r : Dma) (i : In) : Prop where
  | goes (ws : List FixedPoint) (same : log.next g r i = ⟨ws, g.done⟩)
      (logged : Logged L (r.am i) ws)
      (idle : r.state = .idle → ws = [] ∧ ∀ k, (r.am i).state ≠ .burst k .read)
      (quiet : ∀ k, ((r.am i).chan k).start = false)
      (pulse : ∀ k, sent k r g.words ++ pulses k [r.am i] = sent k (r.am i) ws)
  | ends (t : Transfer) (len : BitVec 32) (reading : r.state = .burst t.kind .read)
      (more : log.next g r i = ⟨[], g.done ++ [t]⟩) (done : (r.am i).Done t.kind len t.words)
      (latched : L t.kind len)
      (pulse : ∀ k, sent k r g.words ++ pulses k [r.am i] = handed k t)

theorem no_pulse_start {r : Dma} {k : Kind} (none : pulses k [r] = []) :
    (r.chan k).start = false := by
  cases start : (r.chan k).start with
  | false => rfl
  | true => simp [pulses, start] at none

theorem busy_quiet {r : Dma} {k : Kind} {p : Phase} {base len : BitVec 32}
    {ws : List FixedPoint} (h : r.Busy k p base len ws) (k' : Kind) :
    (r.chan k').start = false := by
  rcases k.eq_or_other k' with rfl | rfl
  · exact h.start
  · simp [h.other, Channel.cleared]

theorem reset_pulses (k : Kind) : pulses k [reset] = [] := by
  simp [pulses, Channel.cleared]

theorem first_pulses {r : Dma} {k : Kind} {base len : BitVec 32}
    (h : r.Busy k .start base len []) (k' : Kind) : pulses k' [r] = [] := by
  rcases k.eq_or_other k' with rfl | rfl
  · simp [pulses, h.write, h.start]
  · exact busy_others h

theorem turn_idle {L : Kind → BitVec 32 → Prop} {r : Dma} {i : In} (h : r.state = .idle)
    (latched : ∀ k, i.starts = some k → L k (i.length k)) (g : Log) : Turn L g r i := by
  rcases idle_step h i with ⟨_, rest⟩ | ⟨k, some, busy⟩
  · refine .goes [] (log_idle h g i) ?_ (fun _ => ⟨rfl, ?_⟩) ?_ ?_
    · rw [rest]
      exact .rest
    · simp [rest, reset]
    · intro k
      simp [rest, Channel.cleared]
    · intro k
      rw [rest, reset_pulses, sent_idle h, sent_nil, List.append_nil]
  · refine .goes [] (log_idle h g i) (.busy busy (latched k some)) (fun _ => ⟨rfl, ?_⟩) ?_ ?_
    · simp [busy.state]
    · exact busy_quiet busy
    · intro k'
      rw [first_pulses busy, sent_idle h, sent_nil, List.append_nil]

theorem sent_busy {r : Dma} {k : Kind} {p : Phase} {base len : BitVec 32}
    {ws : List FixedPoint} (h : r.Busy k p base len ws) (us : List FixedPoint) :
    sent k r us = pulsesOf k us (us.length / k.burstSize) := by
  simp [sent, h.state]

theorem sent_other {r : Dma} {k : Kind} {p : Phase} {base len : BitVec 32}
    {ws : List FixedPoint} (h : r.Busy k p base len ws) (us : List FixedPoint) :
    sent k.other r us = [] := by
  cases k <;> simp [sent, h.state, Kind.other]

theorem turn_busy {L : Kind → BitVec 32 → Prop} {r : Dma} {k : Kind} {p : Phase}
    {base len : BitVec 32} {g : Log} (h : r.Busy k p base len g.words) (latched : L k len)
    (i : In) : Turn L g r i := by
  rcases busy_step h i with ⟨next, _⟩ | ⟨done, rfl, valid, last⟩
  · refine .goes (store g.words r i) (log_busy g i h.state next.state) (.busy next latched)
      (fun idle => by simp [h.state] at idle) (busy_quiet next) ?_
    intro k'
    rcases k.eq_or_other k' with rfl | rfl
    · rw [sent_busy h, sent_busy next]
      exact pulse_step h next
    · rw [sent_other h, sent_other next]
      exact busy_others next
  · refine .ends ⟨k, store g.words r i⟩ len h.state (log_done g i h.state done.state) done
      latched ?_
    intro k'
    rcases k.eq_or_other k' with rfl | rfl
    · have kept := store_word h.state valid g.words
      rw [sent_busy h, kept]
      rw [kept] at done
      simp [handed, done_pulse done, pulsesOf_append k' _ _ _ (Nat.mul_div_le _ _)]
    · rw [sent_other h, done_others done]
      cases k <;> rfl

theorem logged_start {L : Kind → BitVec 32 → Prop} {r : Dma} {ws : List FixedPoint} {k : Kind}
    (h : Logged L r ws) (up : (r.chan k).start = true) : ∃ len us, r.Done k len us := by
  cases h with
  | rest => simp [Channel.cleared] at up
  | @done _ k' len us h _ =>
    rcases k'.eq_or_other k with rfl | rfl
    · exact ⟨len, us, h⟩
    · simp [h.other, Channel.cleared] at up
  | busy h => simp [busy_quiet h] at up

theorem logged_words {L : Kind → BitVec 32 → Prop} {r : Dma} {ws : List FixedPoint}
    (h : Logged L r ws) (idle : r.state = .idle) : ws = [] := by
  cases h with
  | rest => rfl
  | done => rfl
  | busy busy => simp [busy.state] at idle

theorem logged_kind {L : Kind → BitVec 32 → Prop} {r : Dma} {ws : List FixedPoint} {k k' : Kind}
    {p p' : Phase} (h : Logged L r ws) {i : In} (now : r.state = .burst k p)
    (next : (r.am i).state = .burst k' p') : k' = k := by
  cases h with
  | rest => contradiction
  | done done =>
    rw [done.state] at now
    contradiction
  | busy busy latched =>
    obtain ⟨rfl, _⟩ := StateType.burst.inj (busy.state.symm.trans now)
    rcases busy_step busy i with ⟨later, _⟩ | ⟨ended, _⟩
    · exact (StateType.burst.inj (next.symm.trans later.state)).1
    · rw [ended.state] at next
      contradiction

theorem logged_turn {L : Kind → BitVec 32 → Prop} {g : Log} {r : Dma} {i : In}
    (h : Logged L r g.words)
    (latched : ∀ k, r.state = .idle → i.starts = some k → L k (i.length k)) : Turn L g r i := by
  obtain ⟨ws, done⟩ := g
  cases h with
  | rest => exact turn_idle rfl (fun k => latched k rfl) _
  | done h => exact turn_idle h.state (fun k => latched k h.state) _
  | busy h length => exact turn_busy h length i

end CnnAccelerator.Dma
