import CnnAccelerator.AvalonMaster

/- What a transfer shows on the ports: the commands accepted, the words stored, and
   the pulses towards conv_block or fully_connected_layer. -/
namespace CnnAccelerator.Dma
open Clocked

def commands (cycles : List (Dma × In)) : List (BitVec 32 × BitVec 7) :=
  cycles.filterMap fun c =>
    if accepts c.1 c.2 then some (c.1.address, c.1.burstcountOut) else none

def delivered (cycles : List (Dma × In)) : List FixedPoint :=
  cycles.filterMap fun c => if c.2.readdatavalid then some c.2.readdata else none

def stored (cycles : List (Dma × In)) : List FixedPoint :=
  cycles.filterMap fun c => if stores c.1 c.2 then some c.2.readdata else none

/-- A cycle with image_write_o or image_start_o high, or the same for weights. -/
structure Pulse (n : ℕ) where
  write : Bool
  start : Bool
  cnt : BitVec 4
  data : Vector FixedPoint n
  deriving DecidableEq, Repr

def pulses (k : Kind) (regs : List Dma) : List (Pulse k.burstSize) :=
  regs.filterMap fun r =>
    let c := r.chan k
    if c.write || c.start then some ⟨c.write, c.start, c.cnt, c.data⟩ else none

def commandsOf (k : Kind) (base : BitVec 32) (m : ℕ) : List (BitVec 32 × BitVec 7) :=
  (List.range m).map fun j =>
    (base + BitVec.ofNat 32 (k.burstSize * j), BitVec.ofNat 7 k.burstSize)

def pulsesOf (k : Kind) (ws : List FixedPoint) (m : ℕ) : List (Pulse k.burstSize) :=
  (List.range m).map fun j =>
    ⟨true, false, BitVec.ofNat 4 j, window k.burstSize (ws.take (k.burstSize * (j + 1)))⟩

def lastPulse (k : Kind) (ws : List FixedPoint) : Pulse k.burstSize :=
  ⟨true, true, BitVec.ofNat 4 ((ws.length - 1) / k.burstSize), window k.burstSize ws⟩

theorem commandsOf_succ (k : Kind) (base : BitVec 32) (m : ℕ) :
    commandsOf k base (m + 1) = commandsOf k base m ++
      [(base + BitVec.ofNat 32 (k.burstSize * m), BitVec.ofNat 7 k.burstSize)] := by
  simp [commandsOf, List.range_succ]

theorem pulsesOf_succ (k : Kind) (ws : List FixedPoint) (m : ℕ) :
    pulsesOf k ws (m + 1) = pulsesOf k ws m ++
      [⟨true, false, BitVec.ofNat 4 m, window k.burstSize (ws.take (k.burstSize * (m + 1)))⟩] := by
  simp [pulsesOf, List.range_succ]

theorem pulsesOf_append (k : Kind) (ws more : List FixedPoint) (m : ℕ)
    (full : k.burstSize * m ≤ ws.length) : pulsesOf k (ws ++ more) m = pulsesOf k ws m := by
  apply List.map_congr_left
  intro j member
  have bound := Nat.mul_le_mul_left k.burstSize (List.mem_range.mp member)
  rw [List.take_append_of_le_length (Nat.le_trans bound full)]

theorem pulses_append (k : Kind) (xs ys : List Dma) :
    pulses k (xs ++ ys) = pulses k xs ++ pulses k ys := by
  simp [pulses]

theorem commands_append (xs ys : List (Dma × In)) :
    commands (xs ++ ys) = commands xs ++ commands ys := by
  simp [commands]

theorem stored_snoc (cycles : List (Dma × In)) (r : Dma) (i : In) :
    stored (cycles ++ [(r, i)]) = store (stored cycles) r i := by
  cases h : r.stores i <;> simp [stored, store, h]

/-- Commands accepted once `n` words are stored. -/
def issued (k : Kind) (p : Phase) (n : ℕ) : ℕ :=
  if p = .read then n / k.burstSize + 1 else n / k.burstSize

/-- A transfer begun in `r` with the observations of `ins`, not yet finished. -/
structure Underway (k : Kind) (base len : BitVec 32) (r : Dma) (ins : List In) (p : Phase) :
    Prop where
  busy : (run am r ins).Busy k p base len (stored (trace am r ins))
  commands : commands (trace am r ins) =
    commandsOf k base (issued k p (stored (trace am r ins)).length)
  pulses : pulses k (states am r ins) = pulsesOf k (stored (trace am r ins))
    ((stored (trace am r ins)).length / k.burstSize)
  others : Dma.pulses k.other (states am r ins) = []

structure Finished (k : Kind) (base len : BitVec 32) (r : Dma) (ins : List In) : Prop where
  done : (run am r ins).Done k len (stored (trace am r ins))
  commands : commands (trace am r ins) =
    commandsOf k base (((stored (trace am r ins)).length - 1) / k.burstSize + 1)
  pulses : pulses k (states am r ins) = pulsesOf k (stored (trace am r ins))
    (((stored (trace am r ins)).length - 1) / k.burstSize) ++
      [lastPulse k (stored (trace am r ins))]
  others : Dma.pulses k.other (states am r ins) = []

theorem command_step {r : Dma} {k : Kind} {p : Phase} {base len : BitVec 32}
    {ws : List FixedPoint} (h : r.Busy k p base len ws) (i : In) :
    commandsOf k base (issued k p ws.length) ++ commands [(r, i)] =
      commandsOf k base (issued k (nextPhase k p ws.length i) (store ws r i).length) := by
  cases p with
  | start => simp [commands, accepts, h.read, issued, nextPhase, store, stores, h.state]
  | wait =>
    cases go : i.waitrequest with
    | true => simp [commands, accepts, h.read, issued, nextPhase, store, stores, h.state, go]
    | false =>
      have one : commands [(r, i)] = [(base + BitVec.ofNat 32 (k.burstSize *
          (ws.length / k.burstSize)), BitVec.ofNat 7 k.burstSize)] := by
        simp [commands, accepts, h.read, go, h.address rfl, h.addr, h.burstcountOut rfl]
      simp [one, issued, nextPhase, store, stores, h.state, go, commandsOf_succ]
  | read =>
    cases valid : i.readdatavalid with
    | false => simp [commands, accepts, h.read, issued, nextPhase, store, stores, h.state, valid]
    | true =>
      by_cases full : (ws.length + 1) % k.burstSize = 0
      · simp [commands, accepts, h.read, issued, nextPhase, store, stores, h.state, valid, full,
          div_full full]
      · simp [commands, accepts, h.read, issued, nextPhase, store, stores, h.state, valid, full,
          div_inside full]

theorem pulse_step {r : Dma} {k : Kind} {p : Phase} {base len : BitVec 32}
    {ws : List FixedPoint} (h : r.Busy k p base len ws) {i : In}
    (next : (r.am i).Busy k (nextPhase k p ws.length i) base len (store ws r i)) :
    pulsesOf k ws (ws.length / k.burstSize) ++ pulses k [r.am i] =
      pulsesOf k (store ws r i) ((store ws r i).length / k.burstSize) := by
  have shown : pulses k [r.am i] =
      if nextPhase k p ws.length i = .start ∧ store ws r i ≠ [] then
        [⟨true, false, (r.am i |>.chan k).cnt, window k.burstSize (store ws r i)⟩] else [] := by
    simp only [pulses, List.filterMap_cons, List.filterMap_nil, next.write, next.start, next.data]
    split <;> simp_all
  cases p with
  | start => simp [shown, nextPhase, store, stores, h.state]
  | wait =>
    have calm : nextPhase k .wait ws.length i ≠ .start := by
      simp only [nextPhase]
      split <;> simp
    simp [shown, calm, store, stores, h.state]
  | read =>
    cases valid : i.readdatavalid with
    | false => simp [shown, nextPhase, store, stores, h.state, valid]
    | true =>
      have kept := store_word h.state valid ws
      have fits := Nat.mul_div_le ws.length k.burstSize
      by_cases full : (ws.length + 1) % k.burstSize = 0
      · have sent := next.cnt
        have all : k.burstSize * (ws.length / k.burstSize + 1) = ws.length + 1 := by
          rw [← div_full full]
          exact Nat.mul_div_cancel' (Nat.dvd_of_mod_eq_zero full)
        rw [shown, if_pos (by simp [nextPhase, valid, full, kept]), sent, kept]
        simp only [kept, List.length_append, List.length_singleton, div_full full, cnt_wrap]
          at sent ⊢
        rw [pulsesOf_succ, pulsesOf_append k ws _ _ fits, all, List.take_of_length_le (by simp)]
      · rw [shown, if_neg (by simp [nextPhase, full]), kept]
        simp [div_inside full, pulsesOf_append k ws _ _ fits]

theorem busy_others {r : Dma} {k : Kind} {p : Phase} {base len : BitVec 32}
    {ws : List FixedPoint} (h : r.Busy k p base len ws) : pulses k.other [r] = [] := by
  simp [pulses, h.other, Channel.cleared]

theorem done_pulse {r : Dma} {k : Kind} {len : BitVec 32} {ws : List FixedPoint}
    (h : r.Done k len ws) : pulses k [r] = [lastPulse k ws] := by
  simp [pulses, h.write, h.start, h.cnt, h.data, lastPulse]

theorem done_others {r : Dma} {k : Kind} {len : BitVec 32} {ws : List FixedPoint}
    (h : r.Done k len ws) : pulses k.other [r] = [] := by
  simp [pulses, h.other, Channel.cleared]

theorem underway_nil {r : Dma} {k : Kind} {base len : BitVec 32}
    (h : r.Busy k .start base len []) : Underway k base len r [] .start where
  busy := h
  commands := by simp [stored, Dma.commands, commandsOf, issued]
  pulses := by simp [stored, Dma.pulses, h.write, h.start, pulsesOf]
  others := busy_others h

theorem underway_snoc {r : Dma} {k : Kind} {p : Phase} {base len : BitVec 32} {ins : List In}
    (u : Underway k base len r ins p) (i : In) :
    (∃ p', Underway k base len r (ins ++ [i]) p') ∨ Finished k base len r (ins ++ [i]) := by
  have words : stored (trace am r (ins ++ [i])) =
      store (stored (trace am r ins)) (run am r ins) i := by
    simp [stored_snoc]
  have issue : commands (trace am r (ins ++ [i])) =
      commands (trace am r ins) ++ commands [(run am r ins, i)] := by
    simp [commands_append]
  rcases busy_step u.busy i with ⟨next, _⟩ | ⟨done, rfl, valid, last⟩
  · refine Or.inl ⟨nextPhase k p (stored (trace am r ins)).length i, ?_, ?_, ?_, ?_⟩
    · rw [words]
      simpa using next
    · rw [issue, u.commands, words]
      exact command_step u.busy i
    · rw [words, states_snoc, pulses_append, u.pulses]
      exact pulse_step u.busy next
    · rw [states_snoc, pulses_append, u.others]
      exact busy_others next
  · have kept := store_word u.busy.state valid (stored (trace am r ins))
    refine Or.inr ⟨?_, ?_, ?_, ?_⟩
    · rw [words]
      simpa using done
    · rw [issue, u.commands, words, kept]
      simp [commands, accepts, u.busy.read, issued]
    · rw [words, states_snoc, pulses_append, u.pulses, kept]
      rw [kept] at done
      simp [done_pulse done, pulsesOf_append k _ _ _ (Nat.mul_div_le _ _)]
    · rw [states_snoc, pulses_append, u.others]
      exact done_others done

theorem transfer_run {r : Dma} {k : Kind} {base len : BitVec 32}
    (h : r.Busy k .start base len []) (ins : List In)
    (inside : ∀ c ∈ trace am r ins, c.1.state ≠ .idle) :
    (∃ p, Underway k base len r ins p) ∨ Finished k base len r ins := by
  induction ins using List.reverseRecOn with
  | nil => exact Or.inl ⟨.start, underway_nil h⟩
  | append_singleton ins i ih =>
    simp only [trace_append, List.mem_append] at inside
    rcases ih (fun c member => inside c (Or.inl member)) with ⟨p, u⟩ | f
    · exact underway_snoc u i
    · exact absurd f.done.state (inside (run am r ins, i) (Or.inr (by simp)))

end CnnAccelerator.Dma
