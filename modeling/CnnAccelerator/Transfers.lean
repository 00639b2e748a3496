import CnnAccelerator.AvalonSlave

/- Whole transfers of a length that is a multiple of the burst size: what the memory
   is asked for, and what the two consumers are handed. -/
namespace CnnAccelerator.Dma
open Clocked

structure Windows (k : Kind) (len : ℕ) (r : Dma) (ins : List In) : Prop where
  commandCount : (commands (trace am r ins)).length = len / k.burstSize
  burstcount : ∀ c ∈ commands (trace am r ins), c.2.toNat = k.burstSize
  words : (delivered (trace am r ins)).length = len
  last : ∃ pre i, ins = pre ++ [i] ∧ (run am r pre).state = .burst k .read ∧
    i.readdatavalid = true ∧ (delivered (trace am r pre)).length + 1 = len
  count : (pulses k (states am r ins)).length = len / k.burstSize
  write : ∀ p ∈ pulses k (states am r ins), p.write = true
  single : ∀ c ∈ trace am r ins, (c.1.chan k).write = true →
    ((c.1.am c.2).chan k).write = false
  pulse : ∀ j (hj : j < (pulses k (states am r ins)).length),
    (pulses k (states am r ins))[j].cnt.toNat = j % 16 ∧
    ((pulses k (states am r ins))[j].start = true ↔ j + 1 = len / k.burstSize) ∧
    ∀ i (hi : i < k.burstSize), some (pulses k (states am r ins))[j].data[i] =
      (delivered (trace am r ins))[k.burstSize * j + i]?
  others : pulses k.other (states am r ins) = []

theorem reached_cycles {r : Dma} (h : Reached r) {ins : List In} {c : Dma × In}
    (member : c ∈ trace am r ins) : Reached c.1 := by
  obtain ⟨pre, post, _, state⟩ := mem_trace.mp member
  rw [state]
  exact run_invariant (P := Reached) h (fun _ i h => reached_step h i) pre

theorem commandsOf_length (k : Kind) (base : BitVec 32) (m : ℕ) :
    (commandsOf k base m).length = m := by
  simp [commandsOf]

theorem last_window {z len : ℕ} (pos : 0 < z) (aligned : len % z = 0) (lo : z ≤ len) :
    (len - 1) / z + 1 = len / z := by
  have full : (len - 1 + 1) % z = 0 := by
    rw [show len - 1 + 1 = len by omega]
    exact aligned
  rw [← div_full full, show len - 1 + 1 = len by omega]

theorem finished_pulses {r : Dma} {k : Kind} {base len : BitVec 32} {ins : List In}
    (f : Finished k base len r ins) (aligned : len.toNat % k.burstSize = 0)
    (lo : k.burstSize ≤ len.toNat) :
    pulses k (states am r ins) = (List.range (len.toNat / k.burstSize)).map fun j =>
      ⟨true, decide (j + 1 = len.toNat / k.burstSize), BitVec.ofNat 4 j,
        window k.burstSize ((stored (trace am r ins)).take (k.burstSize * (j + 1)))⟩ := by
  have total := f.done.length.1
  have windows := last_window k.burstSize_pos aligned lo
  have whole : k.burstSize * (len.toNat / k.burstSize) = len.toNat :=
    Nat.mul_div_cancel' (Nat.dvd_of_mod_eq_zero aligned)
  rw [f.pulses, lastPulse, ← total, ← windows, List.range_succ, List.map_append, pulsesOf]
  congr 1
  · apply List.map_congr_left
    intro j member
    have before := List.mem_range.mp member
    simp
    omega
  · simp only [List.map_cons, List.map_nil, decide_true]
    rw [windows, whole, total, List.take_length]

theorem finished_last {r : Dma} {k : Kind} {base len : BitVec 32} {ins : List In}
    (h : r.Busy k .start base len []) (f : Finished k base len r ins)
    (inside : ∀ c ∈ trace am r ins, c.1.state ≠ .idle) :
    ∃ pre i, ins = pre ++ [i] ∧ (run am r pre).state = .burst k .read ∧
      i.readdatavalid = true ∧ (stored (trace am r pre)).length + 1 = len.toNat := by
  rcases List.eq_nil_or_concat ins with rfl | ⟨pre, i, rfl⟩
  · have idle := f.done.state
    simp [h.state] at idle
  · simp only [List.concat_eq_append, trace_append, List.mem_append] at inside
    rcases transfer_run h pre (fun c member => inside c (Or.inl member)) with ⟨p, u⟩ | early
    · rcases busy_step u.busy i with ⟨next, _⟩ | ⟨_, rfl, valid, last⟩
      · have idle := f.done.state
        simp [next.state] at idle
      · exact ⟨pre, i, by simp, u.busy.state, valid, last.1.symm⟩
    · exact absurd early.done.state (inside (run am r pre, i) (Or.inr (by simp)))

theorem finished_windows {r : Dma} {k : Kind} {base len : BitVec 32} {ins : List In}
    (h : r.Busy k .start base len []) (f : Finished k base len r ins)
    (inside : ∀ c ∈ trace am r ins, c.1.state ≠ .idle) (answers : slave.Allows am .none r ins)
    (aligned : len.toNat % k.burstSize = 0) (lo : k.burstSize ≤ len.toNat) :
    Windows k len.toNat r ins := by
  have fresh := in_step_first k
  have same := delivered_eq_stored h fresh ins inside answers
  have total := f.done.length.1
  exact {
    commandCount := by
      rw [f.commands, commandsOf_length, ← total]
      exact last_window k.burstSize_pos aligned lo
    burstcount := by
      intro c member
      rw [f.commands] at member
      unfold commandsOf at member
      rw [List.mem_map] at member
      obtain ⟨j, _, rfl⟩ := member
      cases k <;> rfl
    words := by rw [same, total]
    last := by
      obtain ⟨pre, i, rfl, reading, valid, count⟩ := finished_last h f inside
      refine ⟨pre, i, rfl, reading, valid, ?_⟩
      rw [delivered_eq_stored h fresh pre (fun c member => inside c (by simp [member]))
        (slave.allows_left am answers)]
      exact count
    count := by rw [finished_pulses f aligned lo]; simp
    write := by
      intro p member
      rw [finished_pulses f aligned lo, List.mem_map] at member
      obtain ⟨j, _, rfl⟩ := member
      rfl
    single := fun c member => pulse_single (reached_cycles ⟨[], .busy h trivial⟩ member) c.2
    pulse := by
      intro j hj
      have before : j < len.toNat / k.burstSize := by
        simpa [finished_pulses f aligned lo] using hj
      have full : k.burstSize * (j + 1) ≤ (stored (trace am r ins)).length := by
        rw [← total]
        exact Nat.le_trans (Nat.mul_le_mul_left _ before) (Nat.mul_div_le _ _)
      simp only [finished_pulses f aligned lo, List.getElem_map, List.getElem_range, same]
      refine ⟨by simp, by simp, fun i hi => window_get _ hi full⟩
    others := f.others }

/-- A transfer of either kind whose length is a multiple of its burst size, from the
    cycle after its start: it is back in IDLE exactly when the last word is in. -/
theorem aligned_transfer (k : Kind) (r : Dma) (i : In) (ins : List In)
    (idle : r.state = .idle) (started : i.starts = some k)
    (aligned : (i.length k).toNat % k.burstSize = 0) (lo : k.burstSize ≤ (i.length k).toNat)
    (hi : (i.length k).toNat ≤ 131072)
    (inside : ∀ c ∈ trace am (r.am i) ins, c.1.state ≠ .idle)
    (answers : slave.Allows am .none (r.am i) ins) :
    ((run am (r.am i) ins).state = .idle ↔
        (delivered (trace am (r.am i) ins)).length = (i.length k).toNat) ∧
      ((run am (r.am i) ins).state = .idle → Windows k (i.length k).toNat (r.am i) ins) := by
  have busy := started_busy idle started
  have fresh := in_step_first k
  have same := delivered_eq_stored busy fresh ins inside answers
  rcases transfer_run busy ins inside with ⟨p, u⟩ | f
  · -- still under way: the words stored are fewer than the latched length
    have short := u.busy.unfinished (by have := k.burstSize_pos; omega) hi
    have going := u.busy.state
    constructor
    · rw [going, same]
      simp
      omega
    · simp [going]
  · have total := f.done.length.1
    exact ⟨by simp [f.done.state, same, total],
      fun _ => finished_windows busy f inside answers aligned lo⟩

def twoWindows : List (List FixedPoint) :=
  [(List.range 49).map (BitVec.ofNat 16 ·), (List.range 49).map (BitVec.ofNat 16 <| · + 49)]

def startTwoWindows : In :=
  { In.memory ⟨false, 0, false⟩ with startImage := true, imageLength := 98 }

theorem aligned_transfer_two_windows :
    Windows .image 98 (reset.am startTwoWindows) ((serve twoWindows).map In.memory) :=
  (aligned_transfer .image reset startTwoWindows ((serve twoWindows).map In.memory)
    rfl rfl (by decide) (by decide) (by decide) (by decide +kernel) (by decide +kernel)).2
    (by decide +kernel)

/- The port is declared with addressUnits SYMBOLS, 8 bits a symbol, burstcountUnits
   WORDS and 16-bit data: a burst of n words at address a reads bytes a to a + 2n - 1. -/

def bytesRead (cmds : List (BitVec 32 × BitVec 7)) : List ℕ :=
  cmds.flatMap fun c => List.range' c.1.toNat (2 * c.2.toNat)

/-- The commands read the `2 * len` bytes from `base` on, each once and in order. -/
structure Tiles (k : Kind) (base len : ℕ) (cmds : List (BitVec 32 × BitVec 7)) : Prop where
  bytes : bytesRead cmds = List.range' base (2 * len)
  address : ∀ j (hj : j < cmds.length), cmds[j].1.toNat = base + 2 * k.burstSize * j

theorem single_command_tiles (k : Kind) (base : BitVec 32) :
    Tiles k base.toNat k.burstSize (commandsOf k base 1) where
  bytes := by cases k <;> simp [bytesRead, commandsOf]
  address j hj := by
    have first : j = 0 := by simpa [commandsOf] using hj
    subst first
    simp [commandsOf]

theorem two_commands_overlap (k : Kind) (base : BitVec 32) {m : ℕ} (more : 2 ≤ m)
    (fits : base.toNat + 2 * k.burstSize ≤ 2 ^ 32) (len : ℕ) :
    ¬ Tiles k base.toNat len (commandsOf k base m) := by
  intro tiles
  have second := tiles.address 1 (by rw [commandsOf_length]; omega)
  cases k <;> simp [commandsOf] at second fits <;> omega

def Completes (r : Dma) (ins : List In) : Prop :=
  (∀ c ∈ trace am r ins, c.1.state ≠ .idle) ∧ (run am r ins).state = .idle

instance (r : Dma) (ins : List In) : Decidable (Completes r ins) :=
  inferInstanceAs (Decidable (_ ∧ _))

theorem busy_finished {r : Dma} {k : Kind} {base len : BitVec 32} {ins : List In}
    (h : r.Busy k .start base len []) (ended : Completes r ins) :
    Finished k base len r ins := by
  rcases transfer_run h ins ended.1 with ⟨p, u⟩ | f
  · have going := u.busy.state
    simp [ended.2] at going
  · exact f

theorem completes_finished {r : Dma} {k : Kind} {i : In} {ins : List In}
    (idle : r.state = .idle) (started : i.starts = some k) (ended : Completes (r.am i) ins) :
    Finished k (i.addr k) (i.length k) (r.am i) ins :=
  busy_finished (started_busy idle started) ended

theorem commands_overlap_two_windows :
    reset.state = .idle ∧ startTwoWindows.starts = some .image ∧
      Completes (reset.am startTwoWindows) ((serve twoWindows).map In.memory) ∧
      commands (trace am (reset.am startTwoWindows) ((serve twoWindows).map In.memory)) =
        [(0, 49), (49, 49)] ∧
      bytesRead [(0, 49), (49, 49)] ≠ List.range' 0 (2 * 98) ∧
      ¬ Tiles .image 0 98 [(0, 49), (49, 49)] := by
  have unordered : bytesRead [(0, 49), (49, 49)] ≠ List.range' 0 (2 * 98) := by decide +kernel
  exact ⟨rfl, rfl, by decide +kernel, by decide +kernel, unordered,
    fun tiles => unordered tiles.bytes⟩

/-- The addresses advance by words, not bytes: only a transfer of one burst tiles its
    buffer. -/
theorem commands_tile_iff (k : Kind) (r : Dma) (i : In) (ins : List In)
    (idle : r.state = .idle) (started : i.starts = some k)
    (aligned : (i.length k).toNat % k.burstSize = 0) (lo : k.burstSize ≤ (i.length k).toNat)
    (noWrap : (i.addr k).toNat + 2 * (i.length k).toNat ≤ 2 ^ 32)
    (ended : Completes (r.am i) ins) :
    Tiles k (i.addr k).toNat (i.length k).toNat (commands (trace am (r.am i) ins)) ↔
      (i.length k).toNat = k.burstSize := by
  have f := completes_finished idle started ended
  have count : commands (trace am (r.am i) ins) =
      commandsOf k (i.addr k) ((i.length k).toNat / k.burstSize) := by
    rw [f.commands, ← f.done.length.1, last_window k.burstSize_pos aligned lo]
  rw [count]
  constructor
  · intro tiles
    by_contra other
    have more : 2 ≤ (i.length k).toNat / k.burstSize := by
      cases k <;> simp at aligned lo other ⊢ <;> omega
    exact two_commands_overlap k (i.addr k) more (by omega) _ tiles
  · intro one
    rw [one, Nat.div_self k.burstSize_pos]
    exact single_command_tiles k (i.addr k)

def startOneWindow : In :=
  { In.memory ⟨false, 0, false⟩ with startImage := true, imageLength := 49, imageAddr := 4096 }

theorem commands_tile_one_window :
    Tiles .image 4096 49 (commands (trace am (reset.am startOneWindow)
      ((serve (twoWindows.take 1)).map In.memory))) :=
  (commands_tile_iff .image reset startOneWindow ((serve (twoWindows.take 1)).map In.memory)
    rfl rfl (by decide) (by decide) (by decide) (by decide +kernel)).mpr rfl

end CnnAccelerator.Dma
