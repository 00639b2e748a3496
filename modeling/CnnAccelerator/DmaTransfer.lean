import CnnAccelerator.Dma
import CnnAccelerator.Lib.RingFill
import Mathlib.Algebra.Group.Nat.Defs

/- One transfer of the dma, from the start latched in IDLE to the first IDLE cycle
   after it. `ws` is the list of words stored so far, `base` and `len` the latched
   address and length. -/
namespace CnnAccelerator

def window (n : ℕ) (ws : List FixedPoint) : Vector FixedPoint n :=
  RingFill.fill n (Vector.replicate n 0) ws

theorem window_get {z : ℕ} (ws : List FixedPoint) {j i : ℕ} (hi : i < z)
    (full : z * (j + 1) ≤ ws.length) :
    some (window z (ws.take (z * (j + 1))))[i] = ws[z * j + i]? := by
  have inside : z * j + i < z * (j + 1) := by
    rw [Nat.mul_succ]
    omega
  have len : (ws.take (z * (j + 1))).length = z * (j + 1) := by simp [full]
  rw [List.getElem?_eq_getElem (by omega), window]
  rw [RingFill.fill_newest (k := z * j + i) _ i hi _ (by omega) (by rw [len, Nat.mul_succ]; omega),
    List.getElem_take]
  rw [Nat.mul_add_mod, Nat.mod_eq_of_lt hi]

/-- The word count at which a transfer ends. A length of 0 or above 2^17 has none:
    the 17-bit counter never equals the length minus one. -/
def Finishes (len : BitVec 32) (n : ℕ) : Prop := len.toNat = n ∧ 0 < n ∧ n ≤ 2 ^ 17

instance (len : BitVec 32) (n : ℕ) : Decidable (Finishes len n) :=
  inferInstanceAs (Decidable (_ ∧ _))

theorem Kind.burstSize_pos (k : Kind) : 0 < k.burstSize := by cases k <;> decide

theorem Kind.burstSize_le (k : Kind) : k.burstSize ≤ 49 := by cases k <;> decide

namespace Dma

/-- The registers in the seven states, while a transfer of kind `k` is under way. -/
structure Busy (r : Dma) (k : Kind) (p : Phase) (base len : BitVec 32)
    (ws : List FixedPoint) : Prop where
  state : r.state = .burst k p
  burstcount : r.burstcount = BitVec.ofNat 9 k.burstSize
  length : (r.chan k).length = len
  wordCnt : r.wordCnt = BitVec.ofNat 17 ws.length
  burstCnt : (r.chan k).burstCnt = BitVec.ofNat 9 (ws.length % k.burstSize)
  cnt : (r.chan k).cnt = BitVec.ofNat 4 (ws.length / k.burstSize + 15)
  addr : (r.chan k).addr =
    base + BitVec.ofNat 32 (k.burstSize * (ws.length / k.burstSize))
  data : (r.chan k).data = window k.burstSize ws
  write : (r.chan k).write = decide (p = .start ∧ ws ≠ [])
  start : (r.chan k).start = false
  other : r.chan k.other = Channel.cleared k.other.burstSize
  aligned : p ≠ .read → ws.length % k.burstSize = 0
  read : r.read = decide (p = .wait)
  address : p = .wait → r.address = (r.chan k).addr
  burstcountOut : p = .wait → r.burstcountOut = BitVec.ofNat 7 k.burstSize
  unfinished : 0 < len.toNat → len.toNat ≤ 2 ^ 17 → ws.length < len.toNat

/-- The first IDLE cycle after a transfer: its last pulse is up. -/
structure Done (r : Dma) (k : Kind) (len : BitVec 32) (ws : List FixedPoint) : Prop where
  state : r.state = .idle
  cnt : (r.chan k).cnt = BitVec.ofNat 4 ((ws.length - 1) / k.burstSize)
  data : (r.chan k).data = window k.burstSize ws
  write : (r.chan k).write = true
  start : (r.chan k).start = true
  other : r.chan k.other = Channel.cleared k.other.burstSize
  read : r.read = false
  length : Finishes len ws.length

theorem div_full {z n : ℕ} (full : (n + 1) % z = 0) : (n + 1) / z = n / z + 1 :=
  Nat.succ_div_of_dvd (Nat.dvd_of_mod_eq_zero full)

theorem div_inside {z n : ℕ} (inside : (n + 1) % z ≠ 0) : (n + 1) / z = n / z :=
  Nat.succ_div_of_not_dvd fun dvd => inside (Nat.mod_eq_zero_of_dvd dvd)

theorem last_word_iff {len : BitVec 32} {n : ℕ}
    (unfinished : 0 < len.toNat → len.toNat ≤ 2 ^ 17 → n < len.toNat) :
    (BitVec.ofNat 17 n).setWidth 32 = len - 1 ↔ Finishes len (n + 1) := by
  have bound := len.isLt
  simp only [BitVec.toNat_eq, BitVec.toNat_setWidth, BitVec.toNat_ofNat, BitVec.toNat_sub,
    Finishes, show BitVec.toNat (1 : BitVec 32) = 1 from rfl]
  omega

theorem last_of_burst_iff (k : Kind) (n : ℕ) :
    BitVec.ofNat 9 (n % k.burstSize) =
      ((BitVec.ofNat 9 k.burstSize).setWidth 7 - 1).setWidth 9 ↔ (n + 1) % k.burstSize = 0 := by
  cases k <;> simp [BitVec.toNat_eq] <;> omega

theorem accept_busy (k : Kind) (i : In) :
    (accept k i).Busy k .start (i.addr k) (i.length k) [] where
  state := rfl
  burstcount := by cases k <;> rfl
  length := by simp [accept]
  wordCnt := by simp [accept]; rfl
  burstCnt := by simp [accept, Channel.cleared]
  cnt := by simp [accept, Channel.cleared]
  addr := by simp [accept]
  data := by simp [accept, Channel.cleared, window]
  write := by simp [accept, Channel.cleared]
  start := by simp [accept, Channel.cleared]
  other := by simp [accept]
  aligned := by simp
  read := by simp [accept]; rfl
  address := by simp
  burstcountOut := by simp
  unfinished := fun pos _ => pos

theorem busy_start_step {r : Dma} {k : Kind} {base len : BitVec 32} {ws : List FixedPoint}
    (h : r.Busy k .start base len ws) (i : In) : (r.am i).Busy k .wait base len ws := by
  rw [am_start i h.state]
  exact {
    state := rfl
    burstcount := by simp [burstStart, h.burstcount]
    length := by simp [burstStart, h.length]
    wordCnt := by simp [burstStart, h.wordCnt]
    burstCnt := by simp [burstStart, h.burstCnt]
    cnt := by simp [burstStart, h.cnt]
    addr := by simp [burstStart, h.addr]
    data := by simp [burstStart, h.data]
    write := by simp [burstStart]
    start := by simp [burstStart, h.start]
    other := by simp [burstStart, h.other]
    aligned := fun _ => h.aligned (by simp)
    read := by simp [burstStart]
    address := by simp [burstStart]
    burstcountOut := by
      intro _
      simp only [burstStart, h.burstcount]
      cases k <;> rfl
    unfinished := h.unfinished }

theorem busy_wait_stall {r : Dma} {k : Kind} {base len : BitVec 32} {ws : List FixedPoint}
    (h : r.Busy k .wait base len ws) {i : In} (stall : i.waitrequest = true) : r.am i = r := by
  rw [am_wait i h.state]
  simp [burstWait, stall, ← h.state]

theorem busy_wait_step {r : Dma} {k : Kind} {base len : BitVec 32} {ws : List FixedPoint}
    (h : r.Busy k .wait base len ws) {i : In} (go : i.waitrequest = false) :
    (r.am i).Busy k .read base len ws := by
  rw [am_wait i h.state]
  simp only [burstWait, go, Bool.false_eq_true, ↓reduceIte]
  exact {
    state := rfl
    burstcount := h.burstcount
    length := by simp [h.length]
    wordCnt := h.wordCnt
    burstCnt := by simp [h.burstCnt]
    cnt := by simp [h.cnt]
    addr := by simp [h.addr]
    data := by simp [h.data]
    write := by simp [h.write]
    start := by simp [h.start]
    other := by simp [h.other]
    aligned := by simp
    read := by simp
    address := by simp
    burstcountOut := by simp
    unfinished := h.unfinished }

theorem busy_read_gap {r : Dma} {k : Kind} {base len : BitVec 32} {ws : List FixedPoint}
    (h : r.Busy k .read base len ws) {i : In} (gap : i.readdatavalid = false) : r.am i = r := by
  rw [am_read i h.state]
  simp [burstRead, gap, ← h.state]

theorem busy_burstcount {r : Dma} {k : Kind} {p : Phase} {base len : BitVec 32}
    {ws : List FixedPoint} (h : r.Busy k p base len ws) : r.burstcount.toNat = k.burstSize := by
  rw [h.burstcount]
  cases k <;> rfl

theorem busy_burstCnt {r : Dma} {k : Kind} {p : Phase} {base len : BitVec 32}
    {ws : List FixedPoint} (h : r.Busy k p base len ws) :
    (r.chan k).burstCnt.toNat = ws.length % k.burstSize := by
  have inside := Nat.mod_lt ws.length k.burstSize_pos
  have small := k.burstSize_le
  rw [h.burstCnt, BitVec.toNat_ofNat, Nat.mod_eq_of_lt (by omega)]

theorem busy_data_snoc {r : Dma} {k : Kind} {base len : BitVec 32} {ws : List FixedPoint}
    (h : r.Busy k .read base len ws) (w : FixedPoint) :
    (r.chan k).data.setIfInBounds (r.chan k).burstCnt.toNat w =
      window k.burstSize (ws ++ [w]) := by
  rw [h.data, busy_burstCnt h]
  unfold window
  rw [RingFill.fill_snoc]

theorem burstcount_ne_zero {r : Dma} {k : Kind} {p : Phase} {base len : BitVec 32}
    {ws : List FixedPoint} (h : r.Busy k p base len ws) : r.burstcount ≠ 0 := by
  rw [h.burstcount]
  cases k <;> decide

theorem cnt_succ (m : ℕ) : BitVec.ofNat 4 (m + 15) + 1 = BitVec.ofNat 4 m := by
  rw [BitVec.toNat_eq]
  simp only [BitVec.toNat_add, BitVec.toNat_ofNat, show BitVec.toNat (1 : BitVec 4) = 1 from rfl]
  omega

theorem cnt_wrap (m : ℕ) : BitVec.ofNat 4 (m + 1 + 15) = BitVec.ofNat 4 m := by
  rw [BitVec.toNat_eq, BitVec.toNat_ofNat, BitVec.toNat_ofNat]
  omega

theorem busy_read_last {r : Dma} {k : Kind} {base len : BitVec 32} {ws : List FixedPoint}
    (h : r.Busy k .read base len ws) {i : In} (valid : i.readdatavalid = true)
    (last : Finishes len (ws.length + 1)) : (r.am i).Done k len (ws ++ [i.readdata]) := by
  have ends : r.wordCnt.setWidth 32 = (r.chan k).length - 1 ∨ r.burstcount = 0 := by
    rw [h.wordCnt, h.length]
    exact Or.inl ((last_word_iff h.unfinished).mpr last)
  rw [am_read i h.state]
  simp only [burstRead, valid, ↓reduceIte, if_pos ends]
  exact {
    state := rfl
    cnt := by
      simp only [chan_mk, chan_setChan, h.cnt, List.length_append, List.length_singleton,
        Nat.add_sub_cancel, cnt_succ]
    data := by simpa using busy_data_snoc h i.readdata
    write := by simp
    start := by simp
    other := by simpa using h.other
    read := by simpa using h.read
    length := by simpa using last }

theorem busy_read_burst {r : Dma} {k : Kind} {base len : BitVec 32} {ws : List FixedPoint}
    (h : r.Busy k .read base len ws) {i : In} (valid : i.readdatavalid = true)
    (more : ¬ Finishes len (ws.length + 1)) (full : (ws.length + 1) % k.burstSize = 0) :
    (r.am i).Busy k .start base len (ws ++ [i.readdata]) := by
  have goes : ¬ (r.wordCnt.setWidth 32 = (r.chan k).length - 1 ∨ r.burstcount = 0) := by
    rw [h.wordCnt, h.length, last_word_iff h.unfinished]
    exact not_or.mpr ⟨more, burstcount_ne_zero h⟩
  have ends : (r.chan k).burstCnt = (r.burstcount.setWidth 7 - 1).setWidth 9 := by
    rw [h.burstCnt, h.burstcount]
    exact (last_of_burst_iff k _).mpr full
  rw [am_read i h.state]
  simp only [burstRead, valid, ↓reduceIte, if_neg goes, if_pos ends]
  have next := div_full full
  exact {
    state := rfl
    burstcount := by simp [h.burstcount]
    length := by simp [h.length]
    wordCnt := by simp [h.wordCnt, BitVec.ofNat_add]
    burstCnt := by simp [full]
    cnt := by
      simp only [chan_mk, chan_setChan, h.cnt, List.length_append, List.length_singleton, next,
        cnt_succ, cnt_wrap]
    addr := by
      simp only [chan_mk, chan_setChan, h.addr, h.burstcount, List.length_append,
        List.length_singleton, next, Nat.mul_succ, BitVec.ofNat_add, BitVec.add_assoc]
      cases k <;> rfl
    data := by simpa using busy_data_snoc h i.readdata
    write := by simp
    start := by simp [h.start]
    other := by simp [h.other]
    aligned := by simp [full]
    read := by simpa using h.read
    address := by simp
    burstcountOut := by simp
    unfinished := by
      intro pos fits
      have := h.unfinished pos fits
      simp only [Finishes, List.length_append, List.length_singleton] at more ⊢
      omega }

theorem busy_read_word {r : Dma} {k : Kind} {base len : BitVec 32} {ws : List FixedPoint}
    (h : r.Busy k .read base len ws) {i : In} (valid : i.readdatavalid = true)
    (more : ¬ Finishes len (ws.length + 1)) (inside : (ws.length + 1) % k.burstSize ≠ 0) :
    (r.am i).Busy k .read base len (ws ++ [i.readdata]) := by
  have goes : ¬ (r.wordCnt.setWidth 32 = (r.chan k).length - 1 ∨ r.burstcount = 0) := by
    rw [h.wordCnt, h.length, last_word_iff h.unfinished]
    exact not_or.mpr ⟨more, burstcount_ne_zero h⟩
  have stays : ¬ (r.chan k).burstCnt = (r.burstcount.setWidth 7 - 1).setWidth 9 := by
    rw [h.burstCnt, h.burstcount, last_of_burst_iff k]
    exact inside
  rw [am_read i h.state]
  simp only [burstRead, valid, ↓reduceIte, if_neg goes, if_neg stays]
  have same := div_inside inside
  have rest : (ws.length + 1) % k.burstSize = ws.length % k.burstSize + 1 := by
    have here := Nat.div_add_mod ws.length k.burstSize
    have there := Nat.div_add_mod (ws.length + 1) k.burstSize
    rw [same] at there
    omega
  exact {
    state := by simpa using h.state
    burstcount := by simp [h.burstcount]
    length := by simp [h.length]
    wordCnt := by simp [h.wordCnt, BitVec.ofNat_add]
    burstCnt := by simp [h.burstCnt, rest, BitVec.ofNat_add]
    cnt := by simp [h.cnt, same]
    addr := by simp [h.addr, same]
    data := by simpa using busy_data_snoc h i.readdata
    write := by simp [h.write]
    start := by simp [h.start]
    other := by simp [h.other]
    aligned := by simp
    read := by simpa using h.read
    address := by simp
    burstcountOut := by simp
    unfinished := by
      intro pos fits
      have := h.unfinished pos fits
      simp only [Finishes, List.length_append, List.length_singleton] at more ⊢
      omega }

def stores (r : Dma) (i : In) : Bool :=
  match r.state with
  | .burst _ .read => i.readdatavalid
  | _ => false

def store (ws : List FixedPoint) (r : Dma) (i : In) : List FixedPoint :=
  if r.stores i then ws ++ [i.readdata] else ws

theorem store_word {r : Dma} {k : Kind} {i : In} (reading : r.state = .burst k .read)
    (valid : i.readdatavalid = true) (ws : List FixedPoint) :
    store ws r i = ws ++ [i.readdata] := by
  simp [store, stores, reading, valid]

def nextPhase (k : Kind) (p : Phase) (n : ℕ) (i : In) : Phase :=
  match p with
  | .start => .wait
  | .wait => if i.waitrequest then .wait else .read
  | .read => if i.readdatavalid ∧ (n + 1) % k.burstSize = 0 then .start else .read

/-- All a cycle of a transfer can do. -/
theorem busy_step {r : Dma} {k : Kind} {p : Phase} {base len : BitVec 32} {ws : List FixedPoint}
    (h : r.Busy k p base len ws) (i : In) :
    ((r.am i).Busy k (nextPhase k p ws.length i) base len (store ws r i) ∧
        ¬ (p = .read ∧ i.readdatavalid ∧ Finishes len (ws.length + 1))) ∨
      ((r.am i).Done k len (store ws r i) ∧ p = .read ∧ i.readdatavalid ∧
        Finishes len (ws.length + 1)) := by
  cases p with
  | start =>
    refine Or.inl ⟨?_, by simp⟩
    simpa [store, stores, h.state, nextPhase] using busy_start_step h i
  | wait =>
    refine Or.inl ⟨?_, by simp⟩
    cases go : i.waitrequest with
    | false => simpa [store, stores, h.state, nextPhase, go] using busy_wait_step h go
    | true => simpa [store, stores, h.state, nextPhase, go, busy_wait_stall h go] using h
  | read =>
    cases valid : i.readdatavalid with
    | false =>
      refine Or.inl ⟨?_, by simp⟩
      simpa [store, stores, h.state, nextPhase, valid, busy_read_gap h valid] using h
    | true =>
      rw [store_word h.state valid]
      by_cases last : Finishes len (ws.length + 1)
      · exact Or.inr ⟨busy_read_last h valid last, rfl, rfl, last⟩
      · refine Or.inl ⟨?_, by simp [last]⟩
        by_cases full : (ws.length + 1) % k.burstSize = 0
        · simpa [nextPhase, valid, full] using busy_read_burst h valid last full
        · simpa [nextPhase, valid, full] using busy_read_word h valid last full

theorem busy_pulse {r : Dma} {k : Kind} {p : Phase} {base len : BitVec 32}
    {ws : List FixedPoint} (h : r.Busy k p base len ws) {k' : Kind}
    (up : (r.chan k').write = true) : k' = k ∧ p = .start ∧ ws ≠ [] := by
  rcases k.eq_or_other k' with rfl | rfl
  · simpa [h.write] using up
  · simp [h.other, Channel.cleared] at up

/-- The start IDLE acts on: an image start goes first. -/
def In.starts (i : In) : Option Kind :=
  if i.startImage then some .image else if i.startWeight then some .weight else none

theorem idle_step {r : Dma} (h : r.state = .idle) (i : In) :
    (i.starts = none ∧ r.am i = reset) ∨
      ∃ k, i.starts = some k ∧ (r.am i).Busy k .start (i.addr k) (i.length k) [] := by
  rw [am_idle i h]
  unfold idle In.starts
  split
  · exact Or.inr ⟨.image, rfl, accept_busy .image i⟩
  · split
    · exact Or.inr ⟨.weight, rfl, accept_busy .weight i⟩
    · exact Or.inl ⟨rfl, rfl⟩

theorem started_busy {r : Dma} {k : Kind} {i : In} (idle : r.state = .idle)
    (started : i.starts = some k) : (r.am i).Busy k .start (i.addr k) (i.length k) [] := by
  rcases idle_step idle i with ⟨none, _⟩ | ⟨k', some, busy⟩
  · simp [started] at none
  · obtain rfl : k = k' := by simpa [started] using some
    exact busy

theorem unstarted_rest {r : Dma} {i : In} (idle : r.state = .idle) (none : i.starts = none) :
    r.am i = reset := by
  rcases idle_step idle i with ⟨_, rest⟩ | ⟨k, some, _⟩
  · exact rest
  · simp [none] at some

/-- The dma next to the words stored so far: at rest, in the cycle after a transfer, or inside
    one, with every latched length in `L`. -/
inductive Logged (L : Kind → BitVec 32 → Prop) : Dma → List FixedPoint → Prop where
  | rest : Logged L reset []
  | done {r : Dma} {k : Kind} {len : BitVec 32} {ws : List FixedPoint}
      (h : r.Done k len ws) (latched : L k len) : Logged L r []
  | busy {r : Dma} {k : Kind} {p : Phase} {base len : BitVec 32} {ws : List FixedPoint}
      (h : r.Busy k p base len ws) (latched : L k len) : Logged L r ws

def Latched (L : Kind → BitVec 32 → Prop) (r : Dma) : Prop := ∃ ws, Logged L r ws

theorem latched_rest (L : Kind → BitVec 32 → Prop) : Latched L reset := ⟨[], .rest⟩

theorem latched_idle {L : Kind → BitVec 32 → Prop} {r : Dma} {i : In} (idle : r.state = .idle)
    (allowed : ∀ k, i.starts = some k → L k (i.length k)) : Latched L (r.am i) := by
  rcases idle_step idle i with ⟨_, rest⟩ | ⟨k, some, busy⟩
  · rw [rest]
    exact latched_rest L
  · exact ⟨[], .busy busy (allowed k some)⟩

theorem latched_step {L : Kind → BitVec 32 → Prop} {r : Dma} {i : In} (h : Latched L r)
    (allowed : ∀ k, r.state = .idle → i.starts = some k → L k (i.length k)) :
    Latched L (r.am i) := by
  obtain ⟨ws, h⟩ := h
  cases h with
  | rest => exact latched_idle rfl fun k => allowed k rfl
  | done h => exact latched_idle h.state fun k => allowed k h.state
  | busy h latched =>
    rcases busy_step h i with ⟨next, _⟩ | ⟨last, _⟩
    · exact ⟨_, .busy next latched⟩
    · exact ⟨[], .done last latched⟩

def Reached : Dma → Prop := Latched fun _ _ => True

theorem reached_step {r : Dma} (h : Reached r) (i : In) : Reached (r.am i) :=
  latched_step h fun _ _ _ => trivial

end Dma
end CnnAccelerator
