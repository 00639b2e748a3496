import CnnAccelerator.Argmax
import CnnAccelerator.Scores
import CnnAccelerator.Serving
import CnnAccelerator.StartCommands

/- pred_image of main.c, in parallel with the accelerator. The driver waits for a fixed time
   after each start; nothing tells it when a transfer is over. -/
namespace CnnAccelerator
open Clocked Dma

/-- IMG_LEN and WEIGHT_LEN, as slave addresses. -/
def Kind.lengthAddress : Kind → BitVec 3
  | .image => 3
  | .weight => 5

/-- IMG_ADDR and WEIGHT_ADDR. -/
def Kind.addrAddress : Kind → BitVec 3
  | .image => 2
  | .weight => 4

/-- The processor: idle bus cycles before each access of a half, and the cycles of one
    round of the empty loop. -/
structure Timing where
  gap : Kind → ℕ → ℕ
  round : ℕ

namespace Accelerator

def waits (n : ℕ) : List RegisterMap.In := List.replicate n idleBus

def setUp (t : Timing) (k : Kind) (base : BitVec 32) : List RegisterMap.In :=
  waits (t.gap k 0) ++ [writeBus k.lengthAddress (BitVec.ofNat 32 k.wholeLength)] ++
    waits (t.gap k 1) ++ [writeBus k.addrAddress base] ++
    waits (t.gap k 2) ++ [writeBus k.startAddress 1]

/-- for(int i=0; i<waitTime; i++); and the start bit written back to 0. -/
def spin (t : Timing) (k : Kind) (waitTime : BitVec 8) : List RegisterMap.In :=
  waits (t.gap k 3 + waitTime.toNat * t.round) ++ [writeBus k.startAddress 0]

/- pred_image, cut after the two start writes. -/

def placeImage (t : Timing) (image : BitVec 32) : List RegisterMap.In := setUp t .image image

def placeWeights (t : Timing) (waitTime : BitVec 8) (weights : BitVec 32) : List RegisterMap.In :=
  spin t .image waitTime ++ setUp t .weight weights

def readResult (t : Timing) (waitTime : BitVec 8) : List RegisterMap.In :=
  spin t .weight waitTime ++ waits (t.gap .weight 4) ++ [readBus 0]

def predImage (t : Timing) (image weights : BitVec 32) (waitTime : BitVec 8) :
    List RegisterMap.In :=
  placeImage t image ++ placeWeights t waitTime weights ++ readResult t waitTime

/-- The cycles of one call: `i` and `j` are the cycles in which the pulse of a start is up,
    `r` is the one that reads PREDICTION. -/
structure Call (t : Timing) (waitTime : BitVec 8) (image weights : BitVec 32)
    (place : List In) (i : In) (load : List In) (j : In) (last : List In) (r : In) : Prop where
  place : place.map In.as = placeImage t image
  load : (i :: load).map In.as = placeWeights t waitTime weights
  last : (j :: last ++ [r]).map In.as = readResult t waitTime

theorem pred_image_iff {t : Timing} {waitTime : BitVec 8} {image weights : BitVec 32}
    {ins : List In} : ins.map In.as = predImage t image weights waitTime ↔
      ∃ place i load j last r, ins = place ++ i :: load ++ j :: last ++ [r] ∧
        Call t waitTime image weights place i load j last r := by
  constructor
  · intro accesses
    unfold predImage readResult spin at accesses
    obtain ⟨front, back, rfl, accesses, result⟩ := List.map_eq_append_iff.mp accesses
    obtain ⟨place, middle, rfl, image, weights⟩ := List.map_eq_append_iff.mp accesses
    obtain ⟨last, reads, rfl, spins, read⟩ := List.map_eq_append_iff.mp result
    obtain ⟨r, rfl, _⟩ := List.map_eq_singleton_iff.mp read
    cases middle with
    | nil => simp [placeWeights, spin] at weights
    | cons i load =>
      cases last with
      | nil => simp at spins
      | cons j last => exact ⟨place, i, load, j, last, r, by simp, image, weights, result⟩
  · rintro ⟨place, i, load, j, last, r, rfl, call⟩
    rw [List.append_assoc, List.map_append, List.map_append, call.place, call.load, call.last]
    rfl

def lengthReg (s : Accelerator) : Kind → BitVec 32
  | .image => s.registerInst.imageLengthReg
  | .weight => s.registerInst.weightLengthReg

def written (a : BitVec 3) (d : BitVec 32) (bus : List RegisterMap.In) : BitVec 32 :=
  bus.foldl (fun d b => if b.write ∧ b.address = a then b.writedata else d) d

theorem lengthReg_step (s : Accelerator) (i : In) (k : Kind) :
    (s.step i).lengthReg k =
      if i.as.write ∧ i.as.address = k.lengthAddress then i.as.writedata else s.lengthReg k := by
  cases k <;>
    simp only [lengthReg, step, clock, RegisterMap.step, RegisterMap.slaveWrite,
      Kind.lengthAddress] <;>
    split <;> (try split) <;> simp_all

theorem lengthReg_run (s : Accelerator) (ins : List In) (k : Kind) :
    (run step s ins).lengthReg k = written k.lengthAddress (s.lengthReg k) (ins.map In.as) := by
  induction ins generalizing s with
  | nil => rfl
  | cons i ins ih =>
    rw [run_cons, ih, lengthReg_step]
    rfl

theorem written_append (a : BitVec 3) (d : BitVec 32) (xs ys : List RegisterMap.In) :
    written a d (xs ++ ys) = written a (written a d xs) ys := by
  simp [written]

theorem written_waits (a : BitVec 3) (d : BitVec 32) (n : ℕ) : written a d (waits n) = d := by
  induction n with
  | zero => rfl
  | succ n ih => simpa [waits, written, List.replicate_succ, idleBus] using ih

theorem written_write (a b : BitVec 3) (d e : BitVec 32) :
    written a d [writeBus b e] = if b = a then e else d := by
  simp [written, writeBus]

theorem written_setUp (t : Timing) (k : Kind) (base d : BitVec 32) :
    written k.lengthAddress d (setUp t k base) = BitVec.ofNat 32 k.wholeLength := by
  simp only [setUp, written_append, written_waits, written_write]
  cases k <;> rfl

def Quiet (s : Accelerator) (ins : List In) : Prop :=
  ∀ c ∈ trace step s ins, ∀ k, c.1.startReg k = false

def Calm (bus : List RegisterMap.In) : Prop := ∀ b ∈ bus, ∀ m k, startWrite k ⟨b, m⟩ = false

theorem calm_append {xs ys : List RegisterMap.In} : Calm (xs ++ ys) ↔ Calm xs ∧ Calm ys :=
  List.forall_mem_append

theorem calm_waits (n : ℕ) : Calm (waits n) := by
  intro b member m k
  rw [List.eq_of_mem_replicate member]
  rfl

theorem calm_write {a : BitVec 3} {d : BitVec 32}
    (low : ∀ k : Kind, a = k.startAddress → d.getLsbD 0 = false) : Calm [writeBus a d] := by
  intro b member m k
  obtain rfl := List.mem_singleton.mp member
  by_cases start : a = k.startAddress
  · simp only [startWrite, writeBus, low k start, Bool.and_false]
  · simp [startWrite, writeBus, start]

theorem calm_setUp (t : Timing) (k : Kind) (base : BitVec 32) : Calm (setUp t k base).dropLast := by
  unfold setUp
  rw [List.dropLast_concat]
  simp only [calm_append]
  refine ⟨⟨⟨⟨calm_waits _, calm_write ?_⟩, calm_waits _⟩, calm_write ?_⟩, calm_waits _⟩
  · intro k' start
    cases k <;> cases k' <;> simp [Kind.lengthAddress, Kind.startAddress] at start
  · intro k' start
    cases k <;> cases k' <;> simp [Kind.addrAddress, Kind.startAddress] at start

theorem calm_spin (t : Timing) (k : Kind) (waitTime : BitVec 8) : Calm (spin t k waitTime) :=
  calm_append.mpr ⟨calm_waits _, calm_write fun _ _ => rfl⟩

theorem quiet_cons {s : Accelerator} {i : In} {ins : List In} :
    Quiet s (i :: ins) ↔ (∀ k, s.startReg k = false) ∧ Quiet (s.step i) ins := by
  simp only [Quiet, trace_cons]
  exact List.forall_mem_cons

theorem calm_cons {i : In} {ins : List In} (more : ins ≠ [])
    (calm : Calm ((i :: ins).map In.as).dropLast) (s : Accelerator) :
    (∀ k, (s.step i).startReg k = false) ∧ Calm (ins.map In.as).dropLast := by
  rw [List.map_cons, List.dropLast_cons_of_ne_nil (by simpa using more)] at calm
  obtain ⟨first, later⟩ := List.forall_mem_cons.mp calm
  refine ⟨fun k => ?_, later⟩
  rw [startReg_step]
  exact first i.am k

theorem quiet_of_calm {s : Accelerator} {ins : List In} (low : ∀ k, s.startReg k = false)
    (calm : Calm (ins.map In.as).dropLast) : Quiet s ins := by
  induction ins generalizing s with
  | nil => simp [Quiet]
  | cons i ins ih =>
    refine quiet_cons.mpr ⟨low, ?_⟩
    by_cases more : ins = []
    · subst more
      simp [Quiet]
    · obtain ⟨next, later⟩ := calm_cons more calm s
      exact ih next later

theorem quiet_next {s : Accelerator} {i : In} {ins : List In}
    (calm : Calm ((i :: ins).map In.as).dropLast) (more : ins ≠ []) : Quiet (s.step i) ins := by
  obtain ⟨low, later⟩ := calm_cons more calm s
  exact quiet_of_calm low later

theorem quiet_append {s : Accelerator} {xs ys : List In} :
    Quiet s (xs ++ ys) ↔ Quiet s xs ∧ Quiet (run step s xs) ys := by
  simp only [Quiet, trace_append]
  exact List.forall_mem_append

theorem quiet_starts {s : Accelerator} (low : ∀ k, s.startReg k = false) (m : MasterIn) :
    (s.dmaIn m).starts = none := by
  have image : s.registerInst.startImageReg = false := low .image
  have weight : s.registerInst.startWeightReg = false := low .weight
  simp [Dma.In.starts, dmaIn, image, weight]

theorem logged_watch (g : Log) (s : Accelerator) (ins : List In) : logged.watch step g s ins =
    log.watch am g s.dmaInst (s.dmaInputs ins) :=
  watch_component (fun _ _ => rfl) log g s ins

theorem inputs_master (s : Accelerator) (ins : List In) :
    (s.dmaInputs ins).map Dma.In.master = ins.map In.am := by
  induction ins generalizing s with
  | nil => rfl
  | cons i ins ih => exact congrArg (i.am :: ·) (ih (s.step i))

section Served
variable {s : Accelerator} {g : Log} {k : Kind} {p : Phase} {base len : BitVec 32}
  (h : s.dmaInst.Busy k p base len g.words) (fits : 0 < len.toNat ∧ len.toNat ≤ 2 ^ 17)
  {ins : List In}
include h fits

theorem unserved (short : takes k len.toNat p g.words.length (ins.map In.am) = none) :
    (run step s ins).dmaInst.state ≠ .idle := by
  rw [← inputs_master s ins] at short
  obtain ⟨p', busy, _⟩ := takes_none h fits short
  rw [dma_run, busy.state]
  simp

theorem served {us : List FixedPoint} {rest : List MasterIn}
    (enough : takes k len.toNat p g.words.length (ins.map In.am) = some (us, rest)) :
    ∃ pre post, ins = pre ++ post ∧ post.map In.am = rest ∧
      (run step s pre).dmaInst.Done k len (g.words ++ us) ∧
      logged.watch step g s pre = ⟨[], g.done ++ [⟨k, g.words ++ us⟩]⟩ := by
  rw [← inputs_master s ins] at enough
  obtain ⟨xs, ys, split, cycles, done, watched⟩ := takes_some h fits enough
  obtain ⟨pre, post, rfl, rfl, rfl⟩ := inputs_split split
  refine ⟨pre, post, rfl, (inputs_master _ post).symm.trans cycles, ?_, ?_⟩
  · rw [dma_run]
    exact done
  · rw [logged_watch]
    exact watched

end Served

theorem quiet_step {s : Accelerator} (idle : s.dmaInst.state = .idle)
    (low : ∀ k, s.startReg k = false) (i : In) : (s.step i).dmaInst = Dma.reset :=
  unstarted_rest idle (quiet_starts low i.am)

theorem quiet_rest {s : Accelerator} {ins : List In} (rest : s.dmaInst = Dma.reset)
    (quiet : Quiet s ins) : (run step s ins).dmaInst = Dma.reset := by
  induction ins generalizing s with
  | nil => exact rest
  | cons i ins ih =>
    obtain ⟨low, later⟩ := quiet_cons.mp quiet
    exact ih (quiet_step (by rw [rest]; rfl) low i) later

theorem quiet_idle {s : Accelerator} {ins : List In} (idle : s.dmaInst.state = .idle)
    (quiet : Quiet s ins) (ts : List Transfer) :
    (run step s ins).dmaInst.state = .idle ∧ logged.watch step ⟨[], ts⟩ s ins = ⟨[], ts⟩ := by
  induction ins generalizing s with
  | nil => exact ⟨idle, rfl⟩
  | cons i ins ih =>
    obtain ⟨low, later⟩ := quiet_cons.mp quiet
    have rest := quiet_step idle low i
    obtain ⟨state, watched⟩ := ih (by rw [rest]; rfl) later
    have next : logged.next ⟨[], ts⟩ s i = ⟨[], ts⟩ := log_idle idle _ _
    exact ⟨state, by rw [Monitor.watch_cons, next, watched]⟩

theorem quiet_drained {s : Accelerator} (idle : s.dmaInst.state = .idle)
    (starts : ∀ k, (s.dmaInst.chan k).start = false) (low : ∀ k, s.startReg k = false) (i : In) :
    Drained (s.step i) := by
  have next := quiet_step idle low i
  refine ⟨congrArg Dma.state next, fun k => ⟨?_, ?_, ?_⟩⟩
  · rw [next, chan_reset]
    rfl
  · rw [next, chan_reset]
    rfl
  · cases k with
    | weight => exact starts .weight
    | image =>
      have start : s.dmaInst.image.start = false := starts .image
      simp [passed, step, clock, ConvBlock.regs, start]

theorem done_drained {s : Accelerator} {k : Kind} {len : BitVec 32} {us : List FixedPoint}
    (done : s.dmaInst.Done k len us) {ins : List In} (quiet : Quiet s ins)
    (long : 2 ≤ ins.length) : Drained (run step s ins) := by
  rcases List.eq_nil_or_concat ins with rfl | ⟨more, j, rfl⟩
  · simp at long
  · cases more with
    | nil => simp at long
    | cons i more =>
      rw [List.concat_eq_append] at quiet ⊢
      obtain ⟨before, last⟩ := quiet_append.mp quiet
      obtain ⟨low, later⟩ := quiet_cons.mp before
      have still := quiet_rest (quiet_step done.state low i) later
      rw [run_append]
      apply quiet_drained (s := run step (s.step i) more) (congrArg Dma.state still)
      · intro k
        rw [still, chan_reset]
        rfl
      · exact (quiet_cons.mp last).1

theorem sampled_iff {s : Accelerator} {len : BitVec 32} {us : List FixedPoint}
    (done : s.dmaInst.Done .weight len us) {ins : List In} (quiet : Quiet s ins) :
    Sampled (run step s ins) ↔ 2 ≤ ins.length := by
  have up : s.dmaInst.weight.start = true := done.start
  constructor
  · intro sampled
    by_contra short
    match ins with
    | [] => simp [Sampled, up] at sampled
    | [i] =>
      have passed : (s.step i).passed .weight = true := up
      simp [Sampled, passed] at sampled
    | _ :: _ :: _ => simp at short
  · intro long
    exact (done_drained done quiet long).sampled

theorem startReg_last {s : Accelerator} {ins : List In} {bus : List RegisterMap.In} {a : BitVec 3}
    {d : BitVec 32} (eq : ins.map In.as = bus ++ [writeBus a d]) (k : Kind) :
    (run step s ins).startReg k = (a == k.startAddress && d.getLsbD 0) := by
  obtain ⟨xs, ys, rfl, _, last⟩ := List.map_eq_append_iff.mp eq
  obtain ⟨c, rfl, access⟩ := List.map_eq_singleton_iff.mp last
  rw [run_snoc, startReg_step]
  simp [startWrite, access, writeBus]

theorem dmaIn_length (s : Accelerator) (m : MasterIn) (k : Kind) :
    (s.dmaIn m).length k = s.lengthReg k := by
  cases k <;> rfl

theorem setUp_pulse {s : Accelerator} {ins : List In} {front : List RegisterMap.In} {t : Timing}
    {k : Kind} {base : BitVec 32} (eq : ins.map In.as = front ++ setUp t k base) (m : MasterIn) :
    ((run step s ins).dmaIn m).starts = some k ∧
      (((run step s ins).dmaIn m).length k).toNat = k.wholeLength := by
  have pulse (k' : Kind) := startReg_last (s := s) (k := k')
    (eq.trans (List.append_assoc _ _ _).symm)
  constructor
  · have image := pulse .image
    have weight := pulse .weight
    simp only [startReg] at image weight
    simp only [Dma.In.starts, dmaIn, image, weight]
    cases k <;> rfl
  · rw [dmaIn_length, lengthReg_run, eq, written_append, written_setUp]
    cases k <;> rfl

/-- The memory serves a whole transfer of kind `k` in the cycles after its pulse, with
    `spare` cycles left over. -/
def servedWithin (k : Kind) (spare : ℕ) (cycles : List In) : Bool :=
  (takes k k.wholeLength .start 0 (cycles.map In.am)).any fun t => spare ≤ t.2.length

section Half
variable {s : Accelerator} {k : Kind} {i : In} {ins : List In}
  (idle : s.dmaInst.state = .idle) (pulse : (s.dmaIn i.am).starts = some k)
  (length : ((s.dmaIn i.am).length k).toNat = k.wholeLength) (quiet : Quiet (s.step i) ins)
include idle pulse length

theorem half_busy : (s.step i).dmaInst.Busy k .start ((s.dmaIn i.am).addr k)
    ((s.dmaIn i.am).length k) [] ∧
    0 < ((s.dmaIn i.am).length k).toNat ∧ ((s.dmaIn i.am).length k).toNat ≤ 2 ^ 17 := by
  refine ⟨started_busy idle pulse, ?_⟩
  rw [length]
  cases k <;> decide

include quiet

/-- One half of a call: the transfer is over when the memory has served it. -/
theorem half_cases (g : Log) :
    (takes k k.wholeLength .start 0 (ins.map In.am) = none ∧
      (run step s (i :: ins)).dmaInst.state ≠ .idle) ∨
    ∃ pre post ws len, ins = pre ++ post ∧ ws.length = k.wholeLength ∧
      takes k k.wholeLength .start 0 (ins.map In.am) = some (ws, post.map In.am) ∧
      (run step (s.step i) pre).dmaInst.Done k len ws ∧ Quiet (run step (s.step i) pre) post ∧
      (run step s (i :: ins)).dmaInst.state = .idle ∧
      logged.watch step g s (i :: ins) = ⟨[], g.done ++ [⟨k, ws⟩]⟩ := by
  obtain ⟨busy, fits⟩ := half_busy idle pulse length
  have first : logged.next g s i = ⟨[], g.done⟩ := log_idle idle g _
  rw [← length, Monitor.watch_cons, first, run_cons]
  cases enough : takes k ((s.dmaIn i.am).length k).toNat .start 0 (ins.map In.am) with
  | none => exact Or.inl ⟨rfl, unserved (g := ⟨[], g.done⟩) busy fits enough⟩
  | some t =>
    obtain ⟨ws, rest⟩ := t
    obtain ⟨pre, post, rfl, rfl, done, watched⟩ := served (g := ⟨[], g.done⟩) busy fits enough
    have calm := (quiet_append.mp quiet).2
    obtain ⟨still, log⟩ := quiet_idle done.state calm (g.done ++ [⟨k, ws⟩])
    refine Or.inr ⟨pre, post, ws, _, rfl, done.length.1.symm, rfl, done, calm, ?_, ?_⟩
    · rw [run_append]
      exact still
    · rw [Monitor.watch_append, watched]
      exact log

theorem half_idle_iff : (run step s (i :: ins)).dmaInst.state = .idle ↔
    servedWithin k 0 ins = true := by
  rcases half_cases idle pulse length quiet .empty with
    ⟨none, busy⟩ | ⟨pre, post, ws, len, _, _, some, _, _, ended, _⟩
  · unfold servedWithin
    rw [none]
    exact iff_of_false busy (by simp)
  · unfold servedWithin
    rw [some]
    exact iff_of_true ended (by simp)

theorem half_log (g : Log) {ws : List FixedPoint} {rest : List MasterIn}
    (enough : takes k k.wholeLength .start 0 (ins.map In.am) = some (ws, rest)) :
    ws.length = k.wholeLength ∧
      logged.watch step g s (i :: ins) = ⟨[], g.done ++ [⟨k, ws⟩]⟩ := by
  rcases half_cases idle pulse length quiet g with
    ⟨none, _⟩ | ⟨pre, post, us, len, _, size, some, _, _, _, log⟩
  · rw [none] at enough
    contradiction
  · obtain ⟨rfl, _⟩ : us = ws ∧ _ := by simpa [some] using enough
    exact ⟨size, log⟩

end Half

theorem servedWithin_iff {k : Kind} {spare : ℕ} {ins : List In} :
    servedWithin k spare ins = true ↔ ∃ ws rest,
      takes k k.wholeLength .start 0 (ins.map In.am) = some (ws, rest) ∧ spare ≤ rest.length := by
  unfold servedWithin
  cases takes k k.wholeLength .start 0 (ins.map In.am) with
  | none => simp
  | some t => simp [Prod.ext_iff]

theorem half_drained {s : Accelerator} {k : Kind} {i : In} {ins : List In}
    (idle : s.dmaInst.state = .idle) (pulse : (s.dmaIn i.am).starts = some k)
    (length : ((s.dmaIn i.am).length k).toNat = k.wholeLength) (quiet : Quiet (s.step i) ins)
    (spare : servedWithin k 2 ins = true) : Drained (run step s (i :: ins)) := by
  obtain ⟨ws, rest, enough, long⟩ := servedWithin_iff.mp spare
  rcases half_cases idle pulse length quiet .empty with
    ⟨none, _⟩ | ⟨pre, post, us, len, rfl, _, some, done, calm, _, _⟩
  · rw [none] at enough
    contradiction
  · obtain ⟨_, rfl⟩ := Prod.mk.inj (Option.some.inj (some.symm.trans enough))
    rw [run_cons, run_append]
    exact done_drained done calm (by simpa using long)

theorem half_sampled_iff {s : Accelerator} {i : In} {ins : List In}
    (idle : s.dmaInst.state = .idle) (pulse : (s.dmaIn i.am).starts = some .weight)
    (length : ((s.dmaIn i.am).length .weight).toNat = Kind.weight.wholeLength)
    (quiet : Quiet (s.step i) ins) :
    Sampled (run step s (i :: ins)) ↔ servedWithin .weight 2 ins = true := by
  rcases half_cases idle pulse length quiet .empty with
    ⟨none, busy⟩ | ⟨pre, post, ws, len, rfl, _, some, done, calm, _, _⟩
  · unfold servedWithin
    rw [none]
    exact iff_of_false (fun sampled => busy sampled.1) (by simp)
  · unfold servedWithin
    rw [some, run_cons, run_append, sampled_iff done calm]
    simp

/-- When the driver reads PREDICTION in cycle `r`, both transfers of this call are begun and
    complete and their scores are sampled. -/
structure ReadsFinished (power : Accelerator) (pre place : List In) (i : In) (load : List In)
    (j : In) (last : List In) (r : In) : Prop where
  image : begins .image (run step power.reset (pre ++ place)) i = true
  weight : begins .weight (run step power.reset (pre ++ place ++ i :: load)) j = true
  completed : ∃ X W, X.length = 784 ∧ W.length = 48 ∧
    (history power (pre ++ place ++ i :: load ++ j :: last)).done =
      (history power (pre ++ place)).done ++ [⟨.image, X⟩, ⟨.weight, W⟩]
  sampled : Sampled (run step power.reset (pre ++ place ++ i :: load ++ j :: last))
  result :
    (run step power.reset
        (pre ++ place ++ i :: load ++ j :: last ++ [r])).registerInst.asReaddata =
      (Net.reset.after (history power (pre ++ place ++ i :: load ++ j :: last)).done).best.dataO

/-- The driver reads a finished result of this call: argmax holds the highest of its scores, and
    nothing of an earlier call or of the reset state. -/
structure ReadsOwnResult (power : Accelerator) (pre place : List In) (i : In) (load : List In)
    (j : In) (last : List In) (r : In) : Prop
    extends ReadsFinished power pre place i load j last r where
  own : ∃ X W, (history power (pre ++ place ++ i :: load ++ j :: last)).done =
      (history power (pre ++ place)).done ++ [⟨.image, X⟩, ⟨.weight, W⟩] ∧
    (run step power.reset (pre ++ place ++ i :: load ++ j :: last)).argmaxInst =
      Argmax.winner (neurons (features X) (rowsOf W)) ∧
    (run step power.reset
        (pre ++ place ++ i :: load ++ j :: last ++ [r])).registerInst.asReaddata =
      (Argmax.winner (neurons (features X) (rowsOf W))).dataO

/-- The scores of the words that the memory serves in time: the image before the pulse of the
    weights, and the weights three cycles before the read. -/
def callScores (load last : List In) : Option DataArray3bit :=
  match takes .image 784 .start 0 (load.map In.am), takes .weight 48 .start 0 (last.map In.am) with
  | some (X, _), some (W, spare) =>
    if 2 ≤ spare.length then some (neurons (features X) (rowsOf W)) else none
  | _, _ => none

theorem callScores_iff {load last : List In} {scores : DataArray3bit} :
    callScores load last = some scores ↔ ∃ X restX W spare,
      takes .image 784 .start 0 (load.map In.am) = some (X, restX) ∧
      takes .weight 48 .start 0 (last.map In.am) = some (W, spare) ∧ 2 ≤ spare.length ∧
      neurons (features X) (rowsOf W) = scores := by
  unfold callScores
  cases takes .image 784 .start 0 (load.map In.am) with
  | none => simp
  | some X =>
    cases takes .weight 48 .start 0 (last.map In.am) with
    | none => simp
    | some W => simp [Prod.ext_iff]

/-- What max_val_reg and max_idx_reg hold of the transfers completed in a run, once a sample on
    its way is taken. -/
def runningBest (power : Accelerator) (ins : List In) : Argmax :=
  (Net.reset.after (history power ins).done).best

theorem runningBest_sampled {power : Accelerator} {ins : List In}
    (sampled : Sampled (run step power.reset ins)) :
    (run step power.reset ins).argmaxInst = runningBest power ins :=
  sampled_best (coupled_history power ins) sampled

theorem begins_iff_idle {s : Accelerator} {k : Kind} {i : In}
    (pulse : (s.dmaIn i.am).starts = some k) :
    begins k s i = true ↔ s.dmaInst.state = .idle := by
  unfold begins
  rw [decide_eq_true_iff]
  exact ⟨And.left, fun idle => ⟨idle, (started_busy idle pulse).state⟩⟩

section Calls
variable {t : Timing} {waitTime : BitVec 8} {image weights : BitVec 32} {place : List In} {i : In}
  {load : List In} {j : In} {last : List In} {r : In}
  (call : Call t waitTime image weights place i load j last r)
include call

theorem call_place_quiet {s : Accelerator} (low : ∀ k, s.startReg k = false) : Quiet s place := by
  apply quiet_of_calm low
  rw [call.place]
  exact calm_setUp t .image image

theorem call_load_quiet (s : Accelerator) : Quiet (s.step i) load := by
  apply quiet_next
  · rw [call.load]
    unfold placeWeights
    rw [List.dropLast_append_of_ne_nil (by simp [setUp])]
    exact calm_append.mpr ⟨calm_spin _ _ _, calm_setUp _ _ _⟩
  · rintro rfl
    have size := congrArg List.length call.load
    simp [placeWeights, spin, setUp, waits] at size
    omega

theorem call_last_quiet (s : Accelerator) : Quiet (s.step j) (last ++ [r]) := by
  apply quiet_next _ (by simp)
  rw [← List.cons_append, call.last]
  unfold readResult
  rw [List.dropLast_concat]
  exact calm_append.mpr ⟨calm_spin _ _ _, calm_waits _⟩

theorem call_read : r.as = readBus 0 := by
  have accesses := call.last
  unfold readResult at accesses
  rw [List.map_append] at accesses
  exact (List.cons.inj (List.append_inj_right' accesses rfl)).1

variable (power : Accelerator) (pre : List In)

theorem call_image_pulse : ((run step power.reset (pre ++ place)).dmaIn i.am).starts = some .image ∧
    (((run step power.reset (pre ++ place)).dmaIn i.am).length .image).toNat = 784 := by
  rw [run_append]
  have accesses : place.map In.as = [] ++ setUp t .image image := call.place
  exact setUp_pulse accesses i.am

theorem call_weight_pulse :
    ((run step power.reset (pre ++ place ++ i :: load)).dmaIn j.am).starts = some .weight ∧
    (((run step power.reset (pre ++ place ++ i :: load)).dmaIn j.am).length
      .weight).toNat = 48 := by
  rw [run_append]
  exact setUp_pulse call.load j.am

theorem call_weight_idle (idle : (run step power.reset (pre ++ place)).dmaInst.state = .idle) :
    (run step power.reset (pre ++ place ++ i :: load)).dmaInst.state = .idle ↔
      servedWithin .image 0 load = true := by
  obtain ⟨pulse, length⟩ := call_image_pulse call power pre
  rw [run_append]
  exact half_idle_iff idle pulse length (call_load_quiet call _)

theorem call_sampled
    (idle : (run step power.reset (pre ++ place ++ i :: load)).dmaInst.state = .idle) :
    Sampled (run step power.reset (pre ++ place ++ i :: load ++ j :: last)) ↔
      servedWithin .weight 2 last = true := by
  obtain ⟨pulse, length⟩ := call_weight_pulse call power pre
  rw [run_append]
  exact half_sampled_iff idle pulse length (quiet_append.mp (call_last_quiet call _)).1

theorem call_transfers (idle : (run step power.reset (pre ++ place)).dmaInst.state = .idle)
    {X W : List FixedPoint} {spareX spareW : List MasterIn}
    (takesX : takes .image 784 .start 0 (load.map In.am) = some (X, spareX))
    (takesW : takes .weight 48 .start 0 (last.map In.am) = some (W, spareW)) :
    X.length = 784 ∧ W.length = 48 ∧
      (history power (pre ++ place ++ i :: load ++ j :: last)).done =
        (history power (pre ++ place)).done ++ [⟨.image, X⟩, ⟨.weight, W⟩] := by
  obtain ⟨image, length⟩ := call_image_pulse call power pre
  obtain ⟨weight, length'⟩ := call_weight_pulse call power pre
  have again := (call_weight_idle call power pre idle).mpr
    (servedWithin_iff.mpr ⟨X, spareX, takesX, Nat.zero_le _⟩)
  obtain ⟨sizeX, logX⟩ := half_log idle image length (call_load_quiet call _)
    (history power (pre ++ place)) takesX
  obtain ⟨sizeW, logW⟩ := half_log again weight length' (quiet_append.mp (call_last_quiet call _)).1
    (history power (pre ++ place ++ i :: load)) takesW
  refine ⟨sizeX, sizeW, ?_⟩
  rw [history_append, logW, history_append _ (pre ++ place), logX, List.append_assoc]
  rfl

theorem call_drained
    (idle : (run step power.reset (pre ++ place ++ i :: load)).dmaInst.state = .idle)
    (spare : servedWithin .weight 2 last = true) :
    Drained (run step power.reset (pre ++ place ++ i :: load ++ j :: last ++ [r])) ∧
      ∀ k, (run step power.reset (pre ++ place ++ i :: load ++ j :: last ++ [r])).startReg k =
        false := by
  obtain ⟨pulse, length⟩ := call_weight_pulse call power pre
  obtain ⟨quiet, final⟩ := quiet_append.mp (call_last_quiet call
    (run step power.reset (pre ++ place ++ i :: load)))
  have drained := half_drained idle pulse length quiet spare
  rw [← run_append] at drained
  have low := final (run step power.reset (pre ++ place ++ i :: load ++ j :: last), r)
    (by simp [run_append])
  rw [run_append]
  refine ⟨quiet_drained drained.1 (fun k => (drained.2 k).2.1) low r, fun k => ?_⟩
  rw [run_cons, run_nil, startReg_step]
  simp [startWrite, call_read call, readBus]

theorem call_result (s : Accelerator) : (s.step r).registerInst.asReaddata = s.prediction := by
  simp [step, clock, RegisterMap.step, RegisterMap.slaveRead, call_read call, readBus]

theorem reads_finished_iff : ReadsFinished power pre place i load j last r ↔
    (run step power.reset (pre ++ place)).dmaInst.state = .idle ∧
      servedWithin .image 0 load = true ∧ servedWithin .weight 2 last = true := by
  have image := begins_iff_idle (call_image_pulse call power pre).1
  have weight := begins_iff_idle (call_weight_pulse call power pre).1
  constructor
  · intro finished
    have idle := image.mp finished.image
    have again := weight.mp finished.weight
    exact ⟨idle, (call_weight_idle call power pre idle).mp again,
      (call_sampled call power pre again).mp finished.sampled⟩
  · rintro ⟨idle, served, spare⟩
    have again := (call_weight_idle call power pre idle).mpr served
    have sampled := (call_sampled call power pre again).mpr spare
    obtain ⟨X, spareX, takesX, _⟩ := servedWithin_iff.mp served
    obtain ⟨W, spareW, takesW, _⟩ := servedWithin_iff.mp spare
    refine ⟨image.mpr idle, weight.mpr again,
      ⟨X, W, call_transfers call power pre idle takesX takesW⟩, sampled, ?_⟩
    rw [run_snoc, call_result call]
    exact congrArg Argmax.dataO (sampled_best (coupled_history power _) sampled)

theorem call_argmax (idle : (run step power.reset (pre ++ place)).dmaInst.state = .idle)
    {X W : List FixedPoint} {restX spare : List MasterIn}
    (takesX : takes .image 784 .start 0 (load.map In.am) = some (X, restX))
    (takesW : takes .weight 48 .start 0 (last.map In.am) = some (W, spare))
    (long : 2 ≤ spare.length) :
    (run step power.reset (pre ++ place ++ i :: load ++ j :: last)).argmaxInst =
      (runningBest power (pre ++ place)).sample (neurons (features X) (rowsOf W)) := by
  obtain ⟨sizeX, sizeW, log⟩ := call_transfers call power pre idle takesX takesW
  have again := (call_weight_idle call power pre idle).mpr
    (servedWithin_iff.mpr ⟨X, restX, takesX, Nat.zero_le _⟩)
  have sampled := (call_sampled call power pre again).mpr
    (servedWithin_iff.mpr ⟨W, spare, takesW, long⟩)
  rw [runningBest_sampled sampled]
  unfold runningBest
  rw [log, Net.after_append, after_inference _ sizeX sizeW]

/-- The call reads its own result exactly when the dma was free for its image, the memory served
    the image before the pulse of the weights and the weights three cycles before the read, and
    no transfer before the call had a score above all of the call's. -/
theorem reads_own_result_iff : ReadsOwnResult power pre place i load j last r ↔
    (run step power.reset (pre ++ place)).dmaInst.state = .idle ∧
      ∃ scores, callScores load last = some scores ∧
        (runningBest power (pre ++ place)).score ≤ (Argmax.winner scores).score := by
  constructor
  · rintro ⟨finished, X, W, done, held, _⟩
    obtain ⟨idle, served, spare⟩ := (reads_finished_iff call power pre).mp finished
    obtain ⟨X', restX, takesX, _⟩ := servedWithin_iff.mp served
    obtain ⟨W', rest, takesW, long⟩ := servedWithin_iff.mp spare
    obtain ⟨_, _, log⟩ := call_transfers call power pre idle takesX takesW
    obtain ⟨rfl, rfl⟩ : X' = X ∧ W' = W := by
      simpa using List.append_cancel_left (log.symm.trans done)
    refine ⟨idle, _, callScores_iff.mpr ⟨X', restX, W', rest, takesX, takesW, long, rfl⟩, ?_⟩
    rw [← Argmax.sample_own_iff, ← call_argmax call power pre idle takesX takesW long]
    exact held
  · rintro ⟨idle, scores, some, reached⟩
    obtain ⟨X, restX, W, spare, takesX, takesW, long, rfl⟩ := callScores_iff.mp some
    obtain ⟨_, _, log⟩ := call_transfers call power pre idle takesX takesW
    have finished := (reads_finished_iff call power pre).mpr
      ⟨idle, servedWithin_iff.mpr ⟨X, restX, takesX, Nat.zero_le _⟩,
        servedWithin_iff.mpr ⟨W, spare, takesW, long⟩⟩
    have held := (call_argmax call power pre idle takesX takesW long).trans
      ((Argmax.sample_own_iff _ _).mpr reached)
    refine ⟨finished, X, W, log, held, ?_⟩
    rw [run_snoc, call_result call]
    exact congrArg Argmax.dataO held

end Calls

def answered : List RegisterMap.In → List MasterIn → List In
  | [], _ => []
  | b :: bus, [] => silent b :: answered bus []
  | b :: bus, m :: ms => ⟨b, m⟩ :: answered bus ms

/- An image of zeros with two sets of weights. All features are 0x01DA, so the first set scores
   0x01DA on class 0 and the second 0x00ED on class 1. -/

def zeroImage : List (List FixedPoint) := List.replicate 16 (List.replicate 49 0)

def classZero : List (List FixedPoint) :=
  [256 :: List.replicate 15 0, List.replicate 16 0, List.replicate 16 0]

def classOne : List (List FixedPoint) :=
  [List.replicate 16 0, 128 :: List.replicate 15 0, List.replicate 16 0]

theorem zeroImage_features :
    features zeroImage.flatten = Vector.replicate 16 0x01DA := by
  have zeros : zeroImage.flatten = List.replicate 784 0 := by decide +kernel
  have window (k : ℕ) : slice 49 (List.replicate 784 0) k = Vector.replicate 49 0 := by
    ext m hm : 1
    simp only [slice, Vector.getElem_ofFn, Vector.getElem_replicate, List.getD_eq_getElem?_getD,
      List.getElem?_replicate]
    split <;> rfl
  have value : feature (Vector.replicate 49 0) = 0x01DA := by decide +kernel
  ext k hk : 1
  rw [features, Vector.getElem_ofFn, zeros, window, value, Vector.getElem_replicate]

theorem classOne_scores :
    neurons (features zeroImage.flatten) (rowsOf classOne.flatten) = #v[0, 0x00ED, 0] := by
  rw [zeroImage_features]
  decide +kernel

theorem classZero_scores :
    neurons (features zeroImage.flatten) (rowsOf classZero.flatten) = #v[0x01DA, 0, 0] := by
  rw [zeroImage_features]
  decide +kernel

/- Two calls: one on a memory that serves both transfers in time, one on a memory that
   stalls the first command for as long as it lasts. -/

def slow : Timing := ⟨fun _ _ => 1, 20⟩

def servedPlace : List In := answered (placeImage slow 0) []

def servedLoad (image : List (List FixedPoint)) : List In :=
  answered (placeWeights slow 50 0).tail (serve image)

def servedLast (weight : List (List FixedPoint)) : List In :=
  answered (readResult slow 50).tail.dropLast (serve weight)

theorem answered_as (bus : List RegisterMap.In) (mem : List MasterIn) :
    (answered bus mem).map In.as = bus := by
  fun_induction answered bus mem with
  | case1 => rfl
  | case2 b bus ih => exact congrArg (b :: ·) ih
  | case3 b bus m ms ih => exact congrArg (b :: ·) ih

theorem served_call (image weight : List (List FixedPoint)) :
    Call slow 50 0 0 servedPlace (silent idleBus) (servedLoad image) (silent idleBus)
      (servedLast weight) (silent (readBus 0)) where
  place := answered_as _ _
  load := by
    rw [List.map_cons, servedLoad, answered_as]
    decide +kernel
  last := by
    rw [List.map_append, List.map_cons, servedLast, answered_as]
    decide +kernel

def fast : Timing := ⟨fun _ _ => 1, 4⟩

def stalled (b : RegisterMap.In) : In := ⟨b, ⟨false, 0, true⟩⟩

def stalledPlace : List In := (placeImage fast 0).map stalled

def stalledLoad : List In := (placeWeights fast 50 0).tail.map stalled

def stalledLast : List In := (readResult fast 50).tail.dropLast.map stalled

theorem classZero_call : callScores (servedLoad zeroImage) (servedLast classZero) =
    some #v[0x01DA, 0, 0] :=
  callScores_iff.mpr ⟨zeroImage.flatten, ((servedLoad zeroImage).map In.am).drop 816,
    classZero.flatten, ((servedLast classZero).map In.am).drop 54, by decide +kernel,
    by decide +kernel, by decide +kernel, classZero_scores⟩

theorem reads_own_result_served : ReadsOwnResult powerUp [] servedPlace (silent idleBus)
    (servedLoad zeroImage) (silent idleBus) (servedLast classZero) (silent (readBus 0)) :=
  (reads_own_result_iff (served_call zeroImage classZero) powerUp []).mpr
    ⟨by decide +kernel, #v[0x01DA, 0, 0], classZero_call, by decide +kernel⟩

theorem stalled_call : Call fast 50 0 0 stalledPlace (stalled idleBus) stalledLoad
    (stalled idleBus) stalledLast (stalled (readBus 0)) := by
  constructor
  · decide +kernel
  · decide +kernel
  · decide +kernel

theorem stalled_call_unfinished :
    Call fast 50 0 0 stalledPlace (stalled idleBus) stalledLoad (stalled idleBus) stalledLast
        (stalled (readBus 0)) ∧
      (environment WholeLength).Allows step .none powerUp.reset (stalledPlace ++
        stalled idleBus :: stalledLoad ++ stalled idleBus :: stalledLast ++ [stalled (readBus 0)]) ∧
      (history powerUp (stalledPlace ++ stalled idleBus :: stalledLoad ++
        stalled idleBus :: stalledLast)).done = [] ∧
      ¬ ReadsOwnResult powerUp [] stalledPlace (stalled idleBus) stalledLoad (stalled idleBus)
        stalledLast (stalled (readBus 0)) := by
  have none : (history powerUp ([] ++ stalledPlace ++ stalled idleBus :: stalledLoad ++
      stalled idleBus :: stalledLast)).done = [] := by decide +kernel
  refine ⟨stalled_call, by decide +kernel, none, fun own => ?_⟩
  obtain ⟨X, W, _, _, log⟩ := own.completed
  rw [none] at log
  simp at log

end Accelerator
end CnnAccelerator
