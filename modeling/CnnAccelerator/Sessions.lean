import CnnAccelerator.HostAccess
import CnnAccelerator.Memory
import CnnAccelerator.RunningMaximum

/- Calls of pred_image one after the other, on a memory with contents: what each of them
   returns depends on the words at the burst addresses of all calls so far and on nothing
   else. -/
namespace CnnAccelerator
open Clocked Dma

theorem Kind.addr_kept (k : Kind) : RegisterMap.Kept k.addrAddress := by
  cases k <;> decide

theorem Kind.length_kept (k : Kind) : RegisterMap.Kept k.lengthAddress := by
  cases k <;> decide

namespace Accelerator

theorem dmaIn_kept (s : Accelerator) (m : MasterIn) (k : Kind) :
    (s.dmaIn m).addr k = s.registerInst.kept k.addrAddress ∧
      (s.dmaIn m).length k = s.registerInst.kept k.lengthAddress := by
  cases k <;> exact ⟨rfl, rfl⟩

theorem written_base (t : Timing) (k : Kind) (base d : BitVec 32) :
    written k.addrAddress d (setUp t k base) = base := by
  simp only [setUp, written_append, written_waits, written_write]
  cases k <;> rfl

theorem setUp_latched {s : Accelerator} {ins : List In} {front : List RegisterMap.In} {t : Timing}
    {k : Kind} {base : BitVec 32} (eq : ins.map In.as = front ++ setUp t k base) (m : MasterIn) :
    ((run step s ins).dmaIn m).addr k = base ∧
      ((run step s ins).dmaIn m).length k = BitVec.ofNat 32 k.wholeLength := by
  obtain ⟨addr, length⟩ := dmaIn_kept (run step s ins) m k
  rw [addr, length, kept_run _ _ k.addr_kept, kept_run _ _ k.length_kept, eq, written_append,
    written_append, written_base, written_setUp]
  exact ⟨rfl, rfl⟩

abbrev memory (content : ℕ → Memory) : Monitor Accelerator In Supply :=
  supplied content fun _ _ => True

section Supplied
variable {content : ℕ → Memory} {m : Supply} {s : Accelerator} {ins : List In}

theorem quiet_supply (quiet : Quiet s ins) (ok : (memory content).Allows step m s ins) :
    (supplied content WholeLength).Allows step m s ins ∧
      ((memory content).watch step m s ins).requests = m.requests := by
  induction ins generalizing m s with
  | nil => exact ⟨trivial, rfl⟩
  | cons i ins ih =>
    obtain ⟨low, later⟩ := quiet_cons.mp quiet
    obtain ⟨first, rest⟩ := ok
    have none := quiet_starts low i.am
    obtain ⟨allows, same⟩ := ih later rest
    refine ⟨⟨⟨first.1, fun k _ some => by simp [none] at some⟩, allows⟩, ?_⟩
    rw [Monitor.watch_cons, same]
    change (Supply.next content m s.dmaInst (s.dmaIn i.am)).requests = m.requests
    simp [Supply.next, none]

theorem half_supply {i : In} {k : Kind} {base : BitVec 32}
    (pulse : (s.dmaIn i.am).starts = some k)
    (latched : (s.dmaIn i.am).addr k = base ∧
      (s.dmaIn i.am).length k = BitVec.ofNat 32 k.wholeLength)
    (quiet : Quiet (s.step i) ins) (ok : (memory content).Allows step m s (i :: ins)) :
    (supplied content WholeLength).Allows step m s (i :: ins) ∧
      ((memory content).watch step m s (i :: ins)).requests = m.requests ++
        if s.dmaInst.state = .idle then [⟨k, base, BitVec.ofNat 32 k.wholeLength⟩] else [] := by
  obtain ⟨first, rest⟩ := ok
  obtain ⟨allows, same⟩ := quiet_supply quiet rest
  refine ⟨⟨⟨first.1, fun k' _ some => ?_⟩, allows⟩, ?_⟩
  · obtain rfl : k = k' := by simpa [pulse] using some
    rw [latched.2]
    cases k <;> rfl
  · rw [Monitor.watch_cons, same, ← latched.1, ← latched.2]
    change (Supply.next content m s.dmaInst (s.dmaIn i.am)).requests = _
    simp only [Supply.next, pulse, Option.map_some, Option.toList_some]
    split
    · rfl
    · rw [List.append_nil]

end Supplied

/-- Calls of `pred_image` that the memory serves in time, with the addresses they pass, and
    between them any accesses that set no start bit. -/
inductive Session : List (BitVec 32 × BitVec 32) → List In → Prop where
  | reset : Session [] []
  | other {calls : List (BitVec 32 × BitVec 32)} {pre : List In} (h : Session calls pre) (i : In)
      (calm : ∀ k, startWrite k i = false) : Session calls (pre ++ [i])
  | call {calls : List (BitVec 32 × BitVec 32)} {pre : List In} (h : Session calls pre)
      {t : Timing} {waitTime : BitVec 8} {image weights : BitVec 32} {place : List In} {i : In}
      {load : List In} {j : In} {last : List In} {r : In}
      (call : Call t waitTime image weights place i load j last r)
      (served : servedWithin .image 0 load = true) (spare : servedWithin .weight 2 last = true) :
      Session (calls ++ [(image, weights)]) (pre ++ place ++ i :: load ++ j :: last ++ [r])

def callRequests (c : BitVec 32 × BitVec 32) : List Request :=
  [⟨.image, c.1, BitVec.ofNat 32 784⟩, ⟨.weight, c.2, BitVec.ofNat 32 48⟩]

/-- No pulse is up, and these are the requests so far, all of whole lengths. -/
structure Requested (content : ℕ → Memory) (power : Accelerator) (ins : List In)
    (qs : List Request) : Prop where
  low : ∀ k, (run step power.reset ins).startReg k = false
  allows : (supplied content WholeLength).Allows step .none power.reset ins
  asked : ((memory content).watch step .none power.reset ins).requests = qs

section Requests
variable {content : ℕ → Memory} {power : Accelerator} {pre : List In} {qs : List Request}

theorem requested_reset (content : ℕ → Memory) (power : Accelerator) :
    Requested content power [] [] where
  low := fun k => by cases k <;> rfl
  allows := trivial
  asked := rfl

theorem requested_other (h : Requested content power pre qs) {i : In}
    (calm : ∀ k, startWrite k i = false)
    (ok : (memory content).Allows step .none power.reset (pre ++ [i])) :
    Requested content power (pre ++ [i]) qs := by
  have quiet : Quiet (run step power.reset pre) [i] :=
    quiet_cons.mpr ⟨h.low, by simp [Quiet]⟩
  have last := (((memory content).allows_append step _ _ _ _).mp ok).2
  obtain ⟨allows, same⟩ := quiet_supply quiet last
  constructor
  · intro k
    rw [run_snoc, startReg_step]
    exact calm k
  · exact ((supplied content WholeLength).allows_append step _ _ _ _).mpr ⟨h.allows, allows⟩
  · rw [Monitor.watch_append, same]
    exact h.asked

variable {t : Timing} {waitTime : BitVec 8} {image weights : BitVec 32} {place : List In} {i : In}
  {load : List In} {j : In} {last : List In} {r : In}
  (call : Call t waitTime image weights place i load j last r)
include call

theorem call_low (s : Accelerator) (k : Kind) : (s.step r).startReg k = false := by
  rw [startReg_step]
  simp [startWrite, call_read call, readBus]

theorem requested_call (h : Requested content power pre qs)
    (ok : (memory content).Allows step .none power.reset
      (pre ++ place ++ i :: load ++ j :: last ++ [r])) :
    Requested content power (pre ++ place ++ i :: load ++ j :: last ++ [r])
      (qs ++ (if (run step power.reset (pre ++ place)).dmaInst.state = .idle then
          [⟨.image, image, BitVec.ofNat 32 784⟩] else []) ++
        if (run step power.reset (pre ++ place ++ i :: load)).dmaInst.state = .idle then
          [⟨.weight, weights, BitVec.ofNat 32 48⟩] else []) := by
  have low : ∀ k, (run step power.reset
      (pre ++ place ++ i :: load ++ j :: last ++ [r])).startReg k = false := by
    intro k
    rw [run_snoc]
    exact call_low call _ k
  rw [List.append_assoc _ (j :: last) [r], List.cons_append] at ok low ⊢
  obtain ⟨okLoad, okLast⟩ := ((memory content).allows_append step _ _ _ _).mp ok
  obtain ⟨okPlace, okLoad⟩ := ((memory content).allows_append step _ _ _ _).mp okLoad
  obtain ⟨_, okPlace⟩ := ((memory content).allows_append step _ _ _ _).mp okPlace
  obtain ⟨placed, asked⟩ := quiet_supply (call_place_quiet call h.low) okPlace
  have accesses : place.map In.as = [] ++ setUp t .image image := call.place
  obtain ⟨loaded, askedImage⟩ := half_supply (call_image_pulse call power pre).1
    (by rw [run_append]; exact setUp_latched accesses i.am) (call_load_quiet call _) okLoad
  obtain ⟨finished, askedWeights⟩ := half_supply (call_weight_pulse call power pre).1
    (by rw [run_append]; exact setUp_latched call.load j.am) (call_last_quiet call _) okLast
  refine ⟨low, ?_, ?_⟩
  · rw [Monitor.allows_append, Monitor.allows_append, Monitor.allows_append]
    exact ⟨⟨⟨h.allows, placed⟩, loaded⟩, finished⟩
  · rw [Monitor.watch_append, askedWeights, Monitor.watch_append, askedImage,
      Monitor.watch_append, asked, h.asked]
    rfl

end Requests

theorem calls_snoc (calls : List (BitVec 32 × BitVec 32)) (c : BitVec 32 × BitVec 32) :
    (calls ++ [c]).flatMap callRequests =
      calls.flatMap callRequests ++ [⟨.image, c.1, BitVec.ofNat 32 784⟩] ++
        [⟨.weight, c.2, BitVec.ofNat 32 48⟩] := by
  simp [List.flatMap_append, callRequests]

structure Between (content : ℕ → Memory) (power : Accelerator)
    (calls : List (BitVec 32 × BitVec 32)) (ins : List In) : Prop
    extends Requested content power ins (calls.flatMap callRequests) where
  drained : Drained (run step power.reset ins)

theorem between_reset (content : ℕ → Memory) (power : Accelerator) :
    Between content power [] [] where
  toRequested := requested_reset content power
  drained := ⟨rfl, fun k => by cases k <;> exact ⟨rfl, rfl, rfl⟩⟩

theorem between_other {content : ℕ → Memory} {power : Accelerator}
    {calls : List (BitVec 32 × BitVec 32)} {pre : List In} (h : Between content power calls pre)
    {i : In} (calm : ∀ k, startWrite k i = false)
    (ok : (memory content).Allows step .none power.reset (pre ++ [i])) :
    Between content power calls (pre ++ [i]) where
  toRequested := requested_other h.toRequested calm ok
  drained := by
    rw [run_snoc]
    exact quiet_drained h.drained.1 (fun k => (h.drained.2 k).2.1) h.low i

theorem between_call {content : ℕ → Memory} {power : Accelerator}
    {calls : List (BitVec 32 × BitVec 32)} {pre : List In} (h : Between content power calls pre)
    {t : Timing} {waitTime : BitVec 8} {image weights : BitVec 32} {place : List In} {i : In}
    {load : List In} {j : In} {last : List In} {r : In}
    (call : Call t waitTime image weights place i load j last r)
    (served : servedWithin .image 0 load = true) (spare : servedWithin .weight 2 last = true)
    (ok : (memory content).Allows step .none power.reset
      (pre ++ place ++ i :: load ++ j :: last ++ [r])) :
    Between content power (calls ++ [(image, weights)])
      (pre ++ place ++ i :: load ++ j :: last ++ [r]) := by
  have idle : (run step power.reset (pre ++ place)).dmaInst.state = .idle := by
    rw [run_append]
    exact (quiet_idle h.drained.1 (call_place_quiet call h.low) []).1
  have again := (call_weight_idle call power pre idle).mpr served
  have requested := requested_call call h.toRequested ok
  rw [if_pos idle, if_pos again] at requested
  refine ⟨?_, (call_drained call power pre again spare).1⟩
  rw [calls_snoc]
  exact requested

theorem session_between {content : ℕ → Memory} {power : Accelerator}
    {calls : List (BitVec 32 × BitVec 32)} {ins : List In} (session : Session calls ins)
    (ok : (memory content).Allows step .none power.reset ins) :
    Between content power calls ins := by
  induction session with
  | reset => exact between_reset content power
  | other _ i calm ih =>
    exact between_other (ih ((memory content).allows_left step ok)) calm ok
  | call _ call served spare ih =>
    refine between_call (ih ?_) call served spare ok
    simp only [List.append_assoc] at ok
    exact (memory content).allows_left step ok

theorem between_done {content : ℕ → Memory} {power : Accelerator}
    {calls : List (BitVec 32 × BitVec 32)} {ins : List In} (h : Between content power calls ins) :
    (history power ins).done = fulfilled content (calls.flatMap callRequests) := by
  rw [← h.asked]
  exact ((fed_brought (fed_run WholeLength.whole power h.allows)).rest h.drained.1).2

/-- The scores of call `n` on the words that the dma reads for it: those of bursts at the
    addresses base + burstSize * k, from the two bases in `c`. -/
def scoresOf (content : ℕ → Memory) (n : ℕ) (c : BitVec 32 × BitVec 32) : DataArray3bit :=
  neurons (features (fetch (content (2 * n)) .image c.1 784))
    (rowsOf (fetch (content (2 * n + 1)) .weight c.2 48))

theorem samples_call (N : Net) {X W : List FixedPoint} (image : X.length = 784)
    (weight : W.length = 48) :
    N.samples [⟨.image, X⟩, ⟨.weight, W⟩] = [neurons (features X) (rowsOf W)] := by
  rw [← finish_scores N image weight]
  rfl

theorem samples_requests (N : Net) (content : ℕ → Memory) (n : ℕ) (c : BitVec 32 × BitVec 32) :
    N.samples [Request.transfer (content (2 * n)) ⟨.image, c.1, BitVec.ofNat 32 784⟩,
      Request.transfer (content (2 * n + 1)) ⟨.weight, c.2, BitVec.ofNat 32 48⟩] =
      [scoresOf content n c] := by
  have image : (BitVec.ofNat 32 784).toNat = 784 := rfl
  have weight : (BitVec.ofNat 32 48).toNat = 48 := rfl
  simp only [Request.transfer, image, weight, scoresOf]
  exact samples_call N (fetch_length _ _ _ _) (fetch_length _ _ _ _)

theorem callRequests_length (calls : List (BitVec 32 × BitVec 32)) :
    (calls.flatMap callRequests).length = 2 * calls.length := by
  induction calls with
  | nil => rfl
  | cons c calls ih =>
    rw [List.flatMap_cons, List.length_append, ih, List.length_cons, callRequests]
    simp only [List.length_cons, List.length_nil]
    omega

theorem between_banks {content : ℕ → Memory} {power : Accelerator}
    {calls : List (BitVec 32 × BitVec 32)} {c : BitVec 32 × BitVec 32} {ins : List In}
    (h : Between content power (calls ++ [c]) ins) :
    (run step power.reset ins).convBlockInst.convRegs =
        features (fetch (content (2 * calls.length)) .image c.1 784) ∧
      (run step power.reset ins).nnInst.weightDataReg =
        rowsOf (fetch (content (2 * calls.length + 1)) .weight c.2 48) := by
  have settled := coupled_settled (coupled_history power ins) h.drained
  have done := between_done h
  rw [calls_snoc, fulfilled_snoc, fulfilled_snoc, List.length_append, callRequests_length] at done
  rw [settled.conv, settled.rows, done, Net.after_append, Net.after_append, Net.after_singleton,
    Net.after_singleton]
  exact ⟨finish_image (fetch_length _ _ _ _), finish_weight (fetch_length _ _ _ _)⟩

theorem samples_session (content : ℕ → Memory) (calls : List (BitVec 32 × BitVec 32)) :
    Net.reset.samples (fulfilled content (calls.flatMap callRequests)) =
      calls.mapIdx (scoresOf content) := by
  induction calls using List.reverseRecOn with
  | nil => rfl
  | append_singleton calls c ih =>
    have last : [c].mapIdx (fun n => scoresOf content (n + calls.length)) =
        [scoresOf content calls.length c] := by
      simp
    rw [calls_snoc, fulfilled_snoc, fulfilled_snoc, List.append_assoc, Net.samples_append, ih,
      List.length_append, callRequests_length, List.mapIdx_append, last]
    exact congrArg _ (samples_requests _ content calls.length c)

/-- A session on a memory with contents, up to the edge after the read of its last call. -/
inductive Answered (content : ℕ → Memory) (power : Accelerator) :
    List (BitVec 32 × BitVec 32) → List In → Prop where
  | read {calls : List (BitVec 32 × BitVec 32)} {pre : List In} (session : Session calls pre)
      {t : Timing} {waitTime : BitVec 8} {image weights : BitVec 32} {place : List In} {i : In}
      {load : List In} {j : In} {last : List In} {r : In}
      (call : Call t waitTime image weights place i load j last r)
      (served : servedWithin .image 0 load = true) (spare : servedWithin .weight 2 last = true)
      (ok : (memory content).Allows step .none power.reset
        (pre ++ place ++ i :: load ++ j :: last ++ [r])) :
      Answered content power (calls ++ [(image, weights)])
        (pre ++ place ++ i :: load ++ j :: last ++ [r])

section Answers
variable {content : ℕ → Memory} {power : Accelerator} {calls : List (BitVec 32 × BitVec 32)}
  {ins : List In} (h : Answered content power calls ins)
include h

theorem answered_between : Between content power calls ins := by
  cases h with
  | read session call served spare ok =>
    exact session_between (.call session call served spare) ok

theorem answered_prediction : (run step power.reset ins).registerInst.asReaddata =
    (run step power.reset ins).prediction := by
  cases h with
  | @read calls pre session t waitTime image weights place i load j last r call served spare ok =>
    have before := session_between session (by
      simp only [List.append_assoc] at ok
      exact (memory content).allows_left step ok)
    have idle : (run step power.reset (pre ++ place)).dmaInst.state = .idle := by
      rw [run_append]
      exact (quiet_idle before.drained.1 (call_place_quiet call before.low) []).1
    have again := (call_weight_idle call power pre idle).mpr served
    have sampled := (call_sampled call power pre again).mpr spare
    rw [run_snoc, call_result call]
    exact congrArg Argmax.dataO (step_held sampled.2.2 r).symm

theorem answered_result : (run step power.reset ins).registerInst.asReaddata =
    ((calls.mapIdx (scoresOf content)).foldl Argmax.sample Argmax.reset).dataO := by
  have between := answered_between h
  have best := sampled_best (coupled_history power _) between.drained.sampled
  rw [between_done between, Net.after_best, samples_session] at best
  rw [answered_prediction h]
  exact congrArg Argmax.dataO best

end Answers

/-- In every session, with any timing of processor and memory, a call returns the index of the
    last of the highest scores of this call and all calls before it, each on the words at its
    burst addresses, or 0 if all of them are negative. -/
theorem session_result (content : ℕ → Memory) (power : Accelerator)
    (calls : List (BitVec 32 × BitVec 32)) (ins : List In)
    (h : Answered content power calls ins) :
    ∃ s, Argmax.Champion (calls.mapIdx (scoresOf content)) s ∧
      (run step power.reset ins).registerInst.asReaddata = s.dataO :=
  ⟨_, Argmax.champion_samples _, answered_result h⟩

def buffer (ws : List FixedPoint) : Memory := fun a n => ws.getD (a.toNat + n) 0

def twoCalls (n : ℕ) : Memory :=
  match n with
  | 1 => buffer classZero.flatten
  | 3 => buffer classOne.flatten
  | _ => fun _ _ => 0

def prompt : Timing :=
  ⟨fun k n =>
    match k, n with
    | .image, 3 => 780
    | .weight, 3 => 10
    | _, _ => 0, 1⟩

def promptPlace : List In := answered (placeImage prompt 0) []

def promptLoad (image : List (List FixedPoint)) : List In :=
  answered (placeWeights prompt 50 0).tail (serve image)

def promptLast (weight : List (List FixedPoint)) : List In :=
  answered (readResult prompt 50).tail.dropLast (serve weight)

theorem prompt_call (image weight : List (List FixedPoint)) :
    Call prompt 50 0 0 promptPlace (silent idleBus) (promptLoad image) (silent idleBus)
      (promptLast weight) (silent (readBus 0)) where
  place := answered_as _ _
  load := by
    rw [List.map_cons, promptLoad, answered_as]
    decide +kernel
  last := by
    rw [List.map_append, List.map_cons, promptLast, answered_as]
    decide +kernel

def promptCalls : List In :=
  [] ++ promptPlace ++ silent idleBus :: promptLoad zeroImage ++
    silent idleBus :: promptLast classZero ++ [silent (readBus 0)] ++ promptPlace ++
    silent idleBus :: promptLoad zeroImage ++ silent idleBus :: promptLast classOne ++
    [silent (readBus 0)]

theorem prompt_answered : Answered twoCalls powerUp [(0, 0), (0, 0)] promptCalls :=
  .read (.call .reset (prompt_call zeroImage classZero) (by decide +kernel) (by decide +kernel))
    (prompt_call zeroImage classOne) (by decide +kernel) (by decide +kernel) (by decide +kernel)

theorem session_result_second :
    ∃ s, Argmax.Champion ([(0, 0), (0, 0)].mapIdx (scoresOf twoCalls)) s ∧
      (run step powerUp.reset promptCalls).registerInst.asReaddata = s.dataO :=
  session_result twoCalls powerUp [(0, 0), (0, 0)] promptCalls prompt_answered

end Accelerator
end CnnAccelerator
