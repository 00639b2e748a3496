import CnnAccelerator.Driver

/- The slave port from the side of the processor: four registers it reads back, the class, the
   scores of the cycle before, and what an access changes. -/
namespace CnnAccelerator
open Clocked

namespace RegisterMap

def Kept (a : BitVec 3) : Prop := 2 ≤ a ∧ a ≤ 5

instance (a : BitVec 3) : Decidable (Kept a) := inferInstanceAs (Decidable (_ ∧ _))

def kept (s : RegisterMap) (a : BitVec 3) : BitVec 32 :=
  match a with
  | 0b010 => s.imageAddrReg
  | 0b011 => s.imageLengthReg
  | 0b100 => s.weightAddrReg
  | _ => s.weightLengthReg

def scoreAddress (j : Fin 3) : BitVec 3 :=
  match j with
  | 0 => 0b001
  | 1 => 0b110
  | 2 => 0b111

def predictionReg (s : RegisterMap) (j : Fin 3) : BitVec 32 :=
  match j with
  | 0 => s.prediction0Reg
  | 1 => s.prediction1Reg
  | 2 => s.prediction2Reg

theorem address_cases (a : BitVec 3) :
    a = 0 ∨ a = 1 ∨ a = 2 ∨ a = 3 ∨ a = 4 ∨ a = 5 ∨ a = 6 ∨ a = 7 := by
  bv_omega

theorem kept_cases {a : BitVec 3} (h : Kept a) : a = 2 ∨ a = 3 ∨ a = 4 ∨ a = 5 := by
  unfold Kept at h
  bv_omega

theorem kept_step (s : RegisterMap) (i : In) (predictions : DataArray3bit)
    (prediction : BitVec 32) {a : BitVec 3} (h : Kept a) :
    (s.step i predictions prediction).kept a =
      if i.write ∧ i.address = a then i.writedata else s.kept a := by
  obtain ⟨b, read, write, d⟩ := i
  cases write with
  | false => rcases kept_cases h with rfl | rfl | rfl | rfl <;> rfl
  | true =>
    rcases address_cases b with rfl | rfl | rfl | rfl | rfl | rfl | rfl | rfl <;>
      rcases kept_cases h with rfl | rfl | rfl | rfl <;> rfl

theorem predictionReg_step (s : RegisterMap) (i : In) (predictions : DataArray3bit)
    (prediction : BitVec 32) (j : Fin 3) :
    (s.step i predictions prediction).predictionReg j = (predictions.get j).setWidth 32 := by
  match j with
  | 0 | 1 | 2 =>
    simp only [step, slaveWrite, predictionReg]
    split <;> (try split) <;> rfl

theorem read_kept {s : RegisterMap} {i : In} (read : i.read = true) (h : Kept i.address)
    (prediction : BitVec 32) : s.slaveRead i prediction = s.kept i.address := by
  unfold slaveRead
  rw [if_pos read]
  rcases kept_cases h with same | same | same | same <;> rw [same] <;> rfl

theorem read_score {s : RegisterMap} {i : In} (read : i.read = true) {j : Fin 3}
    (address : i.address = scoreAddress j) (prediction : BitVec 32) :
    s.slaveRead i prediction = s.predictionReg j := by
  unfold slaveRead
  rw [if_pos read, address]
  match j with
  | 0 | 1 | 2 => rfl

theorem read_class {s : RegisterMap} {i : In} (read : i.read = true) (address : i.address = 0)
    (prediction : BitVec 32) : s.slaveRead i prediction = prediction := by
  unfold slaveRead
  rw [if_pos read, address]
  rfl

theorem read_held {s : RegisterMap} {i : In} (silent : i.read = false) (prediction : BitVec 32) :
    s.slaveRead i prediction = s.asReaddata := by
  unfold slaveRead
  rw [if_neg (Bool.eq_false_iff.mp silent)]

/-- What an access changes: a start bit it sets, or one of the four registers. -/
def effect (i : In) : Option (BitVec 3 × BitVec 32) :=
  if i.write then
    if i.address ≤ 1 then if i.writedata.getLsbD 0 then some (i.address, 1) else none
    else if i.address ≤ 5 then some (i.address, i.writedata) else none
  else none

def perform (s : RegisterMap) (e : Option (BitVec 3 × BitVec 32))
    (predictions : DataArray3bit) : RegisterMap :=
  match e with
  | none => s.slaveWrite ⟨0, false, false, 0⟩ predictions
  | some (a, d) => s.slaveWrite ⟨a, false, true, d⟩ predictions

theorem slaveWrite_effect (s : RegisterMap) (i : In) (predictions : DataArray3bit) :
    s.slaveWrite i predictions = s.perform (effect i) predictions := by
  obtain ⟨a, read, write, d⟩ := i
  cases write with
  | false => rfl
  | true =>
    rcases address_cases a with rfl | rfl | rfl | rfl | rfl | rfl | rfl | rfl
    · change _ = s.perform (if d.getLsbD 0 then some (0, 1) else none) predictions
      cases bit : d.getLsbD 0 <;> simp only [slaveWrite, bit] <;> rfl
    · change _ = s.perform (if d.getLsbD 0 then some (1, 1) else none) predictions
      cases bit : d.getLsbD 0 <;> simp only [slaveWrite, bit] <;> rfl
    · rfl
    · rfl
    · rfl
    · rfl
    · rfl
    · rfl

def blank (s : RegisterMap) : RegisterMap := { s with asReaddata := 0 }

theorem perform_blank (s : RegisterMap) (e : Option (BitVec 3 × BitVec 32))
    (predictions : DataArray3bit) :
    (s.perform e predictions).blank = s.blank.perform e predictions := by
  unfold perform
  split
  · rfl
  · simp only [slaveWrite, ↓reduceIte]
    split <;> rfl

theorem blank_step {s t : RegisterMap} {i j : In} (same : s.blank = t.blank)
    (effects : effect i = effect j) (predictions : DataArray3bit) (prediction : BitVec 32) :
    (s.step i predictions prediction).blank = (t.step j predictions prediction).blank := by
  calc
    (s.step i predictions prediction).blank = (s.slaveWrite i predictions).blank := rfl
    _ = s.blank.perform (effect j) predictions := by
      rw [slaveWrite_effect, perform_blank, effects]
    _ = (t.slaveWrite j predictions).blank := by
      rw [slaveWrite_effect, perform_blank, same]
    _ = (t.step j predictions prediction).blank := rfl

end RegisterMap

namespace Accelerator
open RegisterMap

theorem kept_run (s : Accelerator) (ins : List In) {a : BitVec 3} (h : Kept a) :
    (run step s ins).registerInst.kept a =
      written a (s.registerInst.kept a) (ins.map In.as) := by
  induction ins generalizing s with
  | nil => rfl
  | cons i ins ih =>
    have first : (s.step i).registerInst.kept a =
        if i.as.write ∧ i.as.address = a then i.as.writedata else s.registerInst.kept a :=
      kept_step _ _ _ _ h
    rw [run_cons, ih, first]
    rfl

theorem reset_kept (power : Accelerator) (a : BitVec 3) :
    power.reset.registerInst.kept a = power.registerInst.kept a := by
  unfold kept
  split <;> rfl

theorem readdata_held {s : Accelerator} {ins : List In}
    (silent : ∀ c ∈ ins, c.as.read = false) :
    (run step s ins).registerInst.asReaddata = s.registerInst.asReaddata := by
  induction ins generalizing s with
  | nil => rfl
  | cons i ins ih =>
    have first : (s.step i).registerInst.asReaddata = s.registerInst.asReaddata :=
      read_held (silent i (by simp)) _
    rw [run_cons, ih fun c member => silent c (by simp [member]), first]

/-- The word on as_readdata until the next read, for a read made after the cycles `ins`. -/
structure HostView (power : Accelerator) (ins : List In) (a : BitVec 3) (d : BitVec 32) :
    Prop where
  prediction : a = 0 → d = (run step power.reset ins).prediction
  kept : Kept a → d = written a (power.registerInst.kept a) (ins.map In.as)
  score : ∀ j, a = scoreAddress j → ∀ before c, ins = before ++ [c] →
    d = ((run step power.reset before).predictions.get j).setWidth 32

/-- The slave port is a store: a read of one of the four registers returns what was last written
    to it, and one of a score what the neurons held a cycle earlier. -/
theorem host_view (power : Accelerator) (ins : List In) (r : In) (post : List In)
    (read : r.as.read = true) (silent : ∀ c ∈ post, c.as.read = false) :
    HostView power ins r.as.address
      (run step power.reset (ins ++ r :: post)).registerInst.asReaddata := by
  rw [run_append, run_cons, readdata_held silent]
  change HostView power ins r.as.address
    ((run step power.reset ins).registerInst.slaveRead r.as (run step power.reset ins).prediction)
  constructor
  · intro address
    exact read_class read address _
  · intro h
    rw [read_kept read h, kept_run _ _ h, reset_kept]
  · intro j address before c eq
    rw [read_score read address, eq, run_snoc]
    exact predictionReg_step _ _ _ _ j

theorem host_view_weight_address : HostView powerUp [silent (writeBus 4 96), silent (writeBus 2 7)]
    4 (run step powerUp.reset [silent (writeBus 4 96), silent (writeBus 2 7), silent (readBus 4),
      silent idleBus]).registerInst.asReaddata :=
  host_view powerUp [silent (writeBus 4 96), silent (writeBus 2 7)] (silent (readBus 4))
    [silent idleBus] rfl (by decide)

def unread (s : Accelerator) : Accelerator := { s with registerInst := s.registerInst.blank }

theorem unread_dmaIn {s t : Accelerator} (same : s.unread = t.unread) (m : MasterIn) :
    s.dmaIn m = t.dmaIn m := by
  have starts := congrArg (fun u : Accelerator => u.dmaIn m) same
  exact starts

theorem unread_step {s t : Accelerator} {i j : In} (same : s.unread = t.unread)
    (effects : effect i.as = effect j.as) (master : i.am = j.am) :
    (s.step i).unread = (t.step j).unread := by
  have start := unread_dmaIn same j.am
  obtain ⟨registers, d, c, n, m⟩ := s
  obtain ⟨registers', d', c', n', m'⟩ := t
  obtain ⟨blanks, rfl, rfl, rfl, rfl⟩ := mk.inj same
  have next := blank_step blanks effects (neurons n.reluDataReg n.weightDataReg) m.dataO
  simp only [step, clock, master, start]
  exact congrArg (fun r => Accelerator.mk r _ _ _ _) next

/-- Reads, writes of a start bit that is clear and writes to the addresses of the scores leave no
    trace: two runs with the same effects differ in the word read last only. -/
theorem same_effects (s : Accelerator) (xs ys : List In)
    (effects : xs.map (fun c => (effect c.as, c.am)) = ys.map fun c => (effect c.as, c.am)) :
    (states step s xs).map unread = (states step s ys).map unread := by
  have next : ∀ (a b : Accelerator) (i j : In), a.unread = b.unread → True →
      (effect i.as, i.am) = (effect j.as, j.am) → (a.step i).unread = (b.step j).unread := by
    intro a b i j same _ shared
    obtain ⟨access, master⟩ := Prod.mk.inj shared
    exact unread_step same access master
  exact states_alike next xs ys s s effects rfl fun _ _ => trivial

theorem same_effects_cleared :
    (states step powerUp.reset [silent (writeBus 0 1), silent (writeBus 0 0)]).map unread =
      (states step powerUp.reset [silent (writeBus 0 1), silent (readBus 3)]).map unread :=
  same_effects powerUp.reset [silent (writeBus 0 1), silent (writeBus 0 0)]
    [silent (writeBus 0 1), silent (readBus 3)] (by decide)

end Accelerator
end CnnAccelerator
