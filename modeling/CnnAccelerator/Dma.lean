import CnnAccelerator.DataType

/- dma.vhd. The image and the weight half of the source are the same text up to the
   name, the window size and the register it touches, so both are one definition
   indexed by Kind; the seven states keep their names. -/
namespace CnnAccelerator

def burstSizeImage : ℕ := 49
def burstSizeWeight : ℕ := 16

inductive Kind where
  | image
  | weight
  deriving DecidableEq, Repr

namespace Kind

def burstSize : Kind → ℕ
  | image => burstSizeImage
  | weight => burstSizeWeight

@[simp] theorem burstSize_image : burstSize image = 49 := rfl

@[simp] theorem burstSize_weight : burstSize weight = 16 := rfl

def other : Kind → Kind
  | image => weight
  | weight => image

theorem eq_or_other (k k' : Kind) : k' = k ∨ k' = k.other := by
  cases k <;> cases k' <;> simp [other]

instance {P : Kind → Prop} [∀ k, Decidable (P k)] : Decidable (∀ k, P k) :=
  decidable_of_iff (P image ∧ P weight) <| by
    constructor
    · rintro ⟨onImage, onWeight⟩ k
      cases k with
      | image => exact onImage
      | weight => exact onWeight
    · intro all
      exact ⟨all image, all weight⟩

end Kind

inductive Phase where
  | start
  | wait
  | read
  deriving DecidableEq, Repr

inductive StateType where
  | idle
  | burst (k : Kind) (p : Phase)
  deriving DecidableEq, Repr

namespace StateType

@[match_pattern] abbrev burstImageStart : StateType := burst .image .start
@[match_pattern] abbrev burstImageWait : StateType := burst .image .wait
@[match_pattern] abbrev burstImageRead : StateType := burst .image .read
@[match_pattern] abbrev burstWeightStart : StateType := burst .weight .start
@[match_pattern] abbrev burstWeightWait : StateType := burst .weight .wait
@[match_pattern] abbrev burstWeightRead : StateType := burst .weight .read

end StateType

/-- The registers the source has twice: image_data_reg and weight_data_reg, and so on. -/
structure Channel (n : ℕ) where
  data : Vector FixedPoint n
  addr : BitVec 32
  length : BitVec 32
  cnt : BitVec 4
  write : Bool
  start : Bool
  burstCnt : BitVec 9
  deriving DecidableEq, Repr

/-- The value of both reset and IDLE: zero, with the window counter at all ones. -/
def Channel.cleared (n : ℕ) : Channel n := ⟨Vector.replicate n 0, 0, 0, 15, false, false, 0⟩

structure MasterIn where
  readdatavalid : Bool
  readdata : FixedPoint
  waitrequest : Bool
  deriving DecidableEq, Repr

structure Dma where
  state : StateType
  image : Channel 49
  weight : Channel 16
  address : BitVec 32
  burstcountOut : BitVec 7
  burstcount : BitVec 9
  read : Bool
  wordCnt : BitVec 17
  deriving DecidableEq, Repr

namespace Dma

structure In where
  startImage : Bool
  startWeight : Bool
  imageAddr : BitVec 32
  imageLength : BitVec 32
  weightAddr : BitVec 32
  weightLength : BitVec 32
  readdatavalid : Bool
  readdata : FixedPoint
  waitrequest : Bool
  deriving DecidableEq, Repr

def In.memory (m : MasterIn) : In :=
  { startImage := false, startWeight := false, imageAddr := 0, imageLength := 0, weightAddr := 0
    weightLength := 0, readdatavalid := m.readdatavalid, readdata := m.readdata
    waitrequest := m.waitrequest }

def chan (r : Dma) : (k : Kind) → Channel k.burstSize
  | .image => r.image
  | .weight => r.weight

def setChan (r : Dma) : (k : Kind) → Channel k.burstSize → Dma
  | .image, c => { r with image := c }
  | .weight, c => { r with weight := c }

def In.addr (i : In) : Kind → BitVec 32
  | .image => i.imageAddr
  | .weight => i.weightAddr

def In.length (i : In) : Kind → BitVec 32
  | .image => i.imageLength
  | .weight => i.weightLength

def reset : Dma :=
  { state := .idle, image := .cleared 49, weight := .cleared 16, address := 0
    burstcountOut := 0, burstcount := 0, read := false, wordCnt := 0 }

def accept (k : Kind) (i : In) : Dma :=
  { reset.setChan k { Channel.cleared k.burstSize with addr := i.addr k, length := i.length k } with
    burstcount := (BitVec.ofNat 7 k.burstSize).setWidth 9
    state := .burst k .start }

/-- IDLE clears every register; an image start goes before a weight start. -/
def idle (i : In) : Dma :=
  if i.startImage then accept .image i
  else if i.startWeight then accept .weight i
  else reset

def burstStart (k : Kind) (r : Dma) : Dma :=
  { r.setChan k { r.chan k with write := false } with
    read := true
    address := (r.chan k).addr
    burstcountOut := r.burstcount.setWidth 7
    state := .burst k .wait }

def burstWait (k : Kind) (r : Dma) (i : In) : Dma :=
  if i.waitrequest then { r with state := .burst k .wait }
  else { r with read := false, burstcountOut := 0, state := .burst k .read }

/-- An equality of unsigned values of two widths extends the shorter one. -/
def burstRead (k : Kind) (r : Dma) (i : In) : Dma :=
  let c := r.chan k
  if i.readdatavalid then
    let stored := { c with
      data := c.data.setIfInBounds c.burstCnt.toNat i.readdata
      burstCnt := c.burstCnt + 1 }
    let r' := { r with wordCnt := r.wordCnt + 1 }
    if r.wordCnt.setWidth 32 = c.length - 1 ∨ r.burstcount = 0 then
      { r'.setChan k { stored with start := true, write := true, cnt := c.cnt + 1 } with
        state := .idle }
    else if c.burstCnt = (r.burstcount.setWidth 7 - 1).setWidth 9 then
      { r'.setChan k { stored with
          addr := c.addr + r.burstcount.setWidth 32, burstCnt := 0
          cnt := c.cnt + 1, write := true } with
        state := .burst k .start }
    else r'.setChan k stored
  else { r with state := .burst k .read }

/-- The combinational process `AM`: the `_next` values of all registers. -/
def am (r : Dma) (i : In) : Dma :=
  match r.state with
  | .idle => idle i
  | .burstImageStart => burstStart .image r
  | .burstImageWait => burstWait .image r i
  | .burstImageRead => burstRead .image r i
  | .burstWeightStart => burstStart .weight r
  | .burstWeightWait => burstWait .weight r i
  | .burstWeightRead => burstRead .weight r i

@[simp] theorem chan_setChan (r : Dma) (k : Kind) (c : Channel k.burstSize) :
    (r.setChan k c).chan k = c := by
  cases k <;> rfl

@[simp] theorem chan_setChan_other (r : Dma) (k : Kind) (c : Channel k.burstSize) :
    (r.setChan k c).chan k.other = r.chan k.other := by
  cases k <;> rfl

@[simp] theorem chan_mk (r : Dma) (k : Kind) (st : StateType) (a : BitVec 32) (o : BitVec 7)
    (b : BitVec 9) (rd : Bool) (w : BitVec 17) :
    (Dma.mk st r.image r.weight a o b rd w).chan k = r.chan k := by
  cases k <;> rfl

@[simp] theorem setChan_burstcount (r : Dma) (k : Kind) (c : Channel k.burstSize) :
    (r.setChan k c).burstcount = r.burstcount := by cases k <;> rfl

@[simp] theorem setChan_wordCnt (r : Dma) (k : Kind) (c : Channel k.burstSize) :
    (r.setChan k c).wordCnt = r.wordCnt := by cases k <;> rfl

@[simp] theorem setChan_read (r : Dma) (k : Kind) (c : Channel k.burstSize) :
    (r.setChan k c).read = r.read := by cases k <;> rfl

@[simp] theorem setChan_address (r : Dma) (k : Kind) (c : Channel k.burstSize) :
    (r.setChan k c).address = r.address := by cases k <;> rfl

@[simp] theorem setChan_burstcountOut (r : Dma) (k : Kind) (c : Channel k.burstSize) :
    (r.setChan k c).burstcountOut = r.burstcountOut := by cases k <;> rfl

@[simp] theorem setChan_state (r : Dma) (k : Kind) (c : Channel k.burstSize) :
    (r.setChan k c).state = r.state := by cases k <;> rfl

@[simp] theorem chan_reset (k : Kind) : reset.chan k = Channel.cleared k.burstSize := by
  cases k <;> rfl

theorem am_idle {r : Dma} (i : In) (h : r.state = .idle) : r.am i = idle i := by
  simp [am, h]

theorem am_start {r : Dma} {k : Kind} (i : In) (h : r.state = .burst k .start) :
    r.am i = burstStart k r := by
  cases k <;> simp [am, h]

theorem am_wait {r : Dma} {k : Kind} (i : In) (h : r.state = .burst k .wait) :
    r.am i = burstWait k r i := by
  cases k <;> simp [am, h]

theorem am_read {r : Dma} {k : Kind} (i : In) (h : r.state = .burst k .read) :
    r.am i = burstRead k r i := by
  cases k <;> simp [am, h]

theorem read_wordCnt {r : Dma} {k : Kind} {i : In} (h : r.state = .burst k .read)
    (valid : i.readdatavalid = true) : (r.am i).wordCnt = r.wordCnt + 1 := by
  rw [am_read i h]
  simp only [burstRead, valid, ↓reduceIte]
  split
  · simp
  · split <;> simp

end Dma
end CnnAccelerator
