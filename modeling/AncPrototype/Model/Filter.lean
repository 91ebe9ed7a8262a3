/-
The adaptive filter: `anc/anc_anc.c` and `anc/anc_anc.h`.

`ancPredict` and `ancUpdate` are written over an arbitrary arithmetic, because the
question whether the circular buffer realises the delay line has nothing to do
with how floats round.  `FloatArith` is the list of the operations the two
functions apply to `float` values, with no law at all; `ℚ` is the exact reading,
and the one the numerical results are about.

Loops are counted loops over a `uint16_t`, and the buffer cursor is a ring index:
`x_idx` is inside the buffer by construction.  The buffer length is a parameter,
`FXLMS_BUF_LEN` being one value of it.
-/
import AncPrototype.Library.CountedLoop
import AncPrototype.Library.Ring
import Mathlib.Data.Rat.Floor

namespace Anc

/-- The `float` operations of the filter. -/
class FloatArith (α : Type) extends Add α, Sub α, Mul α where
  /-- The conversion of an integer operand. -/
  ofInt : Int → α
  /-- A decimal constant of the source. -/
  ofDecimal : ℚ → α
  lt : α → α → Bool
  /-- The cast `(uint16_t)`, truncating towards zero. -/
  toUInt16 : α → UInt16

open FloatArith

/-- Exact arithmetic.  The cast is undefined in C outside `(-1, 65536)`; there this
one reduces modulo `2 ^ 16`. -/
instance : FloatArith ℚ where
  ofInt := Int.cast
  ofDecimal := id
  lt a b := decide (a < b)
  toUInt16 q := UInt16.ofNat ⌊q⌋.toNat

/-- A length `FXLMS_BUF_LEN` may have: a `uint16_t` counter passes every tap and reaches
the end. -/
structure BufLen where
  len : Nat
  pos : 1 ≤ len
  fits : len ≤ 65535

/-- `FXLMS_BUF_LEN`. -/
abbrev fxlmsBufLen : BufLen := ⟨5, by decide, by decide⟩

/-- `FXLMS_STEP`. -/
def fxlmsStep : ℚ := 1 / 100000000000

/-- `FXLMS_MID`. -/
def fxlmsMid : Int := 2048

/-- `anc_fxlms`. -/
structure Fxlms (α : Type) (L : BufLen) where
  xIdx : RingIndex L.len
  step : α
  x : Vector α L.len
  W : Vector α L.len

variable {α : Type} [FloatArith α] {L : BufLen}

/-- The filter with an all-zero buffer and the cursor on its first cell. -/
def Fxlms.cleared (step : α) (W : Vector α L.len) : Fxlms α L :=
  { xIdx := RingIndex.zero L.pos, step := step, x := Vector.replicate L.len (ofInt 0), W := W }

/-- The weights `initialize_anc` sets. -/
def initialWeights : Vector ℚ fxlmsBufLen.len :=
  #v[-8049 / 10000, -4430 / 10000, 938 / 10000, 9150 / 10000, 9298 / 10000]

/-- What `initialize_anc` does to `anc_fxlms`. -/
def initializeAnc : Fxlms α fxlmsBufLen :=
  Fxlms.cleared (ofDecimal fxlmsStep) (initialWeights.map ofDecimal)

/-! ### anc_predict -/

/-- The deviation of a sample from mid-scale, `(float) n - 2048`. -/
def deviation (n : UInt16) : α := ofInt n.toNat - ofInt 2048

/-- `anc_fxlms.x[anc_fxlms.x_idx] = ((float) noise) - 2048`. -/
def Fxlms.store (s : Fxlms α L) (noise : UInt16) : Fxlms α L :=
  { s with x := s.xIdx.write s.x (deviation noise) }

/-- One iteration of the prediction loop, on `predict` and the walking `x_idx`. -/
def Fxlms.predictBody (s : Fxlms α L) (wIdx : Fin L.len) (p : α × RingIndex L.len) :
    α × RingIndex L.len :=
  (p.1 + p.2.read s.x * ofInt (-1) * s.W[wIdx.val], p.2.back)

/-- The prediction loop. -/
def Fxlms.predictSum (s : Fxlms α L) : α :=
  (CountedLoop.run L.fits s.predictBody (ofInt 0, s.xIdx)).1

/-- The explicit limit on the prediction. -/
def limitPredict (predict : α) : α :=
  if lt (ofInt fxlmsMid) predict then ofInt fxlmsMid
  else if lt predict (ofInt (-1 * fxlmsMid)) then ofInt (-1 * fxlmsMid)
  else predict

/-- The value `anc_predict` casts to `uint16_t`. -/
def Fxlms.predictValue (s : Fxlms α L) : α := limitPredict s.predictSum + ofInt 2048

/-- `anc_predict`. -/
def ancPredict (s : Fxlms α L) (noise : UInt16) : UInt16 × Fxlms α L :=
  let s := s.store noise
  (toUInt16 s.predictValue, s)

/-! ### anc_update -/

/-- One iteration of the loop that fills `buff_step`, on it and the walking `x_idx`. -/
def Fxlms.stepBody (s : Fxlms α L) (error : α) (i : Fin L.len)
    (p : Vector α L.len × RingIndex L.len) : Vector α L.len × RingIndex L.len :=
  (p.1.set i.val (s.step * error * p.2.read s.x), p.2.back)

/-- `buff_step` after its two loops.  The automatic array has no initial value, and the
first loop does not read the one this gives it. -/
def Fxlms.buffStep (s : Fxlms α L) (error : α) : Vector α L.len :=
  let buffStep := CountedLoop.fill L.fits (fun _ _ => ofInt 0) s.x
  (CountedLoop.run L.fits (s.stepBody error) (buffStep, s.xIdx)).1

/-- `anc_update`. -/
def ancUpdate (s : Fxlms α L) (residual : UInt16) : Fxlms α L :=
  let buffStep := s.buffStep (deviation residual)
  { s with
    W := CountedLoop.fill L.fits
      (fun wIdx w => (ofInt 1 - s.step) * w + buffStep[wIdx.val]) s.W
    xIdx := s.xIdx.advance }

/-! ### Runs of calls -/

/-- A call the rest of the program may make. -/
inductive Call where
  | predict (noise : UInt16)
  | update (residual : UInt16)
  deriving DecidableEq

def Fxlms.call (s : Fxlms α L) : Call → Fxlms α L
  | .predict noise => (ancPredict s noise).2
  | .update residual => ancUpdate s residual

/-- The state after a sequence of calls. -/
def Fxlms.calls (s : Fxlms α L) (cs : List Call) : Fxlms α L := cs.foldl Fxlms.call s

/-- The values the calls of `anc_predict` return. -/
def Fxlms.outputs : Fxlms α L → List Call → List UInt16
  | _, [] => []
  | s, .predict noise :: cs => (ancPredict s noise).1 :: (ancPredict s noise).2.outputs cs
  | s, .update residual :: cs => (ancUpdate s residual).outputs cs

end Anc
