/-
The filter as a shift register.

What `simulation/basic_lms.m` keeps is the list of the newest deviations, newest
first, and a weight for each of them.  This file states that reference over the
arithmetic the C functions are written in, and the rounds in which the two are
compared: one or more predictions and then one update.  The first prediction of a
round shifts the register; a further one only replaces its newest entry.
-/
import AncPrototype.Model.Filter

namespace Anc

open FloatArith

/-- The reference filter. -/
structure ShiftRegister (α : Type) where
  step : α
  /-- The newest deviations, newest first. -/
  h : List α
  W : List α

/-- One or more calls of `anc_predict`, then one of `anc_update`. -/
structure Round where
  noise : UInt16
  more : List UInt16
  residual : UInt16

/-- What a round shows: the predictions, and the weights it leaves. -/
structure RoundResult (α : Type) where
  predictions : List UInt16
  weights : List α

variable {α : Type} [FloatArith α] {L : BufLen}

namespace ShiftRegister

/-- The register with no history. -/
def cleared (step : α) (len : Nat) (W : List α) : ShiftRegister α :=
  { step := step, h := List.replicate len (ofInt 0), W := W }

def shift (r : ShiftRegister α) (noise : UInt16) : ShiftRegister α :=
  { r with h := (ofInt noise.toNat - ofInt 2048) :: r.h.dropLast }

def replace (r : ShiftRegister α) (noise : UInt16) : ShiftRegister α :=
  { r with h := (ofInt noise.toNat - ofInt 2048) :: r.h.tail }

/-- `buffer' * -weights`, accumulated from the left. -/
def sum (r : ShiftRegister α) : α :=
  (r.h.zip r.W).foldl (fun acc p => acc + p.1 * ofInt (-1) * p.2) (ofInt 0)

def output (r : ShiftRegister α) : UInt16 :=
  let predict :=
    if lt (ofInt 2048) r.sum then ofInt 2048
    else if lt r.sum (ofInt (-2048)) then ofInt (-2048)
    else r.sum
  toUInt16 (predict + ofInt 2048)

def update (r : ShiftRegister α) (residual : UInt16) : ShiftRegister α :=
  let weight (w h : α) : α :=
    (ofInt 1 - r.step) * w + r.step * (ofInt residual.toNat - ofInt 2048) * h
  { r with W := List.zipWith weight r.W r.h }

/-- The further predictions of a round. -/
def predictMore : ShiftRegister α → List UInt16 → List UInt16 × ShiftRegister α
  | r, [] => ([], r)
  | r, n :: ns =>
      let r := r.replace n
      let rest := predictMore r ns
      (r.output :: rest.1, rest.2)

def round (r : ShiftRegister α) (rd : Round) : RoundResult α × ShiftRegister α :=
  let r := r.shift rd.noise
  let rest := r.predictMore rd.more
  let r' := rest.2.update rd.residual
  (⟨r.output :: rest.1, r'.W⟩, r')

def run : ShiftRegister α → List Round → List (RoundResult α)
  | _, [] => []
  | r, rd :: rds => (r.round rd).1 :: run (r.round rd).2 rds

end ShiftRegister

/-! ### The same rounds on the C functions -/

namespace Fxlms

/-- Consecutive calls of `anc_predict`. -/
def predictAll : Fxlms α L → List UInt16 → List UInt16 × Fxlms α L
  | s, [] => ([], s)
  | s, n :: ns =>
      let out := ancPredict s n
      let rest := predictAll out.2 ns
      (out.1 :: rest.1, rest.2)

def round (s : Fxlms α L) (rd : Round) : RoundResult α × Fxlms α L :=
  let out := s.predictAll (rd.noise :: rd.more)
  let s' := ancUpdate out.2 rd.residual
  (⟨out.1, s'.W.toList⟩, s')

def run : Fxlms α L → List Round → List (RoundResult α)
  | _, [] => []
  | s, rd :: rds => (s.round rd).1 :: run (s.round rd).2 rds

end Fxlms

end Anc
