/-
The closed loops: `src/test.c`, `simulation/basic_lms.m` and
`simulation/least_min_squares.m`.

All feed the filter a sequence of inputs and correct it by the sum of the input
and the prediction, each taken relative to mid-scale.  `runTest` does so with the C
functions, on integers; `BasicLms.run` is the simulation, with no truncation.
`run_test` takes its hundred inputs from an array that `initialize_sine`, all of it
commented out, leaves unset, so the inputs are a parameter here.

`LeastMinSquares.run` is the older simulation.  It limits nothing, its buffer holds
the inputs themselves, and the inputs are of an unsigned class, whose subtraction
stops at zero.

Both simulations compute in doubles, and the models here exactly, in rational numbers.
-/
import AncPrototype.Model.Filter
import Mathlib.Algebra.BigOperators.Fin

namespace Anc

variable {α : Type} [FloatArith α] {L : BufLen}

/-- The residual `run_test` forms from an input and its prediction.  `error` is an `int16_t`,
assigned from `int` arithmetic. -/
def testError (input predict : UInt16) : UInt16 :=
  let error : Int16 := Int16.ofInt (((input.toNat : Int) - 2048) + ((predict.toNat : Int) - 2048))
  let error : Int16 := Int16.ofInt (error.toInt + 2048)
  let error : Int16 := if error.toInt < 0 then 0 else if error.toInt > 4096 then 4096 else error
  UInt16.ofInt error.toInt

/-- One iteration of the loop of `run_test`. -/
def runTestStep (s : Fxlms α L) (input : UInt16) : Fxlms α L :=
  let out := ancPredict s input
  ancUpdate out.2 (testError input out.1)

/-- The loop of `run_test`. -/
def runTest (s : Fxlms α L) (inputs : List UInt16) : Fxlms α L := inputs.foldl runTestStep s

/-! ### The simulation -/

/-- `buffer` and `weights`. -/
structure BasicLms where
  buffer : Fin 5 → ℚ
  weights : Fin 5 → ℚ

namespace BasicLms

/-- The limits of the simulation, on `predict` and on `error`. -/
def limit (v : ℚ) : ℚ := if v > 2048 then 2048 else if v < -2048 then -2048 else v

/-- `[(input - 2048); buffer(1:buffer_size-1)]`. -/
def shift (buffer : Fin 5 → ℚ) (input : ℚ) : Fin 5 → ℚ :=
  Fin.cons (input - 2048) fun i : Fin 4 => buffer i.castSucc

/-- `buffer' * -weights`, limited. -/
def predict (buffer weights : Fin 5 → ℚ) : ℚ := limit (∑ i, buffer i * -weights i)

/-- The error, limited. -/
def error (buffer weights : Fin 5 → ℚ) (input : ℚ) : ℚ :=
  limit ((input - 2048) + predict buffer weights)

/-- One iteration. -/
def iterate (step : ℚ) (s : BasicLms) (input : ℚ) : BasicLms :=
  let buffer := shift s.buffer input
  let error := error buffer s.weights input
  { buffer := buffer
    weights := fun i => (1 - step) * s.weights i + step * error * buffer i }

/-- The `step` of the simulation. -/
def simulationStep : ℚ := 1 / 100000000

/-- The simulation before its first input. -/
def cleared (weights : Fin 5 → ℚ) : BasicLms := { buffer := fun _ => 0, weights := weights }

def run (step : ℚ) (s : BasicLms) (inputs : List ℚ) : BasicLms := inputs.foldl (iterate step) s

end BasicLms

/-! ### The older simulation -/

/-- `buffer` and `weights`.  The entries of `buffer` are inputs. -/
structure LeastMinSquares where
  buffer : Fin 5 → UInt16
  weights : Fin 5 → ℚ

namespace LeastMinSquares

/-- `double(buffer)`. -/
def regressor (buffer : Fin 5 → UInt16) : Fin 5 → ℚ := fun i => (buffer i).toNat

/-- `[input; buffer(1:buffer_size-1)]`. -/
def shift (buffer : Fin 5 → UInt16) (input : UInt16) : Fin 5 → UInt16 :=
  Fin.cons input fun i : Fin 4 => buffer i.castSucc

/-- `buffer' * -weights`. -/
def predict (buffer : Fin 5 → UInt16) (weights : Fin 5 → ℚ) : ℚ :=
  ∑ i, regressor buffer i * -weights i

/-- `input - 2048`, in `uint16`. -/
def inDist (input : UInt16) : Nat := input.toNat - 2048

/-- `double(in_dist) + double(pr_dist)`. -/
def error (buffer : Fin 5 → UInt16) (weights : Fin 5 → ℚ) (input : UInt16) : ℚ :=
  inDist input + (predict buffer weights - 2048)

/-- One iteration. -/
def iterate (step : ℚ) (s : LeastMinSquares) (input : UInt16) : LeastMinSquares :=
  let buffer := shift s.buffer input
  let error := error buffer s.weights input
  { buffer := buffer
    weights := fun i => (1 - step) * s.weights i + step * error * regressor buffer i }

/-- The `step` of this simulation. -/
def simulationStep : ℚ := 3 / 1000000000

/-- The simulation before its first input. -/
def cleared (weights : Fin 5 → ℚ) : LeastMinSquares := { buffer := fun _ => 0, weights := weights }

def run (step : ℚ) (s : LeastMinSquares) (inputs : List UInt16) : LeastMinSquares :=
  inputs.foldl (iterate step) s

end LeastMinSquares

end Anc
