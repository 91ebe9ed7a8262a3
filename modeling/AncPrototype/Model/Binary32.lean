/-
The filter over `float`.

On this processor `float` is binary32 and `double` is binary64, each operation rounds
once to the nearest number, and there is no unit that would contract a product and a
sum.  A decimal constant is a `double` before it is stored in a `float`.

What overflows has no value here, and neither has anything that is computed from it; what
C makes of an infinity or a NaN is left out.  So a value that is there has come about
without them.
-/
import AncPrototype.Library.Rounding
import AncPrototype.Model.Filter

namespace Anc

open Rounding

/-- The numbers of `float`. -/
def binary32 : Format := ⟨24, -149, by decide⟩

/-- The numbers of `double`. -/
def binary64 : Format := ⟨53, -1074, by decide⟩

/-- `float`. -/
def Binary32 : Type := Option (Format.Number binary32)

namespace Binary32

/-- A result, unless it overflows. -/
def ofNumber (x : Format.Number binary32) : Binary32 := if |x.val| < 2 ^ 128 then some x else none

/-- An operation on two values. -/
def both (op : Format.Number binary32 → Format.Number binary32 → Format.Number binary32) :
    Binary32 → Binary32 → Binary32
  | some x, some y => ofNumber (op x y)
  | _, _ => none

def lt : Binary32 → Binary32 → Bool
  | some x, some y => decide (x.val < y.val)
  | _, _ => false

/-- The cast is undefined in C outside `(-1, 65536)`; there this one reduces modulo `2 ^ 16`, and
where there is no value it gives zero. -/
def toUInt16 : Binary32 → UInt16
  | some x => UInt16.ofNat ⌊x.val⌋.toNat
  | none => 0

end Binary32

instance floatArithBinary32 : FloatArith Binary32 where
  add := Binary32.both (· + ·)
  sub := Binary32.both (· - ·)
  mul := Binary32.both (· * ·)
  ofInt n := .ofNumber (.ofRat n)
  ofDecimal q := .ofNumber (.ofRat (binary64.round q))
  lt := Binary32.lt
  toUInt16 := Binary32.toUInt16

end Anc
