/-
Fields of a register.

A register is a word and a field a run of its bits.  `get` reads a field, and `insert`
is what a driver does to change one: clear the bits under the field's mask and put the
new value there.  A value that does not fit is cut down by the mask, not carried into
the bits above.

Nothing here compares bits one by one at a use.  Two fields are `Apart` or not, which
is decided by their positions, and what is written to one is then not seen by the other.
A `Layout` names the fields of a register; through it the word is one value for each
name, and a write to a field the update of one value (`Layout.read_insert`).
-/
import Mathlib.Logic.Function.Basic
import Mathlib.Tactic.Common

namespace Register

/-! ### One bit -/

theorem getLsbD_or_bit {w k : Nat} (hk : k < w) (r : BitVec w) (i : Nat) :
    (r ||| 1#w <<< k).getLsbD i = (decide (i = k) || r.getLsbD i) := by
  rw [← BitVec.twoPow_eq, BitVec.getLsbD_or, BitVec.getLsbD_twoPow]
  by_cases hi : i = k
  · simp [hi, hk]
  · simp [hi, Ne.symm hi]

theorem getLsbD_and_not_bit {w : Nat} (k : Nat) (r : BitVec w) (i : Nat) :
    (r &&& ~~~(1#w <<< k)).getLsbD i = (!decide (i = k) && r.getLsbD i) := by
  rw [← BitVec.twoPow_eq, BitVec.getLsbD_and, BitVec.getLsbD_not, BitVec.getLsbD_twoPow]
  by_cases hiw : i < w
  · by_cases hi : i = k
    · simp [hi, hi ▸ hiw]
    · simp [hi, Ne.symm hi, hiw]
  · simp [BitVec.getLsbD_of_ge r i (Nat.not_lt.mp hiw)]

/-- Bits that are cleared and put back. -/
theorem and_or_self {w : Nat} (r s : BitVec w) : r &&& s ||| r = r := by
  refine BitVec.eq_of_getLsbD_eq fun i hi => ?_
  rw [BitVec.getLsbD_or, BitVec.getLsbD_and]
  cases r.getLsbD i <;> simp

/-! ### Fields -/

/-- A run of bits of a word. -/
structure Field (w : Nat) where
  pos : Nat
  width : Nat
  fits : pos + width ≤ w

namespace Field

variable {w : Nat} (f : Field w)

/-- The bits of the field. -/
def mask : BitVec w := (BitVec.allOnes f.width).setWidth w <<< f.pos

def get (r : BitVec w) : BitVec f.width := r.extractLsb' f.pos f.width

/-- The word that has a value in the field and nothing elsewhere. -/
def value (v : BitVec w) : BitVec w := f.mask &&& v <<< f.pos

def clear (r : BitVec w) : BitVec w := r &&& ~~~f.mask

def insert (r v : BitVec w) : BitVec w := f.clear r ||| f.value v

/-- Two fields without a bit in common. -/
def Apart (f g : Field w) : Prop := f.pos + f.width ≤ g.pos ∨ g.pos + g.width ≤ f.pos

instance (f g : Field w) : Decidable (f.Apart g) := inferInstanceAs (Decidable (_ ∨ _))

/-! ### Bits -/

theorem getLsbD_mask (i : Nat) :
    f.mask.getLsbD i = decide (f.pos ≤ i ∧ i < f.pos + f.width) := by
  have hfits := f.fits
  unfold mask
  rw [BitVec.getLsbD_shiftLeft, BitVec.getLsbD_setWidth, BitVec.getLsbD_allOnes]
  by_cases hlow : f.pos ≤ i
  · by_cases hhigh : i < f.pos + f.width
    · simp [hlow, hhigh, show i < w by omega, show i - f.pos < f.width by omega,
        show i - f.pos < w by omega]
    · simp [hlow, hhigh, show ¬ i - f.pos < f.width by omega]
  · simp [hlow, show i < f.pos by omega]

/-- Every bit that is read is a bit of the word. -/
theorem getLsbD_get (r : BitVec w) (i : Nat) :
    (f.get r).getLsbD i = (decide (i < f.width) && r.getLsbD (f.pos + i)) :=
  BitVec.getLsbD_extractLsb' ..

theorem get_or (r s : BitVec w) : f.get (r ||| s) = f.get r ||| f.get s := BitVec.extractLsb'_or

theorem get_and (r s : BitVec w) : f.get (r &&& s) = f.get r &&& f.get s := BitVec.extractLsb'_and

theorem get_zero : f.get 0 = 0 := BitVec.extractLsb'_zero

/-- A field that is shifted down. -/
theorem and_mask_shift (r : BitVec w) : (r &&& f.mask) >>> f.pos = (f.get r).setWidth w := by
  have hfits := f.fits
  refine BitVec.eq_of_getLsbD_eq fun i hi => ?_
  rw [BitVec.getLsbD_ushiftRight, BitVec.getLsbD_and, getLsbD_mask, BitVec.getLsbD_setWidth,
    getLsbD_get]
  by_cases hin : i < f.width
  · simp [hi, hin]
  · simp [hin]

/-! ### Reading what has been written -/

theorem get_mask_self : f.get f.mask = BitVec.allOnes f.width := by
  refine BitVec.eq_of_getLsbD_eq fun i hi => ?_
  rw [getLsbD_get, getLsbD_mask]
  simp [hi]

theorem get_mask_of_apart {g : Field w} (h : f.Apart g) : g.get f.mask = 0 := by
  refine BitVec.eq_of_getLsbD_eq fun i hi => ?_
  have hapart : ¬ (f.pos ≤ g.pos + i ∧ g.pos + i < f.pos + f.width) := by
    unfold Apart at h
    omega
  rw [getLsbD_get, getLsbD_mask, decide_eq_false hapart]
  simp

theorem get_not_mask_of_apart {g : Field w} (h : f.Apart g) :
    g.get (~~~f.mask) = BitVec.allOnes g.width := by
  refine BitVec.eq_of_getLsbD_eq fun i hi => ?_
  have hbit := congrArg (fun x => x.getLsbD i) (f.get_mask_of_apart h)
  have hfits := g.fits
  simp only [getLsbD_get, hi, decide_true, Bool.true_and] at hbit ⊢
  rw [BitVec.getLsbD_not, hbit]
  simp [hi, show g.pos + i < w by omega]

theorem get_not_mask_self : f.get (~~~f.mask) = 0 := by
  refine BitVec.eq_of_getLsbD_eq fun i hi => ?_
  rw [getLsbD_get, BitVec.getLsbD_not, getLsbD_mask]
  simp [hi]

theorem get_clear_self (r : BitVec w) : f.get (f.clear r) = 0 := by
  unfold clear
  rw [get_and, get_not_mask_self]
  simp

/-- A field keeps its value when another one is cleared. -/
theorem get_clear_of_apart {g : Field w} (h : f.Apart g) (r : BitVec w) :
    g.get (f.clear r) = g.get r := by
  unfold clear
  rw [get_and, f.get_not_mask_of_apart h]
  simp

theorem get_value_self (v : BitVec w) : f.get (f.value v) = v.setWidth f.width := by
  refine BitVec.eq_of_getLsbD_eq fun i hi => ?_
  have hfits := f.fits
  unfold value
  rw [getLsbD_get, BitVec.getLsbD_and, getLsbD_mask, BitVec.getLsbD_shiftLeft,
    BitVec.getLsbD_setWidth]
  simp [hi, show f.pos + i < w by omega]

theorem get_value_of_apart {g : Field w} (h : f.Apart g) (v : BitVec w) :
    g.get (f.value v) = 0 := by
  unfold value
  rw [get_and, f.get_mask_of_apart h]
  simp

/-- **What is written to a field is what is read from it**, as far as it fits. -/
theorem get_insert_self (r v : BitVec w) : f.get (f.insert r v) = v.setWidth f.width := by
  unfold insert
  rw [get_or, get_clear_self, get_value_self]
  simp

/-- **And no other field sees it.** -/
theorem get_insert_of_apart {g : Field w} (h : f.Apart g) (r v : BitVec w) :
    g.get (f.insert r v) = g.get r := by
  unfold insert
  rw [get_or, f.get_clear_of_apart h, f.get_value_of_apart h]
  simp

/-- Setting the bits of a field, and clearing them. -/
theorem or_mask (r : BitVec w) : r ||| f.mask = f.insert r (BitVec.allOnes w) := by
  have hfits := f.fits
  refine BitVec.eq_of_getLsbD_eq fun i hi => ?_
  unfold insert clear value
  rw [BitVec.getLsbD_or, BitVec.getLsbD_or, BitVec.getLsbD_and, BitVec.getLsbD_and,
    BitVec.getLsbD_not, BitVec.getLsbD_shiftLeft, BitVec.getLsbD_allOnes, getLsbD_mask]
  by_cases hin : f.pos ≤ i ∧ i < f.pos + f.width
  · simp [hi, hin, show ¬ i < f.pos by omega, show i - f.pos < w by omega]
  · simp [hi, hin]

theorem and_not_mask (r : BitVec w) : r &&& ~~~f.mask = f.insert r 0 := by
  simp [insert, clear, value]

theorem clear_or (r s : BitVec w) : f.clear (r ||| s) = f.clear r ||| f.clear s := by
  unfold clear
  rw [BitVec.and_comm, BitVec.and_or_distrib_left, BitVec.and_comm r, BitVec.and_comm s]

/-- Clearing one field does not touch what is written to another. -/
theorem clear_value_of_apart {g : Field w} (h : f.Apart g) (v : BitVec w) :
    f.clear (g.value v) = g.value v := by
  refine BitVec.eq_of_getLsbD_eq fun i hi => ?_
  unfold clear value
  rw [BitVec.getLsbD_and, BitVec.getLsbD_and, BitVec.getLsbD_not, getLsbD_mask, getLsbD_mask]
  by_cases hin : g.pos ≤ i ∧ i < g.pos + g.width
  · have hout : ¬ (f.pos ≤ i ∧ i < f.pos + f.width) := by
      unfold Apart at h
      omega
    simp [hi, hout]
  · simp [hin]

theorem mask_eq_value : f.mask = f.value (BitVec.allOnes w) := by
  have hmask := f.or_mask 0
  unfold insert clear at hmask
  simpa using hmask

end Field

/-- Named fields, no two of which have a bit in common. -/
structure Layout (w : Nat) (N : Type) where
  field : N → Field w
  apart : ∀ m n, m ≠ n → (field m).Apart (field n)

namespace Layout

variable {w : Nat} {N : Type} (l : Layout w N)

/-- A value for each name. -/
abbrev Values : Type := (n : N) → BitVec (l.field n).width

/-- What a word says. -/
def read (r : BitVec w) : l.Values := fun n => (l.field n).get r

variable [DecidableEq N]

/-- One value changes. -/
def set (vs : l.Values) (n : N) (v : BitVec w) : l.Values :=
  Function.update vs n (v.setWidth (l.field n).width)

/-- **A write to a field changes the value of its name and no other.** -/
theorem read_insert (r v : BitVec w) (n : N) :
    l.read ((l.field n).insert r v) = l.set (l.read r) n v := by
  funext m
  unfold set
  by_cases hm : m = n
  · subst hm
    rw [Function.update_self]
    exact (l.field m).get_insert_self r v
  · rw [Function.update_of_ne hm]
    exact (l.field n).get_insert_of_apart (l.apart n m (Ne.symm hm)) r v

/-- A field of one bit is set. -/
theorem read_or_mask {n : N} (hwidth : (l.field n).width = 1) (r : BitVec w) :
    l.read (r ||| (l.field n).mask) = l.set (l.read r) n 1 := by
  have hfits := (l.field n).fits
  rw [Field.or_mask, l.read_insert]
  unfold set
  congr 1
  refine BitVec.eq_of_getLsbD_eq fun i hi => ?_
  obtain rfl : i = 0 := by omega
  simp [show 0 < w by omega, hi]

theorem read_and_not_mask (r : BitVec w) (n : N) :
    l.read (r &&& ~~~(l.field n).mask) = l.set (l.read r) n 0 := by
  rw [Field.and_not_mask, l.read_insert]

theorem read_switch {n : N} (hwidth : (l.field n).width = 1) (r : BitVec w) (P : Prop)
    [Decidable P] :
    l.read (if P then r ||| (l.field n).mask else r &&& ~~~(l.field n).mask)
      = l.set (l.read r) n (if P then 1 else 0) := by
  by_cases hP : P
  · rw [if_pos hP, if_pos hP, l.read_or_mask hwidth]
  · rw [if_neg hP, if_neg hP, l.read_and_not_mask]

/-- Bits are added to one value. -/
def add (vs : l.Values) (n : N) (v : BitVec w) : l.Values :=
  Function.update vs n (vs n ||| v.setWidth (l.field n).width)

/-- **A driver that only sets bits adds to what a field holds.** -/
theorem read_or_value (r v : BitVec w) (n : N) :
    l.read (r ||| (l.field n).value v) = l.add (l.read r) n v := by
  funext m
  unfold add read
  rw [Field.get_or]
  by_cases hm : m = n
  · subst hm
    rw [Function.update_self, (l.field m).get_value_self]
  · rw [Function.update_of_ne hm, (l.field n).get_value_of_apart (l.apart n m (Ne.symm hm))]
    simp

theorem read_or_values (values : List (N × BitVec w)) :
    ∀ r : BitVec w, l.read (values.foldl (fun r s => r ||| (l.field s.1).value s.2) r)
      = values.foldl (fun vs s => l.add vs s.1 s.2) (l.read r) := by
  induction values with
  | nil => intro r; rfl
  | cons s values ih =>
      intro r
      rw [List.foldl_cons, List.foldl_cons, ih, l.read_or_value]

end Layout

end Register
