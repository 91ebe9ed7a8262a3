/-
Binary floating-point formats, and rounding to nearest.

The numbers of a format are the `m * 2 ^ e` with a significand below `2 ^ prec` and an
exponent not below `emin`; the least exponent makes the subnormal numbers.  There is no
greatest exponent, so that nothing overflows: that a computation stays below a largest
number is a bound to be proved of it.

`round` goes to the nearest number and, between two, to the one with the even
significand.  Two facts say all of it: the result is a number of the format
(`mem_round`), and no number of the format is nearer (`round_nearest`).  From these it
follows that rounding leaves numbers alone, is monotone, and absorbs what is too small:
two numbers lie apart by more than a fraction of either (`Mem.gap`), so that a sum is the
larger operand when the smaller one is below a fraction of it (`round_add_eq`).
-/
import Mathlib.Algebra.Order.Field.Power
import Mathlib.Data.Int.Log
import Mathlib.Data.Rat.Floor
import Mathlib.Tactic.Linarith
import Mathlib.Tactic.Positivity
import Mathlib.Tactic.Ring

namespace Rounding

/-- A precision and a least exponent. -/
structure Format where
  prec : Nat
  emin : Int
  pos : 1 ≤ prec

/-! ### Integers -/

/-- The nearest integer, the even one of two. -/
def nearestEven (q : ℚ) : ℤ :=
  if q - ⌊q⌋ < 1 / 2 then ⌊q⌋
  else if 1 / 2 < q - ⌊q⌋ then ⌊q⌋ + 1
  else if ⌊q⌋ % 2 = 0 then ⌊q⌋
  else ⌊q⌋ + 1

theorem abs_sub_nearestEven_le (q : ℚ) : |q - nearestEven q| ≤ 1 / 2 := by
  have hfloor := Int.floor_le q
  have hnext := Int.lt_floor_add_one q
  unfold nearestEven
  split_ifs with hlow hhigh heven <;> push_cast <;> rw [abs_le] <;> constructor <;> linarith

theorem abs_sub_nearestEven_le_int (q : ℚ) (k : ℤ) : |q - nearestEven q| ≤ |q - k| := by
  have hhalf := abs_sub_nearestEven_le q
  by_cases hk : k = nearestEven q
  · rw [hk]
  · have hone : (1 : ℚ) ≤ |(k : ℚ) - nearestEven q| := by
      exact_mod_cast Int.one_le_abs (sub_ne_zero.mpr hk)
    have htriangle : |(k : ℚ) - nearestEven q| ≤ |q - nearestEven q| + |q - k| := by
      rw [abs_sub_comm q (k : ℚ), add_comm]
      exact abs_sub_le _ _ _
    linarith

theorem nearestEven_intCast (k : ℤ) : nearestEven k = k := by
  unfold nearestEven
  simp

theorem nearestEven_neg (q : ℚ) : nearestEven (-q) = -nearestEven q := by
  have hfloor := Int.floor_le q
  have hnext := Int.lt_floor_add_one q
  by_cases hint : q = ⌊q⌋
  · rw [hint, ← Int.cast_neg, nearestEven_intCast, nearestEven_intCast]
  · have hpos : (⌊q⌋ : ℚ) < q := lt_of_le_of_ne hfloor (Ne.symm hint)
    have hneg : ⌊-q⌋ = -⌊q⌋ - 1 := by
      rw [Int.floor_eq_iff]
      push_cast
      constructor <;> linarith
    -- The part above the integer is one less that of `q`, and the parity is the other one.
    unfold nearestEven
    rw [hneg]
    push_cast
    split_ifs <;> first | omega | linarith

/-! ### Grids -/

theorem two_zpow_pos (e : ℤ) : (0 : ℚ) < 2 ^ e := zpow_pos two_pos e

theorem abs_mul_zpow (m e : ℤ) : |(m : ℚ) * 2 ^ e| = |(m : ℚ)| * 2 ^ e := by
  rw [abs_mul, abs_of_pos (two_zpow_pos e)]

/-- A grid is part of every finer one. -/
theorem exists_mul_zpow (m : ℤ) {d e : ℤ} (hde : d ≤ e) : ∃ n : ℤ, (m : ℚ) * 2 ^ e = n * 2 ^ d := by
  obtain ⟨k, hk⟩ := Int.eq_ofNat_of_zero_le (sub_nonneg.mpr hde)
  refine ⟨m * 2 ^ k, ?_⟩
  rw [show e = d + k by omega, zpow_add₀ two_ne_zero, zpow_natCast]
  push_cast
  ring

/-- Two points of a grid differ by a whole cell. -/
theorem zpow_le_abs_sub {m n e : ℤ} (hne : (m : ℚ) * 2 ^ e ≠ n * 2 ^ e) :
    (2 : ℚ) ^ e ≤ |(m : ℚ) * 2 ^ e - n * 2 ^ e| := by
  have hmn : m - n ≠ 0 := fun h => hne (by rw [sub_eq_zero.mp h])
  have hone : (1 : ℚ) ≤ |((m - n : ℤ) : ℚ)| := by exact_mod_cast Int.one_le_abs hmn
  rw [← sub_mul, ← Int.cast_sub, abs_mul_zpow]
  exact le_mul_of_one_le_left (two_zpow_pos e).le hone

namespace Format

variable (F : Format)

/-! ### The numbers of a format -/

/-- A number of the format. -/
def Mem (q : ℚ) : Prop := ∃ m e : ℤ, |m| < 2 ^ F.prec ∧ F.emin ≤ e ∧ q = m * 2 ^ e

namespace Mem

variable {F} {q : ℚ}

theorem neg (h : F.Mem q) : F.Mem (-q) := by
  obtain ⟨m, e, hm, he, rfl⟩ := h
  exact ⟨-m, e, by rwa [abs_neg], he, by push_cast; ring⟩

theorem intCast {m : ℤ} (hm : |m| < 2 ^ F.prec) (he : F.emin ≤ 0) : F.Mem m :=
  ⟨m, 0, hm, he, by simp⟩

theorem zpow {e : ℤ} (he : F.emin ≤ e) : F.Mem (2 ^ e) := by
  have hone : 1 < 2 ^ F.prec := Nat.one_lt_two_pow (Nat.one_le_iff_ne_zero.mp F.pos)
  refine ⟨1, e, ?_, he, by simp⟩
  rw [abs_one]
  exact_mod_cast hone

/-- One more significand fits, with a greater exponent. -/
theorem of_le {m e : ℤ} (hm : |m| ≤ 2 ^ F.prec) (he : F.emin ≤ e) : F.Mem (m * 2 ^ e) := by
  rcases hm.lt_or_eq with hlt | heq
  · exact ⟨m, e, hlt, he, rfl⟩
  · have hmem : F.Mem (2 ^ F.prec * 2 ^ e) := by
      have := zpow (F := F) (e := F.prec + e) (by omega)
      rwa [zpow_add₀ two_ne_zero, zpow_natCast] at this
    rcases abs_choice m with hpos | hneg
    · have hm' : (m : ℚ) = 2 ^ F.prec := by exact_mod_cast hpos.symm.trans heq
      rwa [hm']
    · have hm' : (m : ℚ) = -2 ^ F.prec := by
        have : m = -2 ^ F.prec := by omega
        exact_mod_cast this
      rw [hm', neg_mul]
      exact hmem.neg

/-- **Two numbers lie apart.** -/
theorem gap {f w : ℚ} (hf : F.Mem f) (hw : F.Mem w) (hne : f ≠ w) :
    |w| < 2 ^ (F.prec + 1) * |f - w| := by
  obtain ⟨m, e, hm, -, rfl⟩ := hf
  obtain ⟨n, d, hn, -, rfl⟩ := hw
  have hm' : |(m : ℚ)| < 2 ^ F.prec := by exact_mod_cast hm
  have hn' : |(n : ℚ)| < 2 ^ F.prec := by exact_mod_cast hn
  rcases le_total d e with hde | hed
  -- On the grid of `w`, a cell is a fraction of it.
  · obtain ⟨l, hl⟩ := exists_mul_zpow m hde
    rw [hl] at hne ⊢
    calc |(n : ℚ) * 2 ^ d| = |(n : ℚ)| * 2 ^ d := abs_mul_zpow n d
      _ < 2 ^ F.prec * 2 ^ d := mul_lt_mul_of_pos_right hn' (two_zpow_pos d)
      _ ≤ 2 ^ (F.prec + 1) * |(l : ℚ) * 2 ^ d - n * 2 ^ d| :=
          mul_le_mul (pow_le_pow_right₀ one_le_two (Nat.le_succ _)) (zpow_le_abs_sub hne)
            (two_zpow_pos d).le (pow_nonneg zero_le_two _)
  -- On a finer grid, `f` is less than so many cells, and the distance is all the rest.
  · obtain ⟨l, hl⟩ := exists_mul_zpow n hed
    rw [hl] at hne ⊢
    set D := |(m : ℚ) * 2 ^ e - l * 2 ^ e| with hD
    have hone : (1 : ℚ) ≤ 2 ^ F.prec := one_le_pow₀ one_le_two
    have htriangle : |(l : ℚ) * 2 ^ e| ≤ |(m : ℚ) * 2 ^ e| + D := by
      have h := abs_sub_abs_le_abs_sub ((l : ℚ) * 2 ^ e) (m * 2 ^ e)
      rw [abs_sub_comm, ← hD] at h
      linarith
    calc |(l : ℚ) * 2 ^ e| ≤ |(m : ℚ)| * 2 ^ e + D := by rwa [← abs_mul_zpow]
      _ < 2 ^ F.prec * 2 ^ e + D :=
          add_lt_add_left (mul_lt_mul_of_pos_right hm' (two_zpow_pos e)) D
      _ ≤ 2 ^ F.prec * D + 2 ^ F.prec * D :=
          add_le_add (mul_le_mul_of_nonneg_left (zpow_le_abs_sub hne) (pow_nonneg zero_le_two _))
            (le_mul_of_one_le_left (abs_nonneg _) hone)
      _ = 2 ^ (F.prec + 1) * D := by ring

end Mem

/-! ### Rounding -/

/-- The exponent of the cells around a number. -/
def exponent (q : ℚ) : ℤ := max (Int.log 2 |q| - F.prec + 1) F.emin

/-- The nearest number of the format, the one with the even significand of two. -/
def round (q : ℚ) : ℚ := nearestEven (q / 2 ^ F.exponent q) * 2 ^ F.exponent q

variable {F}

theorem abs_lt_of_exponent (q : ℚ) : |q| < 2 ^ F.prec * 2 ^ F.exponent q := by
  have hlog : |q| < (2 : ℚ) ^ (Int.log 2 |q| + 1) := by
    exact_mod_cast Int.lt_zpow_succ_log_self one_lt_two |q|
  have hle : Int.log 2 |q| + 1 ≤ F.prec + F.exponent q := by
    unfold exponent
    omega
  calc |q| < 2 ^ (Int.log 2 |q| + 1) := hlog
    _ ≤ 2 ^ ((F.prec : ℤ) + F.exponent q) := zpow_le_zpow_right₀ one_le_two hle
    _ = 2 ^ F.prec * 2 ^ F.exponent q := by rw [zpow_add₀ two_ne_zero, zpow_natCast]

theorem mem_round (q : ℚ) : F.Mem (F.round q) := by
  refine Mem.of_le ?_ (le_max_right _ _)
  set y := q / 2 ^ F.exponent q with hy
  have hbound : |y| < 2 ^ F.prec := by
    rw [hy, abs_div, abs_of_pos (two_zpow_pos _), div_lt_iff₀ (two_zpow_pos _)]
    exact abs_lt_of_exponent q
  have hhalf := abs_sub_nearestEven_le y
  have hlt : |(nearestEven y : ℚ)| < 2 ^ F.prec + 1 := by
    have h := abs_sub_abs_le_abs_sub (nearestEven y : ℚ) y
    rw [abs_sub_comm] at h
    linarith
  have hlt' : |nearestEven y| < 2 ^ F.prec + 1 := by exact_mod_cast hlt
  omega

/-- Of the grid around a number, no point is nearer. -/
theorem round_nearest_grid (q : ℚ) (k : ℤ) : |q - F.round q| ≤ |q - k * 2 ^ F.exponent q| := by
  have hscale : ∀ m : ℤ, |q - m * 2 ^ F.exponent q|
      = |q / 2 ^ F.exponent q - m| * 2 ^ F.exponent q := by
    intro m
    have hq : q - m * 2 ^ F.exponent q = (q / 2 ^ F.exponent q - m) * 2 ^ F.exponent q := by
      rw [sub_mul, div_mul_cancel₀ _ (two_zpow_pos _).ne']
    rw [hq, abs_mul, abs_of_pos (two_zpow_pos _)]
  unfold round
  rw [hscale, hscale]
  exact mul_le_mul_of_nonneg_right (abs_sub_nearestEven_le_int _ k) (two_zpow_pos _).le

theorem round_neg (q : ℚ) : F.round (-q) = -F.round q := by
  have hexponent : F.exponent (-q) = F.exponent q := by
    unfold exponent
    rw [abs_neg]
  unfold round
  rw [hexponent, neg_div, nearestEven_neg]
  push_cast
  rw [neg_mul]

theorem round_zero : F.round 0 = 0 := by
  unfold round
  rw [zero_div, ← Int.cast_zero, nearestEven_intCast, Int.cast_zero, zero_mul]

/-- The power of two below a number is on its grid. -/
theorem exists_pow_log {q : ℚ} (hq : q ≠ 0) (h : F.emin < F.exponent q) :
    ∃ k : ℤ, |q - k * 2 ^ F.exponent q| = |q| - 2 ^ F.prec * 2 ^ (F.exponent q - 1) := by
  obtain ⟨j, hj⟩ := Nat.exists_eq_add_of_le' F.pos
  have hlog : F.exponent q - 1 + F.prec = Int.log 2 |q| := by
    unfold exponent at h ⊢
    omega
  have hpow : (2 : ℚ) ^ F.prec * 2 ^ (F.exponent q - 1) = 2 ^ Int.log 2 |q| := by
    rw [← hlog, zpow_add₀ two_ne_zero, zpow_natCast, mul_comm]
  have hgrid : (2 : ℚ) ^ F.prec * 2 ^ (F.exponent q - 1) = 2 ^ j * 2 ^ F.exponent q := by
    rw [hj, pow_succ, zpow_sub_one₀ two_ne_zero]
    field_simp
  have hle : (2 : ℚ) ^ F.prec * 2 ^ (F.exponent q - 1) ≤ |q| := by
    rw [hpow]
    exact_mod_cast Int.zpow_log_le_self one_lt_two (abs_pos.mpr hq)
  rcases abs_choice q with hpos | hneg
  · refine ⟨2 ^ j, ?_⟩
    push_cast
    rw [← hgrid, hpos, abs_of_nonneg]
    rw [hpos] at hle
    linarith
  · refine ⟨-2 ^ j, ?_⟩
    push_cast
    rw [neg_mul, ← hgrid, hneg, abs_of_nonpos]
    · ring
    · rw [hneg] at hle
      linarith

/-- **No number of the format is nearer.** -/
theorem round_nearest (q : ℚ) {f : ℚ} (hf : F.Mem f) : |q - F.round q| ≤ |q - f| := by
  obtain ⟨m, e, hm, he, rfl⟩ := hf
  rcases le_or_gt (F.exponent q) e with hcoarse | hfine
  · obtain ⟨k, hk⟩ := exists_mul_zpow m hcoarse
    rw [hk]
    exact round_nearest_grid q k
  by_cases hq : q = 0
  · rw [hq, round_zero, sub_self, abs_zero]
    exact abs_nonneg _
  -- A number off the grid is below the power of two that the grid has between it and `q`.
  obtain ⟨k, hk⟩ := exists_pow_log hq (he.trans_lt hfine)
  have hm' : |(m : ℚ)| ≤ 2 ^ F.prec := by exact_mod_cast hm.le
  have hsmall : |(m : ℚ) * 2 ^ e| ≤ 2 ^ F.prec * 2 ^ (F.exponent q - 1) := by
    rw [abs_mul_zpow]
    exact mul_le_mul hm' (zpow_le_zpow_right₀ one_le_two (by omega)) (two_zpow_pos e).le
      (pow_nonneg zero_le_two _)
  calc |q - F.round q| ≤ |q - k * 2 ^ F.exponent q| := round_nearest_grid q k
    _ = |q| - 2 ^ F.prec * 2 ^ (F.exponent q - 1) := hk
    _ ≤ |q| - |(m : ℚ) * 2 ^ e| := sub_le_sub_left hsmall _
    _ ≤ |q - m * 2 ^ e| := abs_sub_abs_le_abs_sub _ _

/-! ### What rounding to nearest does -/

theorem round_of_mem {q : ℚ} (hq : F.Mem q) : F.round q = q := by
  have h := round_nearest q hq
  rw [sub_self, abs_zero] at h
  exact (sub_eq_zero.mp (abs_eq_zero.mp (le_antisymm h (abs_nonneg _)))).symm

theorem round_mono {p q : ℚ} (hpq : p ≤ q) : F.round p ≤ F.round q := by
  by_contra hlt
  rw [not_le] at hlt
  -- Each is nearer to its own result, so that both are in the middle.
  have hp := round_nearest p (mem_round (F := F) q)
  have hq := round_nearest q (mem_round (F := F) p)
  have hp' : F.round p + F.round q ≤ 2 * p := by
    rcases abs_cases (p - F.round p) with ⟨h₁, h₂⟩ | ⟨h₁, h₂⟩ <;>
      rcases abs_cases (p - F.round q) with ⟨h₃, h₄⟩ | ⟨h₃, h₄⟩ <;> linarith
  have hq' : 2 * q ≤ F.round p + F.round q := by
    rcases abs_cases (q - F.round q) with ⟨h₁, h₂⟩ | ⟨h₁, h₂⟩ <;>
      rcases abs_cases (q - F.round p) with ⟨h₃, h₄⟩ | ⟨h₃, h₄⟩ <;> linarith
  have heq : p = q := le_antisymm hpq (by linarith)
  rw [heq] at hlt
  exact lt_irrefl _ hlt

/-- A bound rounds to a bound. -/
theorem abs_round_le_round {q b : ℚ} (hq : |q| ≤ b) : |F.round q| ≤ F.round b := by
  obtain ⟨hlow, hhigh⟩ := abs_le.mp hq
  refine abs_le.mpr ⟨?_, round_mono hhigh⟩
  rw [← round_neg]
  exact round_mono hlow

theorem abs_round_le {q b : ℚ} (hb : F.Mem b) (hq : |q| ≤ b) : |F.round q| ≤ b :=
  (abs_round_le_round hq).trans_eq (round_of_mem hb)

/-- **A sum is its larger operand** when the other one is a small fraction of it. -/
theorem round_add_eq {w d : ℚ} (hw : F.Mem w) (hd : 2 ^ (F.prec + 2) * |d| ≤ |w|) :
    F.round (w + d) = w := by
  by_contra hne
  have hgap := (mem_round (F := F) (w + d)).gap hw hne
  have hnear : |w + d - F.round (w + d)| ≤ |d| := by
    have h := round_nearest (w + d) hw
    rwa [add_sub_cancel_left] at h
  have hdist : |F.round (w + d) - w| ≤ 2 * |d| := by
    calc |F.round (w + d) - w| ≤ |F.round (w + d) - (w + d)| + |w + d - w| := abs_sub_le _ _ _
      _ ≤ |d| + |d| := by
          rw [abs_sub_comm, add_sub_cancel_left]
          exact add_le_add_left hnear _
      _ = 2 * |d| := (two_mul _).symm
  have hle : (2 : ℚ) ^ (F.prec + 1) * |F.round (w + d) - w| ≤ 2 ^ (F.prec + 2) * |d| := by
    calc (2 : ℚ) ^ (F.prec + 1) * |F.round (w + d) - w| ≤ 2 ^ (F.prec + 1) * (2 * |d|) :=
          mul_le_mul_of_nonneg_left hdist (pow_nonneg zero_le_two _)
      _ = 2 ^ (F.prec + 2) * |d| := by ring
  linarith

/-! ### Arithmetic -/

/-- A number of the format. -/
structure Number (F : Format) where
  val : ℚ
  mem : F.Mem val

namespace Number

@[ext] theorem ext {a b : Number F} (h : a.val = b.val) : a = b := by
  cases a
  cases b
  congr

/-- Each operation rounds once. -/
def ofRat (q : ℚ) : Number F := ⟨F.round q, mem_round q⟩

instance add : Add (Number F) := ⟨fun a b => ofRat (a.val + b.val)⟩

instance sub : Sub (Number F) := ⟨fun a b => ofRat (a.val - b.val)⟩

instance mul : Mul (Number F) := ⟨fun a b => ofRat (a.val * b.val)⟩

theorem val_add (a b : Number F) : (a + b).val = F.round (a.val + b.val) := rfl

theorem val_sub (a b : Number F) : (a - b).val = F.round (a.val - b.val) := rfl

theorem val_mul (a b : Number F) : (a * b).val = F.round (a.val * b.val) := rfl

/-- What is a number of the format is not changed. -/
theorem val_ofRat_of_mem {q : ℚ} (hq : F.Mem q) : (ofRat q : Number F).val = q := round_of_mem hq

end Number

end Format

end Rounding
