/-
Saturation.

`clamp m x` cuts `x` off at `m` and `-m`.  What a feedback loop needs of it is
not where it saturates but how steep it is: between any two arguments its secant
has a slope in `[0, 1]`.  `UnitSlope` is that property; it composes, so a cascade
of saturations with offsets in between has it too, and a difference of saturated
values is a fraction of the difference of the values.
-/
import Mathlib.Algebra.Order.Field.Basic
import Mathlib.Tactic.Linarith
import Mathlib.Tactic.Ring

namespace Saturation

variable {K : Type*} [Field K] [LinearOrder K] [IsStrictOrderedRing K]

/-- Every secant of `f` has a slope between zero and one. -/
def UnitSlope (f : K → K) : Prop :=
  ∀ x y, ∃ a, 0 ≤ a ∧ a ≤ 1 ∧ f x - f y = a * (x - y)

theorem UnitSlope.comp {f g : K → K} (hf : UnitSlope f) (hg : UnitSlope g) :
    UnitSlope (fun x => f (g x)) := by
  intro x y
  obtain ⟨a, ha0, ha1, ha⟩ := hg x y
  obtain ⟨b, hb0, hb1, hb⟩ := hf (g x) (g y)
  refine ⟨b * a, mul_nonneg hb0 ha0, mul_le_one₀ hb1 ha0 ha1, ?_⟩
  rw [hb, ha, mul_assoc]

theorem UnitSlope.const_add (c : K) : UnitSlope (fun x => c + x) := by
  intro x y
  exact ⟨1, zero_le_one, le_refl 1, by ring⟩

/-- A monotone map that never stretches has unit slope. -/
theorem unitSlope_of_le {f : K → K} (hmono : ∀ x y, y ≤ x → f y ≤ f x)
    (hlip : ∀ x y, y ≤ x → f x - f y ≤ x - y) : UnitSlope f := by
  have key : ∀ x y, y < x → ∃ a, 0 ≤ a ∧ a ≤ 1 ∧ f x - f y = a * (x - y) := by
    intro x y hxy
    have hpos : 0 < x - y := sub_pos.mpr hxy
    refine ⟨(f x - f y) / (x - y), ?_, ?_, ?_⟩
    · exact div_nonneg (sub_nonneg.mpr (hmono x y hxy.le)) hpos.le
    · exact (div_le_one hpos).mpr (hlip x y hxy.le)
    · exact (div_mul_cancel₀ _ hpos.ne').symm
  intro x y
  rcases lt_trichotomy x y with hxy | hxy | hxy
  · obtain ⟨a, ha0, ha1, ha⟩ := key y x hxy
    refine ⟨a, ha0, ha1, ?_⟩
    rw [← neg_sub (f y), ha]
    ring
  · exact ⟨0, le_refl 0, zero_le_one, by rw [hxy]; ring⟩
  · exact key x y hxy

/-- Cut off at `m` and `-m`. -/
def clamp (m x : K) : K := if m < x then m else if x < -m then -m else x

theorem clamp_of_abs_le {m x : K} (h : |x| ≤ m) : clamp m x = x := by
  obtain ⟨hlo, hhi⟩ := abs_le.mp h
  unfold clamp
  rw [if_neg (not_lt.mpr hhi), if_neg (not_lt.mpr hlo)]

theorem abs_clamp_le {m : K} (hm : 0 ≤ m) (x : K) : |clamp m x| ≤ m := by
  unfold clamp
  split
  · rw [abs_of_nonneg hm]
  · split
    · rw [abs_neg, abs_of_nonneg hm]
    · exact abs_le.mpr ⟨by linarith, by linarith⟩

/-- The upper end is reached only from beyond it. -/
theorem clamp_lt_iff {m : K} (hm : 0 < m) (x : K) : clamp m x < m ↔ x < m := by
  unfold clamp
  constructor
  · intro h
    by_contra hx
    split at h
    · exact lt_irrefl m h
    · split at h <;> linarith
  · intro h
    rw [if_neg (not_lt.mpr h.le)]
    split <;> linarith

theorem unitSlope_clamp {m : K} (hm : 0 ≤ m) : UnitSlope (clamp m) := by
  refine unitSlope_of_le ?_ ?_
  · intro x y hxy
    unfold clamp
    split <;> split <;> (try split) <;> (try split) <;> linarith
  · intro x y hxy
    unfold clamp
    split <;> split <;> (try split) <;> (try split) <;> linarith

end Saturation
