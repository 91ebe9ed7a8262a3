/-
The simulated loop does not run away from its canceller.

The weights `(1, 0, 0, 0, 0)` reproduce the newest deviation with the opposite sign,
so their error is zero on every input.  The error of any other weights is two nested
saturations of a value that differs from theirs by `-(v · h)`, where `v` is the
distance to the canceller and `h` the regressor; saturations have unit slope, so the
error is `-a (v · h)` for some `a` in `[0, 1]` (`error_sub_error`).  One iteration is
then a contraction by `1 - μ` plus the pull `μ` of the leakage towards zero, which
sits at distance one from the canceller (`iterate_stable`).
-/
import AncPrototype.Library.Clamp
import AncPrototype.Library.LeakyLms
import AncPrototype.Model.ClosedLoop
import Mathlib.Data.Matrix.Mul
import Mathlib.Tactic.FinCases
import Mathlib.Tactic.NormNum

namespace Anc

namespace BasicLms

open Saturation LeakyLms

/-- The exact canceller. -/
def canceller : Fin 5 → ℚ := ![1, 0, 0, 0, 0]

theorem limit_eq (v : ℚ) : limit v = clamp 2048 v := rfl

/-- The composed saturations. -/
def saturate (d y : ℚ) : ℚ := clamp 2048 (d + clamp 2048 y)

theorem unitSlope_saturate (d : ℚ) : UnitSlope (saturate d) := by
  have hclamp : UnitSlope (clamp (2048 : ℚ)) := unitSlope_clamp (by norm_num)
  exact hclamp.comp ((UnitSlope.const_add d).comp hclamp)

theorem predict_eq (buffer weights : Fin 5 → ℚ) :
    predict buffer weights = clamp 2048 (-(buffer ⬝ᵥ weights)) := by
  unfold predict
  rw [limit_eq]
  congr 1
  simp [dotProduct, Finset.sum_neg_distrib]

theorem error_eq (buffer weights : Fin 5 → ℚ) (input : ℚ) :
    error buffer weights input = saturate (input - 2048) (-(buffer ⬝ᵥ weights)) := by
  unfold error saturate
  rw [predict_eq, limit_eq]

/-- The errors of two weight vectors differ by a fraction of what the vectors contribute. -/
theorem error_sub_error (buffer w w' : Fin 5 → ℚ) (input : ℚ) :
    ∃ a, 0 ≤ a ∧ a ≤ 1 ∧
      error buffer w input - error buffer w' input = -a * ((w - w') ⬝ᵥ buffer) := by
  obtain ⟨a, ha0, ha1, ha⟩ := unitSlope_saturate (input - 2048) (-(buffer ⬝ᵥ w)) (-(buffer ⬝ᵥ w'))
  refine ⟨a, ha0, ha1, ?_⟩
  rw [error_eq, error_eq, ha, sub_dotProduct, dotProduct_comm w, dotProduct_comm w']
  ring

/-! ### The buffer -/

/-- Every entry is a deviation. -/
def InRange (buffer : Fin 5 → ℚ) : Prop := ∀ i, |buffer i| ≤ 2048

theorem inRange_shift {buffer : Fin 5 → ℚ} (h : InRange buffer) {input : ℚ}
    (hin : 0 ≤ input ∧ input ≤ 4096) : InRange (shift buffer input) := by
  intro i
  refine Fin.cases ?_ (fun j => ?_) i
  · show |input - 2048| ≤ 2048
    exact abs_le.mpr ⟨by linarith [hin.1], by linarith [hin.2]⟩
  · exact h j.castSucc

theorem step_bound {mu : ℚ} (h0 : 0 < mu) (hmu : mu * (1 + 5 * 2048 ^ 2) ≤ 1)
    {buffer : Fin 5 → ℚ} (h : InRange buffer) : mu * (1 + normSq buffer) ≤ 1 :=
  mul_one_add_normSq_le h0.le h (by simpa using hmu)

/-! ### The canceller -/

theorem dotProduct_canceller (buffer : Fin 5 → ℚ) : buffer ⬝ᵥ canceller = buffer 0 := by
  simp [dotProduct, Fin.sum_univ_five, canceller]

/-- The canceller leaves no error, whatever the buffer held. -/
theorem error_canceller (buffer : Fin 5 → ℚ) {input : ℚ} (hin : 0 ≤ input ∧ input ≤ 4096) :
    error (shift buffer input) canceller input = 0 := by
  have hd : |-(input - 2048)| ≤ 2048 := abs_le.mpr ⟨by linarith [hin.2], by linarith [hin.1]⟩
  rw [error_eq, dotProduct_canceller]
  show saturate (input - 2048) (-(input - 2048)) = 0
  unfold saturate
  rw [clamp_of_abs_le hd, add_neg_cancel, clamp_of_abs_le (by norm_num)]

/-- One iteration on the weights is one leaky step. -/
theorem iterate_weights (step : ℚ) (s : BasicLms) (input : ℚ) :
    (iterate step s input).weights
      = update step (error (shift s.buffer input) s.weights input) s.weights
          (shift s.buffer input) := rfl

theorem iterate_stable {mu r input : ℚ} (h0 : 0 < mu) (hmu : mu * (1 + 5 * 2048 ^ 2) ≤ 1)
    (hr : 1 ≤ r) {s : BasicLms} (hs : InRange s.buffer) (hin : 0 ≤ input ∧ input ≤ 4096)
    (hw : normSq (s.weights - canceller) ≤ r) :
    normSq ((iterate mu s input).weights - canceller) ≤ r := by
  set h := shift s.buffer input with hh
  set e := error h s.weights input with he
  have hrange : InRange h := inRange_shift hs hin
  have hmuh := step_bound h0 hmu hrange
  have hmu1 : 0 ≤ 1 - mu := by linarith [mul_nonneg h0.le (normSq_nonneg h)]
  obtain ⟨a, ha0, ha1, ha⟩ := error_sub_error h s.weights canceller input
  have herr : e - 0 = -a * ((s.weights - canceller) ⬝ᵥ h) := by
    rw [← ha, ← he, hh, error_canceller s.buffer hin]
  -- Contraction towards the canceller, and the pull of the leakage on the canceller itself.
  have hsplit : (iterate mu s input).weights - canceller
      = (update mu e s.weights h - update mu 0 canceller h) + (-mu) • canceller := by
    rw [iterate_weights]
    funext i
    simp only [Pi.sub_apply, Pi.add_apply, Pi.smul_apply, smul_eq_mul, update_apply]
    ring
  have hcontract : normSq (update mu e s.weights h - update mu 0 canceller h)
      ≤ (1 - mu) ^ 2 * r := by
    rw [update_sub_update, herr]
    exact (normSq_contract_le _ h h0.le ha0 ha1 hmuh).trans
      (mul_le_mul_of_nonneg_left hw (sq_nonneg _))
  have hpull : normSq ((-mu) • canceller) ≤ mu ^ 2 * r := by
    have hone : normSq canceller = 1 := by simp [normSq, Fin.sum_univ_five, canceller]
    rw [normSq_smul, hone, neg_sq]
    exact mul_le_mul_of_nonneg_left hr (sq_nonneg mu)
  calc normSq ((iterate mu s input).weights - canceller)
      ≤ ((1 - mu) + mu) ^ 2 * r := by
        rw [hsplit]
        exact normSq_add_le hmu1 h0.le (by linarith) hcontract hpull
    _ = r := by ring

theorem run_stable {mu r : ℚ} (h0 : 0 < mu) (hmu : mu * (1 + 5 * 2048 ^ 2) ≤ 1) (hr : 1 ≤ r) :
    ∀ (inputs : List ℚ) {s : BasicLms}, InRange s.buffer →
      (∀ input ∈ inputs, 0 ≤ input ∧ input ≤ 4096) → normSq (s.weights - canceller) ≤ r →
      normSq ((run mu s inputs).weights - canceller) ≤ r := by
  intro inputs
  induction inputs with
  | nil => intro s _ _ hw; exact hw
  | cons input inputs ih =>
      intro s hs hin hw
      have hhead := hin input (by simp)
      exact ih (inRange_shift hs hhead) (fun v hv => hin v (by simp [hv]))
        (iterate_stable h0 hmu hr hs hhead hw)

end BasicLms

open BasicLms LeakyLms

/-- **Adaptation never drives the simulated weights further from the canceller than they started,
or than one.** -/
theorem simulation_stable (mu : ℚ) (h0 : 0 < mu) (hmu : mu * (1 + 5 * 2048 ^ 2) ≤ 1)
    (W : Fin 5 → ℚ) (inputs : List ℚ) (hin : ∀ input ∈ inputs, 0 ≤ input ∧ input ≤ 4096) :
    (∑ i, ((BasicLms.run mu (cleared W) inputs).weights i - canceller i) ^ 2
      ≤ max (∑ i, (W i - canceller i) ^ 2) 1) ∧
    (∀ buffer input, 0 ≤ input ∧ input ≤ 4096 →
      BasicLms.error (shift buffer input) canceller input = 0) ∧
    0 < simulationStep ∧ simulationStep * (1 + 5 * 2048 ^ 2) ≤ 1 := by
  refine ⟨?_, fun buffer input hv => error_canceller buffer hv, ?_, ?_⟩
  · exact run_stable h0 hmu (le_max_right _ _) inputs (fun i => by simp [cleared]) hin
      (le_max_left _ _)
  · norm_num [simulationStep]
  · norm_num [simulationStep]

/-- The simulation's own step, after full-scale and zero input. -/
theorem simulation_stable_at_step :
    ∑ i, ((BasicLms.run simulationStep (cleared ![-8049 / 10000, 0, 0, 0, 2]) [4096, 0]).weights i
      - canceller i) ^ 2
      ≤ max (∑ i, ((![-8049 / 10000, 0, 0, 0, 2] : Fin 5 → ℚ) i - canceller i) ^ 2) 1 :=
  (simulation_stable simulationStep (by norm_num [simulationStep]) (by norm_num [simulationStep])
    ![-8049 / 10000, 0, 0, 0, 2] [4096, 0] (by norm_num)).1

end Anc
