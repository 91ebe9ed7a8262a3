/-
The older simulation forgets its weights, in exact arithmetic.

It limits neither the prediction nor the error, so its error is a target, fixed by the
input, less what the weights contribute, and one iteration is an affine contraction.
The weights it starts from are random; two runs on the same inputs come together at
the rate of the leakage, and no run leaves the ball that the targets span.

The target is what the unsigned subtraction leaves of the input, less mid-scale.  For
inputs up to 4096 it is never above zero.  No weights meet it: on silence they contribute
nothing, and the error is a whole mid-scale.

The script computes in doubles.  What is proved here is about rational numbers, and does
not account for rounding.
-/
import AncPrototype.Library.LeakyLms
import AncPrototype.Model.ClosedLoop
import Mathlib.Tactic.NormNum

namespace Anc

namespace LeastMinSquares

open LeakyLms

/-- What the weights are to contribute. -/
def target (input : UInt16) : ℚ := (inDist input : ℚ) - 2048

theorem error_eq (buffer : Fin 5 → UInt16) (weights : Fin 5 → ℚ) (input : UInt16) :
    error buffer weights input = target input - weights ⬝ᵥ regressor buffer := by
  have hpredict : predict buffer weights = -(weights ⬝ᵥ regressor buffer) := by
    unfold predict
    rw [dotProduct_comm]
    simp [dotProduct, Finset.sum_neg_distrib]
  unfold error target
  rw [hpredict]
  ring

theorem abs_target_le {input : UInt16} (hin : input ≤ 4096) : |target input| ≤ 2048 := by
  have hle : inDist input ≤ 2048 := by
    have : input.toNat ≤ 4096 := by simpa using UInt16.le_iff_toNat_le.mp hin
    unfold inDist
    omega
  have hle' : (inDist input : ℚ) ≤ 2048 := by exact_mod_cast hle
  have hge : (0 : ℚ) ≤ inDist input := Nat.cast_nonneg _
  unfold target
  exact abs_le.mpr ⟨by linarith, by linarith⟩

/-! ### The buffer -/

/-- Every entry is a sample. -/
def InRange (buffer : Fin 5 → UInt16) : Prop := ∀ i, buffer i ≤ 4096

theorem inRange_shift {buffer : Fin 5 → UInt16} (h : InRange buffer) {input : UInt16}
    (hin : input ≤ 4096) : InRange (shift buffer input) := by
  intro i
  refine Fin.cases ?_ (fun j => ?_) i
  · exact hin
  · exact h j.castSucc

theorem abs_regressor_le {buffer : Fin 5 → UInt16} (h : InRange buffer) (i : Fin 5) :
    |regressor buffer i| ≤ 4096 := by
  have hle : (buffer i).toNat ≤ 4096 := by simpa using UInt16.le_iff_toNat_le.mp (h i)
  unfold regressor
  rw [abs_of_nonneg (Nat.cast_nonneg _)]
  exact_mod_cast hle

theorem step_bound {step : ℚ} (h0 : 0 ≤ step) (hstep : step * (1 + 5 * 4096 ^ 2) ≤ 1)
    {buffer : Fin 5 → UInt16} (h : InRange buffer) :
    step * (1 + normSq (regressor buffer)) ≤ 1 :=
  mul_one_add_normSq_le h0 (abs_regressor_le h) (by simpa using hstep)

/-! ### One iteration -/

theorem iterate_weights (step : ℚ) (s : LeastMinSquares) (input : UInt16) :
    (iterate step s input).weights
      = update step (target input - s.weights ⬝ᵥ regressor (shift s.buffer input)) s.weights
          (regressor (shift s.buffer input)) := by
  rw [← error_eq]
  rfl

variable {step : ℚ} {s s' : LeastMinSquares} {input : UInt16}

/-- The weights stay in the ball of the targets. -/
theorem iterate_bounded {b : ℚ} (h0 : 0 ≤ step) (hstep : step * (1 + 5 * 4096 ^ 2) ≤ 1)
    (hs : InRange s.buffer) (hin : input ≤ 4096) (hb : 2048 ^ 2 * (5 * 4096 ^ 2) ≤ b)
    (hw : normSq s.weights ≤ b) : normSq (iterate step s input).weights ≤ b := by
  have hrange := inRange_shift hs hin
  have hnorm : normSq (regressor (shift s.buffer input)) ≤ 5 * 4096 ^ 2 := by
    simpa using normSq_le_of_abs_le (abs_regressor_le hrange)
  have htarget : target input ^ 2 ≤ 2048 ^ 2 := by
    rw [← sq_abs]
    exact pow_le_pow_left₀ (abs_nonneg _) (abs_target_le hin) 2
  rw [iterate_weights]
  refine normSq_update_target_le h0 (step_bound h0 hstep hrange) hw ?_
  exact (mul_le_mul htarget hnorm (normSq_nonneg _) (by norm_num)).trans hb

/-- Two simulations come closer. -/
theorem iterate_sub_iterate (h0 : 0 ≤ step) (hstep : step * (1 + 5 * 4096 ^ 2) ≤ 1)
    (hs : InRange s.buffer) (heq : s.buffer = s'.buffer) (hin : input ≤ 4096) :
    normSq ((iterate step s input).weights - (iterate step s' input).weights)
      ≤ (1 - step) ^ 2 * normSq (s.weights - s'.weights) := by
  rw [iterate_weights, iterate_weights, ← heq]
  exact normSq_update_target_sub_le _ _ _ h0 (step_bound h0 hstep (inRange_shift hs hin))

/-! ### Runs -/

theorem run_bounded {b : ℚ} (h0 : 0 ≤ step) (hstep : step * (1 + 5 * 4096 ^ 2) ≤ 1)
    (hb : 2048 ^ 2 * (5 * 4096 ^ 2) ≤ b) :
    ∀ (inputs : List UInt16) {s : LeastMinSquares}, InRange s.buffer →
      (∀ input ∈ inputs, input ≤ 4096) → normSq s.weights ≤ b →
      normSq (run step s inputs).weights ≤ b := by
  intro inputs
  induction inputs with
  | nil => intro s _ _ hw; exact hw
  | cons input inputs ih =>
      intro s hs hin hw
      have hhead := hin input (by simp)
      exact ih (inRange_shift hs hhead) (fun v hv => hin v (by simp [hv]))
        (iterate_bounded h0 hstep hs hhead hb hw)

theorem run_sub_run (h0 : 0 ≤ step) (hstep : step * (1 + 5 * 4096 ^ 2) ≤ 1) :
    ∀ (inputs : List UInt16) {s s' : LeastMinSquares}, InRange s.buffer →
      s.buffer = s'.buffer → (∀ input ∈ inputs, input ≤ 4096) →
      normSq ((run step s inputs).weights - (run step s' inputs).weights)
        ≤ ((1 - step) ^ 2) ^ inputs.length * normSq (s.weights - s'.weights) := by
  intro inputs
  induction inputs with
  | nil => intro s s' _ _ _; simp [run]
  | cons input inputs ih =>
      intro s s' hs heq hin
      have hhead := hin input (by simp)
      have hnext : (iterate step s input).buffer = (iterate step s' input).buffer :=
        congrArg (shift · input) heq
      calc normSq ((run step s (input :: inputs)).weights - (run step s' (input :: inputs)).weights)
          ≤ ((1 - step) ^ 2) ^ inputs.length
              * normSq ((iterate step s input).weights - (iterate step s' input).weights) :=
            ih (inRange_shift hs hhead) hnext (fun v hv => hin v (by simp [hv]))
        _ ≤ ((1 - step) ^ 2) ^ inputs.length
              * ((1 - step) ^ 2 * normSq (s.weights - s'.weights)) :=
            mul_le_mul_of_nonneg_left (iterate_sub_iterate h0 hstep hs heq hhead)
              (pow_nonneg (sq_nonneg _) _)
        _ = ((1 - step) ^ 2) ^ (input :: inputs).length * normSq (s.weights - s'.weights) := by
            rw [List.length_cons, pow_succ ((1 - step) ^ 2), mul_assoc]

/-- On silence the error is mid-scale, whatever the weights. -/
theorem error_silence (weights : Fin 5 → ℚ) : error (fun _ => 0) weights 0 = -2048 := by
  have hregressor : regressor (fun _ => 0) = 0 := by
    funext i
    exact Nat.cast_zero
  have htarget : target 0 = -2048 := by
    show ((0 : Nat) : ℚ) - 2048 = -2048
    norm_num
  rw [error_eq, hregressor, htarget, dotProduct_zero, sub_zero]

end LeastMinSquares

open LeastMinSquares LeakyLms

/-- **The older simulation, computed exactly, forgets the weights it starts from and keeps its
weights bounded, but no weights cancel.**  Its step meets the condition. -/
theorem older_simulation_forgets (step : ℚ) (h0 : 0 ≤ step) (hstep : step * (1 + 5 * 4096 ^ 2) ≤ 1)
    (W W' : Fin 5 → ℚ) (inputs : List UInt16) (hin : ∀ input ∈ inputs, input ≤ 4096) :
    (∑ i, ((LeastMinSquares.run step (cleared W) inputs).weights i
        - (LeastMinSquares.run step (cleared W') inputs).weights i) ^ 2
      ≤ (1 - step) ^ (2 * inputs.length) * ∑ i, (W i - W' i) ^ 2) ∧
    (∑ i, (LeastMinSquares.run step (cleared W) inputs).weights i ^ 2
      ≤ max (∑ i, W i ^ 2) (2048 ^ 2 * (5 * 4096 ^ 2))) ∧
    (¬∃ weights, ∀ buffer input, LeastMinSquares.error (shift buffer input) weights input = 0) ∧
    0 ≤ LeastMinSquares.simulationStep ∧
    LeastMinSquares.simulationStep * (1 + 5 * 4096 ^ 2) ≤ 1 := by
  have hstart : InRange (cleared W).buffer := fun _ => UInt16.zero_le
  refine ⟨?_, ?_, ?_, ?_, ?_⟩
  · rw [pow_mul]
    exact run_sub_run h0 hstep inputs hstart rfl hin
  · exact run_bounded h0 hstep (le_max_right _ _) inputs hstart hin (le_max_left _ _)
  · rintro ⟨weights, hcancel⟩
    have hsilent : shift (fun _ => 0) 0 = fun _ => (0 : UInt16) := by
      funext i
      refine Fin.cases rfl (fun j => rfl) i
    have hzero := hcancel (fun _ => 0) 0
    rw [hsilent, error_silence] at hzero
    norm_num at hzero
  · norm_num [LeastMinSquares.simulationStep]
  · norm_num [LeastMinSquares.simulationStep]

/-- The simulation's own step, from two corners of the cube its weights are drawn from. -/
theorem older_simulation_forgets_at_step :
    ∑ i, ((LeastMinSquares.run LeastMinSquares.simulationStep (cleared fun _ => 1) [4096, 0]).weights i
        - (LeastMinSquares.run LeastMinSquares.simulationStep (cleared fun _ => -1)
            [4096, 0]).weights i) ^ 2
      ≤ (1 - LeastMinSquares.simulationStep) ^ (2 * [(4096 : UInt16), 0].length)
          * ∑ _i : Fin 5, ((1 : ℚ) - -1) ^ 2 :=
  (older_simulation_forgets LeastMinSquares.simulationStep
    (by norm_num [LeastMinSquares.simulationStep]) (by norm_num [LeastMinSquares.simulationStep])
    (fun _ => 1) (fun _ => -1) [4096, 0] (by simp)).1

end Anc
