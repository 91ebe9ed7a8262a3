/-
The C loop and the simulation stay together.

Both loops store the same deviations, so they see the same regressor, and their
errors are the same two saturations; the C loop alone truncates its prediction to a
DAC code in between.  Written as `clamp (d + clamp y - δ)` with `δ` in `[0, 1)`, its
error is the simulated error of the same weights less a fraction of one code
(`testError_rat`).  The weight difference `v` therefore moves by the contraction of the
simulated loop plus a disturbance of length at most `μ |h|`, and
`1 - (1 - μ) ^ n` is what such disturbances add up to.
-/
import AncPrototype.Proofs.ExactFilter
import AncPrototype.Proofs.Stability

namespace Anc

open FloatArith Saturation LeakyLms BasicLms

/-! ### The residual of `run_test` -/

/-- On inputs and predictions up to `4096` none of the 16-bit conversions wraps. -/
theorem testError_toNat {input predict : UInt16} (hi : input.toNat ≤ 4096)
    (hp : predict.toNat ≤ 4096) :
    ((testError input predict).toNat : Int)
      = min 4096 (max 0 ((input.toNat : Int) - 2048 + (predict.toNat : Int))) := by
  have hsum : (Int16.ofInt (((input.toNat : Int) - 2048) + ((predict.toNat : Int) - 2048))).toInt
      = ((input.toNat : Int) - 2048) + ((predict.toNat : Int) - 2048) :=
    Int16.toInt_ofInt_of_le (by omega) (by omega)
  have hshift : (Int16.ofInt
      (((input.toNat : Int) - 2048) + ((predict.toNat : Int) - 2048) + 2048)).toInt
      = (input.toNat : Int) - 2048 + (predict.toNat : Int) := by
    rw [Int16.toInt_ofInt_of_le (by omega) (by omega)]
    omega
  have hcast : ∀ v : Int, 0 ≤ v → v ≤ 4096 → ((UInt16.ofInt v).toNat : Int) = v := by
    intro v h0 h1
    show ((UInt16.ofNat (v % 2 ^ 16).toNat).toNat : Int) = v
    rw [UInt16.toNat_ofNat']
    omega
  unfold testError
  simp only [hsum, hshift]
  split
  · rw [hcast _ (by decide) (by decide)]
    simp
    omega
  · split
    · rw [hcast _ (by decide) (by decide)]
      simp
      omega
    · rw [hshift, hcast _ (by omega) (by omega)]
      omega

/-- Cutting off between `0` and `4096` is clamping around mid-scale. -/
theorem cut_eq_clamp (v : ℚ) : min 4096 (max 0 v) - 2048 = clamp 2048 (v - 2048) := by
  unfold clamp
  rcases le_total v 0 with h | h
  · rw [max_eq_left h, min_eq_right (by norm_num), if_neg (by linarith)]
    split <;> linarith
  · rw [max_eq_right h]
    rcases le_total 4096 v with h' | h'
    · rw [min_eq_left h']
      split
      · norm_num
      · rw [if_neg (by linarith)]
        linarith
    · rw [min_eq_right h', if_neg (by linarith), if_neg (by linarith)]

/-- The residual is the saturated error with a fraction of one code taken off the prediction. -/
theorem testError_rat {L : BufLen} (s : Fxlms ℚ L) {input : UInt16} (hi : input.toNat ≤ 4096) :
    ∃ δ, 0 ≤ δ ∧ δ < 1 ∧
      ((testError input (ancPredict s input).1).toNat : ℚ) - 2048
        = clamp 2048 ((input.toNat : ℚ) - 2048
            + (clamp 2048 (-((s.store input).regressor ⬝ᵥ s.weights)) - δ)) := by
  set y := clamp 2048 (-((s.store input).regressor ⬝ᵥ s.weights)) with hy
  have hfloor : ((ancPredict s input).1.toNat : Int) = ⌊y + 2048⌋ := s.ancPredict_rat input
  obtain ⟨hlo, hhi⟩ := abs_le.mp
    (abs_clamp_le (m := (2048 : ℚ)) (by norm_num) (-((s.store input).regressor ⬝ᵥ s.weights)))
  have hp : (ancPredict s input).1.toNat ≤ 4096 := by
    have hle : ⌊y + 2048⌋ ≤ 4096 := by
      rw [← Int.floor_intCast (R := ℚ) 4096]
      exact Int.floor_le_floor (by push_cast; linarith)
    omega
  refine ⟨Int.fract (y + 2048), Int.fract_nonneg _, Int.fract_lt_one _, ?_⟩
  have hpq : ((ancPredict s input).1.toNat : ℚ) = y + 2048 - Int.fract (y + 2048) := by
    rw [Int.self_sub_fract, ← hfloor]
    push_cast
    rfl
  have herr : ((testError input (ancPredict s input).1).toNat : ℚ)
      = min 4096 (max 0 ((input.toNat : ℚ) - 2048 + ((ancPredict s input).1.toNat : ℚ))) := by
    exact_mod_cast testError_toNat hi hp
  rw [herr, cut_eq_clamp, hpq]
  congr 1
  ring

/-! ### One iteration of both loops -/

/-- The C filter and the simulation have seen the same inputs. -/
structure SameHistory (s : Fxlms ℚ fxlmsBufLen) (m : BasicLms) : Prop where
  past : ∀ i : Fin 4, s.past i = m.buffer i.castSucc
  inRange : InRange m.buffer

theorem SameHistory.regressor {s : Fxlms ℚ fxlmsBufLen} {m : BasicLms} (h : SameHistory s m)
    (input : UInt16) : (s.store input).regressor = shift m.buffer input.toNat := by
  funext i
  refine Fin.cases ?_ (fun j : Fin 4 => ?_) i
  · show (s.store input).tap 0 = (input.toNat : ℚ) - 2048
    rw [Fxlms.tap_store_zero, deviation_rat]
  · show (s.store input).tap (j.val + 1) = m.buffer j.castSucc
    rw [Fxlms.tap_store_succ s input (show j.val + 1 < 5 by omega)]
    exact h.past j

theorem cast_input {input : UInt16} (hi : input.toNat ≤ 4096) :
    (0 : ℚ) ≤ input.toNat ∧ (input.toNat : ℚ) ≤ 4096 :=
  ⟨Nat.cast_nonneg _, by exact_mod_cast hi⟩

theorem SameHistory.step {s : Fxlms ℚ fxlmsBufLen} {m : BasicLms} (h : SameHistory s m) {mu : ℚ}
    {input : UInt16} (hi : input.toNat ≤ 4096) :
    SameHistory (runTestStep s input) (iterate mu m input.toNat) := by
  refine ⟨fun i => ?_, inRange_shift h.inRange (cast_input hi)⟩
  show (ancUpdate (s.store input) _).past i = shift m.buffer input.toNat i.castSucc
  rw [Fxlms.past_ancUpdate, ← h.regressor input]
  rfl

/-- The weights of the C loop after one iteration. -/
theorem weights_runTestStep (s : Fxlms ℚ fxlmsBufLen) (input : UInt16) :
    (runTestStep s input).weights
      = update s.step (((testError input (ancPredict s input).1).toNat : ℚ) - 2048) s.weights
          (s.store input).regressor :=
  Fxlms.weights_ancUpdate (s.store input) _

theorem iterate_agree {mu a : ℚ} (h0 : 0 < mu) (hmu : mu * (1 + 5 * 2048 ^ 2) ≤ 1) (ha : 0 ≤ a)
    {s : Fxlms ℚ fxlmsBufLen} {m : BasicLms} (h : SameHistory s m) (hstep : s.step = mu)
    {input : UInt16} (hi : input.toNat ≤ 4096)
    (hw : normSq (s.weights - m.weights) ≤ a ^ 2 * (5 * 2048 ^ 2)) :
    normSq ((runTestStep s input).weights - (iterate mu m input.toNat).weights)
      ≤ ((1 - mu) * a + mu) ^ 2 * (5 * 2048 ^ 2) := by
  set g := shift m.buffer input.toNat with hg
  have hreg : (s.store input).regressor = g := h.regressor input
  have hrange : InRange g := inRange_shift h.inRange (cast_input hi)
  have hmug := step_bound h0 hmu hrange
  have hmu1 : 0 ≤ 1 - mu := by linarith [mul_nonneg h0.le (normSq_nonneg g)]
  obtain ⟨δ, hδ0, hδ1, hδ⟩ := testError_rat s hi
  rw [hreg] at hδ
  set d : ℚ := (input.toNat : ℚ) - 2048 with hd
  set ec : ℚ := ((testError input (ancPredict s input).1).toNat : ℚ) - 2048 with hec
  -- The truncation costs a fraction of one code, and the rest is a difference of simulated errors.
  obtain ⟨b, hb0, hb1, hb⟩ := unitSlope_clamp (m := (2048 : ℚ)) (by norm_num)
    (d + (clamp 2048 (-(g ⬝ᵥ s.weights)) - δ)) (d + clamp 2048 (-(g ⬝ᵥ s.weights)))
  obtain ⟨c, hc0, hc1, hc⟩ := error_sub_error g s.weights m.weights input.toNat
  have herr : ec - error g m.weights input.toNat
      = -c * ((s.weights - m.weights) ⬝ᵥ g) + -(b * δ) := by
    rw [← hc, error_eq g s.weights, hδ]
    unfold saturate
    linarith [hb]
  have hsplit : (runTestStep s input).weights - (iterate mu m input.toNat).weights
      = ((1 - mu) • (s.weights - m.weights)
          + (mu * (-c * ((s.weights - m.weights) ⬝ᵥ g))) • g) + (mu * -(b * δ)) • g := by
    rw [weights_runTestStep, iterate_weights, hreg, hstep, update_sub_update, herr]
    rw [mul_add, add_smul, add_assoc]
  have hcontract : normSq ((1 - mu) • (s.weights - m.weights)
      + (mu * (-c * ((s.weights - m.weights) ⬝ᵥ g))) • g)
      ≤ ((1 - mu) * a) ^ 2 * (5 * 2048 ^ 2) := calc
    _ ≤ (1 - mu) ^ 2 * normSq (s.weights - m.weights) :=
        normSq_contract_le _ g h0.le hc0 hc1 hmug
    _ ≤ (1 - mu) ^ 2 * (a ^ 2 * (5 * 2048 ^ 2)) := mul_le_mul_of_nonneg_left hw (sq_nonneg _)
    _ = ((1 - mu) * a) ^ 2 * (5 * 2048 ^ 2) := by ring
  have hdisturb : normSq ((mu * -(b * δ)) • g) ≤ mu ^ 2 * (5 * 2048 ^ 2) := by
    have hg5 : normSq g ≤ 5 * 2048 ^ 2 := by simpa using normSq_le_of_abs_le hrange
    have hbδ : (b * δ) ^ 2 ≤ 1 := by
      have hle : b * δ ≤ 1 := mul_le_one₀ hb1 hδ0 hδ1.le
      exact pow_le_one₀ (mul_nonneg hb0 hδ0) hle
    rw [normSq_smul]
    calc (mu * -(b * δ)) ^ 2 * normSq g
        = mu ^ 2 * ((b * δ) ^ 2 * normSq g) := by ring
      _ ≤ mu ^ 2 * (1 * (5 * 2048 ^ 2)) :=
          mul_le_mul_of_nonneg_left (mul_le_mul hbδ hg5 (normSq_nonneg g) zero_le_one)
            (sq_nonneg mu)
      _ = mu ^ 2 * (5 * 2048 ^ 2) := by ring
  rw [hsplit]
  exact normSq_add_le (mul_nonneg hmu1 ha) h0.le (by norm_num) hcontract hdisturb

/-! ### The run -/

/-- From a distance of `a` the loops stay within what `n` more disturbances add to it. -/
theorem run_agree {mu : ℚ} (h0 : 0 < mu) (hmu : mu * (1 + 5 * 2048 ^ 2) ≤ 1) :
    ∀ (inputs : List UInt16) {s : Fxlms ℚ fxlmsBufLen} {m : BasicLms} {a : ℚ}, 0 ≤ a →
      SameHistory s m → s.step = mu → (∀ n ∈ inputs, n.toNat ≤ 4096) →
      normSq (s.weights - m.weights) ≤ a ^ 2 * (5 * 2048 ^ 2) →
      normSq ((runTest s inputs).weights
          - (BasicLms.run mu m (inputs.map fun n => (n.toNat : ℚ))).weights)
        ≤ (1 - (1 - mu) ^ inputs.length * (1 - a)) ^ 2 * (5 * 2048 ^ 2) := by
  intro inputs
  induction inputs with
  | nil =>
      intro s m a _ _ _ _ hw
      show normSq (s.weights - m.weights) ≤ (1 - (1 - mu) ^ 0 * (1 - a)) ^ 2 * (5 * 2048 ^ 2)
      rw [pow_zero, one_mul, sub_sub_cancel]
      exact hw
  | cons input inputs ih =>
      intro s m a ha hs hstep hin hw
      have hi : input.toNat ≤ 4096 := hin input (by simp)
      have hnext := iterate_agree h0 hmu ha hs hstep hi hw
      have hmu1 : 0 ≤ 1 - mu := by linarith
      have ha' : 0 ≤ (1 - mu) * a + mu := add_nonneg (mul_nonneg hmu1 ha) h0.le
      have hrest := ih ha' (hs.step hi) (show (runTestStep s input).step = mu from hstep)
        (fun n hn => hin n (by simp [hn])) hnext
      have hpow : (1 - mu) ^ inputs.length * (1 - ((1 - mu) * a + mu))
          = (1 - mu) ^ (input :: inputs).length * (1 - a) := by
        rw [List.length_cons, pow_succ]
        ring
      rw [hpow] at hrest
      exact hrest

/-- Neither loop has a history at the start. -/
theorem sameHistory_cleared (mu : ℚ) (W : Vector ℚ fxlmsBufLen.len) :
    SameHistory (Fxlms.cleared mu W) (BasicLms.cleared fun i => W[i]) := by
  refine ⟨fun i => ?_, fun i => by simp [BasicLms.cleared]⟩
  rw [Fxlms.past_cleared]
  show ((0 : Int) : ℚ) = 0
  norm_num

/-- **The truncation to DAC codes is the only difference between the two loops, and its effect on
the weights is bounded for every run.** -/
theorem loops_agree (mu : ℚ) (h0 : 0 < mu) (hmu : mu * (1 + 5 * 2048 ^ 2) ≤ 1)
    (W : Vector ℚ fxlmsBufLen.len) (inputs : List UInt16) (hin : ∀ n ∈ inputs, n.toNat ≤ 4096) :
    ∑ i : Fin 5, ((runTest (Fxlms.cleared mu W) inputs).weights i
        - (BasicLms.run mu (BasicLms.cleared fun i => W[i])
            (inputs.map fun n => (n.toNat : ℚ))).weights i) ^ 2
      ≤ 5 * 2048 ^ 2 * (1 - (1 - mu) ^ inputs.length) ^ 2 := by
  have hstart : normSq ((Fxlms.cleared mu W).weights
      - (BasicLms.cleared fun i => W[i]).weights) ≤ 0 ^ 2 * (5 * 2048 ^ 2) := by
    have hsame : (Fxlms.cleared mu W).weights - (BasicLms.cleared fun i => W[i]).weights = 0 :=
      sub_self _
    rw [hsame]
    simp [normSq]
  have hrun := run_agree h0 hmu inputs le_rfl (sameHistory_cleared mu W) rfl hin hstart
  rw [sub_zero, mul_one, mul_comm] at hrun
  exact hrun

/-- Both loops at the simulation's step, over full-scale inputs. -/
theorem loops_agree_full_scale :
    ∑ i : Fin 5, ((runTest (Fxlms.cleared simulationStep initialWeights) [4096, 0, 4096]).weights i
        - (BasicLms.run simulationStep (BasicLms.cleared fun i => initialWeights[i])
            ([4096, 0, 4096].map fun n : UInt16 => (n.toNat : ℚ))).weights i) ^ 2
      ≤ 5 * 2048 ^ 2 * (1 - (1 - simulationStep) ^ 3) ^ 2 :=
  loops_agree simulationStep (by norm_num [simulationStep]) (by norm_num [simulationStep])
    initialWeights [4096, 0, 4096] (by simp)

end Anc
