/-
Every update descends.

`anc_update` has no cost function in sight, but the error it is given and the
regressor `anc_predict` walked determine one: the target `d` the canceller should
have met is the error plus what the weights contributed, and the cost of weights `V`
is `(d - V · h)² + |V|²`.  The update steps against its gradient, and the step
size is small enough for every buffer of 16-bit samples: an entry is a sample minus
mid-scale, or the zero the buffer was cleared with, so `|h|²` is at most
`5 · 63487²`.

`Sampled` is that invariant of the buffer.  Both calls keep it, so it holds in every
state a run reaches.
-/
import AncPrototype.Proofs.Bounds

namespace Anc

open FloatArith

namespace Fxlms

variable {L : BufLen}

/-- Every entry of the buffer is the deviation of a sample, or still zero. -/
structure Sampled (s : Fxlms ℚ L) : Prop where
  entry : ∀ j : Fin L.len, (∃ n : UInt16, s.x.get j = n.toNat - 2048) ∨ s.x.get j = 0

namespace Sampled

variable {s : Fxlms ℚ L}

theorem cleared (step : ℚ) (W : Vector ℚ L.len) : Sampled (Fxlms.cleared step W) := by
  refine ⟨fun j => Or.inr ?_⟩
  show (Vector.replicate L.len ((0 : Int) : ℚ))[j.val] = 0
  rw [Vector.getElem_replicate]
  norm_num

theorem store (h : s.Sampled) (noise : UInt16) : (s.store noise).Sampled := by
  refine ⟨fun j => ?_⟩
  have hget : (s.store noise).x.get j
      = if s.xIdx.idx.toNat = j.val then deviation noise else s.x.get j := by
    show (s.x.set s.xIdx.idx.toNat (deviation noise) s.xIdx.lt)[j.val] = _
    rw [Vector.getElem_set]
    rfl
  rw [hget]
  by_cases hj : s.xIdx.idx.toNat = j.val
  · rw [if_pos hj]
    exact Or.inl ⟨noise, deviation_rat noise⟩
  · rw [if_neg hj]
    exact h.entry j

/-- One call keeps the buffer sampled. -/
theorem call (h : s.Sampled) (c : Call) : (s.call c).Sampled := by
  cases c with
  | predict noise => exact h.store noise
  | update residual => exact ⟨h.entry⟩

/-- In every state the program's filter reaches, whatever it is called with. -/
theorem reached (cs : List Call) : (initializeAnc.calls cs : Fxlms ℚ fxlmsBufLen).Sampled :=
  calls_keep (A := fun _ => True) (fun h _ => h.call _) cs (cleared _ _) fun _ _ => trivial

theorem abs_regressor_le (h : s.Sampled) (i : Fin L.len) : |s.regressor i| ≤ 63487 := by
  have hentry := h.entry ⟨_, (RingIndex.back^[i.val] s.xIdx).lt⟩
  rcases hentry with ⟨n, hn⟩ | hzero
  · have hval : s.regressor i = n.toNat - 2048 := hn
    rw [hval]
    exact within_uint16 (.predict n)
  · have hval : s.regressor i = 0 := hzero
    rw [hval]
    norm_num

end Sampled

/-- The step size fits every sampled buffer of the program's length. -/
theorem fxlmsStep_mul_le {s : Fxlms ℚ fxlmsBufLen} (h : s.Sampled) :
    fxlmsStep * (1 + LeakyLms.normSq s.regressor) ≤ 1 := by
  refine LeakyLms.mul_one_add_normSq_le (by norm_num [fxlmsStep]) h.abs_regressor_le ?_
  norm_num [fxlmsStep]

theorem fxlmsStep_pos : 0 < fxlmsStep := by norm_num [fxlmsStep]

end Fxlms

open LeakyLms

/-- **Every update descends the leaky cost of missing the target that the prediction and the error
determine**, and strictly so away from its only stationary point. -/
theorem update_descends (s : Fxlms ℚ fxlmsBufLen) (hx : s.Sampled) (hstep : s.step = fxlmsStep)
    (r : UInt16) :
    let h := s.regressor
    let e : ℚ := r.toNat - 2048
    let d := e + ∑ i, s.weights i * h i
    let J (V : Fin fxlmsBufLen.len → ℚ) : ℚ := (d - ∑ i, V i * h i) ^ 2 + ∑ i, V i ^ 2
    (∀ V, ({ s with W := V } : Fxlms ℚ fxlmsBufLen).predictSum = -∑ i, V.get i * h i) ∧
    J (ancUpdate s r).weights ≤ J s.weights - fxlmsStep * ∑ i, (s.weights i - e * h i) ^ 2 ∧
    (s.weights ≠ e • h → J (ancUpdate s r).weights < J s.weights) ∧
    (s.weights = e • h ↔ ∀ V, J s.weights ≤ J V) := by
  intro h e d J
  have hμ : fxlmsStep * (1 + normSq h) ≤ 1 := Fxlms.fxlmsStep_mul_le hx
  have herr : d - s.weights ⬝ᵥ h = e := add_sub_cancel_right e _
  have hgradient : halfGradient d h s.weights = s.weights - e • h := by rw [halfGradient, herr]
  have hweights : (ancUpdate s r).weights = update fxlmsStep (d - s.weights ⬝ᵥ h) s.weights h := by
    rw [herr, ← hstep]
    exact s.weights_ancUpdate r
  have hdescent : J (ancUpdate s r).weights
      ≤ J s.weights - fxlmsStep * normSq (s.weights - e • h) := by
    rw [hweights, ← hgradient]
    exact cost_update_le d h s.weights Fxlms.fxlmsStep_pos.le hμ
  refine ⟨?_, hdescent, ?_, ?_⟩
  · intro V
    rw [Fxlms.predictSum_rat, dotProduct_comm]
    rfl
  · intro hne
    have hpos : 0 < normSq (s.weights - e • h) :=
      lt_of_le_of_ne (normSq_nonneg _) fun hzero =>
        hne (sub_eq_zero.mp (normSq_eq_zero.mp hzero.symm))
    exact hdescent.trans_lt (sub_lt_self _ (mul_pos Fxlms.fxlmsStep_pos hpos))
  · rw [← sub_eq_zero, ← hgradient]
    exact halfGradient_eq_zero_iff Fxlms.fxlmsStep_pos hμ

/-- After start-up and a full-scale sample, with the sensor at full scale too. -/
theorem update_descends_at_full_scale :
    let s : Fxlms ℚ fxlmsBufLen := initializeAnc.calls [.predict 65535]
    let e : ℚ := (65535 : UInt16).toNat - 2048
    cost (e + s.weights ⬝ᵥ s.regressor) s.regressor (ancUpdate s 65535).weights
      ≤ cost (e + s.weights ⬝ᵥ s.regressor) s.regressor s.weights
        - fxlmsStep * ∑ i, (s.weights i - e * s.regressor i) ^ 2 :=
  (update_descends (initializeAnc.calls [.predict 65535])
    (Fxlms.Sampled.reached _) rfl 65535).2.1

end Anc
