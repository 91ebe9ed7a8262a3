/-
The positive rail.

The limit on the prediction is `2048`, and mid-scale is added after it, so a
prediction on the positive rail is `4096`, one more than a 12-bit converter holds.
`ancPredict_le_iff` says when that happens: exactly when the weighted sum of the
regressor has reached `-2048`.  Two predictions from the initial weights are enough.
-/
import AncPrototype.Proofs.ExactFilter

namespace Anc

open FloatArith Saturation

/-- `MAX_DIGITAL`. -/
def maxDigital : Nat := 4095

/-- `DACC_MAX_DATA`, for the 12 bits of `DACC_RESOLUTION`. -/
def daccMaxData : Nat := 1 <<< 12 - 1

example : maxDigital = daccMaxData := by decide

/-- The argument of a call. -/
def Call.arg : Call → UInt16
  | .predict noise => noise
  | .update residual => residual

/-- Predictions and updates take turns. -/
def Alternating (cs : List Call) : Prop :=
  cs.IsChain fun
    | .predict _, .update _ => True
    | .update _, .predict _ => True
    | _, _ => False

namespace Fxlms

variable {L : BufLen}

/-- The regressor the call would use stays short of the positive rail. -/
def BelowRail (s : Fxlms ℚ L) (noise : UInt16) : Prop :=
  -2048 < ∑ i, s.weights i * (s.store noise).regressor i

theorem belowRail_iff (s : Fxlms ℚ L) (noise : UInt16) :
    s.BelowRail noise ↔ -((s.store noise).regressor ⬝ᵥ s.weights) < 2048 := by
  rw [dotProduct_comm, neg_lt]
  rfl

theorem ancPredict_le_iff (s : Fxlms ℚ L) (noise : UInt16) :
    (ancPredict s noise).1.toNat ≤ maxDigital ↔ s.BelowRail noise := by
  have hval := ancPredict_rat s noise
  have hfloor : (ancPredict s noise).1.toNat ≤ maxDigital ↔
      clamp 2048 (-((s.store noise).regressor ⬝ᵥ s.weights)) + 2048 < (4096 : Int) := by
    rw [← Int.floor_lt, ← hval, maxDigital]
    omega
  have hrail := clamp_lt_iff (m := (2048 : ℚ)) (by norm_num)
    (-((s.store noise).regressor ⬝ᵥ s.weights))
  rw [hfloor, belowRail_iff, ← hrail]
  push_cast
  constructor <;> intro h <;> linarith

/-- Every prediction of a run fits exactly when every one of them is made below the rail. -/
theorem outputs_le_iff : ∀ (cs : List Call) (s : Fxlms ℚ L),
    (∀ p ∈ s.outputs cs, p.toNat ≤ maxDigital) ↔
      ∀ before noise rest, cs = before ++ .predict noise :: rest →
        (s.calls before).BelowRail noise := by
  intro cs
  induction cs with
  | nil => intro s; simp [outputs]
  | cons c cs ih =>
      intro s
      have hsplit : (∀ before noise rest, c :: cs = before ++ .predict noise :: rest →
          (s.calls before).BelowRail noise) ↔
            (∀ noise, c = .predict noise → s.BelowRail noise) ∧
              ∀ before noise rest, cs = before ++ .predict noise :: rest →
                ((s.call c).calls before).BelowRail noise := by
        constructor
        · intro h
          refine ⟨fun noise hc => h [] noise cs (by rw [hc]; rfl), ?_⟩
          intro before noise rest hcs
          exact h (c :: before) noise rest (by rw [hcs]; rfl)
        · rintro ⟨hhead, htail⟩ before noise rest hcs
          cases before with
          | nil => exact hhead noise (List.cons.inj hcs).1
          | cons d before =>
              obtain ⟨rfl, hcs'⟩ := List.cons.inj hcs
              exact htail before noise rest hcs'
      rw [hsplit]
      cases c with
      | predict noise =>
          have hih := ih (ancPredict s noise).2
          simp only [outputs, List.forall_mem_cons, hih, ancPredict_le_iff, Call.predict.injEq]
          refine and_congr_left' ?_
          constructor
          · rintro h n rfl; exact h
          · intro h; exact h noise rfl
      | update residual =>
          have hih := ih (ancUpdate s residual)
          simp only [outputs, hih, reduceCtorEq, false_implies, implies_true, true_and]
          rfl

end Fxlms

/-- **The predictions of a run from `initialize_anc` fit the DAC if and only if every one of them
is made with its weighted sum above `-2048`.** -/
theorem predictions_fit_iff (cs : List Call) :
    (∀ p ∈ (initializeAnc : Fxlms ℚ _).outputs cs, p.toNat ≤ maxDigital) ↔
      ∀ before noise rest, cs = before ++ .predict noise :: rest →
        ((initializeAnc : Fxlms ℚ _).calls before).BelowRail noise :=
  Fxlms.outputs_le_iff cs _

/-- The second prediction at full-scale noise is one above the converter's range. -/
theorem prediction_above_range :
    ¬ ∀ cs : List Call, Alternating cs → (∀ c ∈ cs, c.arg.toNat ≤ 4095) →
      ∀ p ∈ (initializeAnc : Fxlms ℚ _).outputs cs, p.toNat ≤ maxDigital := by
  intro h
  have hout : (initializeAnc : Fxlms ℚ _).outputs
      [.predict 4095, .update 2048, .predict 4095] = [3695, 4096] := by decide +kernel
  have hbad := h [.predict 4095, .update 2048, .predict 4095] (by simp [Alternating])
    (by decide) 4096 (by rw [hout]; decide)
  exact absurd hbad (by decide)

end Anc
