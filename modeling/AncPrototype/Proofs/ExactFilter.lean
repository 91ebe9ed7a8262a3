/-
The filter over exact arithmetic.

Over `ℚ` the two functions are the textbook ones.  With the regressor read as a
vector, the prediction loop is a dot product, the limit is a clamp, the cast is a
floor, and the update is one leaky LMS step.  The cast is defined: the value it is
given lies in `[0, 4096]`, whatever the state.
-/
import AncPrototype.Library.Clamp
import AncPrototype.Library.LeakyLms
import AncPrototype.Proofs.Filter
import Mathlib.Tactic.Positivity
import Mathlib.Algebra.BigOperators.Fin

namespace Anc

open FloatArith Saturation

variable {L : BufLen}

theorem deviation_rat (n : UInt16) : (deviation n : ℚ) = n.toNat - 2048 := by
  show (((n.toNat : Int) : ℚ) - ((2048 : Int) : ℚ)) = n.toNat - 2048
  push_cast
  rfl

theorem limitPredict_rat (p : ℚ) : limitPredict p = clamp 2048 p := by
  show (if decide (((2048 : Int) : ℚ) < p) = true then ((2048 : Int) : ℚ)
      else if decide (p < ((-1 * 2048 : Int) : ℚ)) = true then ((-1 * 2048 : Int) : ℚ) else p)
    = clamp 2048 p
  unfold clamp
  norm_num

theorem toNat_toUInt16 {q : ℚ} (h0 : 0 ≤ q) (h1 : q ≤ 4096) :
    ((toUInt16 q).toNat : Int) = ⌊q⌋ := by
  have hlo : 0 ≤ ⌊q⌋ := Int.floor_nonneg.mpr h0
  have hhi : ⌊q⌋ ≤ 4096 := by
    have h := Int.floor_le_floor h1
    have h4096 : ⌊(4096 : ℚ)⌋ = 4096 := by norm_num
    rwa [h4096] at h
  show ((UInt16.ofNat ⌊q⌋.toNat).toNat : Int) = ⌊q⌋
  rw [UInt16.toNat_ofNat']
  omega

namespace Fxlms

variable (s : Fxlms ℚ L)

/-- The entries the two walks pair with the weights. -/
def regressor : Fin L.len → ℚ := fun i => s.tap i

def weights : Fin L.len → ℚ := fun i => s.W.get i

/-! ### The prediction -/

theorem accumulate_succ_rat {k : Nat} (hk : k < L.len) :
    (s.accumulate (k + 1)).1 = (s.accumulate k).1 - s.tap k * s.W[k] := by
  rw [accumulate_succ s hk]
  show (s.accumulate k).1 + s.tap k * ((-1 : Int) : ℚ) * s.W[k] = _
  push_cast
  ring

theorem accumulate_zero_rat : (s.accumulate 0).1 = 0 := by
  show ((0 : Int) : ℚ) = 0
  norm_num

theorem predictSum_rat : s.predictSum = -(s.regressor ⬝ᵥ s.weights) := by
  let w (i : Nat) : ℚ := if h : i < L.len then s.W[i] else 0
  have key : ∀ k, k ≤ L.len → (s.accumulate k).1 = -∑ i ∈ Finset.range k, s.tap i * w i := by
    intro k
    induction k with
    | zero => intro _; rw [accumulate_zero_rat]; simp
    | succ k ih =>
        intro hk
        rw [accumulate_succ_rat s hk, ih (by omega), Finset.sum_range_succ,
          show w k = s.W[k] from dif_pos hk]
        ring
  rw [predictSum_eq_accumulate, key L.len (Nat.le_refl _), Finset.sum_range]
  congr 1
  refine Finset.sum_congr rfl fun i _ => ?_
  rw [show w i = s.W[i] from dif_pos i.isLt]
  rfl

theorem predictValue_rat :
    s.predictValue = clamp 2048 (-(s.regressor ⬝ᵥ s.weights)) + 2048 := by
  show limitPredict s.predictSum + ((2048 : Int) : ℚ) = _
  rw [limitPredict_rat, predictSum_rat]
  norm_num

/-- The value the cast is given is in the range of the cast. -/
theorem predictValue_mem : 0 ≤ s.predictValue ∧ s.predictValue ≤ 4096 := by
  have h := abs_le.mp (abs_clamp_le (m := (2048 : ℚ)) (by norm_num) (-(s.regressor ⬝ᵥ s.weights)))
  rw [predictValue_rat]
  exact ⟨by linarith [h.1], by linarith [h.2]⟩

theorem ancPredict_rat (n : UInt16) :
    ((ancPredict s n).1.toNat : Int)
      = ⌊clamp 2048 (-((s.store n).regressor ⬝ᵥ s.weights)) + 2048⌋ := by
  obtain ⟨h0, h1⟩ := (s.store n).predictValue_mem
  rw [predictValue_rat] at h0 h1
  have hval : (ancPredict s n).1 = toUInt16 (s.store n).predictValue := rfl
  rw [hval, predictValue_rat, toNat_toUInt16 h0 h1]
  rfl

/-! ### The update -/

theorem weights_ancUpdate (r : UInt16) :
    (ancUpdate s r).weights
      = LeakyLms.update s.step (r.toNat - 2048) s.weights s.regressor := by
  funext i
  show (ancUpdate s r).W[i.val] = _
  rw [getElem_ancUpdate_W s r i.val i.isLt, LeakyLms.update_apply, deviation_rat]
  show (((1 : Int) : ℚ) - s.step) * s.W[i.val] + s.step * (r.toNat - 2048) * s.tap i = _
  rw [Int.cast_one]
  rfl

/-! ### The history -/

variable {α : Type} [FloatArith α]

/-- The entries behind the cursor, the newest first. -/
def past (s : Fxlms α L) (i : Nat) : α := (RingIndex.back^[i + 1] s.xIdx).read s.x

/-- The newest entry of the regressor is the one just stored. -/
theorem tap_store_zero (s : Fxlms α L) (n : UInt16) : (s.store n).tap 0 = deviation n :=
  RingIndex.read_write ..

/-- The others are the history. -/
theorem tap_store_succ (s : Fxlms α L) (n : UInt16) {i : Nat} (hi : i + 1 < L.len) :
    (s.store n).tap (i + 1) = s.past i :=
  RingIndex.read_write_ne _ _ (RingIndex.iterate_back_ne L.fits _ (Nat.succ_pos i) hi)

/-- An update turns the regressor into history. -/
theorem past_ancUpdate (s : Fxlms α L) (r : UInt16) (i : Nat) :
    (ancUpdate s r).past i = s.tap i := by
  show (RingIndex.back^[i + 1] s.xIdx.advance).read s.x = (RingIndex.back^[i] s.xIdx).read s.x
  rw [Function.iterate_succ_apply, RingIndex.back_advance L.fits]

theorem past_cleared (step : α) (W : Vector α L.len) (i : Nat) :
    (Fxlms.cleared step W).past i = ofInt 0 := by
  simp [past, Fxlms.cleared, RingIndex.read]

end Fxlms

end Anc
