/-
The leaky least-mean-squares update.

One step takes the weights `w` to `(1 - μ) w + μ e h`, where `h` is the regressor
and `e` the measured error.  Three facts about it carry every result on the filter.

For a single weight the step is a convex combination of the old weight and of
`e h`, so no bound that both respect can be broken (`abs_leak_le`).

For the vector, suppose the error falls by a fraction `a ∈ [0, 1]` of what the
weights contribute, `e = -a (v · h)` for the difference `v` of two weight vectors.
Then the step is the rank-one map `v ↦ (1 - μ) v - μ a (v · h) h`, and a step size
with `μ (1 + |h|²) ≤ 1` makes it shrink by at least `1 - μ` (`normSq_contract_le`).

For the cost `(d - w · h)² + |w|²` of missing a target `d`, the step goes against the
gradient, and the same step size makes it descend (`cost_update_le`).  The step is then
affine in the weights, so that they stay in a ball (`normSq_update_target_le`) and forget
where they started (`normSq_update_target_sub_le`).

Lengths are kept squared, so that everything stays in the ordered field:
`normSq_add_le` is the triangle inequality in that form.
-/
import Mathlib.Algebra.Order.BigOperators.Ring.Finset
import Mathlib.Data.Matrix.Mul
import Mathlib.LinearAlgebra.Matrix.DotProduct
import Mathlib.Tactic.Linarith
import Mathlib.Tactic.Ring

namespace LeakyLms

variable {ι K : Type*} [CommRing K]

/-! ### The update -/

/-- One step with step size `μ` and error `e`. -/
def update (μ e : K) (w h : ι → K) : ι → K := (1 - μ) • w + (μ * e) • h

theorem update_apply (μ e : K) (w h : ι → K) (i : ι) :
    update μ e w h i = (1 - μ) * w i + μ * e * h i := rfl

/-- What a step does to the difference of two weight vectors. -/
theorem update_sub_update (μ e e' : K) (w w' h : ι → K) :
    update μ e w h - update μ e' w' h = (1 - μ) • (w - w') + (μ * (e - e')) • h := by
  funext i
  simp only [Pi.sub_apply, Pi.add_apply, Pi.smul_apply, smul_eq_mul, update_apply]
  ring

/-! ### Squared length -/

section SquaredLength

variable [Fintype ι]

/-- The sum of squares. -/
def normSq (v : ι → K) : K := ∑ i, v i ^ 2

theorem normSq_smul (c : K) (v : ι → K) : normSq (c • v) = c ^ 2 * normSq v := by
  unfold normSq
  rw [Finset.mul_sum]
  refine Finset.sum_congr rfl fun i _ => ?_
  rw [Pi.smul_apply, smul_eq_mul, mul_pow]

theorem normSq_eq_dotProduct (v : ι → K) : normSq v = v ⬝ᵥ v :=
  Finset.sum_congr rfl fun i _ => sq (v i)

theorem normSq_add (u v : ι → K) : normSq (u + v) = normSq u + 2 * (u ⬝ᵥ v) + normSq v := by
  unfold normSq dotProduct
  rw [Finset.mul_sum, ← Finset.sum_add_distrib, ← Finset.sum_add_distrib]
  refine Finset.sum_congr rfl fun i _ => ?_
  rw [Pi.add_apply]
  ring

/-- The squared error against a target `d`, regularised. -/
def cost (d : K) (h w : ι → K) : K := (d - w ⬝ᵥ h) ^ 2 + normSq w

/-- Half the gradient of the cost. -/
def halfGradient (d : K) (h w : ι → K) : ι → K := w - (d - w ⬝ᵥ h) • h

/-- The update is a step against the gradient. -/
theorem update_eq_add_halfGradient (μ d : K) (h w : ι → K) :
    update μ (d - w ⬝ᵥ h) w h = w + (-μ) • halfGradient d h w := by
  funext i
  simp only [update_apply, halfGradient, Pi.add_apply, Pi.sub_apply, Pi.smul_apply, smul_eq_mul]
  ring

/-- The step without its target, and the pull of the target. -/
theorem update_target (μ d : K) (w h : ι → K) :
    update μ (d - w ⬝ᵥ h) w h = ((1 - μ) • w + (μ * (-1 * (w ⬝ᵥ h))) • h) + (μ * d) • h := by
  funext i
  simp only [update_apply, Pi.add_apply, Pi.smul_apply, smul_eq_mul]
  ring

theorem cost_add (d : K) (h w δ : ι → K) :
    cost d h (w + δ)
      = cost d h w + 2 * (halfGradient d h w ⬝ᵥ δ) + ((δ ⬝ᵥ h) ^ 2 + normSq δ) := by
  unfold cost halfGradient
  rw [normSq_add, add_dotProduct, sub_dotProduct, smul_dotProduct, smul_eq_mul,
    dotProduct_comm h δ]
  ring

variable [LinearOrder K] [IsStrictOrderedRing K]

theorem normSq_nonneg (v : ι → K) : 0 ≤ normSq v :=
  Finset.sum_nonneg fun i _ => sq_nonneg (v i)

theorem normSq_eq_zero {v : ι → K} : normSq v = 0 ↔ v = 0 := by
  rw [normSq_eq_dotProduct, dotProduct_self_eq_zero]

theorem sq_dotProduct_le (u v : ι → K) : (u ⬝ᵥ v) ^ 2 ≤ normSq u * normSq v :=
  Finset.sum_mul_sq_le_sq_mul_sq Finset.univ u v

/-- The triangle inequality, with the lengths measured against a common `b`. -/
theorem normSq_add_le {u v : ι → K} {p q b : K} (hp : 0 ≤ p) (hq : 0 ≤ q) (hb : 0 ≤ b)
    (hu : normSq u ≤ p ^ 2 * b) (hv : normSq v ≤ q ^ 2 * b) :
    normSq (u + v) ≤ (p + q) ^ 2 * b := by
  have hsq : (u ⬝ᵥ v) ^ 2 ≤ (p * q * b) ^ 2 := calc
    (u ⬝ᵥ v) ^ 2 ≤ normSq u * normSq v := sq_dotProduct_le u v
    _ ≤ (p ^ 2 * b) * (q ^ 2 * b) :=
        mul_le_mul hu hv (normSq_nonneg v) (mul_nonneg (sq_nonneg p) hb)
    _ = (p * q * b) ^ 2 := by ring
  have hdot : u ⬝ᵥ v ≤ p * q * b :=
    le_of_abs_le (abs_le_of_sq_le_sq hsq (mul_nonneg (mul_nonneg hp hq) hb))
  rw [normSq_add]
  linarith [show (p + q) ^ 2 * b = p ^ 2 * b + 2 * (p * q * b) + q ^ 2 * b by ring]

/-- A vector whose entries are bounded by `m`. -/
theorem normSq_le_of_abs_le {v : ι → K} {m : K} (h : ∀ i, |v i| ≤ m) :
    normSq v ≤ Fintype.card ι * m ^ 2 := by
  unfold normSq
  calc ∑ i, v i ^ 2 ≤ ∑ _i : ι, m ^ 2 :=
        Finset.sum_le_sum fun i _ => sq_le_sq.mpr ((h i).trans (le_abs_self m))
    _ = Fintype.card ι * m ^ 2 := by
        rw [Finset.sum_const, Finset.card_univ, nsmul_eq_mul]

/-- A step size that fits the bound of a regressor fits the regressor. -/
theorem mul_one_add_normSq_le {μ m : K} {h : ι → K} (h0 : 0 ≤ μ) (hh : ∀ i, |h i| ≤ m)
    (hμ : μ * (1 + Fintype.card ι * m ^ 2) ≤ 1) : μ * (1 + normSq h) ≤ 1 := calc
  μ * (1 + normSq h) ≤ μ * (1 + Fintype.card ι * m ^ 2) :=
      mul_le_mul_of_nonneg_left (add_le_add_right (normSq_le_of_abs_le hh) 1) h0
  _ ≤ 1 := hμ

end SquaredLength

/-! ### What the update keeps -/

variable [LinearOrder K] [IsStrictOrderedRing K]

/-- A weight never leaves a bound that it and `e h` both respect. -/
theorem abs_leak_le {μ w e h m : K} (h0 : 0 ≤ μ) (h1 : μ ≤ 1) (hw : |w| ≤ m)
    (heh : |e * h| ≤ m) : |(1 - μ) * w + μ * e * h| ≤ m := calc
  |(1 - μ) * w + μ * e * h| = |(1 - μ) * w + μ * (e * h)| := by rw [mul_assoc μ e h]
  _ ≤ |(1 - μ) * w| + |μ * (e * h)| := abs_add_le _ _
  _ = (1 - μ) * |w| + μ * |e * h| := by
      rw [abs_mul, abs_mul, abs_of_nonneg (sub_nonneg.mpr h1), abs_of_nonneg h0]
  _ ≤ (1 - μ) * m + μ * m :=
      add_le_add (mul_le_mul_of_nonneg_left hw (sub_nonneg.mpr h1))
        (mul_le_mul_of_nonneg_left heh h0)
  _ = m := by ring

/-- **The rank-one step shrinks by the leakage.** -/
theorem normSq_contract_le [Fintype ι] {μ a : K} (v h : ι → K) (h0 : 0 ≤ μ) (ha0 : 0 ≤ a)
    (ha1 : a ≤ 1) (hμ : μ * (1 + normSq h) ≤ 1) :
    normSq ((1 - μ) • v + (μ * (-a * (v ⬝ᵥ h))) • h) ≤ (1 - μ) ^ 2 * normSq v := by
  set t : K := v ⬝ᵥ h with ht
  have hh : μ * normSq h ≤ 1 - μ := by linarith
  have hleak : 0 ≤ 1 - μ := (mul_nonneg h0 (normSq_nonneg h)).trans hh
  have hcurv : a * (μ * normSq h) ≤ 2 * (1 - μ) := calc
    a * (μ * normSq h) ≤ 1 * (μ * normSq h) :=
        mul_le_mul_of_nonneg_right ha1 (mul_nonneg h0 (normSq_nonneg h))
    _ ≤ 2 * (1 - μ) := by linarith
  have hexpand : normSq ((1 - μ) • v + (μ * (-a * t)) • h)
      = (1 - μ) ^ 2 * normSq v - μ * a * t ^ 2 * (2 * (1 - μ) - a * (μ * normSq h)) := by
    rw [normSq_add, normSq_smul, normSq_smul, smul_dotProduct, dotProduct_smul, ← ht]
    simp only [smul_eq_mul]
    ring
  have hpos : 0 ≤ μ * a * t ^ 2 * (2 * (1 - μ) - a * (μ * normSq h)) :=
    mul_nonneg (mul_nonneg (mul_nonneg h0 ha0) (sq_nonneg t)) (sub_nonneg.mpr hcurv)
  rw [hexpand]
  linarith

/-! ### Following a target

With an error `d - w · h` against a target `d` that does not depend on the weights, the step is
an affine contraction. -/

section Target

variable [Fintype ι] {μ : K}

/-- **The weights never leave a ball that they and the pull of the target lie in.** -/
theorem normSq_update_target_le {d b : K} {w h : ι → K} (h0 : 0 ≤ μ) (hμ : μ * (1 + normSq h) ≤ 1)
    (hw : normSq w ≤ b) (hd : d ^ 2 * normSq h ≤ b) :
    normSq (update μ (d - w ⬝ᵥ h) w h) ≤ b := by
  have hleak : 0 ≤ 1 - μ := by linarith [mul_nonneg h0 (normSq_nonneg h)]
  have hcontract : normSq ((1 - μ) • w + (μ * (-1 * (w ⬝ᵥ h))) • h) ≤ (1 - μ) ^ 2 * b :=
    (normSq_contract_le w h h0 zero_le_one le_rfl hμ).trans
      (mul_le_mul_of_nonneg_left hw (sq_nonneg _))
  have hpull : normSq ((μ * d) • h) ≤ μ ^ 2 * b := by
    rw [normSq_smul, mul_pow, mul_assoc]
    exact mul_le_mul_of_nonneg_left hd (sq_nonneg μ)
  calc normSq (update μ (d - w ⬝ᵥ h) w h)
      ≤ ((1 - μ) + μ) ^ 2 * b := by
        rw [update_target]
        exact normSq_add_le hleak h0 ((normSq_nonneg w).trans hw) hcontract hpull
    _ = b := by ring

/-- **What two weight vectors differ by shrinks by the leakage**, whatever the target. -/
theorem normSq_update_target_sub_le (d : K) (w w' : ι → K) {h : ι → K} (h0 : 0 ≤ μ)
    (hμ : μ * (1 + normSq h) ≤ 1) :
    normSq (update μ (d - w ⬝ᵥ h) w h - update μ (d - w' ⬝ᵥ h) w' h)
      ≤ (1 - μ) ^ 2 * normSq (w - w') := by
  have herr : d - w ⬝ᵥ h - (d - w' ⬝ᵥ h) = -1 * ((w - w') ⬝ᵥ h) := by
    rw [sub_dotProduct]
    ring
  rw [update_sub_update, herr]
  exact normSq_contract_le (w - w') h h0 zero_le_one le_rfl hμ

end Target

/-! ### Descent -/

section Descent

variable [Fintype ι] {μ : K}

/-- **One step descends.** -/
theorem cost_update_le (d : K) (h w : ι → K) (h0 : 0 ≤ μ) (hμ : μ * (1 + normSq h) ≤ 1) :
    cost d h (update μ (d - w ⬝ᵥ h) w h) ≤ cost d h w - μ * normSq (halfGradient d h w) := by
  set g := halfGradient d h w with hg
  -- The curvature along `g` is at most `(1 + |h|²) |g|²`, and the step size absorbs the factor.
  have hcurv : μ ^ 2 * ((g ⬝ᵥ h) ^ 2 + normSq g) ≤ μ * normSq g := calc
    μ ^ 2 * ((g ⬝ᵥ h) ^ 2 + normSq g)
      ≤ μ ^ 2 * (normSq g * normSq h + normSq g) :=
        mul_le_mul_of_nonneg_left (by linarith [sq_dotProduct_le g h]) (sq_nonneg μ)
    _ = (μ * normSq g) * (μ * (1 + normSq h)) := by ring
    _ ≤ (μ * normSq g) * 1 :=
        mul_le_mul_of_nonneg_left hμ (mul_nonneg h0 (normSq_nonneg g))
    _ = μ * normSq g := mul_one _
  calc cost d h (update μ (d - w ⬝ᵥ h) w h)
      = cost d h w - 2 * (μ * normSq g) + μ ^ 2 * ((g ⬝ᵥ h) ^ 2 + normSq g) := by
        rw [update_eq_add_halfGradient, cost_add, ← hg, dotProduct_smul, smul_dotProduct,
          normSq_smul, ← normSq_eq_dotProduct]
        simp only [smul_eq_mul]
        ring
    _ ≤ cost d h w - μ * normSq g := by linarith

/-- The gradient vanishes at the least cost, and only there once some step descends. -/
theorem halfGradient_eq_zero_iff {d : K} {h w : ι → K} (h0 : 0 < μ) (hμ : μ * (1 + normSq h) ≤ 1) :
    halfGradient d h w = 0 ↔ ∀ v, cost d h w ≤ cost d h v := by
  constructor
  · intro hflat v
    have hcost := cost_add d h w (v - w)
    rw [hflat, zero_dotProduct, add_sub_cancel] at hcost
    rw [hcost]
    linarith [sq_nonneg ((v - w) ⬝ᵥ h), normSq_nonneg (v - w)]
  · intro hleast
    have hstep := (hleast _).trans (cost_update_le d h w h0.le hμ)
    have hle : μ * normSq (halfGradient d h w) ≤ μ * 0 := by linarith
    exact normSq_eq_zero.mp (le_antisymm (le_of_mul_le_mul_left hle h0) (normSq_nonneg _))

end Descent

end LeakyLms
