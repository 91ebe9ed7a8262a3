/-
Bounded arguments keep the filter bounded.

The invariant is `Bounded`: the step size is a fraction, every buffer entry is a
deviation that some prediction stored, and every weight is within its start value
or the product of the two bounds, whichever is larger.  A prediction keeps it
because it writes one deviation.  An update keeps it because the new weight is a
convex combination of the old one and of error times tap, and it does so whether or
not a prediction came before it: the tap is bounded because all of the buffer is.

The accumulator of the prediction loop follows, one bounded product an iteration,
and with it every other value the two functions form on the way.
-/
import AncPrototype.Proofs.ExactFilter

namespace Anc

open FloatArith Saturation

/-- The arguments of a call deviate from mid-scale by at most `X` and `E`. -/
def Call.Within (X E : ℚ) : Call → Prop
  | .predict noise => |(noise.toNat : ℚ) - 2048| ≤ X
  | .update residual => |(residual.toNat : ℚ) - 2048| ≤ E

/-- `FLT_MAX` of a 32-bit `float`. -/
def fltMax : ℚ := (2 ^ 24 - 1) * 2 ^ 104

namespace Fxlms

variable {L : BufLen}

/-- The largest magnitude among the weights. -/
def maxAbs (W : Vector ℚ L.len) : ℚ :=
  Finset.univ.sup' ⟨⟨0, L.pos⟩, Finset.mem_univ _⟩ fun i : Fin L.len => |W.get i|

theorem abs_le_maxAbs (W : Vector ℚ L.len) (i : Fin L.len) : |W.get i| ≤ maxAbs W := by
  unfold maxAbs
  exact Finset.le_sup' (fun i : Fin L.len => |W.get i|) (Finset.mem_univ i)

/-- The values a call forms, in the order of its expressions; `s` is the state it is made in. -/
def intermediates (s : Fxlms ℚ L) : Call → List ℚ
  | .predict noise =>
      let t := s.store noise
      [(noise.toNat : ℚ), (noise.toNat : ℚ) - 2048, t.predictSum, limitPredict t.predictSum,
          t.predictValue] ++
        (List.finRange L.len).flatMap fun i : Fin L.len =>
          [t.tap i, t.tap i * -1, t.tap i * -1 * t.W.get i, (t.accumulate (i + 1)).1]
  | .update residual =>
      let error : ℚ := (residual.toNat : ℚ) - 2048
      [(residual.toNat : ℚ), error, 1 - s.step, s.step * error] ++
        (List.finRange L.len).flatMap fun i : Fin L.len =>
          [s.tap i, s.step * error * s.tap i, (1 - s.step) * s.W.get i,
            (1 - s.step) * s.W.get i + s.step * error * s.tap i]

/-- What holds in every state of a bounded run from weights `W`. -/
structure Bounded (X E : ℚ) (W : Vector ℚ L.len) (s : Fxlms ℚ L) : Prop where
  step_nonneg : 0 ≤ s.step
  step_le_one : s.step ≤ 1
  entry : ∀ j (hj : j < L.len), |s.x[j]| ≤ X
  weight : ∀ i (hi : i < L.len), |s.W[i]| ≤ max |W[i]| (X * E)

namespace Bounded

variable {X E : ℚ} {W : Vector ℚ L.len} {s : Fxlms ℚ L}

theorem cleared {step : ℚ} (h0 : 0 ≤ step) (h1 : step ≤ 1) (hX : 0 ≤ X) (W : Vector ℚ L.len) :
    Bounded X E W (Fxlms.cleared step W) := by
  refine ⟨h0, h1, ?_, fun i _ => le_max_left _ _⟩
  intro j hj
  have hzero : (Fxlms.cleared step W).x[j] = ((0 : Int) : ℚ) := by
    show (Vector.replicate L.len (ofInt 0 : ℚ))[j] = _
    rw [Vector.getElem_replicate]
    rfl
  rw [hzero]
  simpa using hX

theorem tap (h : Bounded X E W s) (i : Nat) : |s.tap i| ≤ X :=
  h.entry _ (RingIndex.back^[i] s.xIdx).lt

theorem store (h : Bounded X E W s) {noise : UInt16} (hn : |(noise.toNat : ℚ) - 2048| ≤ X) :
    Bounded X E W (s.store noise) := by
  refine ⟨h.step_nonneg, h.step_le_one, ?_, h.weight⟩
  intro j hj
  show |(s.x.set s.xIdx.idx.toNat (deviation noise) s.xIdx.lt)[j]| ≤ X
  rw [Vector.getElem_set]
  split
  · rw [deviation_rat]
    exact hn
  · exact h.entry j hj

theorem update (h : Bounded X E W s) {residual : UInt16}
    (hr : |(residual.toNat : ℚ) - 2048| ≤ E) : Bounded X E W (ancUpdate s residual) := by
  refine ⟨h.step_nonneg, h.step_le_one, h.entry, ?_⟩
  intro i hi
  have hprod : |((residual.toNat : ℚ) - 2048) * s.tap i| ≤ max |W[i]| (X * E) := calc
    |((residual.toNat : ℚ) - 2048) * s.tap i|
      = |(residual.toNat : ℚ) - 2048| * |s.tap i| := abs_mul _ _
    _ ≤ E * X := mul_le_mul hr (h.tap i) (abs_nonneg _) ((abs_nonneg _).trans hr)
    _ ≤ max |W[i]| (X * E) := by rw [mul_comm]; exact le_max_right _ _
  have hW := congrFun (weights_ancUpdate s residual) ⟨i, hi⟩
  rw [LeakyLms.update_apply] at hW
  show |(ancUpdate s residual).weights ⟨i, hi⟩| ≤ _
  rw [hW]
  exact LeakyLms.abs_leak_le h.step_nonneg h.step_le_one (h.weight i hi) hprod

/-- One call keeps the bounds. -/
theorem call (h : Bounded X E W s) {c : Call} (hc : c.Within X E) : Bounded X E W (s.call c) := by
  cases c with
  | predict noise => exact h.store hc
  | update residual => exact h.update hc

theorem calls (h : Bounded X E W s) (cs : List Call) (hall : ∀ c ∈ cs, c.Within X E) :
    Bounded X E W (s.calls cs) :=
  calls_keep (fun h hc => h.call hc) cs h hall

/-! ### The accumulator -/

theorem weight_le_max (h : Bounded X E W s) (i : Nat) (hi : i < L.len) :
    |s.W[i]| ≤ max (maxAbs W) (X * E) :=
  (h.weight i hi).trans (max_le_max_right _ (abs_le_maxAbs W ⟨i, hi⟩))

/-- One product of the prediction loop. -/
theorem abs_tap_mul_le (h : Bounded X E W s) (i : Nat) (hi : i < L.len) :
    |s.tap i * s.W[i]| ≤ X * max (maxAbs W) (X * E) := by
  rw [abs_mul]
  exact mul_le_mul (h.tap i) (h.weight_le_max i hi) (abs_nonneg _) ((abs_nonneg _).trans (h.tap i))

theorem accumulate (h : Bounded X E W s) :
    ∀ k, k ≤ L.len → |(s.accumulate k).1| ≤ k * (X * max (maxAbs W) (X * E)) := by
  intro k
  induction k with
  | zero => intro _; rw [accumulate_zero_rat]; simp
  | succ k ih =>
      intro hk
      rw [accumulate_succ_rat s hk]
      calc |(s.accumulate k).1 - s.tap k * s.W[k]|
          ≤ |(s.accumulate k).1| + |s.tap k * s.W[k]| := abs_sub _ _
        _ ≤ k * (X * max (maxAbs W) (X * E)) + X * max (maxAbs W) (X * E) :=
            add_le_add (ih (by omega)) (h.abs_tap_mul_le k hk)
        _ = ((k + 1 : Nat) : ℚ) * (X * max (maxAbs W) (X * E)) := by push_cast; ring

theorem accumulate_le (h : Bounded X E W s) {k : Nat} (hk : k ≤ L.len) :
    |(s.accumulate k).1| ≤ L.len * X * max (maxAbs W) (X * E) := by
  have hX : 0 ≤ X := (abs_nonneg _).trans (h.tap 0)
  have hM : 0 ≤ max (maxAbs W) (X * E) := (abs_nonneg _).trans (h.weight_le_max 0 L.pos)
  have hkL : (k : ℚ) ≤ L.len := by exact_mod_cast hk
  calc |(s.accumulate k).1| ≤ k * (X * max (maxAbs W) (X * E)) := h.accumulate k hk
    _ ≤ L.len * (X * max (maxAbs W) (X * E)) :=
        mul_le_mul_of_nonneg_right hkL (mul_nonneg hX hM)
    _ = L.len * X * max (maxAbs W) (X * E) := by ring

/-! ### Everything else on the way -/

/-- The values a call forms stay below any `b` that is above the ranges of its operands, of
the weights and of the accumulator. -/
theorem intermediates_le (h : Bounded X E W s) {c : Call} (hc : c.Within X E) {b : ℚ}
    (hint : 65535 ≤ b) (hXb : X ≤ b) (hEb : E ≤ b) (hXE : X * E ≤ b)
    (hMb : max (maxAbs W) (X * E) ≤ b) (hXM : X * max (maxAbs W) (X * E) ≤ b)
    (hacc : L.len * X * max (maxAbs W) (X * E) ≤ b) :
    ∀ v ∈ s.intermediates c, |v| ≤ b := by
  have hword : ∀ n : UInt16, |(n.toNat : ℚ)| ≤ b := by
    intro n
    have hn : (n.toNat : ℚ) ≤ 65535 := by
      have := n.toNat_lt
      exact_mod_cast (show n.toNat ≤ 65535 by omega)
    rw [abs_of_nonneg (Nat.cast_nonneg _)]
    exact hn.trans hint
  cases c with
  | predict noise =>
      have ht := h.store hc
      have hsum : |(s.store noise).predictSum| ≤ b := by
        rw [predictSum_eq_accumulate]
        exact (ht.accumulate_le (Nat.le_refl _)).trans hacc
      have hlimit : |limitPredict (s.store noise).predictSum| ≤ b := by
        rw [limitPredict_rat]
        exact (abs_clamp_le (by norm_num) _).trans (by linarith)
      have hvalue : |(s.store noise).predictValue| ≤ b := by
        obtain ⟨h0, h1⟩ := (s.store noise).predictValue_mem
        rw [abs_of_nonneg h0]
        linarith
      intro v hv
      simp only [intermediates, List.mem_append, List.mem_flatMap, List.mem_cons,
        List.not_mem_nil, or_false] at hv
      rcases hv with (rfl | rfl | rfl | rfl | rfl) | ⟨i, -, rfl | rfl | rfl | rfl⟩
      · exact hword noise
      · exact hc.trans hXb
      · exact hsum
      · exact hlimit
      · exact hvalue
      · exact (ht.tap i).trans hXb
      · rw [mul_neg_one, abs_neg]
        exact (ht.tap i).trans hXb
      · rw [mul_neg_one, neg_mul, abs_neg]
        exact (ht.abs_tap_mul_le i i.isLt).trans hXM
      · exact (ht.accumulate_le i.isLt).trans hacc
  | update residual =>
      have hleak0 : 0 ≤ 1 - s.step := sub_nonneg.mpr h.step_le_one
      have hleak1 : 1 - s.step ≤ 1 := by linarith [h.step_nonneg]
      have herror : |s.step * ((residual.toNat : ℚ) - 2048)| ≤ E := by
        rw [abs_mul, abs_of_nonneg h.step_nonneg]
        exact (mul_le_of_le_one_left (abs_nonneg _) h.step_le_one).trans hc
      intro v hv
      simp only [intermediates, List.mem_append, List.mem_flatMap, List.mem_cons,
        List.not_mem_nil, or_false] at hv
      rcases hv with (rfl | rfl | rfl | rfl) | ⟨i, -, rfl | rfl | rfl | rfl⟩
      · exact hword residual
      · exact hc.trans hEb
      · rw [abs_of_nonneg hleak0]
        linarith
      · exact herror.trans hEb
      · exact (h.tap i).trans hXb
      · rw [abs_mul]
        calc |s.step * ((residual.toNat : ℚ) - 2048)| * |s.tap i|
            ≤ E * X := mul_le_mul herror (h.tap i) (abs_nonneg _) ((abs_nonneg _).trans herror)
          _ = X * E := mul_comm E X
          _ ≤ b := hXE
      · rw [abs_mul, abs_of_nonneg hleak0]
        exact (mul_le_of_le_one_left (abs_nonneg _) hleak1).trans
          ((h.weight_le_max i i.isLt).trans hMb)
      · have hnew := (h.update hc).weight_le_max i i.isLt
        have hW := congrFun (weights_ancUpdate s residual) i
        rw [LeakyLms.update_apply] at hW
        have hval : (1 - s.step) * s.W.get i + s.step * ((residual.toNat : ℚ) - 2048) * s.tap i
            = (ancUpdate s residual).weights i := hW.symm
        rw [hval]
        exact hnew.trans hMb

end Bounded

/-! ### Runs of the program's own filter -/

/-- Any two 16-bit arguments are within this of mid-scale. -/
theorem within_uint16 (c : Call) : c.Within 63487 63487 := by
  have key : ∀ n : UInt16, |(n.toNat : ℚ) - 2048| ≤ 63487 := by
    intro n
    have hlt : (n.toNat : ℚ) ≤ 65535 := by
      have := n.toNat_lt
      exact_mod_cast (show n.toNat ≤ 65535 by omega)
    have hge : (0 : ℚ) ≤ n.toNat := Nat.cast_nonneg _
    exact abs_le.mpr ⟨by linarith, by linarith⟩
  cases c with
  | predict noise => exact key noise
  | update residual => exact key residual

theorem maxAbs_initialWeights : maxAbs (initializeAnc : Fxlms ℚ _).W ≤ 1 := by
  unfold maxAbs
  refine Finset.sup'_le _ _ fun i _ => ?_
  revert i
  decide +kernel

/-- From `initialize_anc` on, whatever the arguments, no value comes near `FLT_MAX`. -/
theorem intermediates_far_below_fltMax (cs : List Call) (c : Call) :
    ∀ v ∈ ((initializeAnc : Fxlms ℚ _).calls cs).intermediates c, |v| * 2 ^ 76 < fltMax := by
  have hstart : Bounded 63487 63487 (initializeAnc : Fxlms ℚ _).W (initializeAnc : Fxlms ℚ _) :=
    Bounded.cleared (by decide +kernel) (by decide +kernel) (by norm_num) _
  have hrun := hstart.calls cs fun d _ => within_uint16 d
  have hmax : max (maxAbs (initializeAnc : Fxlms ℚ _).W) (63487 * 63487 : ℚ) = 63487 * 63487 :=
    max_eq_right (maxAbs_initialWeights.trans (by norm_num))
  have hlen : ((fxlmsBufLen.len : Nat) : ℚ) = 5 := by norm_num [fxlmsBufLen]
  intro v hv
  have hv' : |v| ≤ 5 * 63487 * (63487 * 63487) := by
    refine hrun.intermediates_le (within_uint16 c) ?_ ?_ ?_ ?_ ?_ ?_ ?_ v hv
    all_goals first | rw [hmax] | skip
    all_goals first | rw [hlen] | skip
    all_goals norm_num
  unfold fltMax
  linarith

end Fxlms

/-- **Bounded-input runs have bounded weights, entries, accumulators and casts**, and with the
bounds that all 16-bit arguments meet, the values of the program's own filter stay far below
the largest `float`. -/
theorem bounded_run (L : BufLen) (step : ℚ) (W : Vector ℚ L.len) (X E : ℚ) (cs : List Call)
    (h0 : 0 ≤ step) (h1 : step ≤ 1) (hX : 0 ≤ X) (hcs : ∀ c ∈ cs, c.Within X E) :
    let s := (Fxlms.cleared step W).calls cs
    ((∀ i : Fin L.len, |s.W.get i| ≤ max |W.get i| (X * E)) ∧
      (∀ j : Fin L.len, |s.x.get j| ≤ X) ∧
      ∀ noise : UInt16, |(noise.toNat : ℚ) - 2048| ≤ X →
        (∀ k ≤ L.len, |((s.store noise).accumulate k).1|
          ≤ L.len * X * max (Fxlms.maxAbs W) (X * E)) ∧
        0 ≤ (s.store noise).predictValue ∧ (s.store noise).predictValue ≤ 4096) ∧
    (∀ c : Call, c.Within 63487 63487) ∧
    ∀ (ds : List Call) (c : Call),
      ∀ v ∈ ((initializeAnc : Fxlms ℚ _).calls ds).intermediates c, |v| * 2 ^ 76 < fltMax := by
  intro s
  have hs : Fxlms.Bounded X E W s := (Fxlms.Bounded.cleared h0 h1 hX W).calls cs hcs
  refine ⟨⟨fun i => hs.weight i i.isLt, fun j => hs.entry j j.isLt, ?_⟩,
    Fxlms.within_uint16, Fxlms.intermediates_far_below_fltMax⟩
  intro noise hn
  exact ⟨fun k hk => (hs.store hn).accumulate_le hk, (s.store noise).predictValue_mem⟩

/-- The largest arguments there are. -/
theorem bounded_run_largest_arguments :
    |((Fxlms.cleared 1 initialWeights : Fxlms ℚ fxlmsBufLen).calls
        [.predict 65535, .update 65535]).W.get 0|
      ≤ max |initialWeights.get 0| (63487 * 63487) :=
  (bounded_run fxlmsBufLen 1 initialWeights 63487 63487 [.predict 65535, .update 65535]
    (by norm_num) (by norm_num) (by norm_num) (fun c _ => Fxlms.within_uint16 c)).1.1 0

end Anc
