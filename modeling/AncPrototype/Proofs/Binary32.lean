/-
The firmware over `float`.

The step size is below the precision of `float`: `1 - step` rounds to one, and the filter
does not leak.  What bounds the weights in exact arithmetic is gone with the leak, but
there is something else: beyond a certain size what an update can add to a weight is lost
in rounding (`Within.absorb`).  So the weights stay bounded, below the bound that the leak
would give them, and with them every value on the way: nothing overflows.

The other side is that a weight does not move at all as long as the products of residual
and samples are small beside it.

All bounds are powers of two, given by their exponents.
-/
import AncPrototype.Model.Binary32
import AncPrototype.Proofs.Range

namespace Anc

open FloatArith Rounding DeviceProgram

namespace Binary32

/-! ### Bounds of an operation -/

/-- A value of magnitude at most `2 ^ k`. -/
def Within (a : Binary32) (k : ℤ) : Prop := ∃ x, a = some x ∧ |x.val| ≤ 2 ^ k

/-- A value that is `q`. -/
def Is (a : Binary32) (q : ℚ) : Prop := ∃ x, a = some x ∧ x.val = q

variable {a b : Binary32} {j k : ℤ}

theorem mem_zpow (hmin : -149 ≤ k) : binary32.Mem (2 ^ k) := Format.Mem.zpow hmin

theorem zpow_lt_max (hk : k < 128) : (2 : ℚ) ^ k < 2 ^ 128 := by
  rw [← zpow_natCast]
  exact zpow_lt_zpow_right₀ one_lt_two hk

theorem ofNumber_within {x : Format.Number binary32} (hk : k < 128) (hx : |x.val| ≤ 2 ^ k) :
    (ofNumber x).Within k := ⟨x, if_pos (hx.trans_lt (zpow_lt_max hk)), hx⟩

theorem Within.mono (h : a.Within j) (hjk : j ≤ k) : a.Within k := by
  obtain ⟨x, rfl, hx⟩ := h
  exact ⟨x, rfl, hx.trans (zpow_le_zpow_right₀ one_le_two hjk)⟩

theorem Is.within {q : ℚ} (h : a.Is q) (hq : |q| ≤ 2 ^ k) : a.Within k := by
  obtain ⟨x, rfl, hx⟩ := h
  exact ⟨x, rfl, hx ▸ hq⟩

theorem Within.mul (ha : a.Within j) (hb : b.Within k) (hmin : -149 ≤ j + k) (hmax : j + k < 128) :
    (a * b).Within (j + k) := by
  obtain ⟨x, rfl, hx⟩ := ha
  obtain ⟨y, rfl, hy⟩ := hb
  refine ofNumber_within hmax (Format.abs_round_le (mem_zpow hmin) ?_)
  rw [abs_mul, zpow_add₀ two_ne_zero]
  exact mul_le_mul hx hy (abs_nonneg _) (two_zpow_pos j).le

theorem Within.add (ha : a.Within k) (hb : b.Within k) (hmin : -150 ≤ k) (hmax : k < 127) :
    (a + b).Within (k + 1) := by
  obtain ⟨x, rfl, hx⟩ := ha
  obtain ⟨y, rfl, hy⟩ := hb
  refine ofNumber_within (by omega) (Format.abs_round_le (mem_zpow (by omega)) ?_)
  calc |x.val + y.val| ≤ |x.val| + |y.val| := abs_add_le _ _
    _ ≤ 2 ^ k + 2 ^ k := add_le_add hx hy
    _ = 2 ^ (k + 1) := by rw [zpow_add_one₀ two_ne_zero, mul_two]

/-- **What is small beside the bound does not lead beyond it.** -/
theorem Within.absorb (ha : a.Within k) (hb : b.Within j) (hjk : j + 26 ≤ k) (hmin : -149 ≤ k)
    (hmax : k < 128) : (a + b).Within k := by
  obtain ⟨x, rfl, hx⟩ := ha
  obtain ⟨y, rfl, hy⟩ := hb
  have hsmall : (2 : ℚ) ^ (binary32.prec + 2) * |2 ^ j| ≤ |2 ^ k| := by
    rw [abs_of_pos (two_zpow_pos j), abs_of_pos (two_zpow_pos k), ← zpow_natCast,
      ← zpow_add₀ two_ne_zero]
    exact zpow_le_zpow_right₀ one_le_two (by show (26 : ℤ) + j ≤ k; omega)
  have hsum : |x.val + y.val| ≤ 2 ^ k + 2 ^ j := (abs_add_le _ _).trans (add_le_add hx hy)
  refine ofNumber_within hmax ?_
  calc |(x + y).val| ≤ binary32.round (2 ^ k + 2 ^ j) := Format.abs_round_le_round hsum
    _ = 2 ^ k := Format.round_add_eq (mem_zpow hmin) hsmall

/-- A sum that does not overflow. -/
theorem Within.add_eq {w d : Format.Number binary32} (h : (a + b).Within k) (ha : a = some w)
    (hb : b = some d) : a + b = some (w + d) := by
  subst ha hb
  obtain ⟨x, hx, -⟩ := h
  have hsum : ofNumber (w + d) = some x := hx
  by_cases hlt : |(w + d).val| < 2 ^ 128
  · exact if_pos hlt
  · have hnone : ofNumber (w + d) = none := if_neg hlt
    exact absurd (hsum.symm.trans hnone) (Option.some_ne_none x)

/-- A value that is small beside another one is lost in the sum. -/
theorem add_eq_of_small {w d : Format.Number binary32} (hd : 2 ^ 26 * |d.val| ≤ |w.val|) :
    w + d = w := Format.Number.ext (Format.round_add_eq w.mem hd)

/-! ### Integers -/

/-- Integers below the precision are exact. -/
theorem is_ofInt {n : ℤ} (hn : |n| < 2 ^ 24) : (ofInt n : Binary32).Is n := by
  have hmem : binary32.Mem n := .intCast hn (by decide)
  have hval : (Format.Number.ofRat (n : ℚ) : Format.Number binary32).val = n :=
    Format.Number.val_ofRat_of_mem hmem
  have hlt : |(n : ℚ)| < 2 ^ 24 := by exact_mod_cast hn
  refine ⟨.ofRat n, if_pos ?_, hval⟩
  rw [hval]
  exact hlt.trans (by norm_num)

theorem Is.sub {m n : ℤ} (ha : a.Is m) (hb : b.Is n) (hmn : |m - n| < 2 ^ 24) :
    (a - b).Is (m - n) := by
  obtain ⟨x, rfl, hx⟩ := ha
  obtain ⟨y, rfl, hy⟩ := hb
  have hxy : x - y = Format.Number.ofRat ((m - n : ℤ) : ℚ) := by
    rw [Int.cast_sub, ← hx, ← hy]
    rfl
  have h := is_ofInt hmn
  rw [Int.cast_sub] at h
  obtain ⟨z, hz, hzv⟩ := h
  refine ⟨z, ?_, hzv⟩
  show ofNumber (x - y) = some z
  rw [hxy]
  exact hz

/-- The deviation of a sample is exact. -/
theorem is_deviation (n : UInt16) : (deviation n : Binary32).Is ((n.toNat : ℤ) - (2048 : ℤ)) := by
  have hn := n.toNat_lt
  exact (is_ofInt (n := n.toNat) (by rw [abs_lt]; omega)).sub (is_ofInt (by norm_num))
    (by rw [abs_lt]; omega)

theorem deviation_within (n : UInt16) : (deviation n : Binary32).Within 16 := by
  refine (is_deviation n).within ?_
  have hn : |(n.toNat : ℤ) - 2048| ≤ 2 ^ 16 := by
    have := n.toNat_lt
    rw [abs_le]
    omega
  exact_mod_cast hn

/-! ### The step size -/

/-- The step size is below the precision. -/
theorem step_within : (ofDecimal fxlmsStep : Binary32).Within (-36) := by
  have hstep : |fxlmsStep| ≤ 2 ^ (-36 : ℤ) := by
    rw [abs_of_pos (by norm_num [fxlmsStep])]
    norm_num [fxlmsStep]
  exact ofNumber_within (by norm_num) (Format.abs_round_le (mem_zpow (by norm_num))
    (Format.abs_round_le (.zpow (by decide)) hstep))

/-- **The filter does not leak.** -/
theorem leak_mul {w : Binary32} (hw : w.Within k) (hk : k < 128) :
    (ofInt 1 - ofDecimal fxlmsStep) * w = w := by
  obtain ⟨s, hs, hsmall⟩ := step_within
  obtain ⟨one, hone, hone1⟩ := is_ofInt (n := 1) (by norm_num)
  obtain ⟨x, rfl, hx⟩ := hw
  have hmem : binary32.Mem 1 := by
    have h := one.mem
    rwa [hone1, Int.cast_one] at h
  have hleak : one - s = one := by
    refine Format.Number.ext ?_
    rw [Format.Number.val_sub, hone1, Int.cast_one, sub_eq_add_neg]
    refine Format.round_add_eq hmem ?_
    rw [abs_neg, abs_one]
    calc (2 : ℚ) ^ (binary32.prec + 2) * |s.val| ≤ 2 ^ 26 * 2 ^ (-36 : ℤ) :=
          mul_le_mul_of_nonneg_left hsmall (by positivity)
      _ ≤ 1 := by norm_num
  have hmul : one * x = x := by
    refine Format.Number.ext ?_
    rw [Format.Number.val_mul, hone1, Int.cast_one, one_mul]
    exact Format.round_of_mem x.mem
  have hsub : (ofInt 1 - ofDecimal fxlmsStep : Binary32) = some one := by
    rw [hone, hs]
    show ofNumber (one - s) = some one
    rw [hleak]
    refine if_pos ?_
    rw [hone1]
    norm_num
  rw [hsub]
  show ofNumber (one * x) = some x
  rw [hmul]
  exact if_pos (hx.trans_lt (zpow_lt_max hk))

/-! ### The limit -/

/-- What passes the limit is a value of at most mid-scale, or none at all. -/
theorem limitPredict_cases (p : Binary32) :
    (p = none ∧ limitPredict p = none) ∨
      ∃ x : Format.Number binary32, limitPredict p = some x ∧ |x.val| ≤ 2048 := by
  obtain ⟨high, hhigh, hhighv⟩ := is_ofInt (n := fxlmsMid) (by decide)
  obtain ⟨low, hlow, hlowv⟩ := is_ofInt (n := -1 * fxlmsMid) (by decide)
  unfold limitPredict
  rw [hhigh, hlow]
  cases p with
  | none => exact .inl ⟨rfl, rfl⟩
  | some x =>
      refine .inr ?_
      show ∃ y, (if decide (high.val < x.val) then some high
        else if decide (x.val < low.val) then some low else some x) = some y ∧ _
      rw [hhighv, hlowv]
      simp only [decide_eq_true_eq]
      split_ifs with habove hbelow
      · exact ⟨high, rfl, by rw [hhighv]; norm_num [fxlmsMid]⟩
      · exact ⟨low, rfl, by rw [hlowv]; norm_num [fxlmsMid]⟩
      · refine ⟨x, rfl, abs_le.mpr ⟨?_, ?_⟩⟩
        · simpa [fxlmsMid] using hbelow
        · simpa [fxlmsMid] using habove

/-- Adding mid-scale leads into the range of the cast. -/
theorem limitPredict_add (p : Binary32) :
    (p = none ∧ (limitPredict p + ofInt 2048 : Binary32) = none) ∨
      ∃ v : Format.Number binary32, (limitPredict p + ofInt 2048 : Binary32) = some v ∧
        0 ≤ v.val ∧ v.val ≤ 4096 := by
  obtain ⟨mid, hmid, hmidv⟩ := is_ofInt (n := 2048) (by norm_num)
  rw [hmid]
  rcases limitPredict_cases p with ⟨rfl, hnone⟩ | ⟨x, hx, hxle⟩
  · rw [hnone]
    exact .inl ⟨rfl, rfl⟩
  · rw [hx]
    obtain ⟨hlow, hhigh⟩ := abs_le.mp hxle
    have hzero : 0 ≤ (x + mid).val := by
      rw [Format.Number.val_add, ← Format.round_zero (F := binary32)]
      exact Format.round_mono (by rw [hmidv]; push_cast; linarith)
    have hmax : (x + mid).val ≤ 4096 := by
      have hmem : binary32.Mem 4096 := by
        have h : binary32.Mem ((4096 : ℤ) : ℚ) := .intCast (by decide) (by decide)
        exact_mod_cast h
      rw [Format.Number.val_add, ← Format.round_of_mem hmem]
      exact Format.round_mono (by rw [hmidv]; push_cast; linarith)
    refine .inr ⟨x + mid, if_pos ?_, hzero, hmax⟩
    rw [abs_of_nonneg hzero]
    exact hmax.trans_lt (by norm_num)

/-- What is cast is at most 4096. -/
theorem output_le (r : ShiftRegister Binary32) : r.output.toNat ≤ 4096 := by
  show (toUInt16 (limitPredict r.sum + ofInt 2048 : Binary32)).toNat ≤ 4096
  rcases limitPredict_add r.sum with ⟨-, hnone⟩ | ⟨v, hv, -, hle⟩
  · rw [hnone]
    exact Nat.zero_le _
  · rw [hv]
    show (UInt16.ofNat ⌊v.val⌋.toNat).toNat ≤ 4096
    have hfloor : ⌊v.val⌋ ≤ 4096 := by
      have h := Int.floor_mono hle
      simpa using h
    rw [UInt16.toNat_ofNat']
    exact (Nat.mod_le _ _).trans (by omega)

end Binary32

/-! ### The filter -/

namespace Fxlms

/-- What holds in every state of a run from the initial weights. -/
structure InRange (s : Fxlms Binary32 fxlmsBufLen) : Prop where
  step : s.step = ofDecimal fxlmsStep
  entry : ∀ j (hj : j < 5), Binary32.Within s.x[j] 16
  weight : ∀ i (hi : i < 5), Binary32.Within s.W[i] 22

namespace InRange

variable {s : Fxlms Binary32 fxlmsBufLen}

theorem initializeAnc : InRange (initializeAnc : Fxlms Binary32 _) := by
  refine ⟨rfl, fun j hj => ?_, fun i hi => ?_⟩
  · have hzero : (Anc.initializeAnc : Fxlms Binary32 _).x[j] = (ofInt 0 : Binary32) := by
      show (Vector.replicate fxlmsBufLen.len (ofInt 0 : Binary32))[j] = _
      rw [Vector.getElem_replicate]
    rw [hzero]
    exact (Binary32.is_ofInt (by norm_num)).within (by norm_num)
  · have hle : ∀ i : Fin fxlmsBufLen.len, |initialWeights.get i| ≤ 2 ^ (0 : ℤ) := by decide +kernel
    have hget : (Anc.initializeAnc : Fxlms Binary32 _).W[i]
        = (ofDecimal (initialWeights.get ⟨i, hi⟩) : Binary32) := by
      show (initialWeights.map ofDecimal)[i] = _
      rw [Vector.getElem_map]
      rfl
    rw [hget]
    refine (Binary32.ofNumber_within (k := 0) (by norm_num) ?_).mono (by norm_num)
    exact Format.abs_round_le (Binary32.mem_zpow (by norm_num))
      (Format.abs_round_le (.zpow (by decide)) (hle ⟨i, hi⟩))

theorem tap (h : s.InRange) (i : Nat) : Binary32.Within (s.tap i) 16 :=
  h.entry _ (RingIndex.back^[i] s.xIdx).lt

theorem store (h : s.InRange) (noise : UInt16) : (s.store noise).InRange := by
  refine ⟨h.step, fun j hj => ?_, h.weight⟩
  show Binary32.Within (s.x.set s.xIdx.idx.toNat (deviation noise) s.xIdx.lt)[j] 16
  rw [Vector.getElem_set]
  split
  · exact Binary32.deviation_within noise
  · exact h.entry j hj

/-- What an update adds to a weight. -/
theorem addend (h : s.InRange) (residual : UInt16) (i : Nat) :
    Binary32.Within (s.step * deviation residual * s.tap i) (-4) := by
  rw [h.step]
  exact (Binary32.step_within.mul (Binary32.deviation_within residual) (by norm_num)
    (by norm_num)).mul (h.tap i) (by norm_num) (by norm_num)

theorem weight_ancUpdate (h : s.InRange) (residual : UInt16) (i : Nat) (hi : i < 5) :
    (ancUpdate s residual).W[i] = s.W[i] + s.step * deviation residual * s.tap i := by
  rw [getElem_ancUpdate_W s residual i hi, h.step,
    Binary32.leak_mul (h.weight i hi) (by norm_num)]

theorem update (h : s.InRange) (residual : UInt16) : (ancUpdate s residual).InRange := by
  refine ⟨h.step, h.entry, fun i hi => ?_⟩
  rw [h.weight_ancUpdate residual i hi]
  exact (h.weight i hi).absorb (h.addend residual i) (by norm_num) (by norm_num) (by norm_num)

/-- One call keeps the bounds. -/
theorem call (h : s.InRange) (c : Call) : (s.call c).InRange := by
  cases c with
  | predict noise => exact h.store noise
  | update residual => exact h.update residual

theorem calls (h : s.InRange) (cs : List Call) : (s.calls cs).InRange :=
  calls_keep (A := fun _ => True) (fun h _ => h.call _) cs h fun _ _ => trivial

/-- Nothing overflows in the prediction loop. -/
theorem accumulate (h : s.InRange) :
    ∀ k, k ≤ fxlmsBufLen.len → Binary32.Within (s.accumulate k).1 (38 + k) := by
  intro k
  induction k with
  | zero =>
      intro _
      exact (Binary32.is_ofInt (n := 0) (by norm_num)).within (by positivity)
  | succ k ih =>
      intro hk
      have hk5 : k < 5 := hk
      have hminus : Binary32.Within (ofInt (-1)) 0 :=
        (Binary32.is_ofInt (by norm_num)).within (by norm_num)
      have hproduct : Binary32.Within (s.tap k * ofInt (-1) * s.W[k]) (38 + k) :=
        (((h.tap k).mul hminus (by norm_num) (by norm_num)).mul (h.weight k hk5) (by norm_num)
          (by norm_num)).mono (by omega)
      rw [accumulate_succ s hk]
      exact ((ih (by omega)).add hproduct (by omega) (by omega)).mono (by omega)

theorem predictValue (h : s.InRange) :
    ∃ v : Format.Number binary32, s.predictValue = some v ∧ 0 ≤ v.val ∧ v.val ≤ 4096 := by
  obtain ⟨p, hp, -⟩ := h.accumulate fxlmsBufLen.len (Nat.le_refl _)
  refine (Binary32.limitPredict_add s.predictSum).resolve_left ?_
  rintro ⟨hnone, -⟩
  rw [predictSum_eq_accumulate, hp] at hnone
  exact Option.some_ne_none p hnone

end InRange

end Fxlms

/-! ### The firmware -/

/-- **The firmware over `float`.**  In every run, once the start-up code has ended: the next
prediction is a value of at most 4096, and every weight one of at most `2 ^ 22`, so that nothing has
overflowed or will; the next update takes nothing off a weight, and adds nothing either if the
product of step size, residual and sample is small beside it; and no word on channel 1 exceeds
4096. -/
theorem firmware_in_binary32 (capacity : Nat) (u : ChipPowerUp Binary32)
    (as : List (Action ChipEvent (Fin numChannels → UInt16))) :
    let c := firmwareRun capacity u as
    let s := c.node.state.fxlms
    (∃ o k, c.main = .step o k) ∨
      (∀ noise, ∃ v : Format.Number binary32,
        (s.store noise).predictValue = some v ∧ 0 ≤ v.val ∧ v.val ≤ 4096) ∧
      (∀ residual i, ∃ w d : Format.Number binary32,
        s.W.get i = some w ∧ |w.val| ≤ 2 ^ 22 ∧
        s.step * deviation residual * s.tap i = some d ∧ |d.val| ≤ 1 / 16 ∧
        (ancUpdate s residual).W.get i = some (w + d) ∧
        (2 ^ 26 * |d.val| ≤ |w.val| → (ancUpdate s residual).W.get i = s.W.get i)) ∧
      ∀ word, (1, word) ∈ c.node.state.cdr → word ≤ 4096 := by
  intro c s
  cases hmain : c.main with
  | step o k => exact .inl ⟨o, k, rfl⟩
  | ret b =>
      refine .inr ?_
      obtain ⟨⟨cs, hcs⟩, -⟩ := kept_firmwareRun capacity hmain
      have hrange : s.InRange := by
        show (firmwareRun capacity u as).node.state.fxlms.InRange
        rw [hcs]
        exact Fxlms.InRange.initializeAnc.calls cs
      refine ⟨fun noise => (hrange.store noise).predictValue, fun residual i => ?_,
        channel1_firmwareRun capacity Binary32.output_le hmain⟩
      obtain ⟨w, hw, hwle⟩ := hrange.weight i i.isLt
      obtain ⟨d, hd, hdle⟩ := hrange.addend residual i
      have hnew : (ancUpdate s residual).W.get i = some (w + d) := by
        have hsum := hrange.weight_ancUpdate residual i i.isLt
        have hwithin := (hrange.update residual).weight i i.isLt
        rw [hsum] at hwithin
        exact hsum.trans (hwithin.add_eq hw hd)
      refine ⟨w, d, hw, by exact_mod_cast hwle, hd, ?_, hnew, fun hsmall => ?_⟩
      · exact hdle.trans (by norm_num)
      · rw [hnew, Binary32.add_eq_of_small hsmall]
        exact hw.symm

end Anc
