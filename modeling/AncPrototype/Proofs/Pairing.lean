/-
Which regressor a residual corrects.

In `run_test`, and in the simulation, `anc_update` follows the `anc_predict` whose
output is in the error, so the error is multiplied by the regressor that produced
it.  The handler measures the effect of a prediction one invocation later, and by
then it has called `anc_predict` again: the update uses the regressor of the new
prediction.  The two agree on every step only if there is nothing to adapt to.  As
long as the noise is mid-scale the history is zero and so is the residual; the first
sample off mid-scale comes back as a residual in the next invocation, together with
a regressor that has just taken the sample in, while the one it should correct is
still zero.
-/
import AncPrototype.Proofs.ExactFilter
import AncPrototype.Proofs.Handler

namespace Anc

open DeviceProgram

/-- A frame, and the surroundings of the invocation that reads it: both flags are set, and of the
two words one is of channel 4 and one of channel 5. -/
structure NoiseFrame where
  noise : BitVec 12
  residualFirst : Bool
  pdc : Pdc Addr
  full : pdc.rxbuff = true
  adcFlags : UInt32
  daccIsr : UInt32
  ready : daccIsr.toUInt16 &&& daccIsrTxrdy = daccIsrTxrdy

/-- The invocation, given what the other microphone measures. -/
def NoiseFrame.invocation (f : NoiseFrame) (residual : BitVec 12) : Invocation :=
  { pdc := f.pdc
    adcFlags := f.adcFlags
    daccIsr := f.daccIsr
    temp := fun i =>
      if (i = 0) = f.residualFirst then taggedWord .channel5 residual
      else taggedWord .channel4 f.noise }

/-- The last word written to a channel of the converter. -/
def lastWord (channel : UInt32) (cdr : List (UInt32 × UInt32)) : Option UInt32 :=
  ((cdr.filter fun w => w.1 = channel).getLast?).map Prod.snd

/-- The sum of what the two channels put out, each relative to mid-scale. -/
def measuredResidual (cdr : List (UInt32 × UInt32)) : BitVec 12 :=
  match lastWord 0 cdr, lastWord 1 cdr with
  | some a, some p =>
      let sum : Int := ((a.toNat : Int) - 2048) + ((p.toNat : Int) - 2048) + 2048
      BitVec.ofInt 12 (max 0 (min 4095 sum))
  | _, _ => 2048

/-- One invocation of the closed loop. -/
def loopStep (m : Machine ℚ) (f : NoiseFrame) : Machine ℚ :=
  m.invoke (f.invocation (measuredResidual m.cdr))

def loop (m : Machine ℚ) (fs : List NoiseFrame) : Machine ℚ := fs.foldl loopStep m

/-- The regressor from which the next invocation predicts. -/
def nextRegressor (m : Machine ℚ) : Fin fxlmsBufLen.len → ℚ :=
  (m.fxlms.store (m.mem .old)).regressor

/-- The invocation on `g`, which consumes the residual of the one on `f`, corrects the prediction
that one made. -/
def Pairs (m : Machine ℚ) (f g : NoiseFrame) : Prop :=
  let m₁ := loopStep m f
  (loopStep m₁ g).fxlms.weights = fun i =>
    (1 - fxlmsStep) * m₁.fxlms.weights i
      + fxlmsStep * (((measuredResidual m₁.cdr).toNat : ℚ) - 2048) * nextRegressor m i

/-! ### One invocation -/

theorem NoiseFrame.samples (f : NoiseFrame) (residual : BitVec 12) (before : UInt16) :
    (sample 4 (f.invocation residual).words before).toNat = f.noise.toNat ∧
      (sample 5 (f.invocation residual).words before).toNat = residual.toNat := by
  let noise := taggedWord .channel4 f.noise
  let measured := taggedWord .channel5 residual
  have h4 : wordTag noise = 4 := wordTag_taggedWord ..
  have h5 : wordTag measured = 5 := wordTag_taggedWord ..
  have hnoise := sample_of_two h4 (by rw [h5]; decide : wordTag measured ≠ 4) before
  have hmeasured := sample_of_two h5 (by rw [h4]; decide : wordTag noise ≠ 5) before
  have hwords : (f.invocation residual).words
      = [(f.invocation residual).temp 0, (f.invocation residual).temp 1] := if_pos f.full
  cases hfirst : f.residualFirst with
  | true =>
      have horder : (f.invocation residual).words = [measured, noise] := by
        rw [hwords]
        simp [NoiseFrame.invocation, hfirst, noise, measured]
      rw [horder, hnoise.2, hmeasured.1]
      exact ⟨toNat_wordData_taggedWord .., toNat_wordData_taggedWord ..⟩
  | false =>
      have horder : (f.invocation residual).words = [noise, measured] := by
        rw [hwords]
        simp [NoiseFrame.invocation, hfirst, noise, measured]
      rw [horder, hnoise.1, hmeasured.2]
      exact ⟨toNat_wordData_taggedWord .., toNat_wordData_taggedWord ..⟩

/-- What an invocation of the loop leaves. -/
theorem loopStep_eq (m : Machine ℚ) (f : NoiseFrame) :
    ∃ c e : UInt16, c.toNat = f.noise.toNat ∧ e.toNat = (measuredResidual m.cdr).toNat ∧
      (loopStep m f).mem .old = c ∧
      (loopStep m f).fxlms = ancUpdate (m.fxlms.store (m.mem .old)) e ∧
      (loopStep m f).cdr = m.cdr ++ [(0, c.toUInt32),
        (1, (ancPredict m.fxlms (m.mem .old)).1.toInt16.toInt32.toUInt32)] := by
  let v := f.invocation (measuredResidual m.cdr)
  obtain ⟨m', hchVal, hold, hfxlms, hcdr, hinvoke⟩ := invoke_eq m v
  have hstep : loopStep m f = m'.driven := by
    have hready : v.txrdy = true := decide_eq_true f.ready
    rw [if_pos hready] at hinvoke
    exact hinvoke
  obtain ⟨hc, -⟩ := f.samples (measuredResidual m.cdr) (m.mem (.chVal 0))
  obtain ⟨-, he⟩ := f.samples (measuredResidual m.cdr) (m.mem (.chVal 1))
  refine ⟨_, _, hc, he, ?_, ?_, ?_⟩
  · rw [hstep]
    show Function.update m'.mem .old (m'.mem (.chVal 0)) .old = _
    rw [Function.update_self, hchVal]
    rfl
  · rw [hstep]
    show ancUpdate (m'.fxlms.store (m'.mem .old)) (m'.mem (.chVal 1)) = _
    rw [hfxlms, hold, hchVal]
    rfl
  · rw [hstep]
    show m'.cdr ++ [(0, (m'.mem (.chVal 0)).toUInt32),
      (1, (ancPredict m'.fxlms (m'.mem .old)).1.toInt16.toInt32.toUInt32)] = _
    rw [hfxlms, hold, hcdr, hchVal]
    rfl

theorem measuredResidual_append (cdr : List (UInt32 × UInt32)) (a p : UInt32) :
    measuredResidual (cdr ++ [(0, a), (1, p)])
      = BitVec.ofInt 12 (max 0 (min 4095
          (((a.toNat : Int) - 2048) + ((p.toNat : Int) - 2048) + 2048))) := by
  have h0 : lastWord 0 (cdr ++ [(0, a), (1, p)]) = some a := by simp [lastWord]
  have h1 : lastWord 1 (cdr ++ [(0, a), (1, p)]) = some p := by simp [lastWord]
  unfold measuredResidual
  rw [h0, h1]

/-! ### Mid-scale noise -/

/-- Nothing but mid-scale has been seen. -/
structure Quiet (m : Machine ℚ) : Prop where
  step : m.fxlms.step = fxlmsStep
  old : m.mem .old = 2048
  past : ∀ i < fxlmsBufLen.len, m.fxlms.past i = 0
  residual : measuredResidual m.cdr = 2048

/-- The newest entry of the regressor is the noise of the invocation before, the others are the
history. -/
theorem nextRegressor_zero (m : Machine ℚ) :
    nextRegressor m 0 = ((m.mem .old).toNat : ℚ) - 2048 := by
  show (m.fxlms.store (m.mem .old)).tap 0 = _
  rw [Fxlms.tap_store_zero, deviation_rat]

theorem nextRegressor_succ (m : Machine ℚ) {i : Nat} (hi : i + 1 < fxlmsBufLen.len) :
    nextRegressor m ⟨i + 1, hi⟩ = m.fxlms.past i :=
  Fxlms.tap_store_succ m.fxlms (m.mem .old) hi

namespace Quiet

variable {m : Machine ℚ}

theorem nextRegressor_eq_zero (h : Quiet m) : nextRegressor m = 0 := by
  funext i
  match i with
  | ⟨0, _⟩ =>
      show nextRegressor m 0 = 0
      rw [nextRegressor_zero, h.old]
      exact sub_self _
  | ⟨i + 1, hi⟩ =>
      rw [nextRegressor_succ m hi]
      exact h.past i (by omega)

/-- From a zero history the filter predicts mid-scale. -/
theorem predict_eq (h : Quiet m) : (ancPredict m.fxlms (m.mem .old)).1 = 2048 := by
  have hzero : (m.fxlms.store (m.mem .old)).regressor = 0 := h.nextRegressor_eq_zero
  have hval := Fxlms.ancPredict_rat m.fxlms (m.mem .old)
  rw [hzero, zero_dotProduct, neg_zero,
    Saturation.clamp_of_abs_le (by norm_num : |(0 : ℚ)| ≤ 2048)] at hval
  rw [← UInt16.toNat_inj]
  show (ancPredict m.fxlms (m.mem .old)).1.toNat = 2048
  norm_num at hval
  exact_mod_cast hval

/-- The residual of an invocation is the noise it has put out. -/
theorem residual_loopStep (h : Quiet m) (f : NoiseFrame) :
    (measuredResidual (loopStep m f).cdr).toNat = f.noise.toNat := by
  obtain ⟨c, e, hc, -, -, -, hcdr⟩ := loopStep_eq m f
  have hlt := f.noise.isLt
  have hp : ((2048 : UInt16).toInt16.toInt32.toUInt32).toNat = 2048 := by decide
  have hcn : c.toUInt32.toNat = f.noise.toNat := by rw [← hc]; exact UInt16.toNat_toUInt32 c
  rw [hcdr, measuredResidual_append, h.predict_eq, hp, hcn, BitVec.toNat_ofInt]
  omega

/-- The history after an invocation is the regressor it has used. -/
theorem past_loopStep (h : Quiet m) (f : NoiseFrame) :
    ∀ i < fxlmsBufLen.len, (loopStep m f).fxlms.past i = 0 := by
  obtain ⟨c, e, -, -, -, hfxlms, -⟩ := loopStep_eq m f
  intro i hi
  rw [hfxlms, Fxlms.past_ancUpdate]
  exact congrFun h.nextRegressor_eq_zero ⟨i, hi⟩

/-- Mid-scale noise keeps the loop quiet. -/
theorem next (h : Quiet m) {f : NoiseFrame} (hf : f.noise = 2048) : Quiet (loopStep m f) := by
  obtain ⟨c, e, hc, -, hold, hfxlms, -⟩ := loopStep_eq m f
  refine ⟨?_, ?_, h.past_loopStep f, ?_⟩
  · rw [hfxlms]
    exact h.step
  · rw [hold, ← UInt16.toNat_inj, hc, hf]
    rfl
  · rw [← BitVec.toNat_inj, h.residual_loopStep f, hf]

/-- **The first sample off mid-scale is corrected with the wrong regressor**, and only such a
sample is. -/
theorem pairs_iff (h : Quiet m) (f g : NoiseFrame) : Pairs m f g ↔ f.noise = 2048 := by
  obtain ⟨c, e₀, hc, -, hold, hfxlms, -⟩ := loopStep_eq m f
  obtain ⟨c₁, e, -, he, -, hfxlms', -⟩ := loopStep_eq (loopStep m f) g
  rw [h.residual_loopStep f] at he
  have hstep : ((loopStep m f).fxlms.store ((loopStep m f).mem .old)).step = fxlmsStep := by
    rw [hfxlms]
    exact h.step
  have hweights : (loopStep (loopStep m f) g).fxlms.weights
      = LeakyLms.update fxlmsStep ((f.noise.toNat : ℚ) - 2048) (loopStep m f).fxlms.weights
          (nextRegressor (loopStep m f)) := by
    rw [hfxlms', Fxlms.weights_ancUpdate, he, hstep]
    rfl
  have hnewest : nextRegressor (loopStep m f) 0 = (f.noise.toNat : ℚ) - 2048 := by
    rw [nextRegressor_zero, hold, hc]
  show (loopStep (loopStep m f) g).fxlms.weights = (fun i =>
    (1 - fxlmsStep) * (loopStep m f).fxlms.weights i
      + fxlmsStep * (((measuredResidual (loopStep m f).cdr).toNat : ℚ) - 2048) * nextRegressor m i)
    ↔ f.noise = 2048
  rw [hweights, h.residual_loopStep f, h.nextRegressor_eq_zero]
  constructor
  · intro hpairs
    have h0 := congrFun hpairs 0
    rw [LeakyLms.update_apply, hnewest] at h0
    have hsq : ((f.noise.toNat : ℚ) - 2048) * ((f.noise.toNat : ℚ) - 2048) = 0 := by
      simp only [Pi.zero_apply, fxlmsStep] at h0
      linarith
    have hnat : (f.noise.toNat : ℚ) = 2048 := by
      have := mul_self_eq_zero.mp hsq
      linarith
    rw [← BitVec.toNat_inj]
    exact_mod_cast hnat
  · intro hf
    funext i
    rw [LeakyLms.update_apply, hf]
    have hmid : (((2048 : BitVec 12).toNat : Nat) : ℚ) - 2048 = 0 := sub_self _
    simp only [hmid, mul_zero, zero_mul]

theorem initialized (u : PowerUp) : Quiet (Machine.initialized u : Machine ℚ) := by
  refine ⟨rfl, rfl, fun i _ => ?_, rfl⟩
  exact Fxlms.past_cleared fxlmsStep _ i

end Quiet

/-- Over a run that starts quiet. -/
theorem pairs_all_iff : ∀ (frames : List NoiseFrame) {m : Machine ℚ}, Quiet m →
    ((∀ before f g after, frames = before ++ f :: g :: after → Pairs (loop m before) f g) ↔
      ∀ f ∈ frames.dropLast, f.noise = 2048) := by
  intro frames
  induction frames with
  | nil => intro m _; simp
  | cons f frames ih =>
      intro m h
      cases frames with
      | nil =>
          refine ⟨fun _ f hf => absurd hf List.not_mem_nil, ?_⟩
          intro _ before f' g after heq
          have hlen := congrArg List.length heq
          simp only [List.length_cons, List.length_append, List.length_nil] at hlen
          omega
      | cons g frames =>
          rw [List.dropLast_cons_cons, List.forall_mem_cons]
          constructor
          · intro hall
            have hf : f.noise = 2048 := (h.pairs_iff f g).mp (hall [] f g frames rfl)
            refine ⟨hf, (ih (h.next hf)).mp ?_⟩
            intro before f' g' after heq
            exact hall (f :: before) f' g' after (congrArg (f :: ·) heq)
          · rintro ⟨hf, hrest⟩ before f' g' after heq
            cases before with
            | nil =>
                obtain ⟨rfl, -⟩ := List.cons.inj heq
                exact (h.pairs_iff _ _).mpr hf
            | cons b before =>
                obtain ⟨rfl, heq'⟩ := List.cons.inj heq
                exact (ih (h.next hf)).mpr hrest before f' g' after heq'

/-- **Every residual corrects the prediction it measures exactly as long as the noise is
mid-scale.** -/
theorem handler_pairs_iff (u : PowerUp) (frames : List NoiseFrame) :
    (∀ before f g after, frames = before ++ f :: g :: after →
        Pairs (loop (Machine.initialized u) before) f g) ↔
      ∀ f ∈ frames.dropLast, f.noise = 2048 :=
  pairs_all_iff frames (Quiet.initialized u)

/-- A frame of full-scale noise, with nothing else remarkable about it. -/
def fullScaleFrame : NoiseFrame :=
  { noise := 4095, residualFirst := false, pdc := Pdc.reset (.chVal 0) (.chVal 0), full := rfl,
    adcFlags := 0, daccIsr := 1, ready := rfl }

/-- Two such frames are enough. -/
theorem full_scale_not_paired :
    ¬ ∀ (u : PowerUp) (frames before : List NoiseFrame) (f g : NoiseFrame)
      (after : List NoiseFrame),
      frames = before ++ f :: g :: after → Pairs (loop (Machine.initialized u) before) f g := by
  intro h
  have hpairs := h clearedMemory [fullScaleFrame, fullScaleFrame] [] fullScaleFrame
    fullScaleFrame [] rfl
  exact absurd (((Quiet.initialized clearedMemory).pairs_iff _ _).mp hpairs) (by decide)

end Anc
