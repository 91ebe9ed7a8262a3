/-
The handler as a stream transducer.

Seen from the converter, a run of the handler is a function of what the
invocations find: a pair of words for every invocation that may write, the sample of
channel 4 and the next output of the filter.  The function is written here without
any memory but its own, and with the shift register for the filter.  `Follows` ties
the machine to its arguments; the four paths of an invocation are composed of two
steps, each of which keeps it.
-/
import AncPrototype.Proofs.DelayLine
import AncPrototype.Proofs.ExactFilter
import AncPrototype.Proofs.Handler

namespace Anc

open DeviceProgram FloatArith

/-- The samples of channels 4 and 5 at each invocation that may write, `seen` being the words read
before. -/
def driveSamples (first : Fin numChannels → UInt16) :
    List UInt16 → List Invocation → List (UInt16 × UInt16)
  | _, [] => []
  | seen, v :: vs =>
      let seen := seen ++ v.words
      if v.txrdy then
        (sample 4 seen (first 0), sample 5 seen (first 1)) :: driveSamples first seen vs
      else driveSamples first seen vs

variable {α : Type} [FloatArith α]

/-- The leaky LMS recursion, and the words it has the converter receive: the input of a step is
the channel-4 sample of the one before. -/
def lmsWrites (word : UInt16 → UInt32) :
    ShiftRegister α → UInt16 → List (UInt16 × UInt16) → List (UInt32 × UInt32)
  | _, _, [] => []
  | r, old, (c, e) :: samples =>
      let r := r.shift old
      (0, c.toUInt32) :: (1, word r.output) :: lmsWrites word (r.update e) c samples

/-- An `int16_t` from a `uint16_t`, as a `uint32_t`. -/
def signExtended (p : UInt16) : UInt32 := p.toInt16.toInt32.toUInt32

/-! ### The machine follows -/

/-- `adc_sample` holds the latest of the words seen, and the filter the register's history. -/
structure Follows (first : Fin numChannels → UInt16) (seen : List UInt16) (old : UInt16)
    (r : ShiftRegister α) (m : Machine α) : Prop where
  chVal : ∀ j, m.mem (.chVal j) = sample (sampleTag j) seen (first j)
  old : m.mem .old = old
  filter : HoldsFrom m.fxlms m.fxlms.xIdx.back r

namespace Follows

variable {first : Fin numChannels → UInt16} {seen : List UInt16} {old : UInt16}
  {r : ShiftRegister α} {m : Machine α}

theorem driven (h : Follows first seen old r m) :
    Follows first seen (sample 4 seen (first 0))
        ((r.shift old).update (sample 5 seen (first 1))) m.driven ∧
      m.driven.cdr = m.cdr ++ [(0, (sample 4 seen (first 0)).toUInt32),
        (1, signExtended (r.shift old).output)] := by
  have hc : m.mem (.chVal 0) = sample 4 seen (first 0) := h.chVal 0
  have he : m.mem (.chVal 1) = sample 5 seen (first 1) := h.chVal 1
  have hshift : HoldsFrom (m.fxlms.store old) (m.fxlms.store old).xIdx (r.shift old) :=
    h.filter.shift old
  refine ⟨⟨?_, ?_, ?_⟩, ?_⟩
  · intro j
    rw [← h.chVal j]
    exact Function.update_of_ne (by revert j; decide) ..
  · rw [← hc]
    show Function.update m.mem .old (m.mem (.chVal 0)) .old = m.mem (.chVal 0)
    exact Function.update_self ..
  · have hfxlms : m.driven.fxlms = ancUpdate (m.fxlms.store old) (sample 5 seen (first 1)) := by
      rw [← he, ← h.old]
      rfl
    rw [hfxlms]
    exact hshift.update _
  · rw [← hshift.output, ← h.old, ← hc]
    rfl

/-- The first half of an invocation. -/
theorem read (h : Follows first seen old r m) (v : Invocation) :
    ∃ m' : Machine α, Follows first (seen ++ v.words) old r m' ∧ m'.cdr = m.cdr ∧
      m.invoke v = if v.txrdy then m'.driven else m' := by
  obtain ⟨m', hchVal, hold, hfxlms, hcdr, hinvoke⟩ := invoke_eq m v
  refine ⟨m', ⟨fun j => ?_, hold.trans h.old, hfxlms ▸ h.filter⟩, hcdr, hinvoke⟩
  rw [hchVal j, h.chVal j, sample_append]

/-- **A run of invocations writes what the recursion writes.** -/
theorem invokeAll : ∀ (vs : List Invocation) {seen : List UInt16} {old : UInt16}
    {r : ShiftRegister α} {m : Machine α}, Follows first seen old r m →
      (m.invokeAll vs).cdr
        = m.cdr ++ lmsWrites signExtended r old (driveSamples first seen vs) := by
  intro vs
  induction vs with
  | nil => intro seen old r m _; exact (List.append_nil _).symm
  | cons v vs ih =>
      intro seen old r m h
      obtain ⟨m', hm', hcdr, hinvoke⟩ := h.read v
      show ((m.invoke v).invokeAll vs).cdr = _
      rw [hinvoke]
      unfold driveSamples
      by_cases hready : v.txrdy = true
      · obtain ⟨hdriven, hwrites⟩ := hm'.driven
        rw [if_pos hready, if_pos hready, ih hdriven, hwrites, hcdr, List.append_assoc]
        rfl
      · rw [if_neg hready, if_neg hready, ih hm', hcdr]

end Follows

/-! ### From initialize_anc on -/

/-- `initialize_anc`, with whatever `ch_val` holds when the handler first runs. -/
def Machine.firstInvoked (u : PowerUp) (first : Fin numChannels → UInt16) : Machine α :=
  let m : Machine α := Machine.initialized u
  { m with
    mem := Function.update (Function.update m.mem (.chVal 0) (first 0)) (.chVal 1) (first 1) }

theorem Follows.firstInvoked (u : PowerUp) (first : Fin numChannels → UInt16) :
    Follows first [] 2048
      (ShiftRegister.cleared (ofDecimal fxlmsStep) fxlmsBufLen.len
        (initialWeights.map ofDecimal).toList)
      (Machine.firstInvoked u first : Machine α) := by
  refine ⟨?_, ?_, HoldsFrom.cleared _ _ _⟩
  · intro j
    let mem := (Machine.initialized u : Machine α).mem
    show Function.update (Function.update mem (.chVal 0) (first 0)) (.chVal 1) (first 1) (.chVal j)
      = first j
    match j with
    | 0 => rw [Function.update_of_ne (by decide), Function.update_self]
    | 1 => rw [Function.update_self]
  · rfl

/-! ### The words on channel 1 -/

/-- Over exact arithmetic a prediction is at most 4096. -/
theorem ShiftRegister.output_le (r : ShiftRegister ℚ) : r.output.toNat ≤ 4096 := by
  have hlim := abs_le.mp
    (Saturation.abs_clamp_le (m := (2048 : ℚ)) (by norm_num) r.sum)
  have hval : r.output = toUInt16 (Saturation.clamp 2048 r.sum + 2048) := by
    rw [← limitPredict_rat]
    rfl
  have hfloor := toNat_toUInt16 (q := Saturation.clamp 2048 r.sum + 2048)
    (by linarith [hlim.1]) (by linarith [hlim.2])
  have hle : ⌊Saturation.clamp 2048 r.sum + 2048⌋ ≤ 4096 := by
    refine Int.le_of_lt_add_one (Int.floor_lt.mpr ?_)
    push_cast
    linarith [hlim.2]
  rw [hval]
  omega

/-- The conversion to `int16_t` does not change it. -/
theorem signExtended_of_le {p : UInt16} (h : p.toNat ≤ 4096) : signExtended p = p.toUInt32 := by
  rw [← UInt32.toBitVec_inj]
  show BitVec.signExtend 32 p.toBitVec = BitVec.setWidth 32 p.toBitVec
  refine BitVec.signExtend_eq_setWidth_of_msb_false ?_
  rw [BitVec.msb_eq_false_iff_two_mul_lt]
  show 2 * p.toNat < 2 ^ 16
  omega

theorem lmsWrites_rat : ∀ (samples : List (UInt16 × UInt16)) (r : ShiftRegister ℚ) (old : UInt16),
    lmsWrites signExtended r old samples = lmsWrites UInt16.toUInt32 r old samples := by
  intro samples
  induction samples with
  | nil => intro r old; rfl
  | cons ce samples ih =>
      intro r old
      have hword := signExtended_of_le (r.shift old).output_le
      simp only [lmsWrites, hword, ih]

/-- **The handler writes the channel-4 samples and the outputs of the leaky LMS recursion**, over
any arithmetic, and over exact arithmetic with no conversion changing the outputs. -/
theorem handler_writes (u : PowerUp) (first : Fin numChannels → UInt16) (vs : List Invocation) :
    ((Machine.firstInvoked u first : Machine α).invokeAll vs).cdr
        = lmsWrites signExtended
            (ShiftRegister.cleared (ofDecimal fxlmsStep : α) fxlmsBufLen.len
              (initialWeights.map ofDecimal).toList)
            2048 (driveSamples first [] vs) ∧
      ((Machine.firstInvoked u first : Machine ℚ).invokeAll vs).cdr
        = lmsWrites UInt16.toUInt32
            (ShiftRegister.cleared fxlmsStep fxlmsBufLen.len initialWeights.toList)
            2048 (driveSamples first [] vs) := by
  refine ⟨(Follows.firstInvoked u first).invokeAll vs, ?_⟩
  have hrat : ((Machine.firstInvoked u first : Machine ℚ).invokeAll vs).cdr = _ :=
    (Follows.firstInvoked u first).invokeAll vs
  have hW : initialWeights.map (ofDecimal : ℚ → ℚ) = initialWeights := Vector.map_id _
  rw [lmsWrites_rat, hW] at hrat
  exact hrat

end Anc
