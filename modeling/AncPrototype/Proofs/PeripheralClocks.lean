/-
The clocks of the peripherals.

A clock is one bit of one of two status registers, and the driver writes to a setting
or a clearing register only if the bit is not as wanted already.  `PmcRegs.switch` is
what a call amounts to; whatever the calls before it have done, the last one that names
a peripheral decides.  A call with an identifier out of range does nothing, and neither
does one that names peripheral 0 or 1, which are not in the registers: the driver writes
their bits, and says that all is well.
-/
import AncPrototype.Library.SeqSpec
import AncPrototype.Proofs.Chip

namespace Anc

open DeviceProgram Driver

variable {α : Type}

/-! ### One bit of a word -/

theorem getLsbD_periphBit (id : BitVec 32) (i : Nat) :
    (periphBit id).getLsbD i = decide (i < 32 ∧ i = id.toNat) := by
  unfold periphBit
  rw [← BitVec.twoPow_eq, BitVec.getLsbD_twoPow]
  by_cases hi : i = id.toNat
  · simp [hi]
  · simp [hi, Ne.symm hi]

theorem and_periphBit_eq_iff {id : BitVec 32} (hid : id < 32) (x : BitVec 32) :
    x &&& periphBit id = periphBit id ↔ x.getLsbD id.toNat = true := by
  have hlt : id.toNat < 32 := hid
  constructor
  · intro h
    have hbit := congrArg (fun y => y.getLsbD id.toNat) h
    simpa [getLsbD_periphBit, hlt] using hbit
  · intro h
    refine BitVec.eq_of_getLsbD_eq fun i hi => ?_
    rw [BitVec.getLsbD_and, getLsbD_periphBit]
    by_cases heq : i = id.toNat
    · simp [heq, h]
    · simp [heq]

theorem and_periphBit_ne_zero_iff {id : BitVec 32} (hid : id < 32) (x : BitVec 32) :
    x &&& periphBit id ≠ 0 ↔ x.getLsbD id.toNat = true := by
  have hlt : id.toNat < 32 := hid
  constructor
  · intro h
    by_contra hclear
    refine h (BitVec.eq_of_getLsbD_eq fun i hi => ?_)
    rw [BitVec.getLsbD_and, getLsbD_periphBit]
    by_cases heq : i = id.toNat
    · simpa [heq] using fun hset => absurd hset hclear
    · simp [heq]
  · intro h hzero
    have hbit : (x &&& periphBit id).getLsbD id.toNat = false := by
      rw [hzero]
      exact BitVec.getLsbD_zero
    rw [BitVec.getLsbD_and, getLsbD_periphBit, h] at hbit
    simp [hlt] at hbit

theorem getLsbD_or_periphBit {id id' : BitVec 32} (hid : id < 32) (x : BitVec 32) :
    (x ||| periphBit id).getLsbD id'.toNat = (decide (id' = id) || x.getLsbD id'.toNat) := by
  have hlt : id.toNat < 32 := hid
  rw [BitVec.getLsbD_or, getLsbD_periphBit, Bool.or_comm]
  by_cases heq : id' = id
  · simp [heq, hlt]
  · simp [heq, BitVec.toNat_inj]

theorem getLsbD_and_not_periphBit {id id' : BitVec 32} (hid : id < 32) (hid' : id' < 32)
    (x : BitVec 32) :
    (x &&& ~~~periphBit id).getLsbD id'.toNat = (!decide (id' = id) && x.getLsbD id'.toNat) := by
  have hlt : id.toNat < 32 := hid
  have hlt' : id'.toNat < 32 := hid'
  rw [BitVec.getLsbD_and, BitVec.getLsbD_not, getLsbD_periphBit, Bool.and_comm]
  by_cases heq : id' = id
  · simp [heq, hlt]
  · simp [heq, hlt', BitVec.toNat_inj]

/-- The registers have no bits 0 and 1. -/
theorem periphBit_masked (id : BitVec 32) :
    periphBit id &&& 0xfffffffc = if id < 2 then 0#32 else periphBit id := by
  have hmask : ∀ i < 32, (0xfffffffc : BitVec 32).getLsbD i = decide (2 ≤ i) := by decide
  refine BitVec.eq_of_getLsbD_eq fun i hi => ?_
  rw [BitVec.getLsbD_and, getLsbD_periphBit, hmask i hi]
  by_cases hsmall : id < 2
  · have hlt2 : id.toNat < 2 := hsmall
    have hnot : i = id.toNat → ¬ 2 ≤ i := by omega
    rw [if_pos hsmall, BitVec.getLsbD_zero]
    simpa using fun _ => hnot
  · have hle2 : ¬ id.toNat < 2 := hsmall
    have hle : i = id.toNat → 2 ≤ i := by omega
    rw [if_neg hsmall, getLsbD_periphBit]
    simpa using fun _ => hle

/-! ### One call -/

/-- The peripherals in the clock registers. -/
def HasClock (id : BitVec 32) : Prop := 2 ≤ id ∧ id ≤ maxPeriphId

instance instDecidableHasClock (id : BitVec 32) : Decidable (HasClock id) :=
  inferInstanceAs (Decidable (_ ∧ _))

namespace PmcRegs

/-- The clock of a peripheral is enabled. -/
def enabled (r : PmcRegs) (id : BitVec 32) : Bool :=
  if id < 32 then r.pcsr0.getLsbD id.toNat else r.pcsr1.getLsbD (id - 32).toNat

/-- A bit set or cleared. -/
def switchBit (x : BitVec 32) (id : BitVec 32) (on : Bool) : BitVec 32 :=
  if on then x ||| periphBit id else x &&& ~~~periphBit id

/-- What a call does that names `id`. -/
def switch (r : PmcRegs) (id : BitVec 32) (on : Bool) : PmcRegs :=
  if ¬ HasClock id then r
  else if id < 32 then { r with pcsr0 := switchBit r.pcsr0 id on }
  else { r with pcsr1 := switchBit r.pcsr1 (id - 32) on }

theorem switchBit_of_set {id : BitVec 32} (hid : id < 32) {x : BitVec 32}
    (h : x &&& periphBit id = periphBit id) : switchBit x id true = x := by
  have hset := (and_periphBit_eq_iff hid x).mp h
  refine BitVec.eq_of_getLsbD_eq fun i hi => ?_
  show (x ||| periphBit id).getLsbD i = _
  rw [BitVec.getLsbD_or, getLsbD_periphBit]
  by_cases heq : i = id.toNat
  · simp [heq, hset]
  · simp [heq]

theorem switchBit_of_clear {id : BitVec 32} (hid : id < 32) {x : BitVec 32}
    (h : x &&& periphBit id ≠ periphBit id) : switchBit x id false = x := by
  have hclear : x.getLsbD id.toNat = false :=
    Bool.eq_false_iff.mpr fun hset => h ((and_periphBit_eq_iff hid x).mpr hset)
  refine BitVec.eq_of_getLsbD_eq fun i hi => ?_
  show (x &&& ~~~periphBit id).getLsbD i = _
  rw [BitVec.getLsbD_and, BitVec.getLsbD_not, getLsbD_periphBit]
  by_cases heq : i = id.toNat
  · simp [heq, hclear]
  · simp [heq, hi]

theorem getLsbD_switchBit {id id' : BitVec 32} (hid : id < 32) (hid' : id' < 32) (x : BitVec 32)
    (on : Bool) :
    (switchBit x id on).getLsbD id'.toNat = if id' = id then on else x.getLsbD id'.toNat := by
  unfold switchBit
  cases on with
  | true =>
      rw [if_pos rfl, getLsbD_or_periphBit hid]
      by_cases heq : id' = id <;> simp [heq]
  | false =>
      rw [if_neg (by decide), getLsbD_and_not_periphBit hid hid']
      by_cases heq : id' = id <;> simp [heq]

/-- **One clock for one call.** -/
theorem enabled_switch {id id' : BitVec 32} (hid : HasClock id) (hid' : id' ≤ maxPeriphId)
    (r : PmcRegs) (on : Bool) :
    (r.switch id on).enabled id' = if id' = id then on else r.enabled id' := by
  unfold switch enabled
  rw [if_neg (not_not.mpr hid)]
  obtain ⟨-, hid⟩ := hid
  unfold maxPeriphId at hid hid'
  by_cases hlow : id < 32
  · rw [if_pos hlow]
    by_cases hlow' : id' < 32
    · rw [if_pos hlow', if_pos hlow', getLsbD_switchBit hlow hlow']
    · rw [if_neg hlow', if_neg hlow', if_neg (by rintro rfl; exact hlow' hlow)]
  · rw [if_neg hlow]
    by_cases hlow' : id' < 32
    · rw [if_pos hlow', if_pos hlow', if_neg (by rintro rfl; exact hlow hlow')]
    · rw [if_neg hlow', if_neg hlow']
      have hsmall : id - 32 < 32 := by bv_omega
      have hsmall' : id' - 32 < 32 := by bv_omega
      have heq : id' - 32 = id - 32 ↔ id' = id := by
        constructor
        · intro h
          bv_omega
        · rintro rfl
          rfl
      rw [getLsbD_switchBit hsmall hsmall']
      simp only [heq]

theorem switch_of_not_hasClock {id : BitVec 32} (h : ¬ HasClock id) (r : PmcRegs) (on : Bool) :
    r.switch id on = r := if_pos h

theorem switch_low {id : BitVec 32} (hlow : id < 32) {r : PmcRegs} {on : Bool}
    (h : switchBit r.pcsr0 id on = r.pcsr0) : r.switch id on = r := by
  unfold switch
  rw [if_pos hlow, h, ite_self]

theorem switch_high {id : BitVec 32} (hmax : ¬ maxPeriphId < id) (hhigh : ¬ id < 32) (r : PmcRegs)
    (on : Bool) : r.switch id on = { r with pcsr1 := switchBit r.pcsr1 (id - 32) on } := by
  have hclock : HasClock id := ⟨by bv_omega, BitVec.not_lt.mp hmax⟩
  unfold switch
  rw [if_neg (not_not.mpr hclock), if_neg hhigh]

end PmcRegs

theorem hasClock_of_low {id : BitVec 32} (hsmall : ¬ id < 2) (hlow : id < 32) : HasClock id := by
  unfold HasClock maxPeriphId
  bv_omega

/-! ### Calls -/

inductive ClockCall where
  | enable (id : BitVec 32)
  | disable (id : BitVec 32)
  | isEnabled (id : BitVec 32)

namespace ClockCall

def prog : ClockCall → ChipProg (BitVec 32)
  | enable id => pmcEnablePeriphClk id
  | disable id => pmcDisablePeriphClk id
  | isEnabled id => pmcIsPeriphClkEnabled id

/-- The peripheral that is named. -/
def id : ClockCall → BitVec 32
  | enable id => id
  | disable id => id
  | isEnabled id => id

/-- What a call that names `id` does to a set of running clocks, here its indicator. -/
def switched (clocks : BitVec 32 → Bool) (id : BitVec 32) (on : Bool) : BitVec 32 → Bool :=
  if HasClock id then Function.update clocks id on else clocks

/-- What the driver is for: the set after a call. -/
def after (clocks : BitVec 32 → Bool) : ClockCall → BitVec 32 → Bool
  | enable id => switched clocks id true
  | disable id => switched clocks id false
  | isEnabled _ => clocks

/-- What a call answers. -/
def answer (clocks : BitVec 32 → Bool) : ClockCall → BitVec 32
  | enable id => if id ≤ maxPeriphId then 0 else 1
  | disable id => if id ≤ maxPeriphId then 0 else 1
  | isEnabled id => if id ≤ maxPeriphId ∧ clocks id then 1 else 0

/-- What it makes of the registers. -/
def effect (r : PmcRegs) : ClockCall → PmcRegs
  | enable id => r.switch id true
  | disable id => r.switch id false
  | isEnabled _ => r

end ClockCall

/-- The registers say of every peripheral whether its clock runs. -/
def Indicates (r : PmcRegs) (clocks : BitVec 32 → Bool) : Prop :=
  ∀ id, id ≤ maxPeriphId → r.enabled id = clocks id

theorem Indicates.answer {r : PmcRegs} {clocks : BitVec 32 → Bool} (h : Indicates r clocks)
    (call : ClockCall) : call.answer r.enabled = call.answer clocks := by
  cases call with
  | enable id => rfl
  | disable id => rfl
  | isEnabled id =>
      show (if id ≤ maxPeriphId ∧ r.enabled id then _ else _)
        = if id ≤ maxPeriphId ∧ clocks id then _ else _
      by_cases hid : id ≤ maxPeriphId
      · rw [h id hid]
      · rw [if_neg fun hand => hid hand.1, if_neg fun hand => hid hand.1]

theorem Indicates.effect {r : PmcRegs} {clocks : BitVec 32 → Bool} (h : Indicates r clocks)
    (call : ClockCall) : Indicates (call.effect r) (call.after clocks) := by
  have hswitch : ∀ id on, Indicates (r.switch id on) (ClockCall.switched clocks id on) := by
    intro id on id' hid'
    unfold ClockCall.switched
    by_cases hid : HasClock id
    · rw [PmcRegs.enabled_switch hid hid', if_pos hid, Function.update_apply, h id' hid']
    · rw [if_neg hid, ← h id' hid', PmcRegs.switch, if_pos hid]
  cases call with
  | enable id => exact hswitch id true
  | disable id => exact hswitch id false
  | isEnabled id => exact h

/-- A call leaves the other clocks alone. -/
theorem after_of_ne (clocks : BitVec 32 → Bool) (call : ClockCall) {id : BitVec 32}
    (hne : call.id ≠ id) : call.after clocks id = clocks id := by
  have hswitched : ∀ id' on, id' ≠ id → ClockCall.switched clocks id' on id = clocks id := by
    intro id' on hne
    unfold ClockCall.switched
    split_ifs
    · exact Function.update_of_ne (Ne.symm hne) _ _
    · rfl
  cases call with
  | enable id' => exact hswitched id' true hne
  | disable id' => exact hswitched id' false hne
  | isEnabled id' => rfl

section

variable [FloatArith α] (capacity : Nat)

/-- Events leave the clocks alone. -/
theorem stable_pmc (r : PmcRegs) : (chipDevice (α := α) capacity).Stable fun c => c.pmc = r :=
  stable_setup capacity fun s => s.pmc = r

/-- What holds around the accesses of a call, and after it. -/
abbrev ClockSat (r : PmcRegs) (call : ClockCall) (Q : BitVec 32 → Chip α → Prop)
    (p : ChipProg (BitVec 32)) (tr : List (ChipOp × Chip α)) (c : Chip α) : Prop :=
  (chipDevice capacity).Sat
    (fun _ _ t => ∀ id, id ≤ maxPeriphId → call.id ≠ id → t.pmc.enabled id = r.enabled id)
    (fun _ a t => Q a t) p tr c

variable {capacity} {r : PmcRegs} {call : ClockCall}

theorem clockSat_ret {a : BitVec 32} {r' : PmcRegs} {tr : List (ChipOp × Chip α)} {c : Chip α}
    (hc : c.pmc = r') : ClockSat capacity r call (fun a' t => a' = a ∧ t.pmc = r') (.ret a) tr c :=
  Device.Sat.ret (stable_pmc capacity r') hc fun _ ht => ⟨rfl, ht⟩

/-- The shape of both calls that switch a clock: a read, and a write unless it would change
nothing. -/
theorem clockSat_switch {status register : Reg} {x value : BitVec 32} {P : BitVec 32 → Prop}
    [DecidablePred P] {r' : PmcRegs}
    (hread : ∀ t : Chip α, t.pmc = r → t.read capacity status = x)
    (hwrite : ∀ t : Chip α, t.pmc = r → (t.write capacity value register).pmc = r')
    (hskip : ¬ P x → r' = r) {tr : List (ChipOp × Chip α)} {c : Chip α} (hc : c.pmc = r) :
    ClockSat capacity r call (fun a t => a = 0 ∧ t.pmc = r')
      (ChipProg.read status >>= fun y =>
        if P y then ChipProg.write register value >>= fun _ => pure 0 else pure 0) tr c := by
  refine Device.Sat.access (stable_pmc capacity r) hc fun t ht => ⟨fun _ _ _ => by rw [ht], ?_⟩
  show ClockSat capacity r call _ (if P (t.read capacity status) then _ else _) _ t
  rw [hread t ht]
  by_cases hP : P x
  · rw [if_pos hP]
    refine Device.Sat.access (stable_pmc capacity r) ht fun u hu => ⟨fun _ _ _ => by rw [hu], ?_⟩
    exact clockSat_ret (hwrite u hu)
  · rw [if_neg hP]
    exact clockSat_ret (ht.trans (hskip hP).symm)

omit [FloatArith α] in
theorem write_pmcPcer0 {id : BitVec 32} (hlow : id < 32) (t : Chip α) :
    (t.write capacity (periphBit id) .pmcPcer0).pmc = t.pmc.switch id true := by
  show { t.pmc with pcsr0 := t.pmc.pcsr0 ||| periphBit id &&& 0xfffffffc } = _
  rw [periphBit_masked, PmcRegs.switch]
  by_cases hsmall : id < 2
  · rw [if_pos hsmall, if_pos fun h => BitVec.not_le.mpr hsmall h.1, BitVec.or_zero]
  · rw [if_neg hsmall, if_neg (not_not.mpr (hasClock_of_low hsmall hlow)), if_pos hlow]
    rfl

omit [FloatArith α] in
theorem write_pmcPcdr0 {id : BitVec 32} (hlow : id < 32) (t : Chip α) :
    (t.write capacity (periphBit id) .pmcPcdr0).pmc = t.pmc.switch id false := by
  show { t.pmc with pcsr0 := t.pmc.pcsr0 &&& ~~~(periphBit id &&& 0xfffffffc) } = _
  rw [periphBit_masked, PmcRegs.switch]
  by_cases hsmall : id < 2
  · rw [if_pos hsmall, if_pos fun h => BitVec.not_le.mpr hsmall h.1, BitVec.not_zero,
      BitVec.and_allOnes]
  · rw [if_neg hsmall, if_neg (not_not.mpr (hasClock_of_low hsmall hlow)), if_pos hlow]
    rfl

theorem clockSat_enable {id : BitVec 32} {tr : List (ChipOp × Chip α)} {c : Chip α}
    (hc : c.pmc = r) :
    ClockSat capacity r call
      (fun a t => a = (if id ≤ maxPeriphId then 0 else 1) ∧ t.pmc = r.switch id true)
      (pmcEnablePeriphClk id) tr c := by
  unfold pmcEnablePeriphClk
  by_cases hmax : maxPeriphId < id
  · rw [if_pos hmax, if_neg (BitVec.not_le.mpr hmax), PmcRegs.switch_of_not_hasClock
      fun h => BitVec.not_le.mpr hmax h.2]
    exact clockSat_ret hc
  · rw [if_neg hmax, if_pos (BitVec.not_lt.mp hmax)]
    by_cases hlow : id < 32
    · rw [if_pos hlow]
      refine clockSat_switch (x := r.pcsr0) (fun t ht => by rw [← ht]; rfl)
        (fun t ht => by rw [← ht]; exact write_pmcPcer0 hlow t) (fun hset => ?_) hc
      exact PmcRegs.switch_low hlow (PmcRegs.switchBit_of_set hlow (not_not.mp hset))
    · have hsmall : id - 32 < 32 := by unfold maxPeriphId at hmax; bv_omega
      rw [if_neg hlow, PmcRegs.switch_high hmax hlow]
      refine clockSat_switch (x := r.pcsr1) (fun t ht => by rw [← ht]; rfl)
        (fun t ht => by rw [← ht]; rfl) (fun hset => ?_) hc
      rw [PmcRegs.switchBit_of_set hsmall (not_not.mp hset)]

theorem clockSat_disable {id : BitVec 32} {tr : List (ChipOp × Chip α)} {c : Chip α}
    (hc : c.pmc = r) :
    ClockSat capacity r call
      (fun a t => a = (if id ≤ maxPeriphId then 0 else 1) ∧ t.pmc = r.switch id false)
      (pmcDisablePeriphClk id) tr c := by
  unfold pmcDisablePeriphClk
  by_cases hmax : maxPeriphId < id
  · rw [if_pos hmax, if_neg (BitVec.not_le.mpr hmax), PmcRegs.switch_of_not_hasClock
      fun h => BitVec.not_le.mpr hmax h.2]
    exact clockSat_ret hc
  · rw [if_neg hmax, if_pos (BitVec.not_lt.mp hmax)]
    by_cases hlow : id < 32
    · rw [if_pos hlow]
      refine clockSat_switch (x := r.pcsr0) (fun t ht => by rw [← ht]; rfl)
        (fun t ht => by rw [← ht]; exact write_pmcPcdr0 hlow t) (fun hclear => ?_) hc
      exact PmcRegs.switch_low hlow (PmcRegs.switchBit_of_clear hlow hclear)
    · have hsmall : id - 32 < 32 := by unfold maxPeriphId at hmax; bv_omega
      rw [if_neg hlow, PmcRegs.switch_high hmax hlow]
      refine clockSat_switch (x := r.pcsr1) (fun t ht => by rw [← ht]; rfl)
        (fun t ht => by rw [← ht]; rfl) (fun hclear => ?_) hc
      rw [PmcRegs.switchBit_of_clear hsmall hclear]

/-- A read of a status register, and a bit of it as the answer. -/
theorem clockSat_bit {status : Reg} {x bit : BitVec 32} (hbit : bit < 32)
    (hread : ∀ t : Chip α, t.pmc = r → t.read capacity status = x)
    {tr : List (ChipOp × Chip α)} {c : Chip α} (hc : c.pmc = r) :
    ClockSat capacity r call
      (fun a t => a = (if x.getLsbD bit.toNat = true then 1 else 0) ∧ t.pmc = r)
      (ChipProg.read status >>= fun y => pure (if y &&& periphBit bit ≠ 0 then 1 else 0)) tr c := by
  refine Device.Sat.access (stable_pmc capacity r) hc fun t ht => ⟨fun _ _ _ => by rw [ht], ?_⟩
  show ClockSat capacity r call _
    (.ret (if t.read capacity status &&& periphBit bit ≠ 0 then 1 else 0)) _ t
  simp only [hread t ht, and_periphBit_ne_zero_iff hbit]
  exact clockSat_ret ht

theorem clockSat_isEnabled {id : BitVec 32} {tr : List (ChipOp × Chip α)} {c : Chip α}
    (hc : c.pmc = r) :
    ClockSat capacity r call
      (fun a t => a = (if id ≤ maxPeriphId ∧ r.enabled id = true then 1 else 0) ∧ t.pmc = r)
      (pmcIsPeriphClkEnabled id) tr c := by
  unfold pmcIsPeriphClkEnabled PmcRegs.enabled
  by_cases hmax : maxPeriphId < id
  · rw [if_pos hmax, if_neg fun h => BitVec.not_le.mpr hmax h.1]
    exact clockSat_ret hc
  · have hid : id ≤ maxPeriphId := BitVec.not_lt.mp hmax
    simp only [if_neg hmax, hid, true_and]
    by_cases hlow : id < 32
    · simp only [if_pos hlow]
      exact clockSat_bit hlow (fun t ht => by rw [← ht]; rfl) hc
    · have hsmall : id - 32 < 32 := by unfold maxPeriphId at hmax; bv_omega
      simp only [if_neg hlow]
      exact clockSat_bit hsmall (fun t ht => by rw [← ht]; rfl) hc

/-- **One call, with any events around its accesses.** -/
theorem clockSat_prog {tr : List (ChipOp × Chip α)} {c : Chip α} (hc : c.pmc = r) :
    ClockSat capacity r call (fun a t => a = call.answer r.enabled ∧ t.pmc = call.effect r)
      call.prog tr c := by
  cases call with
  | enable id => exact clockSat_enable hc
  | disable id => exact clockSat_disable hc
  | isEnabled id => exact clockSat_isEnabled hc

end

/-! ### Calls one after the other -/

/-- What the driver is for, a set of running clocks. -/
def clockSpec : SeqSpec ClockCall (BitVec 32) (BitVec 32 → Bool) where
  answer call clocks := call.answer clocks
  after call clocks := call.after clocks

section

variable [FloatArith α]

/-- The chip and calls of the clock driver. -/
def clockHost (capacity : Nat) :
    Host ChipOp ChipOp.Resp (Chip α) ChipEvent ClockCall (BitVec 32) where
  toDevice := chipDevice capacity
  prog := ClockCall.prog

/-- During a call, the registers say it of every peripheral but the one that is named. -/
theorem clockSpec_met (capacity : Nat) :
    clockSpec.Met (clockHost (α := α) capacity) (fun clocks c => Indicates c.pmc clocks)
      (fun call clocks c => ∀ id, id ≤ maxPeriphId → call.id ≠ id →
        c.pmc.enabled id = clocks id) where
  stable clocks := stable_setup capacity fun s => Indicates s.pmc clocks
  call call clocks c hc := by
    refine Device.Sat.mono (fun _ _ _ hG => ?_) (fun _ _ _ hQ => ?_) _ (clockSat_prog rfl)
    · exact fun id hid hne => (hG id hid hne).trans (hc id hid)
    · obtain ⟨hanswer, hpmc⟩ := hQ
      refine ⟨hanswer.trans (hc.answer call), ?_⟩
      rw [hpmc]
      exact hc.effect call
  returning call clocks c hc id hid hne := (hc id hid).trans (after_of_ne clocks call hne)

/-- **The driver keeps a set of running clocks**: at any moment of any run, the calls that have
returned have answered as the set does, and whether a clock runs that the call under way does not
name is what they have made of the set. -/
theorem clocks_of_calls (capacity : Nat) (c : Chip α) (as : List (Action ChipEvent ClockCall)) :
    let n := (clockHost capacity).run (Host.start c) as
    let all := clockSpec.all c.pmc.enabled (n.finished.map Finished.call)
    n.finished.map Finished.result = all.1 ∧
      ∀ id, id ≤ maxPeriphId → (∀ p, n.active = some p → p.call.id ≠ id) →
        n.state.pmc.enabled id = all.2 id := by
  intro n all
  obtain ⟨hidle, hactive⟩ := (clockSpec_met capacity).run (s := c) (fun _ _ => rfl) as
  cases hn : n.active with
  | none => exact ⟨(hidle hn).answers, fun id hid _ => (hidle hn).state id hid⟩
  | some p =>
      have hkept := hactive p hn
      exact ⟨hkept.answers, fun id hid hne => hkept.state id hid (hne p rfl)⟩

end

end Anc
