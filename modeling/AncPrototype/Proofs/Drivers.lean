/-
Driver functions by themselves.

With no event between its accesses, a driver function is a function of the registers it
touches, and one lemma for each says which.  The read of a read-modify-write, and a
write that is skipped, are gone from here on.
-/
import AncPrototype.Proofs.PeripheralClocks

namespace Anc

open DeviceProgram Register

/-! ### Results -/

namespace ChipProg

/-- A function without a result. -/
def void (p : ChipProg Unit) : ChipProg (Option (BitVec 32)) := do
  p
  return none

/-- And one with a result. -/
def returning (p : ChipProg (BitVec 32)) : ChipProg (Option (BitVec 32)) := do
  let r ← p
  return some r

theorem only_void {P : ChipOp → Prop} {p : ChipProg Unit} (h : p.Only P) : p.void.Only P :=
  Prog.Only.bind (f := fun _ => pure none) (fun _ => trivial) h

theorem only_returning {P : ChipOp → Prop} {p : ChipProg (BitVec 32)} (h : p.Only P) :
    p.returning.Only P :=
  Prog.Only.bind (f := fun r => pure (some r)) (fun _ => trivial) h

variable {α : Type} [FloatArith α] (capacity : Nat) (c : Chip α)

theorem alone_void (p : ChipProg Unit) :
    (chipDevice capacity).alone p.void c = (none, ((chipDevice capacity).alone p c).2) :=
  Device.alone_bind ..

theorem alone_returning (p : ChipProg (BitVec 32)) :
    (chipDevice capacity).alone p.returning c
      = (some ((chipDevice capacity).alone p c).1, ((chipDevice capacity).alone p c).2) :=
  Device.alone_bind ..

end ChipProg

/-! ### The receive channel -/

theorem promote_of_rncr {p : Pdc Addr} (h : p.rncr = 0) : p.promote = p := by
  simp [Pdc.promote, h]

/-- `adc_init` turns the receiver off and leaves both banks empty. -/
theorem alone_adcInit {p : Pdc Addr} (hrncr : p.rncr = 0) :
    pdcDevice.alone Anc.adcInit p = ((), { p with rcr := 0, rncr := 0, rxten := false }) := by
  show ((), Pdc.promote { Pdc.promote { p with rxten := false, rcr := 0 } with rncr := 0 }) = _
  rw [promote_of_rncr rfl, promote_of_rncr (p := { p with rxten := false, rcr := 0 }) hrncr]

/-- `read_adc_buffer` on an empty channel arms the first bank. -/
theorem alone_readAdcBuffer {p : Pdc Addr} (hrcr : p.rcr = 0) (hrncr : p.rncr = 0) (buffer : Addr)
    (size : Nat) :
    pdcDevice.alone (readAdcBuffer buffer size) p
      = (1, { p with rpr := buffer, rcr := size % 65536, rxten := true }) := by
  obtain ⟨rpr, rcr, rnpr, rncr, rxten, convs, cur, full⟩ := p
  obtain rfl : rcr = 0 := hrcr
  obtain rfl : rncr = 0 := hrncr
  show (1, { Pdc.promote ⟨buffer, size % 65536, rnpr, 0, rxten, convs, cur, full⟩ with
    rxten := true }) = _
  rw [promote_of_rncr rfl]

namespace Driver

variable {α : Type} [FloatArith α] (capacity : Nat) (c : Chip α)

/-! ### pmc.c -/

theorem alone_pmcEnablePeriphClk {id : BitVec 32} (hid : id < 32) (c : Chip α) :
    (chipDevice capacity).alone (pmcEnablePeriphClk id) c
      = (0, { c with pmc := c.pmc.switch id true }) := by
  have hmax : ¬ maxPeriphId < id := by unfold maxPeriphId; bv_omega
  unfold pmcEnablePeriphClk
  simp only [if_neg hmax, if_pos hid]
  by_cases hset : c.pmc.pcsr0 &&& periphBit id = periphBit id
  · simp only [Device.alone_bind, ChipProg.alone_read, Chip.read, hset,
      PmcRegs.switch_low hid (PmcRegs.switchBit_of_set hid hset), ne_eq, not_true_eq_false,
      if_false, ChipProg.alone_pure]
  · simp only [Device.alone_bind, ChipProg.alone_read, Chip.read, hset, ne_eq, not_false_eq_true,
      if_true, ChipProg.alone_pure, ChipProg.alone_write]
    rw [← @write_pmcPcer0 _ capacity _ hid c]
    rfl

/-! ### dacc.c -/

theorem alone_daccReset :
    (chipDevice capacity).alone daccReset c = ((), { c with dacc := .reset, fifo := [] }) := rfl

theorem alone_daccSwitch (f : Field 32) (on : BitVec 32) :
    (chipDevice capacity).alone (daccSwitch f on) c
      = ((), { c with
          dacc.mr := if on ≠ 0 then c.dacc.mr ||| f.mask else c.dacc.mr &&& ~~~f.mask }) := by
  unfold daccSwitch
  split_ifs <;> rfl

theorem alone_daccSetPowerSave (sleepMode fastWakeupMode : BitVec 32) :
    (chipDevice capacity).alone (daccSetPowerSave sleepMode fastWakeupMode) c
      = (daccRcOk, { c with dacc.mr :=
          let mr := if sleepMode ≠ 0 then c.dacc.mr ||| DaccMr.sleep.mask
            else c.dacc.mr &&& ~~~DaccMr.sleep.mask
          if fastWakeupMode ≠ 0 then mr ||| DaccMr.fastwkup.mask
            else mr &&& ~~~DaccMr.fastwkup.mask }) := by
  unfold daccSetPowerSave
  rw [Device.alone_bind, alone_daccSwitch, Device.alone_bind, alone_daccSwitch]
  rfl

theorem alone_daccSetTiming (refresh maxs startup : BitVec 32) :
    (chipDevice capacity).alone (daccSetTiming refresh maxs startup) c
      = (daccRcOk, { c with dacc.mr :=
          let mr := c.dacc.mr &&& ~~~(DaccMr.refresh.mask ||| DaccMr.startup.mask)
          let mr := mr ||| DaccMr.refresh.value refresh
          let mr := if maxs ≠ 0 then mr ||| DaccMr.maxs.mask else mr &&& ~~~DaccMr.maxs.mask
          mr ||| DaccMr.startup.mask &&& startup <<< 24 }) := rfl

theorem alone_daccSetChannelSelection (channel : BitVec 32) :
    (chipDevice capacity).alone (daccSetChannelSelection channel) c
      = (if maxChNb < channel then daccRcInvalidParam else daccRcOk,
        { c with dacc.mr := if maxChNb < channel then c.dacc.mr
            else c.dacc.mr &&& ~~~DaccMr.userSel.mask &&& ~~~DaccMr.tag.mask ||| channel <<< 16 }) := by
  unfold daccSetChannelSelection
  split_ifs <;> rfl

theorem alone_daccEnableChannel (channel : BitVec 32) :
    (chipDevice capacity).alone (daccEnableChannel channel) c
      = (if maxChNb < channel then daccRcInvalidParam else daccRcOk,
        { c with dacc.chsr := if maxChNb < channel then c.dacc.chsr
            else c.dacc.chsr ||| 1#32 <<< channel.toNat &&& 3 }) := by
  unfold daccEnableChannel
  split_ifs <;> rfl

theorem alone_daccDisableChannel (channel : BitVec 32) :
    (chipDevice capacity).alone (daccDisableChannel channel) c
      = (if maxChNb < channel then daccRcInvalidParam else daccRcOk,
        { c with dacc.chsr := if maxChNb < channel then c.dacc.chsr
            else c.dacc.chsr &&& ~~~(1#32 <<< channel.toNat) }) := by
  unfold daccDisableChannel
  split_ifs <;> rfl

/-! ### adc.c -/

theorem alone_adcInit (mck adcClock : BitVec 32) (startup : Fin 16) (hrncr : c.pdc.rncr = 0) :
    (chipDevice capacity).alone (adcInit mck adcClock startup) c
      = (0, { c with
          adc := { AdcRegs.reset with
            mr := 0 ||| (AdcMr.prescal.value (adcPrescal mck adcClock) ||| adcStartupTime startup) }
          position := 0
          oneShot := false
          pdc := { c.pdc with rcr := 0, rncr := 0, rxten := false } }) := by
  have hreset : (chipDevice capacity).alone (ChipProg.write .adcCr adcCrSwrst) c
      = ((), { c with adc := .reset, position := 0, oneShot := false }) := rfl
  simp only [adcInit, Device.alone_bind, hreset, ChipProg.alone_write, ChipProg.alone_pdc,
    Anc.alone_adcInit hrncr, ChipProg.alone_orInto, ChipProg.alone_pure, Chip.write, Chip.read]

/-- The loops of `adc_configure_sequence`. -/
theorem alone_orAll (entry : Nat → BitVec 32) (counters : List Nat) :
    ∀ c : Chip α,
      (chipDevice capacity).alone
          (counters.forM fun counter => ChipProg.orInto .adcSeqr1 (entry counter)) c
        = ((), { c with adc.seqr1 := counters.foldl (fun x k => x ||| entry k) c.adc.seqr1 }) ∧
      (chipDevice capacity).alone
          (counters.forM fun counter => ChipProg.orInto .adcSeqr2 (entry counter)) c
        = ((), { c with adc.seqr2 := counters.foldl (fun x k => x ||| entry k) c.adc.seqr2 }) := by
  induction counters with
  | nil => intro c; exact ⟨rfl, rfl⟩
  | cons counter counters ih => intro c; exact ⟨(ih _).1, (ih _).2⟩

/-- An entry of the channel list, where both loops put it in their register. -/
def sequenceEntry (chList : Nat → AdcChannelNum) (counter : Nat) : BitVec 32 :=
  BitVec.ofNat 32 (chList counter) <<< (4 * counter)

theorem alone_adcConfigureSequence (chList : Nat → AdcChannelNum) (num : BitVec 8) :
    (chipDevice capacity).alone (adcConfigureSequence chList num) c
      = ((), { c with
          adc.seqr1 := (List.range (min num.toNat 8)).foldl
            (fun x k => x ||| sequenceEntry chList k) c.adc.seqr1
          adc.seqr2 := (List.range (num.toNat - 8)).foldl
            (fun x k => x ||| sequenceEntry chList k) c.adc.seqr2 }) := by
  unfold adcConfigureSequence
  by_cases hsmall : num < 8
  · have hlt : num.toNat < 8 := hsmall
    simp only [if_pos hsmall, (alone_orAll capacity _ _ c).1, Nat.min_eq_left hlt.le,
      Nat.sub_eq_zero_of_le hlt.le, List.range_zero, List.foldl_nil, sequenceEntry]
  · have hle : 8 ≤ num.toNat := Nat.not_lt.mp hsmall
    simp only [if_neg hsmall, Device.alone_bind, (alone_orAll capacity _ _ _).1,
      (alone_orAll capacity _ _ _).2, Nat.min_eq_right hle, sequenceEntry]

theorem alone_enableChannel (i : AdcChannelNum) :
    (chipDevice capacity).alone (Firmware.enableChannel i) c
      = ((), { c with
          adc.chsr := c.adc.chsr ||| 1#32 <<< i.val &&& 0xffff
          adc.cgr := c.adc.cgr ||| (0x03#32 <<< (2 * (Firmware.cList i).val) &&&
            BitVec.ofNat 32 (0 : Fin 4) <<< (2 * (Firmware.cList i).val))
          adc.cor := c.adc.cor &&& 0xfffffffe#32 <<< (Firmware.cList i).val ||| c.adc.cor }) := rfl

end Driver

end Anc
