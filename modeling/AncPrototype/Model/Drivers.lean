/-
The driver functions: `ASF/sam/drivers/{adc,dacc,pmc}` and `NVIC_EnableIRQ`.

Each is a program over the registers, with every read and every write of the C
statements an access of its own: `R |= v` reads `R` and writes it.  Values that a
field's macro masks are masked here, and values that are merely shifted are merely
shifted.  Enumerations are ranges of numbers where their members are numbers, and the
members whose value is a bit pattern go through a function to it.
-/
import AncPrototype.Model.Chip

namespace Anc

open DeviceProgram Register

abbrev ChipProg (B : Type) := Prog ChipOp ChipOp.Resp B

namespace ChipProg

def read (r : Reg) : ChipProg (BitVec 32) := Prog.step (.read r) Prog.ret

def write (r : Reg) (value : BitVec 32) : ChipProg Unit := Prog.step (.write r value) Prog.ret

def pdc {B : Type} (p : PdcProg Addr B) : ChipProg B := p.embed ChipOp.pdc fun _ r => r

def save (a : Addr) (value : UInt16) : ChipProg Unit := Prog.step (.save a value) Prog.ret

def initFxlms : ChipProg Unit := Prog.step .initFxlms Prog.ret

/-- `r |= value`. -/
def orInto (r : Reg) (value : BitVec 32) : ChipProg Unit := do
  let old ← read r
  write r (old ||| value)

/-- `r &= value`. -/
def andInto (r : Reg) (value : BitVec 32) : ChipProg Unit := do
  let old ← read r
  write r (old &&& value)

end ChipProg

open ChipProg

namespace Driver

/-! ### pmc.c -/

/-- `MAX_PERIPH_ID`. -/
def maxPeriphId : BitVec 32 := 34

/-- `ID_ADC`. -/
def idAdc : BitVec 32 := 29

/-- `ID_DACC`. -/
def idDacc : BitVec 32 := 30

/-- `1u << ul_id`. -/
def periphBit (id : BitVec 32) : BitVec 32 := 1#32 <<< id.toNat

/-- `pmc_enable_periph_clk`. -/
def pmcEnablePeriphClk (id : BitVec 32) : ChipProg (BitVec 32) :=
  if maxPeriphId < id then
    return 1
  else if id < 32 then do
    let pcsr0 ← read .pmcPcsr0
    if pcsr0 &&& periphBit id ≠ periphBit id then
      write .pmcPcer0 (periphBit id)
    return 0
  else do
    let id := id - 32
    let pcsr1 ← read .pmcPcsr1
    if pcsr1 &&& periphBit id ≠ periphBit id then
      write .pmcPcer1 (periphBit id)
    return 0

/-- `pmc_disable_periph_clk`. -/
def pmcDisablePeriphClk (id : BitVec 32) : ChipProg (BitVec 32) :=
  if maxPeriphId < id then
    return 1
  else if id < 32 then do
    let pcsr0 ← read .pmcPcsr0
    if pcsr0 &&& periphBit id = periphBit id then
      write .pmcPcdr0 (periphBit id)
    return 0
  else do
    let id := id - 32
    let pcsr1 ← read .pmcPcsr1
    if pcsr1 &&& periphBit id = periphBit id then
      write .pmcPcdr1 (periphBit id)
    return 0

/-- `pmc_is_periph_clk_enabled`. -/
def pmcIsPeriphClkEnabled (id : BitVec 32) : ChipProg (BitVec 32) :=
  if maxPeriphId < id then
    return 0
  else if id < 32 then do
    let pcsr0 ← read .pmcPcsr0
    return if pcsr0 &&& periphBit id ≠ 0 then 1 else 0
  else do
    let id := id - 32
    let pcsr1 ← read .pmcPcsr1
    return if pcsr1 &&& periphBit id ≠ 0 then 1 else 0

/-! ### The interrupt controller -/

/-- `NVIC_EnableIRQ`. -/
def nvicEnableIrq (irqn : Nat) : ChipProg Unit :=
  write (.nvicIser (irqn >>> 5)) (1#32 <<< (irqn &&& 0x1f))

/-! ### adc.c -/

/-- `enum adc_channel_num_t`. -/
abbrev AdcChannelNum := Fin 16

/-- `enum adc_trigger_t`. -/
inductive AdcTrigger where
  | sw
  | ext
  | tioCh (channel : Fin 3)
  | pwmEventLine (line : Fin 2)

def AdcTrigger.value : AdcTrigger → BitVec 32
  | sw => 0
  | ext => 0#32 <<< 1 ||| 1
  | tioCh channel => BitVec.ofNat 32 (1 + channel) <<< 1 ||| 1
  | pwmEventLine line => BitVec.ofNat 32 (4 + line) <<< 1 ||| 1

/-- `enum adc_resolution_t`. -/
inductive AdcResolution where
  | bits10
  | bits12

/-- The members are values of `ADC_MR_LOWRES`. -/
def AdcResolution.value : AdcResolution → BitVec 32
  | bits10 => 1#32 <<< 4
  | bits12 => 0#32 <<< 4

/-- `enum adc_startup_time`: values of `ADC_MR_STARTUP`. -/
def adcStartupTime (n : Fin 16) : BitVec 32 := BitVec.ofNat 32 n <<< 16

/-- `enum adc_settling_time_t`: values of `ADC_MR_SETTLING`. -/
def adcSettlingTime (n : Fin 4) : BitVec 32 := BitVec.ofNat 32 n <<< 20

/-- `ADC_CR_SWRST`. -/
def adcCrSwrst : BitVec 32 := 1#32 <<< 0

/-- `ADC_CR_START`. -/
def adcCrStart : BitVec 32 := 1#32 <<< 1

/-- `ul_mck / (2 * ul_adc_clock) - 1`. -/
def adcPrescal (mck adcClock : BitVec 32) : BitVec 32 := mck / (2 * adcClock) - 1

/-- `adc_init`. -/
def adcInit (mck adcClock : BitVec 32) (startup : Fin 16) : ChipProg (BitVec 32) := do
  write .adcCr adcCrSwrst
  write .adcMr 0
  pdc Anc.adcInit
  orInto .adcMr (AdcMr.prescal.value (adcPrescal mck adcClock) ||| adcStartupTime startup)
  return 0

/-- `adc_set_resolution`. -/
def adcSetResolution (resolution : AdcResolution) : ChipProg Unit :=
  orInto .adcMr (resolution.value <<< 4 &&& 1#32 <<< 4)

/-- `adc_configure_trigger`. -/
def adcConfigureTrigger (trigger : AdcTrigger) (freerun : BitVec 8) : ChipProg Unit :=
  orInto .adcMr (trigger.value ||| freerun.setWidth 32 <<< 7 &&& AdcMr.freerun.mask)

/-- `adc_configure_power_save`. -/
def adcConfigurePowerSave (sleep fwup : BitVec 8) : ChipProg Unit :=
  orInto .adcMr (sleep.setWidth 32 <<< 5 &&& 1#32 <<< 5 ||| fwup.setWidth 32 <<< 6 &&& 1#32 <<< 6)

/-- `adc_configure_timing`. -/
def adcConfigureTiming (tracking : BitVec 8) (settling : Fin 4) (transfer : BitVec 8) :
    ChipProg Unit :=
  orInto .adcMr (AdcMr.transfer.value (transfer.setWidth 32) ||| adcSettlingTime settling |||
    AdcMr.tracktim.value (tracking.setWidth 32))

/-- `adc_configure_sequence`; an array is what it has at each index. -/
def adcConfigureSequence (chList : Nat → AdcChannelNum) (num : BitVec 8) : ChipProg Unit :=
  let entry (counter : Nat) : BitVec 32 := BitVec.ofNat 32 (chList counter) <<< (4 * counter)
  if num < 8 then
    (List.range num.toNat).forM fun counter => orInto .adcSeqr1 (entry counter)
  else do
    (List.range 8).forM fun counter => orInto .adcSeqr1 (entry counter)
    (List.range (num.toNat - 8)).forM fun counter => orInto .adcSeqr2 (entry counter)

/-- `adc_start_sequencer`. -/
def adcStartSequencer : ChipProg Unit := orInto .adcMr AdcMr.useq.mask

/-- `adc_stop_sequencer`. -/
def adcStopSequencer : ChipProg Unit := andInto .adcMr (~~~AdcMr.useq.mask)

/-- `adc_enable_anch`. -/
def adcEnableAnch : ChipProg Unit := orInto .adcMr AdcMr.anach.mask

/-- `adc_disable_anch`. -/
def adcDisableAnch : ChipProg Unit := andInto .adcMr (~~~AdcMr.anach.mask)

/-- `adc_start`. -/
def adcStart : ChipProg Unit := write .adcCr adcCrStart

/-- `adc_stop`. -/
def adcStop : ChipProg Unit := write .adcCr adcCrSwrst

/-- `adc_enable_channel`. -/
def adcEnableChannel (ch : AdcChannelNum) : ChipProg Unit := write .adcCher (1#32 <<< ch.val)

/-- `adc_disable_channel`. -/
def adcDisableChannel (ch : AdcChannelNum) : ChipProg Unit := write .adcChdr (1#32 <<< ch.val)

/-- `adc_enable_all_channel`. -/
def adcEnableAllChannel : ChipProg Unit := write .adcCher 0xffff

/-- `adc_disable_all_channel`. -/
def adcDisableAllChannel : ChipProg Unit := write .adcChdr 0xffff

/-- `adc_enable_tag`. -/
def adcEnableTag : ChipProg Unit := orInto .adcEmr adcEmrTag.mask

/-- `adc_disable_tag`. -/
def adcDisableTag : ChipProg Unit := andInto .adcEmr (~~~adcEmrTag.mask)

/-- `adc_enable_channel_differential_input`. -/
def adcEnableChannelDifferentialInput (channel : AdcChannelNum) : ChipProg Unit :=
  orInto .adcCor (1#32 <<< (16 + channel.val))

/-- `adc_disable_channel_differential_input`. -/
def adcDisableChannelDifferentialInput (channel : AdcChannelNum) : ChipProg Unit := do
  let temp ← read .adcCor
  andInto .adcCor (0xfffeffff#32 <<< channel.val)
  orInto .adcCor temp

/-- `adc_enable_channel_input_offset`. -/
def adcEnableChannelInputOffset (channel : AdcChannelNum) : ChipProg Unit :=
  orInto .adcCor (1#32 <<< channel.val)

/-- `adc_disable_channel_input_offset`. -/
def adcDisableChannelInputOffset (channel : AdcChannelNum) : ChipProg Unit := do
  let temp ← read .adcCor
  andInto .adcCor (0xfffffffe#32 <<< channel.val)
  orInto .adcCor temp

/-- `adc_set_channel_input_gain`. -/
def adcSetChannelInputGain (channel : AdcChannelNum) (gain : Fin 4) : ChipProg Unit :=
  orInto .adcCgr (0x03#32 <<< (2 * channel.val) &&& BitVec.ofNat 32 gain <<< (2 * channel.val))

/-- `adc_get_actual_adc_clock`. -/
def adcGetActualAdcClock (mck : BitVec 32) : ChipProg (BitVec 32) := do
  let prescal := (← read .adcMr) &&& AdcMr.prescal.mask
  let prescal := prescal >>> 8
  return mck / ((prescal + 1) * 2)

/-- `adc_enable_interrupt`. -/
def adcEnableInterrupt (source : BitVec 32) : ChipProg Unit := write .adcIer source

/-- `adc_disable_interrupt`. -/
def adcDisableInterrupt (source : BitVec 32) : ChipProg Unit := write .adcIdr source

/-- `adc_get_status`. -/
def adcGetStatus : ChipProg (BitVec 32) := read .adcIsr

/-! ### dacc.c -/

/-- `DACC_RC_OK`. -/
def daccRcOk : BitVec 32 := 0

/-- `DACC_RC_INVALID_PARAM`. -/
def daccRcInvalidParam : BitVec 32 := 1

/-- `MAX_CH_NB`. -/
def maxChNb : BitVec 32 := 1

/-- `dacc_reset`. -/
def daccReset : ChipProg Unit := write .daccCr (1#32 <<< 0)

/-- `if (on) R |= mask; else R &= ~mask;`, on `DACC_MR`. -/
def daccSwitch (f : Field 32) (on : BitVec 32) : ChipProg Unit :=
  if on ≠ 0 then orInto .daccMr f.mask else andInto .daccMr (~~~f.mask)

/-- `dacc_set_trigger`. -/
def daccSetTrigger (trigger : BitVec 32) : ChipProg (BitVec 32) := do
  let mr := (← read .daccMr) &&& ~~~DaccMr.trgsel.mask
  write .daccMr (mr ||| DaccMr.trgen.mask ||| DaccMr.trgsel.value trigger)
  return daccRcOk

/-- `dacc_disable_trigger`. -/
def daccDisableTrigger : ChipProg Unit := andInto .daccMr (~~~DaccMr.trgen.mask)

/-- `dacc_set_transfer_mode`. -/
def daccSetTransferMode (mode : BitVec 32) : ChipProg (BitVec 32) := do
  daccSwitch DaccMr.word mode
  return daccRcOk

/-- `dacc_set_power_save`. -/
def daccSetPowerSave (sleepMode fastWakeupMode : BitVec 32) : ChipProg (BitVec 32) := do
  daccSwitch DaccMr.sleep sleepMode
  daccSwitch DaccMr.fastwkup fastWakeupMode
  return daccRcOk

/-- `dacc_set_timing`. -/
def daccSetTiming (refresh maxs startup : BitVec 32) : ChipProg (BitVec 32) := do
  let mr := (← read .daccMr) &&& ~~~(DaccMr.refresh.mask ||| DaccMr.startup.mask)
  let mr := mr ||| DaccMr.refresh.value refresh
  let mr := if maxs ≠ 0 then mr ||| DaccMr.maxs.mask else mr &&& ~~~DaccMr.maxs.mask
  write .daccMr (mr ||| DaccMr.startup.mask &&& startup <<< 24)
  return daccRcOk

/-- `dacc_set_channel_selection`. -/
def daccSetChannelSelection (channel : BitVec 32) : ChipProg (BitVec 32) := do
  let mr := (← read .daccMr) &&& ~~~DaccMr.userSel.mask
  if maxChNb < channel then
    return daccRcInvalidParam
  else do
    let mr := mr &&& ~~~DaccMr.tag.mask
    write .daccMr (mr ||| channel <<< 16)
    return daccRcOk

/-- `dacc_enable_flexible_selection`. -/
def daccEnableFlexibleSelection : ChipProg Unit := orInto .daccMr DaccMr.tag.mask

/-- `dacc_enable_channel`. -/
def daccEnableChannel (channel : BitVec 32) : ChipProg (BitVec 32) :=
  if maxChNb < channel then
    return daccRcInvalidParam
  else do
    write .daccCher (1#32 <<< channel.toNat)
    return daccRcOk

/-- `dacc_disable_channel`. -/
def daccDisableChannel (channel : BitVec 32) : ChipProg (BitVec 32) :=
  if maxChNb < channel then
    return daccRcInvalidParam
  else do
    write .daccChdr (1#32 <<< channel.toNat)
    return daccRcOk

/-- `dacc_set_analog_control`. -/
def daccSetAnalogControl (analogControl : BitVec 32) : ChipProg (BitVec 32) := do
  write .daccAcr analogControl
  return daccRcOk

/-- `dacc_get_analog_control`. -/
def daccGetAnalogControl : ChipProg (BitVec 32) := read .daccAcr

/-- `dacc_get_interrupt_status`. -/
def daccGetInterruptStatus : ChipProg (BitVec 32) := read .daccIsr

/-- `dacc_write_conversion_data`. -/
def daccWriteConversionData (data : BitVec 32) : ChipProg Unit := write .daccCdr data

end Driver

end Anc
