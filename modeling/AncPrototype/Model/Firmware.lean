/-
The firmware: `initialize_anc` and what it calls, `main.c`, and `ADC_Handler` on the
chip.

The start-up code is one program over the registers, from `initialize_anc` to the
access that starts the conversions; after it `main` loops without one.  Before it `main`
sets up the clocks and the pins, which no register here depends on.  The handler is the
one the board runs, with the driver functions in the place of its calls.  A processor
that takes interrupts runs the two.
-/
import AncPrototype.Library.Simulation
import AncPrototype.Model.Drivers

namespace Anc

open DeviceProgram Register

variable {α : Type}

namespace Firmware

open ChipProg Driver

/-! ### The clock, as configured -/

/-- `BOARD_FREQ_MAINCK_XTAL`. -/
def boardFreqMainckXtal : BitVec 32 := 12000000

/-- `CONFIG_PLL0_MUL`. -/
def configPll0Mul : BitVec 32 := 20

/-- `CONFIG_PLL0_DIV`. -/
def configPll0Div : BitVec 32 := 1

/-- `SYSCLK_PRES_2`, a value of `PMC_MCKR_PRES`. -/
def sysclkPres2 : BitVec 32 := 1#32 <<< 4

/-- `SYSCLK_PRES_3`. -/
def sysclkPres3 : BitVec 32 := 7#32 <<< 4

/-- `CONFIG_SYSCLK_PRES`. -/
def configSysclkPres : BitVec 32 := sysclkPres2

/-- `sysclk_get_main_hz`, with `PLLACK` as the source. -/
def sysclkGetMainHz : BitVec 32 := boardFreqMainckXtal * configPll0Mul / configPll0Div

/-- `sysclk_get_cpu_hz`. -/
def sysclkGetCpuHz : BitVec 32 :=
  let divisor : BitVec 32 :=
    if configSysclkPres = sysclkPres3 then 3 else 1#32 <<< (configSysclkPres >>> 4).toNat
  sysclkGetMainHz / divisor

/-! ### initialize_dacc -/

/-- `DACC_ANALOG_CONTROL`. -/
def daccAnalogControl : BitVec 32 :=
  0x3#32 <<< 0 &&& 0x02#32 <<< 0 ||| 0x3#32 <<< 2 &&& 0x02#32 <<< 2 |||
    0x3#32 <<< 8 &&& 0x01#32 <<< 8

/-- `initialize_dacc`. -/
def initializeDacc : ChipProg Unit := do
  let _ ← pmcEnablePeriphClk idDacc
  daccReset
  let _ ← daccSetTransferMode 0x00
  let _ ← daccSetPowerSave 0x00 0x00
  let _ ← daccSetTiming 0x08 0x00 0x10
  let _ ← daccSetChannelSelection 0x00
  let _ ← daccEnableChannel 0x00
  let _ ← daccEnableChannel 0x01
  let _ ← daccSetAnalogControl daccAnalogControl

/-! ### initialize_adc -/

/-- `TRACKING_TIME`. -/
def trackingTime : BitVec 8 := 1

/-- `TRANSFER_PERIOD`. -/
def transferPeriod : BitVec 8 := 1

/-- `ADC_IER_RXBUFF`. -/
def adcIerRxbuff : BitVec 32 := 1#32 <<< 28

/-- `c_list`. -/
def cList (i : Nat) : AdcChannelNum := if i = 0 then 4 else 5

/-- One iteration of the loop over the channels. -/
def enableChannel (i : AdcChannelNum) : ChipProg Unit := do
  adcEnableChannel i
  adcSetChannelInputGain (cList i) 0
  adcDisableChannelInputOffset (cList i)

/-- `initialize_adc`.  Nothing reads `adc_sample.ch_num`, and it is left out. -/
def initializeAdc : ChipProg Unit := do
  let _ ← pmcEnablePeriphClk idAdc
  save (.chVal 0) 0
  save (.chVal 1) 0
  save .done 0
  save .old 0
  save .old 2048
  let _ ← Driver.adcInit sysclkGetCpuHz 6400000 4
  adcConfigureTiming trackingTime 3 transferPeriod
  adcEnableTag
  adcConfigureSequence cList 2
  adcStartSequencer
  enableChannel 0
  enableChannel 1
  adcDisableAnch
  adcConfigurePowerSave 0x00 0x00
  let _ ← pdc (readAdcBuffer (.chVal 0) bufferSize)
  adcEnableInterrupt adcIerRxbuff
  nvicEnableIrq Chip.adcIrqn
  adcConfigureTrigger .sw 0x01

/-- `initialize_anc`. -/
def initializeAnc : ChipProg Unit := do
  initFxlms
  initializeDacc
  initializeAdc

/-! ### ADC_Handler -/

/-- The accesses of the handler on the chip. -/
def handlerAccess : (o : HandlerOp) → ChipProg o.Resp
  | .declare contents => Prog.step (.declare contents) Prog.ret
  | .pdc o => Prog.step (.pdc o) Prog.ret
  | .adcStatus => adcGetStatus.bind fun r => Prog.ret ⟨r⟩
  | .load a => Prog.step (.load a) Prog.ret
  | .reload entry a => Prog.step (.reload entry a) Prog.ret
  | .save a value => Prog.step (.save a value) Prog.ret
  | .daccStatus => daccGetInterruptStatus.bind fun r => Prog.ret ⟨r⟩
  | .select channel => (daccSetChannelSelection channel.toBitVec).bind fun _ => Prog.ret ()
  | .write data => daccWriteConversionData data.toBitVec
  | .predict noise => Prog.step (.predict noise) Prog.ret
  | .update residual => Prog.step (.update residual) Prog.ret

end Firmware

/-- What there is before `main`, where the reset does not determine it. -/
structure ChipPowerUp (α : Type) where
  pmc : PmcRegs
  adcFlags : UInt32
  daccFlags : UInt32
  rpr : Addr
  rnpr : Addr
  mem : Addr → UInt16
  fxlms : Fxlms α fxlmsBufLen

/-- The chip out of reset. -/
def Chip.reset (u : ChipPowerUp α) : Chip α :=
  { pmc := u.pmc, iser := fun _ => 0, adc := .reset, position := 0, oneShot := false,
    adcFlags := u.adcFlags, pdc := Pdc.reset u.rpr u.rnpr, dacc := .reset,
    daccFlags := u.daccFlags, cdr := [], fifo := [], converted := [], mem := u.mem, frames := 0,
    fxlms := u.fxlms }

variable [FloatArith α]

/-- The chip and its processor; what a call is given is what its `temp` happens to contain. -/
def firmware (capacity : Nat) :
    IrqHost ChipOp ChipOp.Resp (Chip α) ChipEvent (Fin numChannels → UInt16) Unit where
  toDevice := chipDevice capacity
  prog contents := (adcHandler contents).interpret Firmware.handlerAccess
  pending := Chip.pending

/-- The state of a run of the firmware. -/
abbrev FirmwareCore (α : Type) :=
  Core ChipOp ChipOp.Resp (Chip α) (Fin numChannels → UInt16) Unit Unit

/-- A run of the firmware from reset, its events and its interrupts. -/
def firmwareRun (capacity : Nat) (u : ChipPowerUp α)
    (as : List (Action ChipEvent (Fin numChannels → UInt16))) : FirmwareCore α :=
  (firmware capacity).boot ⟨Host.start (Chip.reset u), Firmware.initializeAnc⟩ as

/-- The board as the firmware uses it: the handler is called when `RXBUFF` asks for it. -/
def boardIrq (capacity : Nat) :
    IrqHost HandlerOp HandlerOp.Resp (Board α) BoardEvent (Fin numChannels → UInt16) Unit where
  toHost := boardHost capacity
  pending b := b.machine.pdc.rxbuff

/-- The machine in the same way. -/
def machineIrq :
    IrqHost HandlerOp HandlerOp.Resp (Machine α) Event (Fin numChannels → UInt16) Unit where
  toHost := machineHost
  pending m := m.pdc.rxbuff

end Anc
