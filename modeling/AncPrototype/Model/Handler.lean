/-
The interrupt handler: `anc/anc_interrupt.c`, and `initialize_adc` as far as the
handler depends on it.

Both are programs over accesses.  An access is a register access of the receive
channel, a load or a store of a halfword in memory, a call of a driver function of
the converters, or a call of the filter; between two of them anything may happen
that the rest of the system can do.  The filter calls are single accesses, since
nothing else touches `anc_fxlms`.

Memory is addressed by object.  `adc_sample` is one, counted in halfwords from
`ch_val` on, and nothing reads the `ch_num` in front of it.  Every invocation of the
handler has a `temp` of its own, with contents that are given to it; that they may be
what the array of another invocation held, since both lie in the same stack, is a matter
of what is given.
-/
import AncPrototype.Model.Filter
import AncPrototype.Model.Pdc

namespace Anc

open DeviceProgram

/-- What a pointer may designate. -/
inductive MemObject where
  | adcSample
  /-- The array `temp` of an invocation of the handler.  Successive invocations share the memory of
  the stack; that each has an object of its own is an abstraction. -/
  | temp (frame : Nat)
  deriving DecidableEq

/-- A halfword of an object. -/
structure Addr where
  object : MemObject
  index : Nat
  deriving DecidableEq

instance : HalfwordPtr Addr where
  next a := { a with index := a.index + 1 }

/-- `NUM_CHANNELS`. -/
abbrev numChannels : Nat := 2

instance : NeZero numChannels := ⟨by decide⟩

/-- `BUFFER_SIZE`. -/
def bufferSize : Nat := numChannels

/-- `ADC_DONE_MASK`. -/
def adcDoneMask : UInt16 := ((1 : UInt16) <<< 2) - 1

namespace Addr

/-- `adc_sample.ch_val[i]`. -/
abbrev chVal (i : Fin numChannels) : Addr := ⟨.adcSample, i⟩

/-- `adc_sample.done`. -/
abbrev done : Addr := ⟨.adcSample, numChannels⟩

/-- `adc_sample.old`. -/
abbrev old : Addr := ⟨.adcSample, numChannels + 1⟩

/-- `temp[i]`. -/
abbrev temp (frame : Nat) (i : Fin numChannels) : Addr := ⟨.temp frame, i⟩

end Addr

/-! ### Accesses -/

inductive HandlerOp where
  /-- The declaration of `temp`, and what the array happens to contain. -/
  | declare (contents : Fin numChannels → UInt16)
  | pdc (o : PdcOp Addr)
  /-- `adc_get_status`. -/
  | adcStatus
  | load (a : Addr)
  /-- A load by the case for `ch_val[entry]`, which mentions `temp[i]` again. -/
  | reload (entry : Fin numChannels) (a : Addr)
  | save (a : Addr) (value : UInt16)
  /-- `dacc_get_interrupt_status`. -/
  | daccStatus
  /-- `dacc_set_channel_selection`. -/
  | select (channel : UInt32)
  /-- `dacc_write_conversion_data`. -/
  | write (data : UInt32)
  /-- `anc_predict`. -/
  | predict (noise : UInt16)
  /-- `anc_update`. -/
  | update (residual : UInt16)

/-- What they answer; a declaration answers the frame it is in. -/
def HandlerOp.Resp : HandlerOp → Type
  | declare _ => Nat
  | pdc o => o.Resp
  | adcStatus => UInt32
  | load _ => UInt16
  | reload _ _ => UInt16
  | daccStatus => UInt32
  | predict _ => UInt16
  | _ => Unit

abbrev HandlerProg (B : Type) := Prog HandlerOp HandlerOp.Resp B

namespace HandlerProg

def declare (contents : Fin numChannels → UInt16) : HandlerProg Nat :=
  Prog.step (.declare contents) Prog.ret

def pdc {B : Type} (p : PdcProg Addr B) : HandlerProg B := p.embed HandlerOp.pdc fun _ r => r

def adcStatus : HandlerProg UInt32 := Prog.step .adcStatus Prog.ret

def load (a : Addr) : HandlerProg UInt16 := Prog.step (.load a) Prog.ret

def reload (entry : Fin numChannels) (a : Addr) : HandlerProg UInt16 :=
  Prog.step (.reload entry a) Prog.ret

def save (a : Addr) (value : UInt16) : HandlerProg Unit := Prog.step (.save a value) Prog.ret

def daccStatus : HandlerProg UInt32 := Prog.step .daccStatus Prog.ret

def select (channel : UInt32) : HandlerProg Unit := Prog.step (.select channel) Prog.ret

def write (data : UInt32) : HandlerProg Unit := Prog.step (.write data) Prog.ret

def predict (noise : UInt16) : HandlerProg UInt16 := Prog.step (.predict noise) Prog.ret

def update (residual : UInt16) : HandlerProg Unit := Prog.step (.update residual) Prog.ret

end HandlerProg

open HandlerProg

/-! ### ADC_Handler -/

/-- `ADC_ISR_RXBUFF`. -/
def adcIsrRxbuff : UInt32 := (1 : UInt32) <<< 28

/-- `DACC_ISR_TXRDY`. -/
def daccIsrTxrdy : UInt16 := (1 : UInt16) <<< 0

/-- `( word & ADC_LCDR_CHNB_Msk ) >> 0x0C`. -/
def wordTag (word : UInt16) : UInt16 := (word &&& 0xf000) >>> 0x0c

/-- `word & ADC_LCDR_LDATA_Msk`. -/
def wordData (word : UInt16) : UInt16 := word &&& 0x0fff

/-- The case for `ch_val[entry]`. -/
def take (entry : Fin numChannels) (a : Addr) : HandlerProg Unit := do
  let word ← reload entry a
  save (.chVal entry) (wordData word)

/-- One iteration of the demultiplexing loop.  The `switch` and the case it selects both mention
`temp[i]`, which is two loads.  A compiler may make them one, `temp` not being volatile; that is two
loads with nothing in between. -/
def demultiplex (temp : Nat) (i : Fin numChannels) : HandlerProg Unit := do
  let word ← load (.temp temp i)
  if wordTag word = 4 then
    take 0 (.temp temp i)
  else if wordTag word = 5 then
    take 1 (.temp temp i)
  else
    return ()

/-- What the handler does with a full buffer. -/
def capture (temp : Nat) : HandlerProg Unit := do
  save .done adcDoneMask
  let _ ← pdc (readAdcBuffer (.temp temp 0) bufferSize)
  demultiplex temp 0
  demultiplex temp 1

/-- What it does with a converter that is ready for new data. -/
def drive : HandlerProg Unit := do
  let old ← load .old
  let predict ← predict old
  let noise ← load (.chVal 0)
  save .old noise
  select 0
  let old ← load .old
  write old.toUInt32
  select 1
  -- `predict` is an `int16_t` and the parameter a `uint32_t`
  write predict.toInt16.toInt32.toUInt32
  let residual ← load (.chVal 1)
  update residual

/-- The first `if` of the handler. -/
def captureIfFull (temp : Nat) : HandlerProg Unit := do
  let isr ← adcStatus
  if isr &&& adcIsrRxbuff = adcIsrRxbuff then
    capture temp

/-- The second one. -/
def driveIfReady : HandlerProg Unit := do
  let status := (← daccStatus).toUInt16
  if status &&& daccIsrTxrdy = daccIsrTxrdy then
    drive

/-- `ADC_Handler`. -/
def adcHandler (contents : Fin numChannels → UInt16) : HandlerProg Unit := do
  let temp ← declare contents
  captureIfFull temp
  driveIfReady

/-! ### initialize_adc -/

/-- What `initialize_adc` does to `adc_sample` and to the receive channel. -/
def initializeAdc : HandlerProg Unit := do
  save (.chVal 0) 0
  save (.chVal 1) 0
  save .done 0
  save .old 0
  save .old 2048
  pdc adcInit
  let _ ← pdc (readAdcBuffer (.chVal 0) bufferSize)

end Anc
