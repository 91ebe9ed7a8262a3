/-
The system around the handler.

A conversion is taken on channels 4 and 5 in turn; its word carries the channel
number above the twelve data bits, and goes where the receive channel puts it, in
memory as well as in the registers.  Everything else an event can change are the two
status words, of which `RXBUFF` alone is determined by the receive channel.
-/
import AncPrototype.Model.Handler
import Mathlib.Logic.Function.Basic

namespace Anc

open DeviceProgram

/-- The channels of the conversion sequence. -/
inductive AdcChannel where
  | channel4
  | channel5
  deriving DecidableEq

namespace AdcChannel

def number : AdcChannel → UInt16
  | channel4 => 4
  | channel5 => 5

/-- The sequencer takes them in turn. -/
def next : AdcChannel → AdcChannel
  | channel4 => channel5
  | channel5 => channel4

end AdcChannel

/-- The word of a conversion, with `adc_enable_tag` in force. -/
def taggedWord (channel : AdcChannel) (data : BitVec 12) : UInt16 :=
  channel.number <<< 12 ||| ⟨data.setWidth 16⟩

structure Machine (α : Type) where
  pdc : Pdc Addr
  /-- The channel of the next conversion. -/
  channel : AdcChannel
  /-- `ADC_ISR`, but for `RXBUFF`. -/
  adcFlags : UInt32
  daccIsr : UInt32
  /-- `USER_SEL` of `DACC_MR`. -/
  userSel : UInt32
  /-- The words written to `DACC_CDR`, each with the channel selected for it. -/
  cdr : List (UInt32 × UInt32)
  mem : Addr → UInt16
  /-- How many invocations of the handler have declared their `temp`. -/
  frames : Nat
  fxlms : Fxlms α fxlmsBufLen

/-- What happens without the processor. -/
inductive Event where
  | conversion (data : BitVec 12)
  | flags (adc dacc : UInt32)

variable {α : Type} [FloatArith α]

namespace Machine

/-- `ADC_ISR`. -/
def adcIsr (m : Machine α) : UInt32 :=
  if m.pdc.rxbuff then m.adcFlags ||| adcIsrRxbuff else m.adcFlags &&& ~~~adcIsrRxbuff

def convert (m : Machine α) (data : BitVec 12) : Machine α :=
  let word := taggedWord m.channel data
  { m with
    pdc := m.pdc.convert word
    channel := m.channel.next
    mem := if m.pdc.rxten ∧ m.pdc.rcr ≠ 0 then Function.update m.mem m.pdc.rpr word else m.mem }

def event (m : Machine α) : Event → Machine α
  | .conversion data => m.convert data
  | .flags adc dacc => { m with adcFlags := adc, daccIsr := dacc }

/-- A new `temp`. -/
def declare (m : Machine α) (contents : Fin numChannels → UInt16) : Machine α :=
  { m with
    mem := fun a => match a with
      | ⟨.temp frame, i⟩ =>
          if h : frame = m.frames ∧ i < numChannels then contents ⟨i, h.2⟩ else m.mem a
      | _ => m.mem a
    frames := m.frames + 1 }

def exec : (o : HandlerOp) → Machine α → o.Resp × Machine α
  | .declare contents, m => (m.frames, m.declare contents)
  | .pdc o, m =>
      let out := Pdc.exec o m.pdc
      (out.1, { m with pdc := out.2 })
  | .adcStatus, m => (m.adcIsr, m)
  | .load a, m => (m.mem a, m)
  | .reload _ a, m => (m.mem a, m)
  | .save a v, m => ((), { m with mem := Function.update m.mem a v })
  | .daccStatus, m => (m.daccIsr, m)
  | .select c, m => ((), { m with userSel := c })
  | .write d, m => ((), { m with cdr := m.cdr ++ [(m.userSel, d)] })
  | .predict noise, m =>
      let out := ancPredict m.fxlms noise
      (out.1, { m with fxlms := out.2 })
  | .update residual, m => ((), { m with fxlms := ancUpdate m.fxlms residual })

end Machine

/-- The machine under conversions and changing flags. -/
def machineDevice : Device HandlerOp HandlerOp.Resp (Machine α) Event where
  exec := Machine.exec
  env e m := m.event e

/-- The machine and its interrupts; what a call is given is what its `temp` happens to contain. -/
def machineHost :
    Host HandlerOp HandlerOp.Resp (Machine α) Event (Fin numChannels → UInt16) Unit where
  toDevice := machineDevice
  prog := adcHandler

/-- What there is before `initialize_anc`. -/
structure PowerUp where
  rpr : Addr
  rnpr : Addr
  channel : AdcChannel
  adcFlags : UInt32
  daccIsr : UInt32
  mem : Addr → UInt16

/-- What `initialize_anc` leaves. -/
def Machine.initialized (u : PowerUp) : Machine α :=
  (machineDevice.alone initializeAdc
    { pdc := Pdc.reset u.rpr u.rnpr, channel := u.channel, adcFlags := u.adcFlags,
      daccIsr := u.daccIsr, userSel := 0, cdr := [], mem := u.mem, frames := 0,
      fxlms := initializeAnc }).2

/-! ### Invocations with nothing in between -/

/-- What an invocation finds around it: the status words, the channel and the words of `temp`. -/
structure Invocation where
  pdc : Pdc Addr
  adcFlags : UInt32
  daccIsr : UInt32
  temp : Fin numChannels → UInt16

namespace Machine

def meet (m : Machine α) (v : Invocation) : Machine α :=
  { m with pdc := v.pdc, adcFlags := v.adcFlags, daccIsr := v.daccIsr }

def invoke (m : Machine α) (v : Invocation) : Machine α :=
  (machineDevice.alone (adcHandler v.temp) (m.meet v)).2

def invokeAll (m : Machine α) (vs : List Invocation) : Machine α := vs.foldl invoke m

end Machine

end Anc
