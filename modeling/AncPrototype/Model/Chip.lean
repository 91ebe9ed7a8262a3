/-
The chip under the firmware, register by register.

`Board` has the converters as the handler's driver calls show them.  Below that are
registers: the driver functions read and write words, and what the converters do follows
from the words.  The ADC goes through the enabled numbers of its conversion sequence in
turn; a number stands for the channel that the sequence registers name for it, or for
itself, and with the tag enabled the channel goes into the word.  In free run mode one
sequence follows the other.  With a hardware trigger enabled each trigger begins one, and
when triggers come is up to the environment; and a start by software is good for one
sequence.  The interrupt reaches the processor if it is enabled in the ADC and in the
interrupt controller.

A write to `DACC_CDR` is one data, or two in word transfer mode; with the tag enabled
each names its channel.

`Chip.board` is what the handler's calls see of a chip.
-/
import AncPrototype.Library.BitField
import AncPrototype.Library.Interrupt
import AncPrototype.Model.Dacc

namespace Anc

open DeviceProgram Register

/-! ### Registers -/

inductive Reg where
  | pmcPcer0 | pmcPcdr0 | pmcPcsr0 | pmcPcer1 | pmcPcdr1 | pmcPcsr1
  | nvicIser (word : Nat)
  | adcCr | adcMr | adcSeqr1 | adcSeqr2 | adcCher | adcChdr | adcChsr | adcIer | adcIdr | adcImr
  | adcIsr | adcEmr | adcCgr | adcCor
  | daccCr | daccMr | daccCher | daccChdr | daccChsr | daccCdr | daccIsr | daccAcr
  deriving DecidableEq

/-- The clock status registers of the power management controller. -/
structure PmcRegs where
  pcsr0 : BitVec 32
  pcsr1 : BitVec 32
  deriving DecidableEq

structure AdcRegs where
  mr : BitVec 32
  seqr1 : BitVec 32
  seqr2 : BitVec 32
  chsr : BitVec 32
  imr : BitVec 32
  emr : BitVec 32
  cgr : BitVec 32
  cor : BitVec 32
  deriving DecidableEq

structure DaccRegs where
  mr : BitVec 32
  chsr : BitVec 32
  acr : BitVec 32
  deriving DecidableEq

def AdcRegs.reset : AdcRegs :=
  { mr := 0, seqr1 := 0, seqr2 := 0, chsr := 0, imr := 0, emr := 0, cgr := 0, cor := 0 }

def DaccRegs.reset : DaccRegs := { mr := 0, chsr := 0, acr := 0 }

/-! ### Fields -/

namespace AdcMr

def trgen : Field 32 := ⟨0, 1, by decide⟩
def trgsel : Field 32 := ⟨1, 3, by decide⟩
def lowres : Field 32 := ⟨4, 1, by decide⟩
def sleep : Field 32 := ⟨5, 1, by decide⟩
def fwup : Field 32 := ⟨6, 1, by decide⟩
def freerun : Field 32 := ⟨7, 1, by decide⟩
def prescal : Field 32 := ⟨8, 8, by decide⟩
def startup : Field 32 := ⟨16, 4, by decide⟩
def settling : Field 32 := ⟨20, 2, by decide⟩
def anach : Field 32 := ⟨23, 1, by decide⟩
def tracktim : Field 32 := ⟨24, 4, by decide⟩
def transfer : Field 32 := ⟨28, 2, by decide⟩
def useq : Field 32 := ⟨31, 1, by decide⟩

end AdcMr

/-- `ADC_EMR_TAG`. -/
def adcEmrTag : Field 32 := ⟨24, 1, by decide⟩

/-- `USCHx` of a sequence register, counted from zero. -/
def usch (i : Fin 8) : Field 32 := ⟨4 * i, 3, by omega⟩

namespace DaccMr

def trgen : Field 32 := ⟨0, 1, by decide⟩
def trgsel : Field 32 := ⟨1, 3, by decide⟩
def word : Field 32 := ⟨4, 1, by decide⟩
def sleep : Field 32 := ⟨5, 1, by decide⟩
def fastwkup : Field 32 := ⟨6, 1, by decide⟩
def refresh : Field 32 := ⟨8, 8, by decide⟩
def userSel : Field 32 := ⟨16, 2, by decide⟩
def tag : Field 32 := ⟨20, 1, by decide⟩
def maxs : Field 32 := ⟨21, 1, by decide⟩
def startup : Field 32 := ⟨24, 6, by decide⟩

end DaccMr

/-! ### The conversion sequence -/

instance neZero_sixteen : NeZero 16 := ⟨by decide⟩

/-- The channel behind a number of the sequence. -/
def AdcRegs.channelAt (r : AdcRegs) (number : Fin 16) : BitVec 4 :=
  if AdcMr.useq.get r.mr = 1 then
    if h : number.val < 8 then ((usch ⟨number, h⟩).get r.seqr1).setWidth 4
    else ((usch ⟨number - 8, by omega⟩).get r.seqr2).setWidth 4
  else BitVec.ofFin number

/-- The number that is converted next: the first enabled one from `position` on. -/
def AdcRegs.nextNumber (r : AdcRegs) (position : Fin 16) : Option (Fin 16) :=
  ((List.finRange 16).map (position + ·)).find? fun number => r.chsr.getLsbD number

/-- The enabled numbers from `position` to the end of the sequence. -/
def AdcRegs.ahead (r : AdcRegs) (position : Fin 16) : List (Fin 16) :=
  ((List.finRange 16).drop position).filter fun number => r.chsr.getLsbD number

/-- The sequence ends with this number. -/
def AdcRegs.isLast (r : AdcRegs) (number : Fin 16) : Bool := r.ahead number = [number]

/-- Sequences begin without the software: in free run mode, or by a hardware trigger. -/
def AdcRegs.selfStarting (r : AdcRegs) : Prop :=
  AdcMr.freerun.get r.mr = 1 ∨ AdcMr.trgen.get r.mr = 1

instance instDecidableSelfStarting (r : AdcRegs) : Decidable r.selfStarting :=
  inferInstanceAs (Decidable (_ ∨ _))

/-- What is stored of a conversion. -/
def AdcRegs.word (r : AdcRegs) (channel : BitVec 4) (data : BitVec 12) : UInt16 :=
  if adcEmrTag.get r.emr = 1 then ⟨channel ++ data⟩ else ⟨data.setWidth 16⟩

/-! ### The chip -/

structure Chip (α : Type) where
  pmc : PmcRegs
  /-- `ISER` of the interrupt controller. -/
  iser : Nat → BitVec 32
  adc : AdcRegs
  /-- Where the ADC is in its sequence. -/
  position : Fin 16
  /-- A sequence started by software is not over. -/
  oneShot : Bool
  /-- `ADC_ISR`, but for `RXBUFF`. -/
  adcFlags : UInt32
  pdc : Pdc Addr
  dacc : DaccRegs
  /-- `DACC_ISR`, but for `TXRDY`. -/
  daccFlags : UInt32
  cdr : List (UInt32 × UInt32)
  fifo : List (UInt32 × UInt32)
  converted : List (UInt32 × UInt32)
  mem : Addr → UInt16
  frames : Nat
  fxlms : Fxlms α fxlmsBufLen

variable {α : Type}

namespace Chip

/-- The channel of the next conversion, as far as the handler tells channels apart. -/
def channel (c : Chip α) : AdcChannel :=
  if (c.adc.nextNumber c.position).map c.adc.channelAt = some 5 then .channel5 else .channel4

/-- What the handler's driver calls see. -/
def board (c : Chip α) : Board α where
  machine := {
    pdc := c.pdc
    channel := c.channel
    adcFlags := c.adcFlags
    daccIsr := c.daccFlags
    userSel := ⟨(DaccMr.userSel.get c.dacc.mr).setWidth 32⟩
    cdr := c.cdr
    mem := c.mem
    frames := c.frames
    fxlms := c.fxlms }
  fifo := c.fifo
  converted := c.converted

/-- `ADC_ISR`. -/
def adcIsr (c : Chip α) : BitVec 32 := c.board.machine.adcIsr.toBitVec

/-- `ADC_IRQn`. -/
def adcIrqn : Nat := 29

/-- The ADC's interrupt reaches the processor. -/
def pending (c : Chip α) : Bool :=
  (c.iser 0).getLsbD adcIrqn && (c.adc.imr &&& c.adcIsr) != 0

/-- A sequence is under way, or one may begin at any time. -/
def Converts (c : Chip α) : Prop :=
  c.adc.selfStarting ∨ c.oneShot = true ∧ c.adc.ahead c.position ≠ []

instance instDecidableConverts (c : Chip α) : Decidable c.Converts :=
  inferInstanceAs (Decidable (_ ∨ _))

/-- A conversion, with a number enabled. -/
def convert (c : Chip α) (data : BitVec 12) : Chip α :=
  if c.Converts then
    match c.adc.nextNumber c.position with
    | none => c
    | some number =>
        let word := c.adc.word (c.adc.channelAt number) data
        { c with
          position := if c.adc.isLast number then 0 else number + 1
          oneShot := c.oneShot && !c.adc.isLast number
          pdc := c.pdc.convert word
          mem := if c.pdc.rxten ∧ c.pdc.rcr ≠ 0 then Function.update c.mem c.pdc.rpr word
            else c.mem }
  else c

/-- A conversion of the DAC; with nothing to convert, none happens. -/
def dacConvert (c : Chip α) : Chip α :=
  match c.fifo with
  | [] => c
  | word :: fifo => { c with fifo := fifo, converted := c.converted ++ [word] }

end Chip

inductive ChipEvent where
  | conversion (data : BitVec 12)
  | flags (adc dacc : UInt32)
  | dacConversion

def Chip.event (c : Chip α) : ChipEvent → Chip α
  | .conversion data => c.convert data
  | .flags adc dacc => { c with adcFlags := adc, daccFlags := dacc }
  | .dacConversion => c.dacConvert

/-! ### Accesses -/

inductive ChipOp where
  | read (r : Reg)
  | write (r : Reg) (value : BitVec 32)
  | pdc (o : PdcOp Addr)
  | declare (contents : Fin numChannels → UInt16)
  | load (a : Addr)
  | reload (entry : Fin numChannels) (a : Addr)
  | save (a : Addr) (value : UInt16)
  /-- What `initialize_anc` stores in `anc_fxlms`. -/
  | initFxlms
  | predict (noise : UInt16)
  | update (residual : UInt16)

def ChipOp.Resp : ChipOp → Type
  | read _ => BitVec 32
  | pdc o => o.Resp
  | declare _ => Nat
  | load _ => UInt16
  | reload _ _ => UInt16
  | predict _ => UInt16
  | _ => Unit

namespace Chip

/-- A register that is only written reads as zero. -/
def read (capacity : Nat) (c : Chip α) : Reg → BitVec 32
  | .pmcPcsr0 => c.pmc.pcsr0
  | .pmcPcsr1 => c.pmc.pcsr1
  | .nvicIser word => c.iser word
  | .adcMr => c.adc.mr
  | .adcSeqr1 => c.adc.seqr1
  | .adcSeqr2 => c.adc.seqr2
  | .adcChsr => c.adc.chsr
  | .adcImr => c.adc.imr
  | .adcIsr => c.adcIsr
  | .adcEmr => c.adc.emr
  | .adcCgr => c.adc.cgr
  | .adcCor => c.adc.cor
  | .daccMr => c.dacc.mr
  | .daccChsr => c.dacc.chsr
  | .daccIsr => (c.board.daccIsr capacity).toBitVec
  | .daccAcr => c.dacc.acr
  | _ => 0

/-- The channel that a data written to `DACC_CDR` goes to. -/
def daccChannel (c : Chip α) (data : BitVec 32) : UInt32 :=
  if DaccMr.tag.get c.dacc.mr = 1 then ⟨data >>> 12 &&& 3⟩
  else ⟨(DaccMr.userSel.get c.dacc.mr).setWidth 32⟩

/-- What a write to `DACC_CDR` is, data by data: in word transfer mode there are two. -/
def daccWords (c : Chip α) (value : BitVec 32) : List (UInt32 × UInt32) :=
  let data := if DaccMr.word.get c.dacc.mr = 1 then [value &&& 0xffff, value >>> 16] else [value]
  data.map fun data => (c.daccChannel data, ⟨data⟩)

/-- Words arrive at the FIFO. -/
def push (capacity : Nat) (c : Chip α) (words : List (UInt32 × UInt32)) : Chip α :=
  { c with
    cdr := c.cdr ++ words
    fifo := words.foldl
      (fun fifo word => if fifo.length < capacity then fifo ++ [word] else fifo) c.fifo }

/-- Setting and clearing registers change the status of the bits that are written as one. -/
def write (capacity : Nat) (c : Chip α) (value : BitVec 32) : Reg → Chip α
  | .pmcPcer0 => { c with pmc.pcsr0 := c.pmc.pcsr0 ||| value &&& 0xfffffffc }
  | .pmcPcdr0 => { c with pmc.pcsr0 := c.pmc.pcsr0 &&& ~~~(value &&& 0xfffffffc) }
  | .pmcPcer1 => { c with pmc.pcsr1 := c.pmc.pcsr1 ||| value }
  | .pmcPcdr1 => { c with pmc.pcsr1 := c.pmc.pcsr1 &&& ~~~value }
  | .nvicIser word => { c with iser := Function.update c.iser word (c.iser word ||| value) }
  | .adcCr =>
      if value.getLsbD 0 then { c with adc := .reset, position := 0, oneShot := false }
      else if value.getLsbD 1 then
        -- a sequence that is under way goes on
        { c with
          oneShot := true
          position := if c.adc.ahead c.position = [] then 0 else c.position }
      else c
  | .adcMr => { c with adc.mr := value }
  | .adcSeqr1 => { c with adc.seqr1 := value }
  | .adcSeqr2 => { c with adc.seqr2 := value }
  | .adcCher => { c with adc.chsr := c.adc.chsr ||| value &&& 0xffff }
  | .adcChdr => { c with adc.chsr := c.adc.chsr &&& ~~~value }
  | .adcIer => { c with adc.imr := c.adc.imr ||| value }
  | .adcIdr => { c with adc.imr := c.adc.imr &&& ~~~value }
  | .adcEmr => { c with adc.emr := value }
  | .adcCgr => { c with adc.cgr := value }
  | .adcCor => { c with adc.cor := value }
  | .daccCr => if value.getLsbD 0 then { c with dacc := .reset, fifo := [] } else c
  | .daccMr => { c with dacc.mr := value }
  | .daccCher => { c with dacc.chsr := c.dacc.chsr ||| value &&& 3 }
  | .daccChdr => { c with dacc.chsr := c.dacc.chsr &&& ~~~value }
  | .daccCdr => c.push capacity (c.daccWords value)
  | .daccAcr => { c with dacc.acr := value }
  | _ => c

variable [FloatArith α]

def exec (capacity : Nat) : (o : ChipOp) → Chip α → o.Resp × Chip α
  | .read r, c => (c.read capacity r, c)
  | .write r v, c => ((), c.write capacity v r)
  | .pdc o, c =>
      let out := Pdc.exec o c.pdc
      (out.1, { c with pdc := out.2 })
  | .declare contents, c =>
      let m := c.board.machine.declare contents
      (c.frames, { c with mem := m.mem, frames := m.frames })
  | .load a, c => (c.mem a, c)
  | .reload _ a, c => (c.mem a, c)
  | .save a v, c => ((), { c with mem := Function.update c.mem a v })
  | .initFxlms, c => ((), { c with fxlms := initializeAnc })
  | .predict noise, c =>
      let out := ancPredict c.fxlms noise
      (out.1, { c with fxlms := out.2 })
  | .update residual, c => ((), { c with fxlms := ancUpdate c.fxlms residual })

end Chip

/-- The chip under conversions of both kinds and changing flags. -/
def chipDevice [FloatArith α] (capacity : Nat) : Device ChipOp ChipOp.Resp (Chip α) ChipEvent where
  exec := Chip.exec capacity
  env e c := c.event e

end Anc
