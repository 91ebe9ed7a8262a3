/-
The receive channel of the ADC's peripheral DMA controller, and `read_adc_buffer`.

The channel has two banks, the current one in `RPR`/`RCR` and the next one in
`RNPR`/`RNCR`.  A conversion is stored at `RPR` while `RCR` is not zero and the
receiver is enabled, and as soon as the current bank is empty the next one moves up.
`read_adc_buffer` is a program over the registers: every read and every write of one
is an access of its own, in the order of the C expressions, `&&` included.

Three fields are not registers: `convs` lists all conversions, `full` the buffers
that are complete and `cur` what the current one has received.  No register and no
program reads them.
-/
import AncPrototype.Library.DeviceProgram
import Mathlib.Logic.Function.Iterate

namespace Anc

open DeviceProgram

/-- Addresses of 16-bit words. -/
class HalfwordPtr (A : Type) where
  /-- The next halfword. -/
  next : A → A

/-- A flat 32-bit address space. -/
instance : HalfwordPtr UInt32 where
  next p := p + 2

/-- A conversion in memory. -/
structure Stored (A : Type) where
  /-- Its place among all conversions. -/
  number : Nat
  addr : A
  word : UInt16

structure Pdc (A : Type) where
  rpr : A
  rcr : Nat
  rnpr : A
  rncr : Nat
  rxten : Bool
  convs : List UInt16
  cur : List (Stored A)
  full : List (List (Stored A))

variable {A : Type} [HalfwordPtr A]

namespace Pdc

/-- The channel out of reset; the pointers have some value or other. -/
def reset (rpr rnpr : A) : Pdc A :=
  { rpr := rpr, rcr := 0, rnpr := rnpr, rncr := 0, rxten := false, convs := [], cur := [],
    full := [] }

/-- The next bank moves up once the current one is empty. -/
def promote (p : Pdc A) : Pdc A :=
  if p.rcr = 0 ∧ p.rncr ≠ 0 then { p with rpr := p.rnpr, rcr := p.rncr, rncr := 0 } else p

/-- The store of a conversion, into a bank that is armed. -/
def store (p : Pdc A) (word : UInt16) : Pdc A :=
  let cur := p.cur ++ [⟨p.convs.length, p.rpr, word⟩]
  if p.rcr = 1 then
    { p with rpr := HalfwordPtr.next p.rpr, rcr := 0, cur := [], full := p.full ++ [cur] }
  else
    { p with rpr := HalfwordPtr.next p.rpr, rcr := p.rcr - 1, cur := cur }

/-- A conversion.  With no bank armed, or the receiver off, it is dropped. -/
def convert (word : UInt16) (p : Pdc A) : Pdc A :=
  let p' := if p.rxten ∧ p.rcr ≠ 0 then (p.store word).promote else p
  { p' with convs := p.convs ++ [word] }

/-- The RXBUFF flag of `ADC_ISR`. -/
def rxbuff (p : Pdc A) : Bool := p.rcr = 0 ∧ p.rncr = 0

end Pdc

/-- The accesses to the channel's registers. -/
inductive PdcOp (A : Type) where
  | readRcr
  | readRncr
  | writeRpr (value : A)
  | writeRcr (value : Nat)
  | writeRnpr (value : A)
  | writeRncr (value : Nat)
  | writePtcr (value : Nat)

/-- What they answer. -/
def PdcOp.Resp : PdcOp A → Type
  | readRcr => Nat
  | readRncr => Nat
  | _ => Unit

/-- `ADC_PTCR_RXTEN`. -/
def ptcrRxten : Nat := 1 <<< 0

/-- `ADC_PTCR_RXTDIS`. -/
def ptcrRxtdis : Nat := 1 <<< 1

/-- `ADC_PTCR_TXTDIS`. -/
def ptcrTxtdis : Nat := 1 <<< 9

/-- The counters are 16 bits wide. -/
def Pdc.exec : (o : PdcOp A) → Pdc A → o.Resp × Pdc A
  | .readRcr, p => (p.rcr, p)
  | .readRncr, p => (p.rncr, p)
  | .writeRpr v, p => ((), { p with rpr := v })
  | .writeRcr v, p => ((), { p with rcr := v % 65536 }.promote)
  | .writeRnpr v, p => ((), { p with rnpr := v })
  | .writeRncr v, p => ((), { p with rncr := v % 65536 }.promote)
  | .writePtcr v, p =>
      ((), { p with
        rxten := if v &&& ptcrRxtdis ≠ 0 then false else if v &&& ptcrRxten ≠ 0 then true
          else p.rxten })

/-- The channel under conversions. -/
def pdcDevice : Device (PdcOp A) PdcOp.Resp (Pdc A) UInt16 where
  exec := Pdc.exec
  env := Pdc.convert

/-- A program over the registers. -/
abbrev PdcProg (A B : Type) := Prog (PdcOp A) PdcOp.Resp B

namespace PdcProg

def readRcr : PdcProg A Nat := Prog.step .readRcr Prog.ret

def readRncr : PdcProg A Nat := Prog.step .readRncr Prog.ret

def writeRpr (v : A) : PdcProg A Unit := Prog.step (.writeRpr v) Prog.ret

def writeRcr (v : Nat) : PdcProg A Unit := Prog.step (.writeRcr v) Prog.ret

def writeRnpr (v : A) : PdcProg A Unit := Prog.step (.writeRnpr v) Prog.ret

def writeRncr (v : Nat) : PdcProg A Unit := Prog.step (.writeRncr v) Prog.ret

def writePtcr (v : Nat) : PdcProg A Unit := Prog.step (.writePtcr v) Prog.ret

end PdcProg

open PdcProg

/-- What `adc_init` does to the channel. -/
def adcInit : PdcProg A Unit := do
  writePtcr (ptcrRxtdis ||| ptcrTxtdis)
  writeRcr 0
  writeRncr 0

/-- The channel after `adc_init`. -/
def Pdc.initialized (rpr rnpr : A) : Pdc A := (pdcDevice.alone adcInit (Pdc.reset rpr rnpr)).2

/-- `(p_adc->ADC_RCR == 0) && (p_adc->ADC_RNCR == 0)`. -/
def firstBankFree : PdcProg A Bool := do
  let rcr ← readRcr
  if rcr = 0 then
    let rncr ← readRncr
    return decide (rncr = 0)
  else
    return false

/-- `read_adc_buffer`. -/
def readAdcBuffer (buffer : A) (size : Nat) : PdcProg A Nat := do
  let free ← firstBankFree
  if free then
    writeRpr buffer
    writeRcr size
    writePtcr ptcrRxten
    return 1
  else
    let rncr ← readRncr
    if rncr = 0 then
      writeRnpr buffer
      writeRncr size
      return 1
    else
      return 0

end Anc
