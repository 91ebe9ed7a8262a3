/-
The converter behind the handler.

`Machine` leaves `DACC_ISR` to the environment and keeps a list of what is written to
`DACC_CDR`.  Behind the two registers is a conversion FIFO: TXRDY is set as long as it
has a free place, a word written to it while it has none is lost, and a conversion
takes the oldest word out.  How many places there are is a parameter.
-/
import AncPrototype.Model.Machine

namespace Anc

open DeviceProgram

/-- The machine with its converter; a word goes with the channel selected for it. -/
structure Board (α : Type) where
  machine : Machine α
  /-- What waits for conversion, the oldest first. -/
  fifo : List (UInt32 × UInt32)
  /-- What has been converted. -/
  converted : List (UInt32 × UInt32)

inductive BoardEvent where
  | machine (e : Event)
  | dacConversion

variable {α : Type}

namespace Board

/-- `DACC_ISR`. -/
def daccIsr (capacity : Nat) (b : Board α) : UInt32 :=
  if b.fifo.length < capacity then b.machine.daccIsr ||| daccIsrTxrdy.toUInt32
  else b.machine.daccIsr &&& ~~~daccIsrTxrdy.toUInt32

/-- A word arrives at the FIFO. -/
def push (capacity : Nat) (word : UInt32 × UInt32) (b : Board α) : Board α :=
  if b.fifo.length < capacity then { b with fifo := b.fifo ++ [word] } else b

/-- A conversion of the DAC; with nothing to convert, none happens. -/
def convert (b : Board α) : Board α :=
  match b.fifo with
  | [] => b
  | word :: fifo => { b with fifo := fifo, converted := b.converted ++ [word] }

variable [FloatArith α]

def event (b : Board α) : BoardEvent → Board α
  | .machine e => { b with machine := b.machine.event e }
  | .dacConversion => b.convert

def exec (capacity : Nat) : (o : HandlerOp) → Board α → o.Resp × Board α
  | .daccStatus, b => (b.daccIsr capacity, b)
  | .write d, b =>
      ((), push capacity (b.machine.userSel, d)
        { b with machine := (Machine.exec (.write d) b.machine).2 })
  | o, b =>
      let out := Machine.exec o b.machine
      (out.1, { b with machine := out.2 })

/-- What `initialize_anc` leaves. -/
def initialized (u : PowerUp) : Board α :=
  { machine := Machine.initialized u, fifo := [], converted := [] }

end Board

variable [FloatArith α]

/-- The board under conversions of both kinds and changing flags. -/
def boardDevice (capacity : Nat) : Device HandlerOp HandlerOp.Resp (Board α) BoardEvent where
  exec := Board.exec capacity
  env e b := b.event e

/-- The board and its interrupts. -/
def boardHost (capacity : Nat) :
    Host HandlerOp HandlerOp.Resp (Board α) BoardEvent (Fin numChannels → UInt16) Unit where
  toDevice := boardDevice capacity
  prog := adcHandler

/-- A board after `initialize_anc`, its conversions and its invocations. -/
abbrev boardRun (capacity : Nat) (u : PowerUp)
    (as : List (Action BoardEvent (Fin numChannels → UInt16))) :
    Node HandlerOp HandlerOp.Resp (Board α) (Fin numChannels → UInt16) Unit :=
  (boardHost capacity).run (Host.start (Board.initialized u)) as

end Anc
