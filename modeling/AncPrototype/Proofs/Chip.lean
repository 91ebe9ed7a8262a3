/-
What an event leaves alone, and what a driver function does by itself.

The events of the chip are conversions and changes of flags.  None of them writes a
register that a driver function has written: `Chip.setup` is what they leave alone.

By itself, with no event between its accesses, a driver function is a function of the
chip, and `Device.alone` is that function.  The lemmas here compute it access by access.
-/
import AncPrototype.Model.Firmware

namespace Anc

open DeviceProgram Register

variable {α : Type}

/-! ### Events -/

/-- The registers that hold what was written to them. -/
structure Setup where
  pmc : PmcRegs
  iser : Nat → BitVec 32
  adc : AdcRegs
  dacc : DaccRegs

namespace Chip

def setup (c : Chip α) : Setup := ⟨c.pmc, c.iser, c.adc, c.dacc⟩

/-- A conversion happens in a sequence and with a number enabled, or not at all. -/
theorem convert_cases (c : Chip α) (data : BitVec 12) :
    (c.convert data = c ∧ (c.Converts → c.adc.nextNumber c.position = none)) ∨
      ∃ number word, c.Converts ∧ c.adc.nextNumber c.position = some number ∧
        word = c.adc.word (c.adc.channelAt number) data ∧
        c.convert data = { c with
          position := if c.adc.isLast number then 0 else number + 1
          oneShot := c.oneShot && !c.adc.isLast number
          pdc := c.pdc.convert word
          mem := if c.pdc.rxten ∧ c.pdc.rcr ≠ 0 then Function.update c.mem c.pdc.rpr word
            else c.mem } := by
  unfold convert
  by_cases hconverts : c.Converts
  · rw [if_pos hconverts]
    cases hnext : c.adc.nextNumber c.position with
    | none => exact .inl ⟨rfl, fun _ => rfl⟩
    | some number => exact .inr ⟨number, _, hconverts, rfl, rfl, rfl⟩
  · rw [if_neg hconverts]
    exact .inl ⟨rfl, fun h => absurd h hconverts⟩

theorem dacConvert_cases (c : Chip α) :
    (c.fifo = [] ∧ c.dacConvert = c) ∨ ∃ word fifo, c.fifo = word :: fifo ∧
      c.dacConvert = { c with fifo := fifo, converted := c.converted ++ [word] } := by
  unfold dacConvert
  cases hfifo : c.fifo with
  | nil => exact .inl ⟨rfl, rfl⟩
  | cons word fifo => exact .inr ⟨word, fifo, rfl, rfl⟩

/-- **No event changes what has been set up.** -/
theorem setup_event (c : Chip α) (e : ChipEvent) : (c.event e).setup = c.setup := by
  cases e with
  | conversion data =>
      show (c.convert data).setup = c.setup
      obtain ⟨heq, -⟩ | ⟨number, word, -, -, -, heq⟩ := c.convert_cases data <;> rw [heq]
      rfl
  | flags adc dacc => rfl
  | dacConversion =>
      show c.dacConvert.setup = c.setup
      obtain ⟨-, heq⟩ | ⟨word, fifo, -, heq⟩ := c.dacConvert_cases <;> rw [heq]
      rfl

end Chip

section

variable [FloatArith α] (capacity : Nat)

theorem stable_setup (P : Setup → Prop) :
    (chipDevice (α := α) capacity).Stable fun c => P c.setup := by
  intro e c hc
  show P (c.event e).setup
  rw [c.setup_event e]
  exact hc

/-! ### Programs by themselves -/

namespace ChipProg

variable {B : Type} (c : Chip α)

@[simp] theorem alone_pure (b : B) : (chipDevice capacity).alone (pure b : ChipProg B) c = (b, c) :=
  rfl

@[simp] theorem alone_read (r : Reg) :
    (chipDevice capacity).alone (ChipProg.read r) c = (c.read capacity r, c) := rfl

@[simp] theorem alone_write (r : Reg) (value : BitVec 32) :
    (chipDevice capacity).alone (ChipProg.write r value) c = ((), c.write capacity value r) := rfl

@[simp] theorem alone_save (a : Addr) (value : UInt16) :
    (chipDevice capacity).alone (ChipProg.save a value) c
      = ((), { c with mem := Function.update c.mem a value }) := rfl

@[simp] theorem alone_initFxlms :
    (chipDevice capacity).alone ChipProg.initFxlms c = ((), { c with fxlms := initializeAnc }) := rfl

@[simp] theorem alone_ite {P : Prop} [Decidable P] (p q : ChipProg B) :
    (chipDevice capacity).alone (if P then p else q) c
      = if P then (chipDevice capacity).alone p c else (chipDevice capacity).alone q c := by
  split_ifs <;> rfl

theorem alone_orInto (r : Reg) (value : BitVec 32) :
    (chipDevice capacity).alone (ChipProg.orInto r value) c
      = ((), c.write capacity (c.read capacity r ||| value) r) := rfl

theorem alone_andInto (r : Reg) (value : BitVec 32) :
    (chipDevice capacity).alone (ChipProg.andInto r value) c
      = ((), c.write capacity (c.read capacity r &&& value) r) := rfl

/-- A program over the receive channel is one on the chip. -/
theorem alone_pdc : ∀ (p : PdcProg Addr B) (c : Chip α),
    (chipDevice capacity).alone (ChipProg.pdc p) c
      = ((pdcDevice.alone p c.pdc).1, { c with pdc := (pdcDevice.alone p c.pdc).2 }) := by
  intro p
  induction p with
  | ret b => intro c; rfl
  | step o k ih => intro c; exact ih _ _

end ChipProg

end

end Anc
