/-
The board is the machine, and so is the firmware.

The handler sees the converter of the board in one place only, the flag that
`dacc_get_interrupt_status` answers.  To a machine that leaves this flag to the
environment, a conversion of the DAC and a word that fills the FIFO are changes of a
flag.  So a run of the board is one of the machine, and with `firmware_nodeSim` a run of
the firmware is one: what is proved of the machine holds of the firmware.
-/
import AncPrototype.Proofs.Firmware

namespace Anc

open DeviceProgram

variable {α : Type} (capacity : Nat)

/-- The machine in the board, with the flag in its place. -/
def Board.shown (b : Board α) : Machine α := { b.machine with daccIsr := b.daccIsr capacity }

theorem Board.shown_event (b : Board α) (e : BoardEvent) :
    ∃ e' : Event, (b.event e).shown capacity = (b.shown capacity).event e' := by
  cases e with
  | machine e =>
      cases e with
      | conversion data => exact ⟨.conversion data, rfl⟩
      | flags adc dacc =>
          exact ⟨.flags adc ((b.event (.machine (.flags adc dacc))).daccIsr capacity), rfl⟩
  | dacConversion =>
      refine ⟨.flags b.machine.adcFlags (b.convert.daccIsr capacity), ?_⟩
      show b.convert.shown capacity = _
      unfold Board.shown
      have hmachine : b.convert.machine = b.machine := by
        unfold Board.convert
        cases b.fifo <;> rfl
      rw [hmachine]
      rfl

variable [FloatArith α]

/-- Only a write changes what the flag is. -/
theorem Board.shown_exec (o : HandlerOp) (b : Board α) :
    (Board.exec capacity o b).1 = (Machine.exec o (b.shown capacity)).1 ∧
      ∃ es, (Board.exec capacity o b).2.shown capacity
        = machineDevice.envs es (Machine.exec o (b.shown capacity)).2 := by
  cases o with
  | write data =>
      let after := (Board.exec capacity (.write data) b).2
      refine ⟨rfl, [.flags b.machine.adcFlags (after.daccIsr capacity)], ?_⟩
      have hmachine : after.machine = (Machine.exec (.write data) b.machine).2 := by
        show (Board.push _ _ _).machine = _
        unfold Board.push
        split_ifs <;> rfl
      show ({ after.machine with daccIsr := after.daccIsr capacity } : Machine α) = _
      rw [hmachine]
      rfl
  | _ => exact ⟨rfl, [], rfl⟩

/-- The machine in the board. -/
def machineView (α : Type) [FloatArith α] (capacity : Nat) :
    View HandlerOp HandlerOp.Resp (Machine α) HandlerOp (Board α) :=
  ⟨Board.shown capacity, fun _ => True, (boardDevice capacity).seenAll⟩

/-- **The board simulates the machine.** -/
theorem board_simulates : Simulates (machineIrq (α := α)) (boardIrq capacity)
    (machineView α capacity) (fun _ => True) (fun o => Prog.step o Prog.ret) where
  env e b _ := by
    obtain ⟨e', heq⟩ := b.shown_event capacity e
    exact ⟨trivial, [e'], heq⟩
  pending _ _ := rfl
  prog contents := (Prog.interpret_self (adcHandler contents)).symm
  only contents := .of_forall (fun _ => trivial) _
  impl o b _ _ := Implements.access (fun r => r) (fun _ => trivial) (fun _ => rfl) fun t _ =>
    ⟨trivial, Board.shown_exec capacity o t⟩

theorem Board.shown_initialized (u : PowerUp) :
    ∃ v : PowerUp, v = { u with daccIsr := v.daccIsr } ∧
      (Board.initialized u : Board α).shown capacity = Machine.initialized v :=
  ⟨{ u with daccIsr := (Board.initialized u : Board α).daccIsr capacity }, rfl, rfl⟩

/-- The machine in the chip. -/
def Chip.shown (c : Chip α) : Machine α := c.board.shown capacity

/-- **What is proved of the machine holds of the firmware**: after the start-up code, a run of the
firmware shows a run of the machine, in which the handler is called when `RXBUFF` asks for it and
channel 4 comes first. -/
theorem firmware_shows_machine (u : ChipPowerUp α)
    (as : List (Action ChipEvent (Fin numChannels → UInt16)))
    (hmain : (firmwareRun capacity u as).main = .ret ()) :
    ∃ v as', v.channel = .channel4 ∧ v.mem = u.mem ∧
      Shows (Chip.shown capacity) (Chip.seen capacity) machineDevice.seenAll
        (firmwareRun capacity u as).node
        (machineIrq.run (Host.start (Machine.initialized v)) as') := by
  rcases firmwareRun_cases capacity u as with ⟨s, o, k, -, hstep⟩ | ⟨w, as₁, hw, -, hnode⟩
  · exact absurd (hmain.symm.trans hstep) (by simp)
  · obtain ⟨as₂, hchip⟩ := firmware_nodeSim capacity w as₁
    obtain ⟨v, hv, hstart⟩ := Board.shown_initialized (α := α) capacity w.powerUp
    have hrel : (board_simulates capacity).Rel
        (Host.start (Board.initialized w.powerUp)) (Host.start (Machine.initialized v)) :=
      ⟨trivial, hstart, .none, .nil⟩
    obtain ⟨as₃, hboard⟩ := (board_simulates capacity).run as₂ hrel
    rw [hnode]
    refine ⟨v, as₃, ?_, ?_, hchip.shows.trans hboard.shows⟩
    · rw [hv]
      rfl
    · rw [hv, hw]
      rfl

end Anc
