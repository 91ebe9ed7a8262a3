/-
The firmware stays in range.

After the start-up code the filter of the chip is at any moment, also inside an
invocation, the initialised one after some calls of `anc_predict` and `anc_update`:
no other access touches it.  What is known of such sequences of calls is thereby known
of every state of every run, whatever the converters, the stack and the moments of the
interrupts contribute: nothing the filter computes comes near the largest `float`.

On the other side of the converter's FIFO arrives what has been written, with nothing
twice and nothing out of turn.
-/
import AncPrototype.Proofs.Bounds
import AncPrototype.Proofs.Stream

namespace Anc

open DeviceProgram Register

section Filter

variable {α : Type} [FloatArith α] (capacity : Nat)

/-- The filter is the initialised one after some calls. -/
def Chip.Adapted (c : Chip α) : Prop := ∃ cs, c.fxlms = (initializeAnc : Fxlms α _).calls cs

namespace Chip.Adapted

variable {c : Chip α}

theorem event (h : c.Adapted) (e : ChipEvent) : (c.event e).Adapted := by
  have hkept : (c.event e).fxlms = c.fxlms := by
    cases e with
    | conversion data =>
        show (c.convert data).fxlms = c.fxlms
        obtain ⟨heq, -⟩ | ⟨number, word, -, -, -, heq⟩ := c.convert_cases data <;> rw [heq]
    | flags adc dacc => rfl
    | dacConversion =>
        show c.dacConvert.fxlms = c.fxlms
        obtain ⟨-, heq⟩ | ⟨word, fifo, -, heq⟩ := c.dacConvert_cases <;> rw [heq]
  obtain ⟨cs, hcs⟩ := h
  exact ⟨cs, hkept.trans hcs⟩

/-- One call more. -/
theorem call {s : Fxlms α fxlmsBufLen} {cs : List Call}
    (hcs : s = (initializeAnc : Fxlms α _).calls cs) (d : Call) :
    s.call d = (initializeAnc : Fxlms α _).calls (cs ++ [d]) := by
  unfold Fxlms.calls at hcs ⊢
  rw [List.foldl_append, ← hcs]
  rfl

theorem exec (h : c.Adapted) (o : ChipOp) : (c.exec capacity o).2.Adapted := by
  obtain ⟨cs, hcs⟩ := h
  cases o with
  | write r value =>
      have hkept : (c.write capacity value r).fxlms = c.fxlms := by
        cases r with
        | adcCr =>
            show (if _ then _ else if _ then _ else _ : Chip α).fxlms = _
            split
            · rfl
            · split <;> rfl
        | daccCr => show (if _ then _ else _ : Chip α).fxlms = _; split <;> rfl
        | _ => rfl
      exact ⟨cs, hkept.trans hcs⟩
  | initFxlms => exact ⟨[], rfl⟩
  | predict noise => exact ⟨_, call hcs (.predict noise)⟩
  | update residual => exact ⟨_, call hcs (.update residual)⟩
  | _ => exact ⟨cs, hcs⟩

end Chip.Adapted

/-! ### The converter -/

/-- What has been converted or waits has been written, once and in this order. -/
def Chip.Delivers (c : Chip α) : Prop := (c.converted ++ c.fifo).Sublist c.cdr

namespace Chip.Delivers

variable {c : Chip α}

omit [FloatArith α] in
theorem event (h : c.Delivers) (e : ChipEvent) : (c.event e).Delivers := by
  cases e with
  | conversion data =>
      show (c.convert data).Delivers
      obtain ⟨heq, -⟩ | ⟨number, word, -, -, -, heq⟩ := c.convert_cases data <;> rw [heq] <;> exact h
  | flags adc dacc => exact h
  | dacConversion =>
      show c.dacConvert.Delivers
      obtain ⟨-, heq⟩ | ⟨word, fifo, hfifo, heq⟩ := c.dacConvert_cases
      · rw [heq]
        exact h
      · unfold Chip.Delivers at h
        rw [heq]
        show ((c.converted ++ [word]) ++ fifo).Sublist c.cdr
        rw [List.append_assoc, List.singleton_append, ← hfifo]
        exact h

omit [FloatArith α] in
/-- A word that finds no place is dropped. -/
theorem push (words : List (UInt32 × UInt32)) :
    ∀ {c : Chip α}, c.Delivers → (c.push capacity words).Delivers := by
  induction words with
  | nil =>
      intro c h
      show (c.converted ++ c.fifo).Sublist (c.cdr ++ [])
      rw [List.append_nil]
      exact h
  | cons word words ih =>
      intro c h
      have hfirst : (c.push capacity [word]).Delivers := by
        show (c.converted ++ if c.fifo.length < capacity then c.fifo ++ [word] else c.fifo).Sublist
          (c.cdr ++ [word])
        split
        · rw [← List.append_assoc]
          exact h.append (List.Sublist.refl _)
        · exact h.trans (List.sublist_append_left _ _)
      have hrest : c.push capacity (word :: words)
          = (c.push capacity [word]).push capacity words := by
        unfold Chip.push
        rw [List.append_cons]
        rfl
      rw [hrest]
      exact ih hfirst

theorem exec (h : c.Delivers) (o : ChipOp) : (c.exec capacity o).2.Delivers := by
  cases o with
  | write r value =>
      show (c.write capacity value r).Delivers
      cases r with
      | daccCdr => exact push capacity _ h
      | adcCr =>
          show (if _ then _ else if _ then _ else _ : Chip α).Delivers
          split
          · exact h
          · split <;> exact h
      | daccCr =>
          show (if _ then _ else _ : Chip α).Delivers
          split
          · exact ((List.append_sublist_append_left _).mpr (List.nil_sublist _)).trans h
          · exact h
      | _ => exact h
  | _ => exact h

end Chip.Delivers

/-- After the start-up code, at any moment. -/
theorem kept_firmwareRun {u : ChipPowerUp α}
    {as : List (Action ChipEvent (Fin numChannels → UInt16))}
    (hmain : (firmwareRun capacity u as).main = .ret ()) :
    (firmwareRun capacity u as).node.state.Adapted ∧
      (firmwareRun capacity u as).node.state.Delivers := by
  rcases firmwareRun_cases capacity u as with ⟨s, o, k, -, hstep⟩ | ⟨v, as', -, -, hnode⟩
  · exact absurd (hmain.symm.trans hstep) (by simp)
  · rw [hnode]
    exact IrqHost.run_keeps (h := firmware capacity)
      (J := fun c : Chip α => c.Adapted ∧ c.Delivers)
      (fun e _ h => ⟨h.1.event e, h.2.event e⟩)
      (fun o _ h => ⟨h.1.exec capacity o, h.2.exec capacity o⟩) as'
      ⟨⟨[], rfl⟩, List.Sublist.refl []⟩

/-- With no prediction above 4096, the recursion writes none to channel 1. -/
theorem channel1_lmsWrites (hle : ∀ r : ShiftRegister α, r.output.toNat ≤ 4096) :
    ∀ (samples : List (UInt16 × UInt16)) (r : ShiftRegister α) (old : UInt16),
      ∀ word, (1, word) ∈ lmsWrites signExtended r old samples → word ≤ 4096 := by
  intro samples
  induction samples with
  | nil => intro r old word h; exact absurd h (by simp [lmsWrites])
  | cons ce samples ih =>
      intro r old word h
      rcases List.mem_cons.mp h with hnoise | h
      · exact absurd (congrArg Prod.fst hnoise) (by simp)
      rcases List.mem_cons.mp h with hpredict | h
      · have hword : word = (r.shift old).output.toUInt32 :=
          (congrArg Prod.snd hpredict).trans (signExtended_of_le (hle _))
        rw [hword]
        exact UInt32.le_iff_toNat_le.mpr (by simpa using hle (r.shift old))
      · exact ih _ _ word h

/-- Nor does the firmware. -/
theorem channel1_firmwareRun (hle : ∀ r : ShiftRegister α, r.output.toNat ≤ 4096)
    {u : ChipPowerUp α} {as : List (Action ChipEvent (Fin numChannels → UInt16))}
    (hmain : (firmwareRun capacity u as).main = .ret ()) :
    ∀ word, (1, word) ∈ (firmwareRun capacity u as).node.state.cdr → word ≤ 4096 := by
  intro word hword
  obtain ⟨v, as', -, -, hshows⟩ := firmware_shows_machine capacity u as hmain
  obtain ⟨-, hwritten, -⟩ := machineIrqRun_stream (α := α) v as'
  rw [← hshows.state] at hwritten
  exact channel1_lmsWrites hle _ _ _ word (hwritten.subset hword)

end Filter

/-! ### Exact arithmetic -/

/-- **The firmware stays in range.**  In every run, once the start-up code has ended, whatever the
converters deliver and whenever the interrupts come: the weights are bounded, no value that the next
call of the filter forms comes near the largest `float`, whatever its argument, and of what is
converted, which is what has been written, less some words, no word on channel 1 exceeds 4096. -/
theorem firmware_in_range (capacity : Nat) (u : ChipPowerUp ℚ)
    (as : List (Action ChipEvent (Fin numChannels → UInt16))) :
    let c := firmwareRun capacity u as
    (∃ o k, c.main = .step o k) ∨
      (∀ i, |c.node.state.fxlms.W.get i| ≤ 63487 ^ 2) ∧
      (∀ call, ∀ v ∈ c.node.state.fxlms.intermediates call, |v| * 2 ^ 76 < fltMax) ∧
      (c.node.state.converted ++ c.node.state.fifo).Sublist c.node.state.cdr ∧
      ∀ word, (1, word) ∈ c.node.state.cdr → word ≤ 4096 := by
  intro c
  cases hmain : c.main with
  | step o k => exact .inl ⟨o, k, rfl⟩
  | ret b =>
      refine .inr ?_
      obtain ⟨⟨cs, hcs⟩, hdelivers⟩ := kept_firmwareRun capacity hmain
      have hstart : Fxlms.Bounded 63487 63487 (initializeAnc : Fxlms ℚ _).W
          (initializeAnc : Fxlms ℚ _) :=
        .cleared (by decide +kernel) (by decide +kernel) (by norm_num) _
      have hbounded := hstart.calls cs fun d _ => Fxlms.within_uint16 d
      rw [← hcs] at hbounded
      refine ⟨fun i => ?_, fun call => ?_, hdelivers,
        channel1_firmwareRun capacity ShiftRegister.output_le hmain⟩
      · refine (hbounded.weight_le_max i i.isLt).trans (max_le ?_ (by norm_num))
        exact Fxlms.maxAbs_initialWeights.trans (by norm_num)
      · rw [hcs]
        exact Fxlms.intermediates_far_below_fltMax cs call

end Anc
