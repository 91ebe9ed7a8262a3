/-
Which words the filter and the converter get.

`ch_val` is a DMA target for the first two conversions, and these carry their channel
numbers.  From then on only the demultiplexing loop writes to it, with the tag taken
off; but the loop reads `temp` right after it has given `temp` to the receive channel,
and writes nothing for a word that has neither tag.  So what the second half of the
handler loads from `ch_val` has twelve bits exactly when the loop has read a word for
that entry before, or nothing has been stored there yet.  Which entry a word is for is
settled by the tag that the `switch` sees; the case loads the word again, and whatever it
finds by then it stores without a tag.

A load is put out in the same invocation, so between invocations the condition on the
loads is the condition on everything the filter and the converter have been given.
-/
import AncPrototype.Proofs.History
import AncPrototype.Proofs.ExactFilter

namespace Anc

open DeviceProgram

variable {α : Type}

/-- Every load of `ch_val` has found a sample. -/
def FindsSamples (h : List (Access α)) : Prop :=
  ∀ before j m after, h = before ++ (.load (.chVal j), m) :: after → FindsSample before j m

/-- A value that has been loaded was loaded somewhere. -/
theorem mem_chValReads {h : List (Access α)} {x : UInt16} :
    x ∈ chValReads h ↔
      ∃ before j m after, h = before ++ (.load (.chVal j), m) :: after ∧ m.mem (.chVal j) = x := by
  constructor
  · intro hx
    obtain ⟨⟨o, m⟩, ha, hread⟩ := List.mem_filterMap.mp hx
    obtain ⟨before, after, rfl⟩ := List.append_of_mem ha
    match o, hread with
    | .load ⟨.adcSample, i⟩, hread =>
        have hread' : (if i < numChannels then some (m.mem ⟨.adcSample, i⟩) else none) = some x :=
          hread
        split_ifs at hread' with hi
        exact ⟨before, ⟨i, hi⟩, m, after, rfl, Option.some.inj hread'⟩
  · rintro ⟨before, j, m, after, rfl, rfl⟩
    exact List.mem_filterMap.mpr ⟨(.load (.chVal j), m), by simp, chValRead_load j m⟩

/-- With every load finding a sample, samples are all that is put out. -/
theorem outputs_le_of_findsSamples {h : List (Access α)} (ht : Tracks h) (hfinds : FindsSamples h) :
    ∀ v ∈ outputs h, v ≤ 4095 := by
  intro v hv
  rcases ht.outputs v hv with rfl | ⟨x, hx, rfl⟩
  · decide
  · obtain ⟨before, j, m, after, heq, rfl⟩ := mem_chValReads.mp hx
    exact (ht.reads before j m after heq).mpr (hfinds before j m after heq)

/-- With samples all that is put out, and every load put out, every load finds a sample. -/
theorem findsSamples_of_outputs_le {h : List (Access α)} (ht : Tracks h)
    (hshown : ∀ x ∈ chValReads h, x.toNat ∈ outputs h) (hle : ∀ v ∈ outputs h, v ≤ 4095) :
    FindsSamples h := by
  intro before j m after heq
  have hread : m.mem (.chVal j) ∈ chValReads h := mem_chValReads.mpr ⟨before, j, m, after, heq, rfl⟩
  exact (ht.reads before j m after heq).mp (hle _ (hshown _ hread))

variable [FloatArith α]

/-- **When only samples reach the filter and channel 0 of the converter**: as long as every load of
`ch_val` finds one, and, once no invocation is under way, no longer.  An entry holds a sample from
the first word on whose tag the `switch` has seen to be its own. -/
theorem outputs_untagged (u : PowerUp) (as : List (Action Event (Fin numChannels → UInt16))) :
    let n : Node _ _ (Machine α) _ _ := handlerRun u as
    (FindsSamples n.history → ∀ v ∈ outputs n.history, v ≤ 4095) ∧
      (n.active = none → (∀ v ∈ outputs n.history, v ≤ 4095) → FindsSamples n.history) := by
  intro n
  have htracks : Tracks n.history := tracks_handlerRun u as
  refine ⟨outputs_le_of_findsSamples htracks, fun hidle =>
    findsSamples_of_outputs_le htracks ?_⟩
  rw [Node.history_idle hidle]
  exact ((handlerRun_ok u as).idle hidle).recorded.shown

/-- It is enough for two raw words to get through. -/
theorem raw_words_put_out :
    ¬ ∀ (u : PowerUp) (as : List (Action Event (Fin numChannels → UInt16))),
      ∀ v ∈ outputs (handlerRun u as : Node _ _ (Machine ℚ) _ _).history, v ≤ 4095 := by
  intro h
  have houtputs : outputs (handlerRun clearedMemory (oneFrameRun fun _ => 0) :
      Node _ _ (Machine ℚ) _ _).history = [2048, 0x4064, 0x50c8] := by
    decide
  have hle := h clearedMemory (oneFrameRun fun _ => 0) 0x4064 (by rw [houtputs]; decide)
  exact absurd hle (by decide)

end Anc
