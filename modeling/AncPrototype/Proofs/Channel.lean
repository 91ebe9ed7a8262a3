/-
What a conversion and an access do to the receive channel.

A conversion has four outcomes, according to whether the current bank takes it,
whether it was the last one of that bank, and whether the next bank is armed.  The
lemmas here say what each of them leaves; no later proof unfolds `convert`.
-/
import AncPrototype.Model.Pdc

namespace Anc

open DeviceProgram

variable {A : Type} [HalfwordPtr A]

namespace Pdc

/-- Where the conversion that comes next will be recorded to have gone. -/
def taken (p : Pdc A) (word : UInt16) : Stored A := ⟨p.convs.length, p.rpr, word⟩

theorem convert_dropped {p : Pdc A} (h : ¬(p.rxten = true ∧ p.rcr ≠ 0)) (word : UInt16) :
    p.convert word = { p with convs := p.convs ++ [word] } := by
  unfold convert
  rw [if_neg h]

/-- The last word of the current bank, with no bank to follow. -/
theorem convert_last {p : Pdc A} (hx : p.rxten = true) (hr : p.rcr = 1) (hn : p.rncr = 0)
    (word : UInt16) :
    p.convert word = { p with
      rpr := HalfwordPtr.next p.rpr, rcr := 0, convs := p.convs ++ [word], cur := [],
      full := p.full ++ [p.cur ++ [p.taken word]] } := by
  simp [convert, store, promote, taken, hx, hr, hn]

/-- The last word of the current bank; the next one moves up. -/
theorem convert_swap {p : Pdc A} (hx : p.rxten = true) (hr : p.rcr = 1) (hn : p.rncr ≠ 0)
    (word : UInt16) :
    p.convert word = { p with
      rpr := p.rnpr, rcr := p.rncr, rncr := 0, convs := p.convs ++ [word], cur := [],
      full := p.full ++ [p.cur ++ [p.taken word]] } := by
  simp [convert, store, promote, taken, hx, hr, hn]

theorem convert_more {p : Pdc A} (hx : p.rxten = true) (hr : 1 < p.rcr) (word : UInt16) :
    p.convert word = { p with
      rpr := HalfwordPtr.next p.rpr, rcr := p.rcr - 1, convs := p.convs ++ [word],
      cur := p.cur ++ [p.taken word] } := by
  have h0 : p.rcr ≠ 0 := by omega
  have h1 : p.rcr ≠ 1 := by omega
  have h2 : ¬p.rcr ≤ 1 := by omega
  simp [convert, store, promote, taken, hx, h0, h1, Nat.sub_eq_zero_iff_le, h2]

omit [HalfwordPtr A] in
/-- The four outcomes. -/
theorem convert_cases (p : Pdc A) :
    ¬(p.rxten = true ∧ p.rcr ≠ 0) ∨ (p.rxten = true ∧ p.rcr = 1 ∧ p.rncr = 0) ∨
      (p.rxten = true ∧ p.rcr = 1 ∧ p.rncr ≠ 0) ∨ (p.rxten = true ∧ 1 < p.rcr) := by
  by_cases h : p.rxten = true ∧ p.rcr ≠ 0
  · rcases Nat.lt_or_ge 1 p.rcr with hr | hr
    · exact .inr (.inr (.inr ⟨h.1, hr⟩))
    · have h1 : p.rcr = 1 := by have := h.2; omega
      by_cases hn : p.rncr = 0
      · exact .inr (.inl ⟨h.1, h1, hn⟩)
      · exact .inr (.inr (.inl ⟨h.1, h1, hn⟩))
  · exact .inl h

@[simp] theorem rxten_convert (p : Pdc A) (word : UInt16) : (p.convert word).rxten = p.rxten := by
  simp only [convert, store, promote]
  split_ifs <;> rfl

@[simp] theorem rnpr_convert (p : Pdc A) (word : UInt16) : (p.convert word).rnpr = p.rnpr := by
  simp only [convert, store, promote]
  split_ifs <;> rfl

/-- Conversions never arm the next bank. -/
theorem rncr_convert_of_zero {p : Pdc A} (hn : p.rncr = 0) (word : UInt16) :
    (p.convert word).rncr = 0 := by
  simp only [convert, store, promote]
  split_ifs <;> simp_all

/-- With both banks empty, a conversion is only counted. -/
theorem convert_of_empty {p : Pdc A} (hr : p.rcr = 0) (word : UInt16) :
    p.convert word = { p with convs := p.convs ++ [word] } :=
  convert_dropped (fun h => h.2 hr) word

omit [HalfwordPtr A] in
/-- A bank that is armed stays where it is. -/
theorem promote_of_armed {p : Pdc A} (hr : p.rcr ≠ 0) : p.promote = p := by
  simp [promote, hr]

/-! ### What has been stored -/

/-- Everything the channel has stored, in order. -/
def log (p : Pdc A) : List (Stored A) := p.full.flatten ++ p.cur

theorem log_convert (p : Pdc A) (word : UInt16) :
    (p.convert word).log
      = if p.rxten = true ∧ p.rcr ≠ 0 then p.log ++ [p.taken word] else p.log := by
  rcases convert_cases p with hd | ⟨hx, hr, hn⟩ | ⟨hx, hr, hn⟩ | ⟨hx, hr⟩
  · rw [if_neg hd, convert_dropped hd]
    rfl
  · rw [if_pos ⟨hx, by omega⟩, convert_last hx hr hn]
    simp [log]
  · rw [if_pos ⟨hx, by omega⟩, convert_swap hx hr hn]
    simp [log]
  · rw [if_pos ⟨hx, by omega⟩, convert_more hx hr]
    simp [log]

/-- Buffers stay complete. -/
theorem full_prefix_convert (p : Pdc A) (word : UInt16) : p.full <+: (p.convert word).full := by
  rcases convert_cases p with hd | ⟨hx, hr, hn⟩ | ⟨hx, hr, hn⟩ | ⟨hx, hr⟩
  · simp only [convert_dropped hd, List.prefix_rfl]
  · simp only [convert_last hx hr hn, List.prefix_append]
  · simp only [convert_swap hx hr hn, List.prefix_append]
  · simp only [convert_more hx hr, List.prefix_rfl]

omit [HalfwordPtr A] in
theorem promote_history (p : Pdc A) :
    p.promote.convs = p.convs ∧ p.promote.cur = p.cur ∧ p.promote.full = p.full := by
  unfold promote
  split_ifs <;> exact ⟨rfl, rfl, rfl⟩

omit [HalfwordPtr A] in
/-- Accesses move no data. -/
theorem exec_history (o : PdcOp A) (p : Pdc A) :
    (exec o p).2.convs = p.convs ∧ (exec o p).2.cur = p.cur ∧ (exec o p).2.full = p.full := by
  cases o with
  | writeRcr v => exact promote_history _
  | writeRncr v => exact promote_history _
  | _ => exact ⟨rfl, rfl, rfl⟩

/-! ### What the tests of `read_adc_buffer` may rely on -/

theorem stable_empty : (pdcDevice (A := A)).Stable fun p => p.rcr = 0 ∧ p.rncr = 0 := by
  intro word p h
  show (p.convert word).rcr = 0 ∧ (p.convert word).rncr = 0
  rw [convert_of_empty h.1]
  exact h

theorem stable_rncr : (pdcDevice (A := A)).Stable fun p => p.rncr = 0 :=
  fun word _ h => rncr_convert_of_zero h word

theorem stable_rnpr (v : A) : (pdcDevice (A := A)).Stable fun p => p.rnpr = v :=
  fun word p h => (rnpr_convert p word).trans h

/-- While both banks are empty, `RPR` stays where it is. -/
theorem stable_rpr (v : A) :
    (pdcDevice (A := A)).Stable fun p => (p.rcr = 0 ∧ p.rncr = 0) ∧ p.rpr = v := by
  intro word p h
  show ((p.convert word).rcr = 0 ∧ (p.convert word).rncr = 0) ∧ (p.convert word).rpr = v
  rw [convert_of_empty h.1.1]
  exact h

end Pdc

end Anc
