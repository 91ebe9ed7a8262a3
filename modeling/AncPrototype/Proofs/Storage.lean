/-
What the receive channel points to between invocations.

`initialize_adc` gives the channel `adc_sample.ch_val`, which stays where it is, but
`ADC_Handler` gives it `temp`, which is gone when the handler returns.  The channel is
off `temp` again once two conversions have filled it, so whether it points to an
object that no longer exists depends on how many conversions fall between the
handler's write of `ADC_RCR` and its return.

`Countdown` is all that matters of the channel: only the first bank is ever armed, and
its counter is two less the conversions since it was armed.  `Rearmed` adds where they
go, and what that makes of the array.
-/
import AncPrototype.Proofs.History

namespace Anc

open DeviceProgram

/-! ### The channel -/

/-- The first bank was armed after `k` conversions, and the second one is not. -/
structure Countdown (k : Nat) (p : Pdc Addr) : Prop where
  on : p.rxten = true
  single : p.rncr = 0
  since : k ≤ p.convs.length
  left : p.rcr = bufferSize - (p.convs.length - k)

/-- While it is armed, the first bank points to `adc_sample`. -/
def StaticTarget (p : Pdc Addr) : Prop := p.rcr ≠ 0 → p.rpr.object = .adcSample

/-- A conversion moves the pointer within its object. -/
theorem object_convert {p : Pdc Addr} (hn : p.rncr = 0) (word : UInt16) :
    (p.convert word).rpr.object = p.rpr.object := by
  rcases p.convert_cases with hd | ⟨hx, hr, -⟩ | ⟨-, -, hn'⟩ | ⟨hx, hr⟩
  · rw [Pdc.convert_dropped hd]
  · rw [Pdc.convert_last hx hr hn]
    rfl
  · exact absurd hn hn'
  · rw [Pdc.convert_more hx hr]
    rfl

namespace Countdown

variable {k : Nat} {p : Pdc Addr}

theorem convert (h : Countdown k p) (word : UInt16) : Countdown k (p.convert word) := by
  have hsince := h.since
  have hleft := h.left
  have hconvs : (p.convert word).convs.length = p.convs.length + 1 := List.length_append
  refine ⟨(Pdc.rxten_convert p word).trans h.on, Pdc.rncr_convert_of_zero h.single word, ?_, ?_⟩
  · rw [hconvs]
    omega
  · rw [hconvs]
    rcases p.convert_cases with hd | ⟨hx, hr, hn⟩ | ⟨-, -, hn⟩ | ⟨hx, hr⟩
    · have hzero : p.rcr = 0 := by
        by_contra hne
        exact hd ⟨h.on, hne⟩
      rw [Pdc.convert_dropped hd]
      show p.rcr = _
      omega
    · rw [Pdc.convert_last hx hr hn]
      show 0 = _
      omega
    · exact absurd h.single hn
    · rw [Pdc.convert_more hx hr]
      show p.rcr - 1 = _
      omega

/-- The channel is off the buffer after two conversions, and not before. -/
theorem rcr_eq_zero_iff (h : Countdown k p) : p.rcr = 0 ↔ k + 2 ≤ p.convs.length := by
  have hsince := h.since
  have hleft := h.left
  have hsize : bufferSize = 2 := rfl
  omega

theorem staticTarget_convert (h : Countdown k p) (hs : StaticTarget p) (word : UInt16) :
    StaticTarget (p.convert word) := by
  intro hr
  rw [object_convert h.single]
  refine hs fun hzero => hr ?_
  rw [Pdc.convert_of_empty hzero]
  exact hzero

end Countdown

/-- The receiver is on, and nothing but a write can arm the channel. -/
structure Disarmed (p : Pdc Addr) : Prop where
  on : p.rxten = true
  empty : p.rcr = 0 ∧ p.rncr = 0

theorem Disarmed.convert {p : Pdc Addr} (h : Disarmed p) (word : UInt16) :
    Disarmed (p.convert word) :=
  ⟨(Pdc.rxten_convert p word).trans h.on, Pdc.stable_empty word p h.empty⟩

variable {α : Type}

/-! ### Writes of the counter -/

/-- The machine on which `ADC_RCR` is written. -/
def Access.rearm (a : Access α) : Option (Machine α) :=
  match a.1 with
  | .pdc (.writeRcr _) => some a.2
  | _ => none

def rearms (tr : List (Access α)) : List (Machine α) := tr.filterMap Access.rearm

theorem rearms_append (tr tr' : List (Access α)) : rearms (tr ++ tr') = rearms tr ++ rearms tr' :=
  List.filterMap_append

theorem rearms_snoc_of_none (tr : List (Access α)) {a : Access α} (ha : a.rearm = none) :
    rearms (tr ++ [a]) = rearms tr := by
  have hnil : rearms [a] = [] := List.filterMap_eq_nil_iff.mpr (by simpa using ha)
  rw [rearms_append, hnil, List.append_nil]

/-- The access is none to the channel, and leaves the arrays alone. -/
def HandlerOp.LeavesPdc : HandlerOp → Prop
  | declare _ => False
  | pdc _ => False
  | save a _ => a.object = .adcSample
  | _ => True

/-- What lies in `temp[i]`, if the array had `contents` and was given to the channel after `armed`
conversions, once the conversions are `convs`. -/
def inTemp (contents : Fin numChannels → UInt16) (armed : Nat) (convs : List UInt16)
    (i : Fin numChannels) : UInt16 :=
  convs[armed + i]?.getD (contents i)

/-- The channel, armed after `armed` conversions with an array `temp`, and the array. -/
structure Rearmed (temp : Nat) (contents : Fin numChannels → UInt16) (armed : Nat)
    (m : Machine α) : Prop where
  countdown : Countdown armed m.pdc
  target : m.pdc.rcr ≠ 0 → m.pdc.rpr = ⟨.temp temp, m.pdc.convs.length - armed⟩
  mem : ∀ i, m.mem (.temp temp i) = inTemp contents armed m.pdc.convs i

namespace Rearmed

variable {temp : Nat} {contents : Fin numChannels → UInt16} {armed : Nat} {m : Machine α}

theorem staticTarget_iff (h : Rearmed temp contents armed m) :
    StaticTarget m.pdc ↔ armed + 2 ≤ m.pdc.convs.length := by
  rw [← h.countdown.rcr_eq_zero_iff]
  constructor
  · intro hs
    by_contra hr
    have hstatic := hs hr
    rw [h.target hr] at hstatic
    exact absurd hstatic (by simp)
  · intro hr hne
    exact absurd hr hne

/-- **A conversion goes into the next word of the array**, if one is left. -/
theorem convert (h : Rearmed temp contents armed m) (data : BitVec 12) :
    Rearmed temp contents armed (m.convert data) := by
  let word := taggedWord m.channel data
  have hsince := h.countdown.since
  have hconvs : (m.convert data).pdc.convs = m.pdc.convs ++ [word] := rfl
  have hlength : (m.convert data).pdc.convs.length = m.pdc.convs.length + 1 := List.length_append
  have hleft : m.pdc.rcr = bufferSize - (m.pdc.convs.length - armed) := h.countdown.left
  have hlater : ∀ i : Fin numChannels, armed + i.val ≠ m.pdc.convs.length →
      inTemp contents armed (m.pdc.convs ++ [word]) i = inTemp contents armed m.pdc.convs i := by
    intro i hi
    unfold inTemp
    rcases Nat.lt_or_gt_of_ne hi with hlt | hgt
    · rw [List.getElem?_append_left hlt]
    · rw [List.getElem?_eq_none (by rw [List.length_append]; exact hgt),
        List.getElem?_eq_none (Nat.le_of_lt hgt)]
  refine ⟨h.countdown.convert word, fun hr => ?_, fun i => ?_⟩
  · -- one more word is left, so this one has been stored
    have hcountdown : (m.convert data).pdc.rcr
        = bufferSize - ((m.convert data).pdc.convs.length - armed) :=
      (h.countdown.convert word).left
    have hr' : 1 < m.pdc.rcr := by omega
    have hrpr : (m.convert data).pdc.rpr = HalfwordPtr.next m.pdc.rpr :=
      congrArg Pdc.rpr (Pdc.convert_more h.countdown.on hr' word)
    rw [hrpr, h.target (by omega), hlength, Nat.sub_add_comm hsince]
    rfl
  · show (if m.pdc.rxten ∧ m.pdc.rcr ≠ 0 then Function.update m.mem m.pdc.rpr word else m.mem)
      (.temp temp i) = inTemp contents armed (m.pdc.convs ++ [word]) i
    have hi : i.val < bufferSize := i.isLt
    by_cases hr : m.pdc.rcr = 0
    · rw [if_neg fun hs => hs.2 hr, hlater i (by omega)]
      exact h.mem i
    · rw [if_pos ⟨h.countdown.on, hr⟩, h.target hr, Function.update_apply]
      by_cases hnext : armed + i.val = m.pdc.convs.length
      · have hslot : i.val = m.pdc.convs.length - armed := by omega
        rw [if_pos (congrArg (Addr.mk (.temp temp)) hslot), inTemp, hnext]
        simp
      · have hslot : i.val ≠ m.pdc.convs.length - armed := by omega
        rw [if_neg fun heq => hslot (Addr.mk.inj heq).2, hlater i hnext]
        exact h.mem i

end Rearmed

variable [FloatArith α]

theorem Rearmed.stable (temp : Nat) (contents : Fin numChannels → UInt16) (armed : Nat) :
    Machine.Stable fun m : Machine α => Rearmed temp contents armed m := by
  intro e m h
  cases e with
  | conversion data => exact h.convert data
  | flags adc dacc => exact ⟨h.countdown, h.target, h.mem⟩

theorem exec_of_leavesPdc {o : HandlerOp} (ho : o.LeavesPdc) (m : Machine α) :
    Access.rearm (o, m) = none ∧ (Machine.exec o m).2.pdc = m.pdc ∧
      ∀ temp i, (Machine.exec o m).2.mem ⟨.temp temp, i⟩ = m.mem ⟨.temp temp, i⟩ := by
  cases o with
  | declare contents => exact ho.elim
  | pdc o => exact ho.elim
  | save a v =>
      refine ⟨rfl, rfl, fun temp i => Function.update_of_ne (fun heq => ?_) ..⟩
      have hobject : a.object = .adcSample := ho
      rw [← heq] at hobject
      exact absurd hobject (by simp)
  | _ => exact ⟨rfl, rfl, fun _ _ => rfl⟩

theorem Rearmed.exec {temp : Nat} {contents : Fin numChannels → UInt16} {armed : Nat}
    {m : Machine α} (h : Rearmed temp contents armed m) {o : HandlerOp} (ho : o.LeavesPdc) :
    Rearmed temp contents armed (Machine.exec o m).2 := by
  obtain ⟨-, hpdc, hmem⟩ := exec_of_leavesPdc ho m
  refine ⟨hpdc ▸ h.countdown, hpdc ▸ h.target, fun i => ?_⟩
  rw [hmem, hpdc]
  exact h.mem i

/-- The channel is free, and the array as it was declared. -/
structure Spare (temp : Nat) (contents : Fin numChannels → UInt16) (m : Machine α) : Prop where
  disarmed : Disarmed m.pdc
  mem : ∀ i : Fin numChannels, m.mem (.temp temp i) = contents i

/-! ### The handler -/

/-- No more is asked of `p` than to end in `Q`. -/
abbrev EndsIn {B : Type} (Q : List (Access α) → B → Machine α → Prop) (p : HandlerProg B)
    (tr : List (Access α)) (m : Machine α) : Prop :=
  machineDevice.Sat (fun _ _ _ => True) Q p tr m

theorem Spare.stable (temp : Nat) (contents : Fin numChannels → UInt16) :
    Machine.Stable fun m : Machine α => Spare temp contents m := by
  intro e m h
  cases e with
  | flags adc dacc => exact ⟨h.disarmed, h.mem⟩
  | conversion data =>
      refine ⟨h.disarmed.convert _, fun i => ?_⟩
      show (if m.pdc.rxten ∧ m.pdc.rcr ≠ 0 then _ else m.mem) (.temp temp i) = _
      rw [if_neg fun hs => hs.2 h.disarmed.empty.1]
      exact h.mem i

section Arm

variable {temp : Nat} {contents : Fin numChannels → UInt16} {tr : List (Access α)} {m : Machine α}

/-- The test of the first bank finds it free. -/
theorem firstBankFree_endsIn (h : Spare temp contents m) (htr : rearms tr = []) :
    EndsIn (fun tr free s => rearms tr = [] ∧ free = true ∧ Spare temp contents s)
      (HandlerProg.pdc firstBankFree) tr m := by
  refine Device.Sat.access (Spare.stable temp contents) h fun t₁ h₁ => ⟨trivial, ?_⟩
  show EndsIn _ (HandlerProg.pdc (if t₁.pdc.rcr = 0 then Prog.step .readRncr fun (rncr : Nat) =>
    Prog.ret (decide (rncr = 0)) else Prog.ret false)) _ t₁
  rw [if_pos h₁.disarmed.empty.1]
  refine Device.Sat.access (Spare.stable temp contents) h₁ fun t₂ h₂ => ⟨trivial, ?_⟩
  have hfree : decide (t₂.pdc.rncr = 0) = true := decide_eq_true h₂.disarmed.empty.2
  refine Device.Sat.ret (Spare.stable temp contents) h₂ fun s hs => ⟨?_, hfree, hs⟩
  rw [rearms_snoc_of_none _ rfl, rearms_snoc_of_none _ rfl]
  exact htr

/-- **`read_adc_buffer` in the handler** arms the first bank with `temp`. -/
theorem readAdcBuffer_endsIn (h : Spare temp contents m) (htr : rearms tr = []) :
    EndsIn (fun tr _ s => ∃ t, rearms tr = [t] ∧ Rearmed temp contents t.pdc.convs.length s)
      (HandlerProg.pdc (readAdcBuffer (.temp temp 0) bufferSize)) tr m := by
  refine Device.Sat.embed_bind (Device.Sat.mono (fun _ _ _ hG => hG) ?_ _
    (firstBankFree_endsIn h htr))
  rintro tr _ s ⟨htr, rfl, hs⟩
  refine Device.Sat.access (Spare.stable temp contents) hs fun t₁ h₁ => ⟨trivial, ?_⟩
  -- `RPR` is `temp` before the counter is written
  have hrpr : Machine.Stable fun m : Machine α => (m.pdc.rcr = 0 ∧ m.pdc.rncr = 0) ∧
      m.pdc.rpr = .temp temp 0 :=
    Machine.stable_pdc (P := fun p => (p.rcr = 0 ∧ p.rncr = 0) ∧ p.rpr = .temp temp 0)
      fun p word h => Pdc.stable_rpr (Addr.temp temp 0) word p h
  refine Device.Sat.access ((Spare.stable temp contents).and hrpr)
    ⟨⟨⟨h₁.disarmed.on, h₁.disarmed.empty⟩, h₁.mem⟩, h₁.disarmed.empty, rfl⟩
    fun t₂ ⟨h₂, _, htarget⟩ => ⟨trivial, ?_⟩
  have hwrite : Rearmed temp contents t₂.pdc.convs.length
      (Machine.exec (.pdc (.writeRcr bufferSize)) t₂).2 := by
    have hexec : (Machine.exec (.pdc (.writeRcr bufferSize)) t₂).2.pdc
        = { t₂.pdc with rcr := bufferSize } :=
      Pdc.promote_of_armed (p := { t₂.pdc with rcr := bufferSize })
        (show bufferSize ≠ 0 by decide)
    refine ⟨?_, fun _ => ?_, fun i => ?_⟩
    · rw [hexec]
      refine ⟨h₂.disarmed.on, h₂.disarmed.empty.2, Nat.le_refl _, ?_⟩
      show bufferSize = bufferSize - (t₂.pdc.convs.length - t₂.pdc.convs.length)
      omega
    · rw [hexec]
      show t₂.pdc.rpr = ⟨.temp temp, t₂.pdc.convs.length - t₂.pdc.convs.length⟩
      rw [htarget, Nat.sub_self]
      rfl
    · rw [hexec, inTemp, List.getElem?_eq_none (Nat.le_add_right ..)]
      exact h₂.mem i
  refine Device.Sat.access (Rearmed.stable temp contents _) hwrite fun t₃ h₃ => ⟨trivial, ?_⟩
  refine Device.Sat.ret (Rearmed.stable temp contents _) ⟨⟨rfl, h₃.countdown.single,
    h₃.countdown.since, h₃.countdown.left⟩, h₃.target, h₃.mem⟩ fun s hs => ⟨t₂, ?_, hs⟩
  rw [rearms_snoc_of_none _ rfl, rearms_append, rearms_snoc_of_none _ rfl, htr]
  rfl

end Arm

/-- What an invocation keeps as long as it does not write the counter; under `S`, the pointer too
is known. -/
structure Kept (S : Prop) (tr : List (Access α)) (m : Machine α) : Prop where
  rearms : rearms tr = []
  countdown : ∃ k, Countdown k m.pdc
  target : S → StaticTarget m.pdc

theorem Kept.stable (S : Prop) (tr : List (Access α)) :
    Machine.Stable fun m : Machine α => Kept S tr m := by
  have hpdc : Machine.Stable fun m : Machine α =>
      (∃ k, Countdown k m.pdc) ∧ (S → StaticTarget m.pdc) :=
    Machine.stable_pdc (P := fun p => (∃ k, Countdown k p) ∧ (S → StaticTarget p))
      fun p word ⟨⟨k, hk⟩, hs⟩ =>
        ⟨⟨k, hk.convert word⟩, fun h => hk.staticTarget_convert (hs h) word⟩
  intro e m h
  obtain ⟨hcountdown, htarget⟩ := hpdc e m ⟨h.countdown, h.target⟩
  exact ⟨h.rearms, hcountdown, htarget⟩

/-- The channel as an invocation leaves it: armed with its `temp`, or as it was. -/
def Handed (S : Prop) (tr : List (Access α)) (m : Machine α) : Prop :=
  Kept S tr m ∨ ∃ t temp contents, rearms tr = [t] ∧ Rearmed temp contents t.pdc.convs.length m

theorem Handed.stable (S : Prop) (tr : List (Access α)) :
    Machine.Stable fun m : Machine α => Handed S tr m := by
  rintro e m (h | ⟨t, temp, contents, htr, h⟩)
  · exact .inl (Kept.stable S tr e m h)
  · exact .inr ⟨t, temp, contents, htr, Rearmed.stable temp contents _ e m h⟩

/-- Accesses to anything else do not matter. -/
theorem Kept.exec {S : Prop} {tr : List (Access α)} {o : HandlerOp} {m : Machine α}
    (ho : o.LeavesPdc) (h : Kept S tr m) : Kept S (tr ++ [(o, m)]) (Machine.exec o m).2 := by
  obtain ⟨hrearm, hpdc, -⟩ := exec_of_leavesPdc ho m
  refine ⟨(rearms_snoc_of_none tr hrearm).trans h.rearms, ?_, ?_⟩
  · rw [hpdc]
    exact h.countdown
  · rw [hpdc]
    exact h.target

theorem Handed.exec {S : Prop} {tr : List (Access α)} {o : HandlerOp} {m : Machine α}
    (ho : o.LeavesPdc) (h : Handed S tr m) : Handed S (tr ++ [(o, m)]) (Machine.exec o m).2 := by
  rcases h with h | ⟨t, temp, contents, htr, h⟩
  · exact .inl (h.exec ho)
  · have hrearm := (exec_of_leavesPdc ho m).1
    exact .inr ⟨t, temp, contents, (rearms_snoc_of_none tr hrearm).trans htr, h.exec ho⟩

section Invocation

variable {S : Prop} {tr : List (Access α)} {m : Machine α}

theorem capture_endsIn (h : Disarmed m.pdc) (htr : rearms tr = []) (temp : Nat) :
    EndsIn (fun tr _ s => Handed S tr s) (capture temp) tr m := by
  let contents (i : Fin numChannels) : UInt16 := m.mem (.temp temp i)
  refine Device.Sat.access (Spare.stable temp contents) ⟨h, fun _ => rfl⟩ fun t ht => ⟨trivial, ?_⟩
  have hsaved : Spare temp contents (Machine.exec (.save .done adcDoneMask) t).2 := by
    refine ⟨ht.disarmed, fun i => ?_⟩
    have hne : Addr.temp temp i ≠ .done := by simp
    show Function.update t.mem .done adcDoneMask (.temp temp i) = contents i
    rw [Function.update_of_ne hne]
    exact ht.mem i
  refine Device.Sat.bind (HandlerProg.pdc (readAdcBuffer (.temp temp 0) bufferSize))
    (Device.Sat.mono (fun _ _ _ hG => hG) ?_ _ (readAdcBuffer_endsIn hsaved ?_))
  · rintro tr _ s ⟨t, htr, hs⟩
    have hsort : ∀ i, (demultiplex temp i).Only HandlerOp.LeavesPdc := fun _ =>
      demultiplex_only trivial (fun _ => trivial) fun _ _ => rfl
    refine Device.Sat.bind_only (hsort 0) (Handed.stable S) (fun _ _ _ ho => Handed.exec ho)
      (fun _ _ _ _ => trivial) (.inr ⟨t, temp, contents, htr, hs⟩) fun tr _ s hs => ?_
    exact Device.Sat.mono (fun _ _ _ _ => trivial) (fun _ _ _ hJ => hJ) _
      (Device.Sat.of_only (Handed.stable S) (fun _ _ _ ho => Handed.exec ho) (hsort 1) hs)
  · rw [rearms_snoc_of_none tr rfl]
    exact htr

theorem captureIfFull_endsIn (h : Kept S tr m) (temp : Nat) :
    EndsIn (fun tr _ s => Handed S tr s) (captureIfFull temp) tr m := by
  refine Device.Sat.access (Kept.stable S tr) h fun t ht => ⟨trivial, ?_⟩
  have hkept : Kept S (tr ++ [(.adcStatus, t)]) t := ht.exec (o := .adcStatus) trivial
  show EndsIn _ (if t.adcIsr &&& adcIsrRxbuff = adcIsrRxbuff then capture temp else pure ()) _ t
  simp only [adcIsr_and_rxbuff]
  by_cases hfull : t.pdc.rxbuff = true
  · rw [if_pos hfull]
    obtain ⟨k, hk⟩ := hkept.countdown
    exact capture_endsIn ⟨hk.on, of_decide_eq_true hfull⟩ hkept.rearms temp
  · rw [if_neg hfull]
    exact Device.Sat.ret (Kept.stable S _) hkept fun s hs => .inl hs

/-- The second half of the handler leaves the channel and the arrays alone. -/
theorem driveIfReady_leavesPdc : driveIfReady.Only HandlerOp.LeavesPdc :=
  driveIfReady_only trivial (fun _ => trivial) (fun _ => rfl) (fun _ _ => trivial)
    (fun _ => trivial) (fun _ => trivial) fun _ => trivial

/-- **One invocation** leaves the channel as it was, or armed with its `temp`. -/
theorem adcHandler_endsIn (contents : Fin numChannels → UInt16) (h : Kept S [] m) :
    EndsIn (fun tr _ s => Handed S tr s) (adcHandler contents) [] m := by
  refine Device.Sat.access (Kept.stable S []) h fun t ht => ⟨trivial, ?_⟩
  have hdeclared : Kept S [(.declare contents, t)] (t.declare contents) :=
    ⟨rfl, ht.countdown, ht.target⟩
  refine Device.Sat.bind (captureIfFull t.frames) (Device.Sat.mono (fun _ _ _ hG => hG) ?_ _
    (captureIfFull_endsIn hdeclared t.frames))
  intro tr _ s hs
  exact Device.Sat.mono (fun _ _ _ _ => trivial) (fun _ _ _ hJ => hJ) _
    (Device.Sat.of_only (Handed.stable S) (fun _ _ _ ho => Handed.exec ho) driveIfReady_leavesPdc hs)

end Invocation

/-! ### Runs -/

/-- The invocation has not written `ADC_RCR`, or has returned after two conversions since. -/
def Outwaits (f : HandlerReturn α) : Prop :=
  ∀ t ∈ rearms f.accesses, t.pdc.convs.length + 2 ≤ f.after.pdc.convs.length

/-- The channel between invocations. -/
structure LeftBehind (fs : List (HandlerReturn α)) (m : Machine α) : Prop where
  countdown : ∃ k, Countdown k m.pdc
  target : (∀ f ∈ fs, Outwaits f) → StaticTarget m.pdc
  rearmed : ∀ f ∈ fs, ∀ t ∈ rearms f.accesses, ∃ temp contents,
    Rearmed temp contents t.pdc.convs.length f.after

theorem LeftBehind.stable (fs : List (HandlerReturn α)) :
    Machine.Stable fun m : Machine α => LeftBehind fs m := by
  intro e m h
  have hkept := Kept.stable (∀ f ∈ fs, Outwaits f) [] e m ⟨rfl, h.countdown, h.target⟩
  exact ⟨hkept.countdown, hkept.target, h.rearmed⟩

omit [FloatArith α] in
/-- What an invocation hands on, it leaves. -/
theorem LeftBehind.snoc {fs : List (HandlerReturn α)} {f : HandlerReturn α}
    (h : ∀ g ∈ fs, ∀ t ∈ rearms g.accesses, ∃ temp contents,
      Rearmed temp contents t.pdc.convs.length g.after)
    (hf : Handed (∀ g ∈ fs, Outwaits g) f.accesses f.after) : LeftBehind (fs ++ [f]) f.after := by
  have hall : (∀ g ∈ fs ++ [f], Outwaits g) → (∀ g ∈ fs, Outwaits g) ∧ Outwaits f :=
    fun h => (List.forall_mem_append.mp h).imp_right List.forall_mem_singleton.mp
  have hsnoc : (∀ t ∈ rearms f.accesses, ∃ temp contents,
        Rearmed temp contents t.pdc.convs.length f.after) →
      ∀ g ∈ fs ++ [f], ∀ t ∈ rearms g.accesses, ∃ temp contents,
        Rearmed temp contents t.pdc.convs.length g.after :=
    fun hlast => List.forall_mem_append.mpr ⟨h, List.forall_mem_singleton.mpr hlast⟩
  rcases hf with hkept | ⟨t, temp, contents, htr, ht⟩
  · refine ⟨hkept.countdown, fun hout => hkept.target (hall hout).1, hsnoc ?_⟩
    rw [hkept.rearms]
    exact fun t ht => absurd ht List.not_mem_nil
  · refine ⟨⟨_, ht.countdown⟩, fun hout => ?_, hsnoc ?_⟩
    · exact ht.staticTarget_iff.mpr ((hall hout).2 t (by rw [htr]; exact List.mem_singleton_self t))
    · intro u hu
      rw [htr, List.mem_singleton] at hu
      rw [hu]
      exact ⟨temp, contents, ht⟩

theorem LeftBehind.initialized (u : PowerUp) :
    LeftBehind [] (Machine.initialized u : Machine α) := by
  refine ⟨⟨0, ?_⟩, fun _ => ?_, fun f hf => absurd hf List.not_mem_nil⟩
  · rw [pdc_initialized]
    exact ⟨rfl, rfl, Nat.le_refl _, rfl⟩
  · rw [pdc_initialized]
    exact fun _ => rfl

theorem leftBehind_handlerRun (u : PowerUp) (as : List (Action Event (Fin numChannels → UInt16))) :
    Host.Ok (machineHost (α := α)) LeftBehind (fun _ _ _ _ _ => True) (handlerRun u as) := by
  refine Host.run_ok LeftBehind.stable ?_ as (LeftBehind.initialized u)
  intro fs contents m h
  exact Device.Sat.mono (fun _ _ _ hG => hG) (fun tr a s hs => LeftBehind.snoc h.rearmed hs) _
    (adcHandler_endsIn contents ⟨rfl, h.countdown, h.target⟩)

/-- Neither bank is armed on anything but `adc_sample`, and no conversion changes anything else. -/
structure Undisturbed (m : Machine α) : Prop where
  current : m.pdc.rcr ≠ 0 → m.pdc.rpr.object = .adcSample
  next : m.pdc.rncr ≠ 0 → m.pdc.rnpr.object = .adcSample
  rest : ∀ data a, a.object ≠ .adcSample → (m.convert data).mem a = m.mem a

omit [FloatArith α] in
/-- With the second bank not armed, the first one decides. -/
theorem Countdown.undisturbed {k : Nat} {m : Machine α} (h : Countdown k m.pdc)
    (hs : StaticTarget m.pdc) : Undisturbed m := by
  refine ⟨hs, fun hn => absurd h.single hn, fun data a ha => ?_⟩
  by_cases hr : m.pdc.rxten = true ∧ m.pdc.rcr ≠ 0
  · have hmem : (m.convert data).mem = Function.update m.mem m.pdc.rpr _ := if_pos hr
    rw [hmem, Function.update_of_ne]
    intro heq
    exact ha (heq ▸ hs hr.2)
  · exact congrFun (if_neg hr) a

/-- **When the channel never points to an array that is gone**: as long as every invocation that
arms it returns only after two conversions since. -/
theorem undisturbed_iff (u : PowerUp) (as : List (Action Event (Fin numChannels → UInt16))) :
    let n : List (Action Event (Fin numChannels → UInt16)) → Node _ _ (Machine α) _ _ :=
      handlerRun u
    (∀ as', as' <+: as → (n as').active = none → Undisturbed (n as').state) ↔
      ∀ f ∈ (n as).finished, ∀ t ∈ rearms f.accesses,
        t.pdc.convs.length + 2 ≤ f.after.pdc.convs.length := by
  intro n
  constructor
  · intro hall f hf t ht
    rcases Host.passed_through as hf with hnil | ⟨as', hprefix, hf', hidle, hafter⟩
    · exact absurd hnil List.not_mem_nil
    · have hleft : LeftBehind (n as').finished (n as').state :=
          (leftBehind_handlerRun u as').idle hidle
      have hcurrent := (hall as' hprefix hidle).current
      rw [hafter] at hcurrent
      obtain ⟨temp, contents, hrearmed⟩ := hleft.rearmed f hf' t ht
      exact hrearmed.staticTarget_iff.mp hcurrent
  · rintro hall as' ⟨later, rfl⟩ hidle
    have hleft : LeftBehind (n as').finished (n as').state :=
      (leftBehind_handlerRun u as').idle hidle
    obtain ⟨k, hk⟩ := hleft.countdown
    refine hk.undisturbed (hleft.target fun f hf => hall f ?_)
    exact (Host.finished_run_append _ as' later).subset hf

/-- One frame, and an invocation with no conversion in between, are enough. -/
theorem dead_array_armed :
    ¬ ∀ (u : PowerUp) (as : List (Action Event (Fin numChannels → UInt16))),
      (handlerRun u as : Node _ _ (Machine ℚ) _ _).active = none →
      Undisturbed (handlerRun u as : Node _ _ (Machine ℚ) _ _).state := by
  intro h
  let n : Node _ _ (Machine ℚ) _ _ := handlerRun clearedMemory (oneFrameRun fun _ => 0)
  have hidle : n.active.isNone = true := by decide
  have harmed : n.state.pdc.rcr ≠ 0 ∧ n.state.pdc.rpr.object = .temp 0 := by decide
  have hundisturbed : Undisturbed n.state :=
    h clearedMemory (oneFrameRun fun _ => 0) (Option.isNone_iff_eq_none.mp hidle)
  have hstatic := hundisturbed.current harmed.1
  rw [harmed.2] at hstatic
  exact absurd hstatic (by simp)

end Anc
