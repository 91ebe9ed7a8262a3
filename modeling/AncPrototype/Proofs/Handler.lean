/-
The handler by itself.

Run with nothing in between, `ADC_Handler` is a function of the machine, and the
parts of it compose as their programs do.  What the demultiplexing loop leaves in
`ch_val` depends on the words it reads in one way only: for each channel, the data
of the last word with that channel's tag, or what was there before.
-/
import AncPrototype.Model.Machine

namespace Anc

open DeviceProgram

/-! ### Words -/

theorem toNat_wordTag (w : UInt16) : (wordTag w).toNat = w.toNat / 4096 := by
  have hlt := w.toNat_lt
  show (w.toNat &&& 61440) >>> 12 = w.toNat / 4096
  rw [Nat.shiftRight_and_distrib, Nat.shiftRight_eq_div_pow]
  show w.toNat / 4096 &&& 2 ^ 4 - 1 = w.toNat / 4096
  rw [Nat.and_two_pow_sub_one_eq_mod]
  omega

theorem toNat_wordData (w : UInt16) : (wordData w).toNat = w.toNat % 4096 :=
  Nat.and_two_pow_sub_one_eq_mod w.toNat 12

theorem toNat_taggedWord (c : AdcChannel) (data : BitVec 12) :
    (taggedWord c data).toNat = c.number.toNat * 4096 + data.toNat := by
  have hlt := data.isLt
  have hdata : (data.setWidth 16).toNat = data.toNat := by
    rw [BitVec.toNat_setWidth]
    omega
  have hor (k : Nat) : 2 ^ 12 * k ||| data.toNat = k * 4096 + data.toNat := by
    rw [← Nat.two_pow_add_eq_or_of_lt hlt k]
    omega
  cases c with
  | channel4 =>
      show 2 ^ 12 * 4 ||| (data.setWidth 16).toNat = _
      rw [hdata, hor]
      rfl
  | channel5 =>
      show 2 ^ 12 * 5 ||| (data.setWidth 16).toNat = _
      rw [hdata, hor]
      rfl

/-- A tagged word comes apart again. -/
theorem wordTag_taggedWord (c : AdcChannel) (data : BitVec 12) :
    wordTag (taggedWord c data) = c.number := by
  have hlt := data.isLt
  rw [← UInt16.toNat_inj, toNat_wordTag, toNat_taggedWord]
  omega

theorem toNat_wordData_taggedWord (c : AdcChannel) (data : BitVec 12) :
    (wordData (taggedWord c data)).toNat = data.toNat := by
  have hlt := data.isLt
  rw [toNat_wordData, toNat_taggedWord]
  omega

/-! ### The words of a loop -/

/-- The tag that goes with `ch_val[j]`. -/
def sampleTag : Fin numChannels → UInt16
  | 0 => 4
  | 1 => 5

/-- The entry of `ch_val` that a word is for. -/
def entryOf (word : UInt16) : Option (Fin numChannels) :=
  if wordTag word = 4 then some 0 else if wordTag word = 5 then some 1 else none

theorem entryOf_eq_some_iff (word : UInt16) (j : Fin numChannels) :
    entryOf word = some j ↔ wordTag word = sampleTag j := by
  have hne : (5 : UInt16) ≠ 4 := by decide
  unfold entryOf
  match j with
  | 0 =>
      show _ ↔ wordTag word = 4
      split_ifs with h4 h5 <;> simp [h4]
  | 1 =>
      show _ ↔ wordTag word = 5
      split_ifs with h4 h5
      · simp [h4, hne.symm]
      · simp [h5]
      · simp [h5]

/-- The last of the words with a tag. -/
def latest (tag : UInt16) (words : List UInt16) : Option UInt16 :=
  (words.filter fun w => wordTag w = tag).getLast?

theorem latest_snoc (tag : UInt16) (words : List UInt16) (w : UInt16) :
    latest tag (words ++ [w]) = if wordTag w = tag then some w else latest tag words := by
  unfold latest
  rw [List.filter_append]
  split_ifs with h <;> simp [h]

/-- The data of the last word with a tag, or `before` without one. -/
def sample (tag : UInt16) (words : List UInt16) (before : UInt16) : UInt16 :=
  ((latest tag words).map wordData).getD before

theorem sample_append (tag : UInt16) (words later : List UInt16) (before : UInt16) :
    sample tag (words ++ later) before = sample tag later (sample tag words before) := by
  unfold sample latest
  rw [List.filter_append, List.getLast?_append]
  cases (later.filter fun w => wordTag w = tag).getLast? <;> rfl

theorem sample_snoc (tag : UInt16) (words : List UInt16) (w before : UInt16) :
    sample tag (words ++ [w]) before
      = if wordTag w = tag then wordData w else sample tag words before := by
  unfold sample
  rw [latest_snoc]
  split_ifs <;> rfl

theorem sample_pair (tag a b before : UInt16) :
    sample tag [a, b] before
      = if wordTag b = tag then wordData b else if wordTag a = tag then wordData a else before := by
  rw [← List.singleton_append, sample_snoc, ← List.nil_append [a], sample_snoc]
  rfl

/-- With one word of a channel among two, their order does not matter. -/
theorem sample_of_two {tag a b : UInt16} (ha : wordTag a = tag) (hb : wordTag b ≠ tag)
    (before : UInt16) :
    sample tag [a, b] before = wordData a ∧ sample tag [b, a] before = wordData a := by
  rw [sample_pair, sample_pair, if_neg hb, if_pos ha, if_pos ha]
  exact ⟨rfl, rfl⟩

/-- What one iteration of the loop does to memory. -/
def sortWord (mem : Addr → UInt16) (word : UInt16) : Addr → UInt16 :=
  if wordTag word = 4 then Function.update mem (.chVal 0) (wordData word)
  else if wordTag word = 5 then Function.update mem (.chVal 1) (wordData word)
  else mem

theorem sortWord_chVal (mem : Addr → UInt16) (word : UInt16) (j : Fin numChannels) :
    sortWord mem word (.chVal j)
      = if wordTag word = sampleTag j then wordData word else mem (.chVal j) := by
  have h01 : (Addr.chVal 0) ≠ .chVal 1 := by decide
  unfold sortWord
  match j with
  | 0 =>
      show _ = if wordTag word = 4 then _ else _
      split_ifs with h4 h5
      · exact Function.update_self ..
      · exact Function.update_of_ne h01 ..
      · rfl
  | 1 =>
      show _ = if wordTag word = 5 then _ else _
      split_ifs with h4 h5 h5
      · rw [h4] at h5
        exact absurd h5 (by decide)
      · exact Function.update_of_ne h01.symm ..
      · exact Function.update_self ..
      · rfl

theorem sortWord_of_ne {a : Addr} (ha : ∀ j, a ≠ .chVal j) (mem : Addr → UInt16) (word : UInt16) :
    sortWord mem word a = mem a := by
  unfold sortWord
  split_ifs
  · exact Function.update_of_ne (ha 0) ..
  · exact Function.update_of_ne (ha 1) ..
  · rfl

/-! ### The status words -/

theorem or_and_self (x b : UInt32) : (x ||| b) &&& b = b := by
  rw [← UInt32.toBitVec_inj]
  ext i
  simp only [UInt32.toBitVec_and, UInt32.toBitVec_or, BitVec.getElem_and, BitVec.getElem_or]
  cases x.toBitVec[i] <;> cases b.toBitVec[i] <;> rfl

theorem and_not_and (x b : UInt32) : x &&& ~~~b &&& b = 0 := by
  rw [← UInt32.toBitVec_inj]
  ext i
  simp

variable {α : Type}

/-- The test of the handler is the flag of the channel, whatever the other flags. -/
theorem adcIsr_and_rxbuff (m : Machine α) :
    m.adcIsr &&& adcIsrRxbuff = adcIsrRxbuff ↔ m.pdc.rxbuff = true := by
  unfold Machine.adcIsr
  cases h : m.pdc.rxbuff
  · simp only [Bool.false_eq_true, if_false, and_not_and, iff_false]
    decide
  · simp only [if_true, or_and_self]

/-- What the handler takes for a converter that is ready. -/
def Machine.txrdy (m : Machine α) : Bool := m.daccIsr.toUInt16 &&& daccIsrTxrdy = daccIsrTxrdy

/-! ### initialize_anc -/

/-- Memory and registers cleared. -/
def clearedMemory : PowerUp :=
  { rpr := .chVal 0, rnpr := .chVal 0, channel := .channel4, adcFlags := 0, daccIsr := 0,
    mem := fun _ => 0 }

section Initialized

variable [FloatArith α] (u : PowerUp)

theorem pdc_initialized : (Machine.initialized u : Machine α).pdc =
    { rpr := .chVal 0, rcr := bufferSize, rnpr := u.rnpr, rncr := 0, rxten := true, convs := [],
      cur := [], full := [] } := rfl

theorem chVal_initialized (j : Fin numChannels) :
    (Machine.initialized u : Machine α).mem (.chVal j) = 0 := by
  match j with
  | 0 => rfl
  | 1 => rfl

theorem old_initialized : (Machine.initialized u : Machine α).mem .old = 2048 := rfl

end Initialized

/-! ### The parts of the handler -/

variable [FloatArith α]

namespace Machine

/-- A full buffer. -/
def captured (m : Machine α) (temp : Nat) : Machine α :=
  { m with
    pdc := (pdcDevice.alone (readAdcBuffer (.temp temp 0) bufferSize) m.pdc).2
    mem := sortWord (sortWord (Function.update m.mem .done adcDoneMask) (m.mem (.temp temp 0)))
      (m.mem (.temp temp 1)) }

/-- A converter ready for new data. -/
def driven (m : Machine α) : Machine α :=
  let out := ancPredict m.fxlms (m.mem .old)
  let noise := m.mem (.chVal 0)
  { m with
    mem := Function.update m.mem .old noise
    userSel := 1
    cdr := m.cdr ++ [(0, noise.toUInt32), (1, out.1.toInt16.toInt32.toUInt32)]
    fxlms := ancUpdate out.2 (m.mem (.chVal 1)) }

end Machine

theorem alone_pdc {B : Type} : ∀ (p : PdcProg Addr B) (m : Machine α),
    machineDevice.alone (HandlerProg.pdc p) m
      = ((pdcDevice.alone p m.pdc).1, { m with pdc := (pdcDevice.alone p m.pdc).2 }) := by
  intro p
  induction p with
  | ret b => intro m; rfl
  | step o k ih => intro m; exact ih _ _

theorem alone_demultiplex (temp : Nat) (i : Fin numChannels) (m : Machine α) :
    machineDevice.alone (demultiplex temp i) m
      = ((), { m with mem := sortWord m.mem (m.mem (.temp temp i)) }) := by
  show machineDevice.alone (if wordTag (m.mem (.temp temp i)) = 4 then _
    else if wordTag (m.mem (.temp temp i)) = 5 then _ else _) m = _
  unfold sortWord
  split_ifs <;> rfl

theorem alone_capture (temp : Nat) (m : Machine α) :
    machineDevice.alone (capture temp) m = ((), m.captured temp) := by
  have hne : ∀ i j : Fin numChannels, Addr.temp temp i ≠ .chVal j := by simp
  have hdone : ∀ i : Fin numChannels,
      Function.update m.mem .done adcDoneMask (.temp temp i) = m.mem (.temp temp i) :=
    fun i => Function.update_of_ne (by simp) ..
  have hsave : machineDevice.alone (HandlerProg.save .done adcDoneMask) m
      = ((), { m with mem := Function.update m.mem .done adcDoneMask }) := rfl
  unfold capture
  rw [Device.alone_bind, hsave, Device.alone_bind, alone_pdc, Device.alone_bind, alone_demultiplex,
    alone_demultiplex]
  simp only [Machine.captured, sortWord_of_ne (hne _), hdone]

theorem alone_drive (m : Machine α) : machineDevice.alone drive m = ((), m.driven) := by
  have hres : Function.update m.mem Addr.old (m.mem (.chVal 0)) (.chVal 1) = m.mem (.chVal 1) :=
    Function.update_of_ne (by decide) ..
  show ((), _) = ((), _)
  simp only [machineDevice, Machine.exec, Machine.driven, Function.update_self, hres,
    List.append_assoc]
  rfl

theorem alone_captureIfFull (temp : Nat) (m : Machine α) :
    machineDevice.alone (captureIfFull temp) m
      = ((), if m.pdc.rxbuff then m.captured temp else m) := by
  show machineDevice.alone (if m.adcIsr &&& adcIsrRxbuff = adcIsrRxbuff then capture temp
    else pure ()) m = _
  simp only [adcIsr_and_rxbuff]
  split_ifs
  · exact alone_capture temp m
  · rfl

theorem alone_driveIfReady (m : Machine α) :
    machineDevice.alone driveIfReady m = ((), if m.txrdy then m.driven else m) := by
  show machineDevice.alone (if m.daccIsr.toUInt16 &&& daccIsrTxrdy = daccIsrTxrdy then drive
    else pure ()) m = _
  simp only [Machine.txrdy, decide_eq_true_eq]
  split_ifs
  · exact alone_drive m
  · rfl

/-- The whole handler. -/
theorem alone_adcHandler (contents : Fin numChannels → UInt16) (m : Machine α) :
    machineDevice.alone (adcHandler contents) m
      = ((), let m' := if m.pdc.rxbuff then (m.declare contents).captured m.frames
              else m.declare contents
             if m'.txrdy then m'.driven else m') := by
  have hdeclare : machineDevice.alone (HandlerProg.declare contents) m
      = (m.frames, m.declare contents) := rfl
  unfold adcHandler
  rw [Device.alone_bind, hdeclare, Device.alone_bind, alone_captureIfFull, alone_driveIfReady]
  rfl

/-! ### Which accesses the parts make -/

section Only

variable {P : HandlerOp → Prop}

theorem demultiplex_only {temp : Nat} {i : Fin numChannels} (hload : P (.load (.temp temp i)))
    (hreload : ∀ j, P (.reload j (.temp temp i))) (hsave : ∀ j v, P (.save ⟨.adcSample, j⟩ v)) :
    (demultiplex temp i).Only P := by
  have htake : ∀ j, (take j (.temp temp i)).Only P := fun j =>
    ⟨hreload j, fun _ => ⟨hsave _ _, fun _ => trivial⟩⟩
  refine ⟨hload, fun (word : UInt16) => ?_⟩
  show (if wordTag word = 4 then take 0 (.temp temp i)
    else if wordTag word = 5 then take 1 (.temp temp i) else pure ()).Only P
  split_ifs
  · exact htake 0
  · exact htake 1
  · trivial

/-- The first half loads from its array, and stores to `adc_sample`. -/
theorem captureIfFull_only (hstatus : P .adcStatus) (hpdc : ∀ o, P (.pdc o)) {temp : Nat}
    (hload : ∀ i : Fin numChannels, P (.load (.temp temp i)))
    (hreload : ∀ j (i : Fin numChannels), P (.reload j (.temp temp i)))
    (hsave : ∀ j v, P (.save ⟨.adcSample, j⟩ v)) : (captureIfFull temp).Only P := by
  have harm : (HandlerProg.pdc (readAdcBuffer (.temp temp 0) bufferSize)).Only P :=
    Prog.Only.embed hpdc _
  have hsort : ∀ i, (demultiplex temp i).Only P := fun i =>
    demultiplex_only (hload i) (fun j => hreload j i) hsave
  refine ⟨hstatus, fun (isr : UInt32) => ?_⟩
  show (if isr &&& adcIsrRxbuff = adcIsrRxbuff then capture temp else pure ()).Only P
  split_ifs
  · exact ⟨hsave _ _, fun _ => harm.bind fun _ => (hsort 0).bind fun _ => hsort 1⟩
  · trivial

/-- The second half loads from `adc_sample`, stores to `old` and selects the two channels there
are. -/
theorem driveIfReady_only (hstatus : P .daccStatus) (hload : ∀ i, P (.load ⟨.adcSample, i⟩))
    (hsave : ∀ v, P (.save .old v)) (hselect : ∀ channel, channel ≤ 1 → P (.select channel))
    (hwrite : ∀ d, P (.write d)) (hpredict : ∀ n, P (.predict n))
    (hupdate : ∀ r, P (.update r)) : driveIfReady.Only P := by
  refine ⟨hstatus, fun (status : UInt32) => ?_⟩
  show (if status.toUInt16 &&& daccIsrTxrdy = daccIsrTxrdy then drive else pure ()).Only P
  split_ifs
  · exact ⟨hload _, fun _ => ⟨hpredict _, fun _ => ⟨hload _, fun _ => ⟨hsave _, fun _ =>
      ⟨hselect _ (by decide), fun _ => ⟨hload _, fun _ => ⟨hwrite _, fun _ =>
        ⟨hselect _ (by decide), fun _ => ⟨hwrite _, fun _ => ⟨hload _, fun _ =>
          ⟨hupdate _, fun _ => trivial⟩⟩⟩⟩⟩⟩⟩⟩⟩⟩⟩
  · trivial

end Only

/-! ### One invocation -/

namespace Invocation

/-- The words the demultiplexing loop reads. -/
def words (v : Invocation) : List UInt16 := if v.pdc.rxbuff then [v.temp 0, v.temp 1] else []

/-- The converter is ready for new data. -/
def txrdy (v : Invocation) : Bool := v.daccIsr.toUInt16 &&& daccIsrTxrdy = daccIsrTxrdy

end Invocation

omit [FloatArith α] in
/-- The loop leaves the samples of the words it has read, and nothing else of `adc_sample` that is
read again. -/
theorem captured_mem (m : Machine α) (temp : Nat) :
    (∀ j, (m.captured temp).mem (.chVal j) = sample (sampleTag j)
        [m.mem (.temp temp 0), m.mem (.temp temp 1)] (m.mem (.chVal j))) ∧
      (m.captured temp).mem .old = m.mem .old := by
  refine ⟨fun j => ?_, ?_⟩
  · have hdone : Function.update m.mem .done adcDoneMask (.chVal j) = m.mem (.chVal j) :=
      Function.update_of_ne (by revert j; decide) ..
    show sortWord (sortWord _ _) _ (.chVal j) = _
    rw [sortWord_chVal, sortWord_chVal, hdone, sample_pair]
  · have hne : ∀ j, Addr.old ≠ .chVal j := by decide
    show sortWord (sortWord _ _) _ .old = _
    rw [sortWord_of_ne hne, sortWord_of_ne hne, Function.update_of_ne (by decide)]

/-- An invocation reads its words, and then writes if it may. -/
theorem invoke_eq (m : Machine α) (v : Invocation) :
    ∃ m' : Machine α,
      (∀ j, m'.mem (.chVal j) = sample (sampleTag j) v.words (m.mem (.chVal j))) ∧
      m'.mem .old = m.mem .old ∧ m'.fxlms = m.fxlms ∧ m'.cdr = m.cdr ∧
      m.invoke v = if v.txrdy then m'.driven else m' := by
  have htemp : ∀ i, ((m.meet v).declare v.temp).mem (.temp m.frames i) = v.temp i :=
    fun i => dif_pos ⟨rfl, i.isLt⟩
  have hinvoke := congrArg Prod.snd (alone_adcHandler v.temp (m.meet v))
  have hpdc : (m.meet v).pdc = v.pdc := rfl
  rw [hpdc] at hinvoke
  by_cases hfull : v.pdc.rxbuff = true
  · obtain ⟨hchVal, hold⟩ := captured_mem ((m.meet v).declare v.temp) m.frames
    rw [htemp, htemp] at hchVal
    rw [if_pos hfull] at hinvoke
    have hwords : v.words = [v.temp 0, v.temp 1] := if_pos hfull
    exact ⟨((m.meet v).declare v.temp).captured m.frames, by rw [hwords]; exact hchVal, hold, rfl,
      rfl, hinvoke⟩
  · rw [if_neg hfull] at hinvoke
    have hwords : v.words = [] := if_neg hfull
    refine ⟨(m.meet v).declare v.temp, fun j => ?_, rfl, rfl, rfl, hinvoke⟩
    rw [hwords]
    rfl

end Anc
