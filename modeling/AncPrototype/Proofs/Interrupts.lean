/-
What holds around the handler.

The receive channel is given `adc_sample.ch_val` once, by `initialize_adc`, and after
that only arrays `temp`, one for every invocation that sees RXBUFF.  So the queue of
buffers is known, and with it where conversions go: `ch_val` takes the first two raw
words, tags included, and is from then on written by the demultiplexing loop alone.
`Samples` says so, as a function of the words that the cases of the loop have taken:
each entry is the data of the last one taken for it, and the raw word as long as there
is none.  The cases are those that the words seen by the `switch` select, one for each
such word, but the word taken is loaded again (`Matched`).

`Running` is what this file proves of every invocation, under any placement of
conversions: it is stable, and each access of the handler keeps it.
-/
import AncPrototype.Proofs.Fifo
import AncPrototype.Proofs.Handler

namespace Anc

open DeviceProgram

/-! ### The buffers -/

/-- `adc_sample.ch_val`, as `initialize_adc` gives it to the channel. -/
def bootBuffer : BufferCall Addr :=
  { ptr := .chVal 0, size := bufferSize, pos := by decide, fits := by decide }

/-- The array `temp` of an invocation. -/
def frameBuffer (frame : Nat) : BufferCall Addr :=
  { ptr := .temp frame 0, size := bufferSize, pos := by decide, fits := by decide }

/-- The queue, once the invocations `frames` have put their arrays into it. -/
def buffers (frames : List Nat) : List (BufferCall Addr) := bootBuffer :: frames.map frameBuffer

theorem buffers_append (frames : List Nat) (frame : Nat) :
    buffers (frames ++ [frame]) = buffers frames ++ [frameBuffer frame] := by
  simp [buffers]

theorem iterate_next (a : Addr) (k : Nat) : HalfwordPtr.next^[k] a = ⟨a.object, a.index + k⟩ := by
  induction k with
  | zero => rfl
  | succ k ih =>
      rw [Function.iterate_succ_apply', ih]
      rfl

/-- Every buffer has two words. -/
theorem size_of_mem_buffers {frames : List Nat} {b : BufferCall Addr} (h : b ∈ buffers frames) :
    b.size = bufferSize := by
  rcases List.mem_cons.mp h with rfl | h
  · rfl
  · obtain ⟨frame, -, rfl⟩ := List.mem_map.mp h
    rfl

/-- Every buffer but the first is a `temp`. -/
theorem getElem?_buffers_succ {frames : List Nat} {i : Nat} {b : BufferCall Addr}
    (h : (buffers frames)[i + 1]? = some b) : ∃ frame, b = frameBuffer frame := by
  rw [buffers, List.getElem?_cons_succ, List.getElem?_map] at h
  obtain ⟨frame, -, rfl⟩ := Option.map_eq_some_iff.mp h
  exact ⟨frame, rfl⟩

/-! ### The samples -/

/-- The raw word `j` of all that is stored; 0 before it is. -/
def rawWord (log : List (Stored Addr)) (j : Nat) : UInt16 := ((log[j]?).map Stored.word).getD 0

theorem rawWord_append {log : List (Stored Addr)} {j : Nat} (h : j < log.length)
    (later : List (Stored Addr)) : rawWord (log ++ later) j = rawWord log j := by
  unfold rawWord
  rw [List.getElem?_append_left h]

theorem rawWord_snoc (log : List (Stored Addr)) (s : Stored Addr) (j : Nat) :
    rawWord (log ++ [s]) j = if j = log.length then s.word else rawWord log j := by
  unfold rawWord
  rcases Nat.lt_trichotomy j log.length with h | h | h
  · rw [if_neg (by omega), List.getElem?_append_left h]
  · rw [if_pos h, h, List.getElem?_append_right (Nat.le_refl _)]
    simp
  · rw [if_neg (by omega), List.getElem?_eq_none (by simp; omega), List.getElem?_eq_none (by omega)]

/-- A word that a case has taken, with the entry it goes to. -/
abbrev Taken := Fin numChannels × UInt16

/-- The data of the last word taken for an entry. -/
def lastFor (j : Fin numChannels) (taken : List Taken) : Option UInt16 :=
  ((taken.filter fun t => t.1 = j).getLast?).map fun t => wordData t.2

theorem lastFor_snoc (j : Fin numChannels) (taken : List Taken) (t : Taken) :
    lastFor j (taken ++ [t]) = if t.1 = j then some (wordData t.2) else lastFor j taken := by
  unfold lastFor
  rw [List.filter_append]
  split_ifs with h <;> simp [h]

theorem lastFor_eq_none_iff (j : Fin numChannels) (taken : List Taken) :
    lastFor j taken = none ↔ ∀ t ∈ taken, t.1 ≠ j := by
  unfold lastFor
  rw [Option.map_eq_none_iff, List.getLast?_eq_none_iff, List.filter_eq_nil_iff]
  simp

/-- The data have twelve bits. -/
theorem lastFor_le {j : Fin numChannels} {taken : List Taken} {data : UInt16}
    (h : lastFor j taken = some data) : data.toNat ≤ 4095 := by
  obtain ⟨t, -, rfl⟩ := Option.map_eq_some_iff.mp h
  rw [toNat_wordData]
  omega

variable {α : Type}

/-- `adc_sample` and the conversions, when the loop has taken `taken` and `k` arrays `temp` have been
put into the queue. -/
structure Samples (k : Nat) (taken : List Taken) (old : UInt16) (m : Machine α) : Prop where
  chVal : ∀ j, m.mem (.chVal j) = (lastFor j taken).getD (rawWord m.pdc.log j)
  old : m.mem .old = old
  /-- The channels take turns. -/
  turns : ∃ first : AdcChannel, m.channel = AdcChannel.next^[m.pdc.convs.length] first ∧
    ∀ i w, m.pdc.convs[i]? = some w → wordTag w = (AdcChannel.next^[i] first).number
  /-- A raw word is no sample. -/
  tagged : ∀ s ∈ m.pdc.log, 4096 ≤ s.word.toNat
  ahead : k ≤ m.pdc.full.length
  unread : m.pdc.full = [] → taken = []

theorem number_pos (c : AdcChannel) : 1 ≤ c.number.toNat := by
  cases c <;> decide

/-- Where a conversion goes: one of the first two words of all is the next entry of `ch_val`, any
other is in a `temp`. -/
theorem rpr_of_armed {frames : List Nat} {p : Pdc Addr} (h : Fifo (buffers frames) p)
    (hr : p.rcr ≠ 0) :
    (p.full = [] ∧ p.cur.length < 2 ∧ p.rpr = ⟨.adcSample, p.cur.length⟩) ∨
      (p.full ≠ [] ∧ 2 ≤ p.log.length ∧ ∃ frame, p.rpr.object = .temp frame) := by
  obtain ⟨b, hb, hlt, hrpr⟩ := h.current hr
  rw [iterate_next] at hrpr
  cases hfull : p.full with
  | nil =>
      rw [hfull] at hb
      obtain rfl : bootBuffer = b := Option.some.inj hb
      refine .inl ⟨rfl, hlt, ?_⟩
      rw [hrpr]
      show (⟨.adcSample, 0 + p.cur.length⟩ : Addr) = _
      rw [Nat.zero_add]
  | cons stores rest =>
      refine .inr ⟨by simp, ?_, ?_⟩
      · obtain ⟨b₀, hb₀, start, -, hstores⟩ := h.full_getElem (i := 0) (by simp [hfull])
        have hsize := size_of_mem_buffers (List.mem_of_getElem? hb₀)
        have hlen : stores.length = 2 := by
          simp only [hfull, List.getElem_cons_zero] at hstores
          rw [hstores, length_burst, hsize]
          rfl
        unfold Pdc.log
        rw [hfull]
        simp [hlen]
      · rw [hfull, List.length_cons] at hb
        obtain ⟨frame, rfl⟩ := getElem?_buffers_succ hb
        exact ⟨frame, by rw [hrpr]; rfl⟩

/-- The first two words go to `ch_val` and change nothing else, later ones go elsewhere. -/
theorem Samples.store {k : Nat} {taken : List Taken} {old : UInt16} {m : Machine α}
    (h : Samples k taken old m) {frames : List Nat} (hfifo : Fifo (buffers frames) m.pdc)
    (hr : m.pdc.rcr ≠ 0) (word : UInt16) :
    (∀ j : Fin numChannels, Function.update m.mem m.pdc.rpr word (.chVal j)
        = (lastFor j taken).getD (rawWord (m.pdc.log ++ [m.pdc.taken word]) j)) ∧
      Function.update m.mem m.pdc.rpr word .old = old := by
  rcases rpr_of_armed hfifo hr with ⟨hboot, hlt, hrpr⟩ | ⟨-, hlen, frame, hrpr⟩
  · have hcur : m.pdc.log = m.pdc.cur := by simp [Pdc.log, hboot]
    rw [hrpr, h.unread hboot, hcur]
    refine ⟨fun j => ?_, ?_⟩
    · have hnone : ∀ before : UInt16, (lastFor j []).getD before = before := fun _ => rfl
      have hj := h.chVal j
      rw [h.unread hboot, hcur, hnone] at hj
      rw [hnone, rawWord_snoc]
      by_cases hcell : j.val = m.pdc.cur.length
      · rw [if_pos hcell, ← hcell]
        exact Function.update_self ..
      · rw [if_neg hcell, ← hj]
        exact Function.update_of_ne (by simp [hcell]) ..
    · rw [Function.update_of_ne, h.old]
      simp only [ne_eq, Addr.mk.injEq, true_and]
      show ¬(2 + 1 = m.pdc.cur.length)
      omega
  · have hne : ∀ i, (⟨.adcSample, i⟩ : Addr) ≠ m.pdc.rpr := by
      intro i heq
      rw [← heq] at hrpr
      exact absurd hrpr (by simp)
    refine ⟨fun j => ?_, ?_⟩
    · rw [Function.update_of_ne (hne j), rawWord_append (Nat.lt_of_lt_of_le j.isLt hlen)]
      exact h.chVal j
    · rw [Function.update_of_ne (hne _)]
      exact h.old

/-- **A conversion keeps the samples.** -/
theorem Samples.convert {k : Nat} {taken : List Taken} {old : UInt16} {m : Machine α}
    (h : Samples k taken old m) {frames : List Nat} (hfifo : Fifo (buffers frames) m.pdc)
    (data : BitVec 12) : Samples k taken old (m.convert data) := by
  let word := taggedWord m.channel data
  have hprefix : m.pdc.full <+: (m.convert data).pdc.full := Pdc.full_prefix_convert m.pdc word
  have hlog := Pdc.log_convert m.pdc word
  have hmem : (∀ j : Fin numChannels, (m.convert data).mem (.chVal j)
        = (lastFor j taken).getD (rawWord (m.convert data).pdc.log j)) ∧
      (m.convert data).mem .old = old ∧
      ∀ s ∈ (m.convert data).pdc.log, 4096 ≤ s.word.toNat := by
    by_cases hs : m.pdc.rxten = true ∧ m.pdc.rcr ≠ 0
    · have hmem : (m.convert data).mem = Function.update m.mem m.pdc.rpr word := if_pos hs
      have hlog' : (m.convert data).pdc.log = m.pdc.log ++ [m.pdc.taken word] :=
        hlog.trans (if_pos hs)
      obtain ⟨hchVal, hold⟩ := h.store hfifo hs.2 word
      rw [hmem, hlog']
      refine ⟨hchVal, hold, ?_⟩
      intro s hs
      rcases List.mem_append.mp hs with hs | hs
      · exact h.tagged s hs
      · have hpos := number_pos m.channel
        rw [List.mem_singleton.mp hs]
        show 4096 ≤ (taggedWord m.channel data).toNat
        rw [toNat_taggedWord]
        omega
    · have hmem : (m.convert data).mem = m.mem := if_neg hs
      have hlog' : (m.convert data).pdc.log = m.pdc.log := hlog.trans (if_neg hs)
      rw [hmem, hlog']
      exact ⟨h.chVal, h.old, h.tagged⟩
  refine ⟨hmem.1, hmem.2.1, ?_, hmem.2.2, Nat.le_trans h.ahead hprefix.length_le, ?_⟩
  · obtain ⟨first, hchannel, hturns⟩ := h.turns
    refine ⟨first, ?_, ?_⟩
    · show m.channel.next = AdcChannel.next^[(m.pdc.convs ++ [word]).length] first
      rw [List.length_append, List.length_singleton, Function.iterate_succ_apply', hchannel]
    · intro i w hw
      have hw' : (m.pdc.convs ++ [word])[i]? = some w := hw
      rw [List.getElem?_append] at hw'
      split_ifs at hw' with hlt
      · exact hturns i w hw'
      · obtain ⟨hi, rfl⟩ := List.getElem?_eq_some_iff.mp hw'
        rw [List.length_singleton] at hi
        obtain rfl : i = m.pdc.convs.length := by omega
        rw [← hchannel, List.getElem_singleton]
        exact wordTag_taggedWord m.channel data
  · intro hempty
    rw [hempty] at hprefix
    exact h.unread (List.prefix_nil.mp hprefix)

/-- Nothing but these parts of the machine matters. -/
theorem Samples.congr {k : Nat} {taken : List Taken} {old : UInt16} {m m' : Machine α}
    (h : Samples k taken old m) (hpdc : m'.pdc.convs = m.pdc.convs ∧ m'.pdc.cur = m.pdc.cur ∧
      m'.pdc.full = m.pdc.full) (hchannel : m'.channel = m.channel)
    (hmem : ∀ i, m'.mem ⟨.adcSample, i⟩ = m.mem ⟨.adcSample, i⟩) : Samples k taken old m' := by
  obtain ⟨hconvs, hcur, hfull⟩ := hpdc
  have hlog : m'.pdc.log = m.pdc.log := by unfold Pdc.log; rw [hcur, hfull]
  refine ⟨fun j => ?_, ?_, ?_, ?_, ?_, ?_⟩
  · rw [hmem, hlog]
    exact h.chVal j
  · rw [hmem]
    exact h.old
  · rw [hconvs, hchannel]
    exact h.turns
  · rw [hlog]
    exact h.tagged
  · rw [hfull]
    exact h.ahead
  · rw [hfull]
    exact h.unread

/-! ### Between accesses -/

/-- No event can break it. -/
abbrev Machine.Stable [FloatArith α] (P : Machine α → Prop) : Prop :=
  Device.Stable (machineDevice : Device HandlerOp HandlerOp.Resp (Machine α) Event) P

/-- The machine, when the invocations `frames` have put their arrays into the queue. -/
structure Running (frames : List Nat) (taken : List Taken) (old : UInt16) (m : Machine α) :
    Prop where
  resting : Resting (buffers frames) m.pdc
  samples : Samples frames.length taken old m

namespace Running

variable {frames : List Nat} {taken : List Taken} {old : UInt16} {m : Machine α}

theorem congr (h : Running frames taken old m) {m' : Machine α} (hpdc : m'.pdc = m.pdc)
    (hchannel : m'.channel = m.channel)
    (hmem : ∀ i, m'.mem ⟨.adcSample, i⟩ = m.mem ⟨.adcSample, i⟩) : Running frames taken old m' :=
  ⟨hpdc ▸ h.resting, h.samples.congr ⟨by rw [hpdc], by rw [hpdc], by rw [hpdc]⟩ hchannel hmem⟩

theorem declare (h : Running frames taken old m) (contents : Fin numChannels → UInt16) :
    Running frames taken old (m.declare contents) :=
  h.congr rfl rfl fun _ => rfl

/-- A store to `adc_sample` beyond `ch_val`. -/
theorem save (h : Running frames taken old m) {a : Addr} (ha : ∀ j, a ≠ .chVal j) (v : UInt16) :
    Running frames taken (if a = .old then v else old)
      { m with mem := Function.update m.mem a v } := by
  refine ⟨h.resting, fun j => ?_, ?_, h.samples.turns, h.samples.tagged, h.samples.ahead,
    h.samples.unread⟩
  · rw [← h.samples.chVal j]
    exact Function.update_of_ne (ha j).symm ..
  · show Function.update m.mem a v .old = _
    split_ifs with hold
    · rw [hold, Function.update_self]
    · rw [Function.update_of_ne (Ne.symm hold), h.samples.old]

/-- What a case does with the word it takes. -/
theorem take (h : Running frames taken old m) (hne : frames ≠ []) (t : Taken) :
    Running frames (taken ++ [t]) old
      { m with mem := Function.update m.mem (.chVal t.1) (wordData t.2) } := by
  have happ : ∀ i j : Fin numChannels, i ≠ j → Addr.chVal j ≠ .chVal i := by
    intro i j hij heq
    exact hij (Fin.ext (Addr.mk.inj heq).2.symm)
  refine ⟨h.resting, fun j => ?_, ?_, h.samples.turns, h.samples.tagged, h.samples.ahead, ?_⟩
  · show Function.update m.mem (.chVal t.1) (wordData t.2) (.chVal j) = _
    rw [lastFor_snoc]
    by_cases hj : t.1 = j
    · rw [if_pos hj, ← hj, Function.update_self]
      rfl
    · rw [if_neg hj, Function.update_of_ne (happ t.1 j hj)]
      exact h.samples.chVal j
  · show Function.update m.mem (.chVal t.1) (wordData t.2) .old = _
    have hold : Addr.old ≠ .chVal t.1 := fun heq =>
      absurd (Addr.mk.inj heq).2 (Nat.ne_of_gt (Nat.lt_succ_of_lt t.1.isLt))
    rw [Function.update_of_ne hold, h.samples.old]
  · intro hfull
    have hahead := h.samples.ahead
    rw [hfull, List.length_nil] at hahead
    exact absurd (List.length_eq_zero_iff.mp (Nat.le_zero.mp hahead)) hne

variable [FloatArith α]

theorem initialized (u : PowerUp) : Running [] [] 2048 (Machine.initialized u : Machine α) := by
  obtain ⟨m, hm⟩ : ∃ m : Machine α, m = Machine.initialized u := ⟨_, rfl⟩
  have hpdc := hm ▸ pdc_initialized u
  have hchVal : ∀ j, m.mem (.chVal j) = 0 := hm ▸ chVal_initialized u
  have hold : m.mem .old = 2048 := hm ▸ old_initialized u
  rw [← hm]
  have hlog : m.pdc.log = [] := by rw [hpdc]; rfl
  have hbanks : Banks m.pdc [bootBuffer] := by
    rw [hpdc]
    exact ⟨Filling.fresh rfl rfl rfl, rfl⟩
  have hfull : m.pdc.full = [] := by rw [hpdc]
  have hconvs : m.pdc.convs = [] := by rw [hpdc]
  refine ⟨⟨⟨[], [bootBuffer], rfl, ?_, hbanks, ?_, ?_⟩, fun _ => by rw [hpdc]⟩, ?_⟩
  · rw [hfull]
    exact .nil
  · rw [hlog]
    exact fun s hs => absurd hs List.not_mem_nil
  · rw [hlog]
    exact .nil
  · refine ⟨fun j => ?_, hold, ⟨m.channel, ?_, ?_⟩, ?_, Nat.zero_le _, fun _ => rfl⟩
    · rw [hchVal j, hlog]
      rfl
    · rw [hconvs]
      rfl
    · rw [hconvs]
      exact fun i w hw => absurd hw (by simp)
    · rw [hlog]
      exact fun s hs => absurd hs List.not_mem_nil

theorem stable (frames : List Nat) (taken : List Taken) (old : UInt16) :
    Machine.Stable fun m : Machine α => Running frames taken old m := by
  intro e m h
  cases e with
  | conversion data =>
      exact ⟨Resting.stable _ _ _ h.resting, h.samples.convert h.resting.fifo data⟩
  | flags adc dacc =>
      exact ⟨h.resting, h.samples.congr ⟨rfl, rfl, rfl⟩ rfl fun _ => rfl⟩

end Running

/-! ### The first half of the handler -/

/-- An access, with the state it is made in. -/
abbrev Access (α : Type) := HandlerOp × Machine α

/-- The word that a `switch` loads from `temp`. -/
def Access.tempWord (a : Access α) : Option UInt16 :=
  match a.1 with
  | .load ⟨.temp frame, i⟩ => some (a.2.mem ⟨.temp frame, i⟩)
  | _ => none

/-- The word that a case takes. -/
def Access.taken (a : Access α) : Option Taken :=
  match a.1 with
  | .reload entry p => some (entry, a.2.mem p)
  | _ => none

/-- The words that the `switch` of the demultiplexing loop has seen. -/
def wordsRead (tr : List (Access α)) : List UInt16 := tr.filterMap Access.tempWord

/-- The words that its cases have taken. -/
def wordsTaken (tr : List (Access α)) : List Taken := tr.filterMap Access.taken

/-- There is one for each word that selects a case, for its entry. -/
def Matched (tr : List (Access α)) : Prop :=
  (wordsRead tr).filterMap entryOf = (wordsTaken tr).map Prod.fst

/-- An invocation has seen RXBUFF. -/
def sawRxbuff (tr : List (Access α)) : Bool :=
  tr.any fun a => match a.1 with
    | .adcStatus => a.2.pdc.rxbuff
    | _ => false

/-- The access neither reads `adc_sample` nor writes to the converter nor calls the filter. -/
def HandlerOp.Silent : HandlerOp → Prop
  | load ⟨.adcSample, _⟩ => False
  | write _ => False
  | predict _ => False
  | update _ => False
  | _ => True

theorem wordsRead_append (tr tr' : List (Access α)) :
    wordsRead (tr ++ tr') = wordsRead tr ++ wordsRead tr' := List.filterMap_append

theorem wordsTaken_append (tr tr' : List (Access α)) :
    wordsTaken (tr ++ tr') = wordsTaken tr ++ wordsTaken tr' := List.filterMap_append

theorem Matched.append {tr tr' : List (Access α)} (h : Matched tr) (h' : Matched tr') :
    Matched (tr ++ tr') := by
  unfold Matched at h h' ⊢
  rw [wordsRead_append, wordsTaken_append, List.filterMap_append, List.map_append, h, h']

/-- An entry has been taken for exactly if a word with its tag has been seen. -/
theorem Matched.iff {tr : List (Access α)} (h : Matched tr) (j : Fin numChannels) :
    (∃ w ∈ wordsRead tr, wordTag w = sampleTag j) ↔ ∃ t ∈ wordsTaken tr, t.1 = j := by
  have hmem : j ∈ (wordsRead tr).filterMap entryOf ↔ j ∈ (wordsTaken tr).map Prod.fst := by
    rw [h]
  rw [List.mem_filterMap, List.mem_map] at hmem
  simpa only [entryOf_eq_some_iff] using hmem

theorem sawRxbuff_append (tr tr' : List (Access α)) :
    sawRxbuff (tr ++ tr') = (sawRxbuff tr || sawRxbuff tr') := List.any_append

/-- Accesses to the channel are none of those that matter. -/
theorem silent_pdc (tr : List (PdcOp Addr × Machine α)) :
    ∀ a ∈ tr.map fun a => (HandlerOp.pdc a.1, a.2), a.1.Silent := by
  intro a ha
  obtain ⟨b, -, rfl⟩ := List.mem_map.mp ha
  trivial

/-- Accesses outside the loop, after the status. -/
structure Plain (tr : List (Access α)) : Prop where
  read : wordsRead tr = []
  taken : wordsTaken tr = []
  unasked : sawRxbuff tr = false

theorem Plain.matched {tr : List (Access α)} (h : Plain tr) : Matched tr := by
  unfold Matched
  rw [h.read, h.taken]
  rfl

/-- The loop has looked at `n` words, and has done with them what their tags say. -/
structure Loops (n : Nat) (tr : List (Access α)) : Prop where
  matched : Matched tr
  length : (wordsRead tr).length = n

theorem Loops.append {n n' : Nat} {tr tr' : List (Access α)} (h : Loops n tr)
    (h' : Loops n' tr') : Loops (n + n') (tr ++ tr') := by
  refine ⟨h.matched.append h'.matched, ?_⟩
  rw [wordsRead_append, List.length_append, h.length, h'.length]

theorem Plain.loops {tr : List (Access α)} (h : Plain tr) : Loops 0 tr := by
  refine ⟨h.matched, ?_⟩
  rw [h.read]
  rfl

theorem Plain.append {tr tr' : List (Access α)} (h : Plain tr) (h' : Plain tr') :
    Plain (tr ++ tr') := by
  refine ⟨?_, ?_, ?_⟩
  · rw [wordsRead_append, h.read, h'.read]
    rfl
  · rw [wordsTaken_append, h.taken, h'.taken]
    rfl
  · rw [sawRxbuff_append, h.unasked, h'.unasked]
    rfl

theorem plain_pdc (tr : List (PdcOp Addr × Machine α)) :
    Plain (tr.map fun a => (HandlerOp.pdc a.1, a.2)) := by
  refine ⟨?_, ?_, ?_⟩
  · simp [wordsRead, Access.tempWord]
  · simp [wordsTaken, Access.taken]
  · simp [sawRxbuff]

variable [FloatArith α] {B C : Type}

/-- `p` makes silent accesses only, and what they are and where they lead meets `post`. -/
def Silently (p : HandlerProg B) (before : List (Access α)) (m : Machine α)
    (post : List (Access α) → B → Machine α → Prop) : Prop :=
  machineDevice.Sat (fun tr _ _ => ∃ tr', tr = before ++ tr' ∧ ∀ a ∈ tr', a.1.Silent)
    (fun tr b s => ∃ tr', tr = before ++ tr' ∧ (∀ a ∈ tr', a.1.Silent) ∧ post tr' b s) p before m

namespace Silently

variable {before : List (Access α)} {m : Machine α}

theorem access {o : HandlerOp} (ho : o.Silent) {P : Machine α → Prop}
    {post : List (Access α) → o.Resp → Machine α → Prop}
    (hP : Machine.Stable P) (hm : P m)
    (h : ∀ t, P t → ∀ es,
      post [(o, t)] (Machine.exec o t).1 (machineDevice.envs es (Machine.exec o t).2)) :
    Silently (Prog.step o Prog.ret) before m post := by
  refine Device.Sat.access hP hm fun t ht => ⟨⟨[], (List.append_nil _).symm, ?_⟩, fun es => ?_⟩
  · exact fun a ha => absurd ha List.not_mem_nil
  · refine ⟨[(o, t)], rfl, ?_, h t ht es⟩
    intro a ha
    rw [List.mem_singleton.mp ha]
    exact ho

theorem ret {b : B} {P : Machine α → Prop} {post : List (Access α) → B → Machine α → Prop}
    (hP : Machine.Stable P) (hm : P m) (h : ∀ t, P t → post [] b t) :
    Silently (Prog.ret b) before m post :=
  Device.Sat.ret hP hm fun t ht =>
    ⟨[], (List.append_nil _).symm, fun _ ha => absurd ha List.not_mem_nil, h t ht⟩

theorem mono {p : HandlerProg B} {post post' : List (Access α) → B → Machine α → Prop}
    (h : Silently p before m post) (himp : ∀ tr b s, post tr b s → post' tr b s) :
    Silently p before m post' := by
  refine Device.Sat.mono (fun _ _ _ hG => hG) ?_ p h
  rintro tr b s ⟨tr', htr, hsilent, hpost⟩
  exact ⟨tr', htr, hsilent, himp tr' b s hpost⟩

theorem bind {p : HandlerProg B} {f : B → HandlerProg C}
    {post : List (Access α) → B → Machine α → Prop}
    {post' : List (Access α) → C → Machine α → Prop} (h : Silently p before m post)
    (hf : ∀ tr b s, post tr b s →
      Silently (f b) (before ++ tr) s fun tr' c s' => post' (tr ++ tr') c s') :
    Silently (p >>= f) before m post' := by
  refine Device.Sat.bind p (Device.Sat.mono (fun _ _ _ hG => hG) ?_ p h)
  rintro tr b s ⟨tr₁, rfl, hsilent, hpost⟩
  have happend : ∀ tr₂ : List (Access α), (∀ a ∈ tr₂, a.1.Silent) → ∀ a ∈ tr₁ ++ tr₂, a.1.Silent :=
    fun tr₂ h₂ a ha => (List.mem_append.mp ha).elim (hsilent a) (h₂ a)
  refine Device.Sat.mono ?_ ?_ (f b) (hf tr₁ b s hpost)
  · rintro tr _ _ ⟨tr₂, rfl, h₂⟩
    exact ⟨tr₁ ++ tr₂, List.append_assoc .., happend tr₂ h₂⟩
  · rintro tr c s' ⟨tr₂, rfl, h₂, hpost'⟩
    exact ⟨tr₁ ++ tr₂, List.append_assoc .., happend tr₂ h₂, hpost'⟩

end Silently

/-- What holds of the channel under conversions holds of the machine under its events. -/
theorem Machine.stable_pdc {P : Pdc Addr → Prop} (hP : ∀ p word, P p → P (p.convert word)) :
    Machine.Stable fun m : Machine α => P m.pdc := by
  intro e m h
  cases e with
  | conversion data => exact hP m.pdc (taggedWord m.channel data) h
  | flags adc dacc => exact h

theorem Machine.stable_empty :
    Machine.Stable fun m : Machine α => m.pdc.rcr = 0 ∧ m.pdc.rncr = 0 :=
  Machine.stable_pdc fun p word => Pdc.stable_empty word p

section Capture

variable {frames : List Nat} {taken : List Taken} {old : UInt16} {before : List (Access α)}
  {m : Machine α}

/-- **`read_adc_buffer` in the handler**: it finds both banks empty, and puts `temp` into the
queue. -/
theorem arm_silently (h : Running frames taken old m) (hempty : m.pdc.rcr = 0 ∧ m.pdc.rncr = 0)
    (temp : Nat) :
    Silently (HandlerProg.pdc (readAdcBuffer (.temp temp 0) bufferSize)) before m
      fun tr _ s => Plain tr ∧ Running (frames ++ [temp]) taken old s := by
  let R (p : Pdc Addr) : Prop :=
    Fifo (buffers frames) p ∨ Fifo (buffers frames ++ [frameBuffer temp]) p
  have hahead : Samples (frames.length + 1) taken old m := by
    refine { h.samples with ahead := ?_ }
    rw [h.resting.fifo.length_full hempty.1]
    simp [buffers]
  have hsmall := readAdcBuffer_sat (c := frameBuffer temp) h.resting
  have hbig : machineDevice.Sat
      (fun tr _ _ => ∃ tr', tr = before ++ tr' ∧ ∀ a ∈ tr', a.1.Silent)
      (fun tr _ s => ∃ tr', tr = before ++ tr' ∧ (∀ a ∈ tr', a.1.Silent) ∧ Plain tr' ∧
        Running (frames ++ [temp]) taken old s)
      ((readAdcBuffer (.temp temp 0) bufferSize).embed HandlerOp.pdc fun _ r => r)
      (before ++ [].map fun a : PdcOp Addr × Machine α => (HandlerOp.pdc a.1, a.2)) m := by
    refine Device.Sat.embed (R := R) (F := Samples (frames.length + 1) taken old)
      (fun _ _ _ hG => hG.2) ?_ ?_ ?_ ?_ ?_ _ [] m hahead hsmall
    · rintro tr result p ⟨⟨-, hrest⟩ | ⟨-, -, hrest⟩, -⟩
      · exact .inr hrest.fifo
      · exact .inl hrest.fifo
    · intro o s hF
      exact ⟨hF.congr (Pdc.exec_history o s.pdc) rfl fun _ => rfl, rfl, rfl⟩
    · intro e s hF hR
      have hfifo : ∃ frames', Fifo (buffers frames') s.pdc := by
        rcases hR with hR | hR
        · exact ⟨frames, hR⟩
        · exact ⟨frames ++ [temp], buffers_append frames temp ▸ hR⟩
      obtain ⟨frames', hfifo⟩ := hfifo
      cases e with
      | conversion data => exact ⟨hF.convert hfifo data, .inr ⟨taggedWord s.channel data, rfl⟩⟩
      | flags adc dacc => exact ⟨hF.congr ⟨rfl, rfl, rfl⟩ rfl fun _ => rfl, .inl rfl⟩
    · intro tr o s _ _
      exact ⟨_, rfl, silent_pdc tr⟩
    · rintro tr result s hF ⟨hreturn, hone⟩
      have hrest : Resting (buffers (frames ++ [temp])) s.pdc := by
        rw [buffers_append]
        rcases hreturn with ⟨-, hrest⟩ | ⟨hzero, -⟩
        · exact hrest
        · rw [hone hempty] at hzero
          exact absurd hzero (by decide)
      refine ⟨_, rfl, silent_pdc tr, plain_pdc tr, hrest, ?_⟩
      rw [List.length_append]
      exact hF
  rw [List.map_nil, List.append_nil] at hbig
  exact hbig

/-- One case of the loop. -/
theorem take_silently (h : Running frames taken old m) (hne : frames ≠ []) (j : Fin numChannels)
    (a : Addr) :
    Silently (take j a) before m fun tr _ s =>
      sawRxbuff tr = false ∧ wordsRead tr = [] ∧ (wordsTaken tr).map Prod.fst = [j] ∧
        Running frames (taken ++ wordsTaken tr) old s := by
  have hreload : Silently (HandlerProg.reload j a) before m fun tr w s =>
      sawRxbuff tr = false ∧ wordsRead tr = [] ∧ wordsTaken tr = [(j, w)] ∧
        Running frames taken old s :=
    Silently.access (o := .reload j a) trivial (Running.stable frames taken old) h
      fun t ht es => ⟨rfl, rfl, rfl, (Running.stable frames taken old).envs es ht⟩
  refine Silently.bind hreload fun tr w s ⟨hsaw, hwords, htaken, hs⟩ => ?_
  refine Silently.access (o := .save (.chVal j) (wordData w)) trivial
    (Running.stable frames taken old) hs fun t ht es => ?_
  rw [sawRxbuff_append, wordsRead_append, wordsTaken_append, hsaw, hwords, htaken]
  exact ⟨rfl, rfl, rfl, (Running.stable _ _ _).envs es (ht.take hne (j, w))⟩

theorem demultiplex_silently (h : Running frames taken old m) (hne : frames ≠ []) (temp : Nat)
    (i : Fin numChannels) :
    Silently (demultiplex temp i) before m fun tr _ s =>
      sawRxbuff tr = false ∧ Loops 1 tr ∧ Running frames (taken ++ wordsTaken tr) old s := by
  have hload : Silently (HandlerProg.load (.temp temp i)) before m fun tr w s =>
      wordsRead tr = [w] ∧ wordsTaken tr = [] ∧ sawRxbuff tr = false ∧ Running frames taken old s :=
    Silently.access (o := .load (.temp temp i)) trivial (Running.stable frames taken old) h
      fun t ht es => ⟨rfl, rfl, rfl, (Running.stable frames taken old).envs es ht⟩
  refine Silently.bind hload fun tr w s ⟨hwords, htaken, hsaw, hs⟩ => ?_
  have hcase : ∀ j, entryOf w = some j →
      Silently (take j (.temp temp i)) (before ++ tr) s fun tr' _ s' => sawRxbuff (tr ++ tr') = false ∧
        Loops 1 (tr ++ tr') ∧ Running frames (taken ++ wordsTaken (tr ++ tr')) old s' := by
    intro j hj
    refine Silently.mono (take_silently hs hne j (.temp temp i))
      fun tr' _ s' ⟨hsaw', hwords', htaken', hs'⟩ => ?_
    refine ⟨?_, ⟨?_, ?_⟩, ?_⟩
    · rw [sawRxbuff_append, hsaw, hsaw']
      rfl
    · unfold Matched
      rw [wordsRead_append, wordsTaken_append, hwords, htaken, hwords', List.append_nil,
        List.nil_append, htaken', List.filterMap_cons_some hj]
      rfl
    · rw [wordsRead_append, hwords, hwords']
      rfl
    · rw [wordsTaken_append, htaken]
      exact hs'
  unfold entryOf at hcase
  split_ifs at hcase ⊢ with h4 h5
  · exact hcase 0 rfl
  · exact hcase 1 rfl
  · have hnone : entryOf w = none := by
      unfold entryOf
      rw [if_neg h4, if_neg h5]
    refine Silently.ret (Running.stable frames taken old) hs fun t ht => ?_
    rw [List.append_nil, htaken, List.append_nil]
    refine ⟨hsaw, ⟨?_, ?_⟩, ht⟩
    · unfold Matched
      rw [hwords, htaken, List.filterMap_cons_none hnone]
      rfl
    · rw [hwords]
      rfl

theorem capture_silently (h : Running frames taken old m)
    (hempty : m.pdc.rcr = 0 ∧ m.pdc.rncr = 0) (temp : Nat) :
    Silently (capture temp) before m fun tr _ s => sawRxbuff tr = false ∧ Loops 2 tr ∧
      Running (frames ++ [temp]) (taken ++ wordsTaken tr) old s := by
  have hne : frames ++ [temp] ≠ [] := by simp
  have hdone : Silently (HandlerProg.save .done adcDoneMask) before m fun tr _ s =>
      Plain tr ∧ Running frames taken old s ∧ s.pdc.rcr = 0 ∧ s.pdc.rncr = 0 := by
    refine Silently.access (o := .save .done adcDoneMask) trivial
      ((Running.stable frames taken old).and Machine.stable_empty) ⟨h, hempty⟩
      fun t ht es => ⟨⟨rfl, rfl, rfl⟩, ?_⟩
    refine ((Running.stable frames taken old).and Machine.stable_empty).envs es ⟨?_, ht.2⟩
    exact ht.1.save (a := .done) (by decide) adcDoneMask
  refine Silently.bind hdone fun tr₁ _ s₁ ⟨hplain₁, hs₁, hempty₁⟩ => ?_
  refine Silently.bind (arm_silently hs₁ hempty₁ temp) fun tr₂ _ s₂ ⟨hplain₂, hs₂⟩ => ?_
  refine Silently.bind (demultiplex_silently hs₂ hne temp 0)
    fun tr₃ _ s₃ ⟨hsaw₃, hloops₃, hs₃⟩ => ?_
  refine Silently.mono (demultiplex_silently hs₃ hne temp 1)
    fun tr₄ _ s₄ ⟨hsaw₄, hloops₄, hs₄⟩ => ?_
  have hplain : Plain (tr₁ ++ tr₂) := hplain₁.append hplain₂
  have hloop : sawRxbuff (tr₃ ++ tr₄) = false := by
    rw [sawRxbuff_append, hsaw₃, hsaw₄]
    rfl
  rw [← List.append_assoc, sawRxbuff_append (tr₁ ++ tr₂), wordsTaken_append (tr₁ ++ tr₂),
    hplain.unasked, hplain.taken, hloop, wordsTaken_append]
  refine ⟨rfl, hplain.loops.append (hloops₃.append hloops₄), ?_⟩
  rw [List.nil_append, ← List.append_assoc]
  exact hs₄

/-- **The first half of the handler**: with RXBUFF seen, the words it takes become the samples and
its `temp` goes into the queue; otherwise nothing happens. -/
theorem captureIfFull_silently (h : Running frames taken old m) (temp : Nat) :
    Silently (captureIfFull temp) before m fun tr _ s => Loops (if sawRxbuff tr then 2 else 0) tr ∧
      Running (if sawRxbuff tr then frames ++ [temp] else frames) (taken ++ wordsTaken tr) old
        s := by
  have hstatus : Silently HandlerProg.adcStatus before m fun tr isr s =>
      (wordsRead tr = [] ∧ wordsTaken tr = []) ∧ Running frames taken old s ∧
        (isr &&& adcIsrRxbuff = adcIsrRxbuff ↔ sawRxbuff tr = true) ∧
        (sawRxbuff tr = true → s.pdc.rcr = 0 ∧ s.pdc.rncr = 0) := by
    refine Silently.access (o := .adcStatus) trivial (Running.stable frames taken old) h
      fun t ht es => ⟨⟨rfl, rfl⟩, (Running.stable frames taken old).envs es ht, ?_, ?_⟩
    · rw [show sawRxbuff [(HandlerOp.adcStatus, t)] = t.pdc.rxbuff from Bool.or_false _]
      exact adcIsr_and_rxbuff t
    · intro hsaw
      rw [show sawRxbuff [(HandlerOp.adcStatus, t)] = t.pdc.rxbuff from Bool.or_false _] at hsaw
      exact Machine.stable_empty.envs es (of_decide_eq_true hsaw)
  refine Silently.bind hstatus fun tr isr s ⟨⟨hwords, htaken⟩, hs, hsaw, hempty⟩ => ?_
  have hloops : Loops 0 tr := by
    refine ⟨?_, ?_⟩
    · unfold Matched
      rw [hwords, htaken]
      rfl
    · rw [hwords]
      rfl
  by_cases hfull : isr &&& adcIsrRxbuff = adcIsrRxbuff
  · rw [if_pos hfull]
    refine Silently.mono (capture_silently hs (hempty (hsaw.mp hfull)) temp)
      fun tr' _ s' ⟨hsaw', hloops', hs'⟩ => ?_
    rw [sawRxbuff_append, wordsTaken_append, htaken, hsaw.mp hfull, hsaw']
    exact ⟨hloops.append hloops', hs'⟩
  · rw [if_neg hfull]
    refine Silently.ret (Running.stable frames taken old) hs fun t ht => ?_
    have hsaw' : sawRxbuff tr = false := by
      rw [← Bool.not_eq_true, ← hsaw]
      exact hfull
    rw [List.append_nil, htaken, hsaw', List.append_nil]
    exact ⟨hloops, ht⟩

end Capture

end Anc
