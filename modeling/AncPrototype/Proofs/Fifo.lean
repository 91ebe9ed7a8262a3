/-
`read_adc_buffer` is a queue with two places.

The calls that return 1 are the buffers the queue accepts.  At any time some of
them are full, and at most two are pending: the one the current bank is filling
and the one the next bank holds.  `Holds filled pending p` says which registers
that is, and what every full buffer has received.  It is a simulation relation: a
conversion fills one more word of the first pending buffer, and the two branches
of `read_adc_buffer` that return 1 add one at the end.

The two tests of `read_adc_buffer` are each stale by the time the registers are
written.  What saves the function is that the facts it acts on are stable: with
both counters zero, conversions are dropped and both stay zero; with the next
counter zero, conversions can only drain the current bank.  In the second case the
bank may be empty when `RNCR` is written, and then the new buffer moves up at once.
-/
import AncPrototype.Proofs.Channel
import Mathlib.Data.List.Forall2
import Mathlib.Data.List.GetD

namespace Anc

open DeviceProgram

variable {A : Type} [HalfwordPtr A]

/-- A call of `read_adc_buffer`. -/
structure BufferCall (A : Type) where
  ptr : A
  size : Nat
  pos : 1 ≤ size
  fits : size ≤ 65535

/-- The channel and the calls of `read_adc_buffer` on it. -/
def bufferHost : Host (PdcOp A) PdcOp.Resp (Pdc A) UInt16 (BufferCall A) Nat where
  toDevice := pdcDevice
  prog c := readAdcBuffer c.ptr c.size

/-- A call that has returned. -/
abbrev BufferReturn (A : Type) := Finished (PdcOp A) (Pdc A) (BufferCall A) Nat

/-- The buffers of the calls that returned 1. -/
def accepted (fs : List (BufferReturn A)) : List (BufferCall A) :=
  (fs.filter fun f => f.result = 1).map Finished.call

/-! ### What a buffer receives -/

/-- The `count` conversions from number `start` on, in the halfwords from `ptr` on. -/
def burst (convs : List UInt16) (start : Nat) (ptr : A) (count : Nat) : List (Stored A) :=
  (List.range count).map fun i =>
    ⟨start + i, HalfwordPtr.next^[i] ptr, convs.getD (start + i) 0⟩

@[simp] theorem length_burst (convs : List UInt16) (start : Nat) (ptr : A) (count : Nat) :
    (burst convs start ptr count).length = count := by
  simp [burst]

/-- Later conversions do not change an earlier burst. -/
theorem burst_append {convs : List UInt16} {start count : Nat} (h : start + count ≤ convs.length)
    (ptr : A) (later : List UInt16) :
    burst (convs ++ later) start ptr count = burst convs start ptr count := by
  refine List.map_congr_left fun i hi => ?_
  have hlt : start + i < convs.length := by
    have := List.mem_range.mp hi
    omega
  rw [List.getD_append _ _ _ _ hlt]

/-- The next conversion prolongs the burst that reaches the last one. -/
theorem burst_snoc {convs : List UInt16} {start count : Nat} (h : start + count = convs.length)
    (ptr : A) (word : UInt16) :
    burst (convs ++ [word]) start ptr (count + 1)
      = burst convs start ptr count ++ [⟨convs.length, HalfwordPtr.next^[count] ptr, word⟩] := by
  rw [← burst_append (Nat.le_of_eq h) ptr [word]]
  simp [burst, List.range_succ, h]

/-- A buffer that is complete: as many conversions as it has words, with none in between that
went elsewhere. -/
def Filled (convs : List UInt16) (b : BufferCall A) (stores : List (Stored A)) : Prop :=
  ∃ start, start + b.size ≤ convs.length ∧ stores = burst convs start b.ptr b.size

theorem Filled.later {convs : List UInt16} {b : BufferCall A} {stores : List (Stored A)}
    (h : Filled convs b stores) (word : UInt16) : Filled (convs ++ [word]) b stores := by
  obtain ⟨start, hle, rfl⟩ := h
  refine ⟨start, ?_, (burst_append hle b.ptr [word]).symm⟩
  rw [List.length_append]
  omega

/-! ### The simulation relation -/

/-- The current bank is filling `b`. -/
structure Filling (p : Pdc A) (b : BufferCall A) : Prop where
  armed : p.rcr ≠ 0
  left : p.cur.length + p.rcr = b.size
  here : p.rpr = HalfwordPtr.next^[p.cur.length] b.ptr
  received : ∃ start, start + p.cur.length = p.convs.length ∧
    p.cur = burst p.convs start b.ptr p.cur.length
  receiving : p.cur ≠ [] → p.rxten = true

/-- The banks hold the buffers `pending`. -/
def Banks (p : Pdc A) : List (BufferCall A) → Prop
  | [] => p.rcr = 0 ∧ p.rncr = 0 ∧ p.cur = []
  | [b] => Filling p b ∧ p.rncr = 0
  | [b, b'] => Filling p b ∧ p.rnpr = b'.ptr ∧ p.rncr = b'.size
  | _ => False

structure Holds (filled pending : List (BufferCall A)) (p : Pdc A) : Prop where
  full : List.Forall₂ (Filled p.convs) filled p.full
  banks : Banks p pending
  earlier : ∀ s ∈ p.log, s.number < p.convs.length
  sorted : p.log.Pairwise (·.number < ·.number)

/-- The channel is a queue of the buffers `queue`, some of them full and at most two pending. -/
def Fifo (queue : List (BufferCall A)) (p : Pdc A) : Prop :=
  ∃ filled pending, queue = filled ++ pending ∧ Holds filled pending p

theorem Fifo.idle_iff {queue : List (BufferCall A)} {p : Pdc A} (h : Fifo queue p)
    (hr : p.rcr = 0) : p.rncr = 0 ∧ p.cur = [] := by
  obtain ⟨filled, pending, -, hp⟩ := h
  match pending, hp.banks with
  | [], hb => exact hb.2
  | [b], hb => exact absurd hr hb.1.armed
  | [b, b'], hb => exact absurd hr hb.1.armed

/-- The bank that is armed belongs to the first buffer that is not full. -/
theorem Fifo.current {queue : List (BufferCall A)} {p : Pdc A} (h : Fifo queue p) (hr : p.rcr ≠ 0) :
    ∃ b, queue[p.full.length]? = some b ∧ p.cur.length < b.size ∧
      p.rpr = HalfwordPtr.next^[p.cur.length] b.ptr := by
  obtain ⟨filled, pending, hqueue, hp⟩ := h
  have hlen := hp.full.length_eq
  have hhead : ∀ b rest, pending = b :: rest → Filling p b → ∃ b, queue[p.full.length]? = some b ∧
      p.cur.length < b.size ∧ p.rpr = HalfwordPtr.next^[p.cur.length] b.ptr := by
    intro b rest hpending hb
    refine ⟨b, ?_, by have := hb.left; omega, hb.here⟩
    rw [hqueue, hpending, ← hlen, List.getElem?_append_right (Nat.le_refl _)]
    simp
  match pending, hp.banks, hhead with
  | [], hb, _ => exact absurd hb.1 hr
  | [b], hb, hhead => exact hhead b [] rfl hb.1
  | [b, b'], hb, hhead => exact hhead b [b'] rfl hb.1

/-- The buffers that are full are the first ones. -/
theorem Fifo.full_getElem {queue : List (BufferCall A)} {p : Pdc A} (h : Fifo queue p) {i : Nat}
    (hi : i < p.full.length) : ∃ b, queue[i]? = some b ∧ Filled p.convs b p.full[i] := by
  obtain ⟨filled, pending, hqueue, hp⟩ := h
  have hlt : i < filled.length := by rw [hp.full.length_eq]; exact hi
  refine ⟨filled[i], ?_, hp.full.get hlt hi⟩
  rw [hqueue, List.getElem?_append_left hlt, List.getElem?_eq_getElem hlt]

/-- With both banks empty every buffer is full. -/
theorem Fifo.length_full {queue : List (BufferCall A)} {p : Pdc A} (h : Fifo queue p)
    (hr : p.rcr = 0) : p.full.length = queue.length := by
  obtain ⟨filled, pending, hqueue, hp⟩ := h
  match pending, hp.banks with
  | [], hb => rw [hqueue, List.append_nil, hp.full.length_eq]
  | [b], hb => exact absurd hr hb.1.armed
  | [b, b'], hb => exact absurd hr hb.1.armed

/-! ### Conversions -/

/-- One more conversion of the burst a bank is receiving. -/
theorem Filling.snoc {p : Pdc A} {b : BufferCall A} (h : Filling p b) (word : UInt16) :
    ∃ start, start + (p.cur.length + 1) = p.convs.length + 1 ∧
      p.cur ++ [p.taken word] = burst (p.convs ++ [word]) start b.ptr (p.cur.length + 1) := by
  obtain ⟨start, hstart, hcur⟩ := h.received
  refine ⟨start, by omega, ?_⟩
  rw [burst_snoc hstart, ← h.here, ← hcur]
  rfl

/-- The conversion that completes a buffer. -/
theorem Filling.last {p : Pdc A} {b : BufferCall A} (h : Filling p b) (hr : p.rcr = 1)
    (word : UInt16) : Filled (p.convs ++ [word]) b (p.cur ++ [p.taken word]) := by
  obtain ⟨start, hstart, hcur⟩ := h.snoc word
  have hsize : p.cur.length + 1 = b.size := by rw [← h.left, hr]
  refine ⟨start, ?_, ?_⟩
  · rw [← hsize, List.length_append]
    exact Nat.le_of_eq hstart
  · rw [hcur, hsize]

/-- A conversion that does not. -/
theorem Filling.more {p : Pdc A} {b : BufferCall A} (h : Filling p b) (hx : p.rxten = true)
    (hr : 1 < p.rcr) (word : UInt16) : Filling (p.convert word) b := by
  rw [Pdc.convert_more hx hr]
  have hleft := h.left
  have hlen : (p.cur ++ [p.taken word]).length = p.cur.length + 1 := by
    rw [List.length_append]
    rfl
  refine ⟨?_, ?_, ?_, ?_, fun _ => hx⟩
  · show p.rcr - 1 ≠ 0
    omega
  · show (p.cur ++ [p.taken word]).length + (p.rcr - 1) = b.size
    omega
  · show HalfwordPtr.next p.rpr = HalfwordPtr.next^[(p.cur ++ [p.taken word]).length] b.ptr
    rw [hlen, Function.iterate_succ_apply', ← h.here]
  · obtain ⟨start, hstart, hburst⟩ := h.snoc word
    refine ⟨start, ?_, ?_⟩
    · show start + (p.cur ++ [p.taken word]).length = (p.convs ++ [word]).length
      rw [hlen, List.length_append]
      exact hstart
    · show p.cur ++ [p.taken word]
        = burst (p.convs ++ [word]) start b.ptr (p.cur ++ [p.taken word]).length
      rw [hlen]
      exact hburst

/-- A bank that has just been armed. -/
theorem Filling.fresh {p : Pdc A} {b : BufferCall A} (hrcr : p.rcr = b.size) (hrpr : p.rpr = b.ptr)
    (hcur : p.cur = []) : Filling p b := by
  have hpos := b.pos
  refine ⟨by omega, by rw [hcur, hrcr]; exact Nat.zero_add _, by rw [hrpr, hcur]; rfl, ?_, ?_⟩
  · exact ⟨p.convs.length, by rw [hcur]; rfl, by rw [hcur]; rfl⟩
  · intro h
    exact absurd hcur h

/-- A conversion a bank did not receive. -/
theorem Filling.dropped {p : Pdc A} {b : BufferCall A} (h : Filling p b)
    (hd : ¬(p.rxten = true ∧ p.rcr ≠ 0)) (word : UInt16) :
    Filling { p with convs := p.convs ++ [word] } b := by
  have hcur : p.cur = [] := by
    by_contra hne
    exact hd ⟨h.receiving hne, h.armed⟩
  have hleft := h.left
  have hhere := h.here
  simp only [hcur, List.length_nil, Nat.zero_add] at hleft hhere
  exact Filling.fresh hleft hhere hcur

/-- A conversion that was stored ends the log, whether its buffer is then complete or not. -/
theorem Holds.snoc {filled pending filled' pending' : List (BufferCall A)} {p q : Pdc A}
    (h : Holds filled pending p) {word : UInt16} (hconvs : q.convs = p.convs ++ [word])
    (hlog : (q.full = p.full ∧ q.cur = p.cur ++ [p.taken word]) ∨
      (q.full = p.full ++ [p.cur ++ [p.taken word]] ∧ q.cur = []))
    (hfull : List.Forall₂ (Filled q.convs) filled' q.full) (hbanks : Banks q pending') :
    Holds filled' pending' q := by
  have hq : q.log = p.log ++ [p.taken word] := by
    unfold Pdc.log
    rcases hlog with ⟨hfull, hcur⟩ | ⟨hfull, hcur⟩
    · rw [hfull, hcur, List.append_assoc]
    · rw [hfull, hcur]
      simp
  refine ⟨hfull, hbanks, ?_, ?_⟩
  · intro s hs
    rw [hconvs, List.length_append]
    rcases List.mem_append.mp (hq ▸ hs) with hs | hs
    · exact Nat.lt_succ_of_lt (h.earlier s hs)
    · rw [List.mem_singleton.mp hs]
      exact Nat.lt_succ_self _
  · rw [hq]
    refine List.pairwise_append.mpr ⟨h.sorted, List.pairwise_singleton _ _, ?_⟩
    intro s hs t ht
    rw [List.mem_singleton.mp ht]
    exact h.earlier s hs

/-- **A conversion keeps the queue**: it fills one more word of the first pending buffer. -/
theorem Fifo.convert {queue : List (BufferCall A)} {p : Pdc A} (h : Fifo queue p) (word : UInt16) :
    Fifo queue (p.convert word) := by
  obtain ⟨filled, pending, hqueue, hp⟩ := h
  have hfull : List.Forall₂ (Filled (p.convs ++ [word])) filled p.full :=
    hp.full.imp fun _ _ hf => hf.later word
  rcases Pdc.convert_cases p with hd | ⟨hx, hr, hn⟩ | ⟨hx, hr, hn⟩ | ⟨hx, hr⟩
  · rw [Pdc.convert_dropped hd]
    refine ⟨filled, pending, hqueue, hfull, ?_, ?_, hp.sorted⟩
    · match pending, hp.banks with
      | [], hb => exact hb
      | [b], hb => exact ⟨hb.1.dropped hd word, hb.2⟩
      | [b, b'], hb => exact ⟨hb.1.dropped hd word, hb.2⟩
    · intro s hs
      show s.number < (p.convs ++ [word]).length
      rw [List.length_append]
      exact Nat.lt_succ_of_lt (hp.earlier s hs)
  · rw [Pdc.convert_last hx hr hn]
    match pending, hp.banks with
    | [], hb => exact absurd hb.1 (by omega)
    | [b], hb =>
        refine ⟨filled ++ [b], [], by simpa using hqueue,
          hp.snoc rfl (.inr ⟨rfl, rfl⟩) ?_ ⟨rfl, hn, rfl⟩⟩
        exact List.rel_append hfull (.cons (hb.1.last hr word) .nil)
    | [b, b'], hb =>
        have hpos := b'.pos
        have hsize := hb.2.2
        omega
  · rw [Pdc.convert_swap hx hr hn]
    match pending, hp.banks with
    | [], hb => exact absurd hb.1 (by omega)
    | [b], hb => exact absurd hb.2 hn
    | [b, b'], hb =>
        refine ⟨filled ++ [b], [b'], by simpa using hqueue,
          hp.snoc rfl (.inr ⟨rfl, rfl⟩) ?_ ⟨Filling.fresh hb.2.2 hb.2.1 rfl, rfl⟩⟩
        exact List.rel_append hfull (.cons (hb.1.last hr word) .nil)
  · have hbanks : Banks (p.convert word) pending := by
      match pending, hp.banks with
      | [], hb => exact absurd hb.1 (by omega)
      | [b], hb => exact ⟨hb.1.more hx hr word, Pdc.rncr_convert_of_zero hb.2 word⟩
      | [b, b'], hb =>
          refine ⟨hb.1.more hx hr word, (Pdc.rnpr_convert p word).trans hb.2.1, ?_⟩
          rw [Pdc.convert_more hx hr]
          exact hb.2.2
    rw [Pdc.convert_more hx hr] at hbanks ⊢
    exact ⟨filled, pending, hqueue, hp.snoc rfl (.inl ⟨rfl, rfl⟩) hfull hbanks⟩

/-! ### Accesses -/

theorem Fifo.writeRpr {queue : List (BufferCall A)} {p : Pdc A} (h : Fifo queue p) (hr : p.rcr = 0)
    (v : A) : Fifo queue { p with rpr := v } := by
  obtain ⟨filled, pending, hqueue, hfull, hbanks, hearlier, hsorted⟩ := h
  refine ⟨filled, pending, hqueue, hfull, ?_, hearlier, hsorted⟩
  match pending, hbanks with
  | [], hb => exact hb
  | [b], hb => exact absurd hr hb.1.armed
  | [b, b'], hb => exact absurd hr hb.1.armed

theorem Fifo.writeRnpr {queue : List (BufferCall A)} {p : Pdc A} (h : Fifo queue p)
    (hn : p.rncr = 0) (v : A) : Fifo queue { p with rnpr := v } := by
  obtain ⟨filled, pending, hqueue, hfull, hbanks, hearlier, hsorted⟩ := h
  refine ⟨filled, pending, hqueue, hfull, ?_, hearlier, hsorted⟩
  match pending, hbanks with
  | [], hb => exact hb
  | [b], hb =>
      obtain ⟨⟨harmed, hleft, hhere, hreceived, hon⟩, -⟩ := hb
      exact ⟨⟨harmed, hleft, hhere, hreceived, hon⟩, hn⟩
  | [b, b'], hb =>
      have hpos := b'.pos
      have hsize := hb.2.2
      omega

theorem Fifo.enable {queue : List (BufferCall A)} {p : Pdc A} (h : Fifo queue p) :
    Fifo queue { p with rxten := true } := by
  obtain ⟨filled, pending, hqueue, hfull, hbanks, hearlier, hsorted⟩ := h
  refine ⟨filled, pending, hqueue, hfull, ?_, hearlier, hsorted⟩
  match pending, hbanks with
  | [], hb => exact hb
  | [b], hb =>
      obtain ⟨⟨harmed, hleft, hhere, hreceived, -⟩, hn⟩ := hb
      exact ⟨⟨harmed, hleft, hhere, hreceived, fun _ => rfl⟩, hn⟩
  | [b, b'], hb =>
      obtain ⟨⟨harmed, hleft, hhere, hreceived, -⟩, hn⟩ := hb
      exact ⟨⟨harmed, hleft, hhere, hreceived, fun _ => rfl⟩, hn⟩

omit [HalfwordPtr A] in
theorem BufferCall.mod_size (c : BufferCall A) : c.size % 65536 = c.size :=
  Nat.mod_eq_of_lt (Nat.lt_succ_of_le c.fits)

/-- Writing `RCR` with both banks empty puts the buffer at the end of the queue. -/
theorem Fifo.writeRcr {queue : List (BufferCall A)} {p : Pdc A} (h : Fifo queue p)
    (hr : p.rcr = 0) (c : BufferCall A) (hp : p.rpr = c.ptr) :
    Fifo (queue ++ [c]) (Pdc.promote { p with rcr := c.size % 65536 }) := by
  obtain ⟨hn, hcur⟩ := h.idle_iff hr
  obtain ⟨filled, pending, hqueue, hfull, hbanks, hearlier, hsorted⟩ := h
  have hpos := c.pos
  rw [c.mod_size, Pdc.promote_of_armed (by show c.size ≠ 0; omega)]
  match pending, hbanks with
  | [], hb =>
      refine ⟨filled, [c], by simpa using hqueue, hfull, ⟨?_, hn⟩, hearlier, hsorted⟩
      exact Filling.fresh rfl hp hcur
  | [b], hb => exact absurd hr hb.1.armed
  | [b, b'], hb => exact absurd hr hb.1.armed

/-- Writing `RNCR` with the next bank empty does, too: the bank follows the current one, or moves
up at once. -/
theorem Fifo.writeRncr {queue : List (BufferCall A)} {p : Pdc A} (h : Fifo queue p)
    (hn : p.rncr = 0) (c : BufferCall A) (hp : p.rnpr = c.ptr) :
    Fifo (queue ++ [c]) (Pdc.promote { p with rncr := c.size % 65536 }) := by
  obtain ⟨filled, pending, hqueue, hfull, hbanks, hearlier, hsorted⟩ := h
  have hpos := c.pos
  rw [c.mod_size]
  match pending, hbanks with
  | [], hb =>
      have hmoved : Pdc.promote { p with rncr := c.size }
          = { p with rpr := p.rnpr, rcr := c.size, rncr := 0 } :=
        if_pos ⟨hb.1, by show c.size ≠ 0; omega⟩
      rw [hmoved]
      refine ⟨filled, [c], by simpa using hqueue, hfull, ⟨?_, rfl⟩, hearlier, hsorted⟩
      exact Filling.fresh rfl hp hb.2.2
  | [b], hb =>
      rw [Pdc.promote_of_armed (p := { p with rncr := c.size }) hb.1.armed]
      obtain ⟨⟨harmed, hleft, hhere, hreceived, hon⟩, -⟩ := hb
      exact ⟨filled, [b, c], by rw [hqueue, List.append_assoc]; rfl, hfull,
        ⟨⟨harmed, hleft, hhere, hreceived, hon⟩, hp, rfl⟩, hearlier, hsorted⟩
  | [b, b'], hb =>
      have hpos := b'.pos
      have hsize := hb.2.2
      omega

/-! ### One call -/

/-- The channel between two calls.  The receiver is on from the first accepted buffer on. -/
structure Resting (queue : List (BufferCall A)) (p : Pdc A) : Prop where
  fifo : Fifo queue p
  on : queue ≠ [] → p.rxten = true

theorem Resting.stable (queue : List (BufferCall A)) :
    (pdcDevice (A := A)).Stable (Resting queue) :=
  fun word p h => ⟨h.fifo.convert word, fun hq => (Pdc.rxten_convert p word).trans (h.on hq)⟩

/-- The access does not write to a bank that is armed. -/
def PdcOp.Spares : PdcOp A → Pdc A → Prop
  | writeRpr _, p => p.rcr = 0
  | writeRcr _, p => p.rcr = 0
  | writeRnpr _, p => p.rncr = 0
  | writeRncr _, p => p.rncr = 0
  | _, _ => True

/-- The accesses of a call changed nothing, and the last one read `RNCR` with both banks armed. -/
def Refused (accesses : List (PdcOp A × Pdc A)) : Prop :=
  (∀ a ∈ accesses, (Pdc.exec a.1 a.2).2 = a.2) ∧
    ∃ before s, accesses = before ++ [(.readRncr, s)] ∧ s.rcr ≠ 0 ∧ s.rncr ≠ 0

omit [HalfwordPtr A] in
/-- One more access that changes nothing. -/
theorem unchanged_snoc {tr : List (PdcOp A × Pdc A)} {a : PdcOp A × Pdc A}
    (h : ∀ b ∈ tr, (Pdc.exec b.1 b.2).2 = b.2) (ha : (Pdc.exec a.1 a.2).2 = a.2) :
    ∀ b ∈ tr ++ [a], (Pdc.exec b.1 b.2).2 = b.2 :=
  List.forall_mem_append.mpr ⟨h, List.forall_mem_singleton.mpr ha⟩

/-- What every access of a call finds. -/
def AtAccess (queue : List (BufferCall A)) (c : BufferCall A) (_ : List (PdcOp A × Pdc A))
    (o : PdcOp A) (p : Pdc A) : Prop :=
  o.Spares p ∧ (Fifo queue p ∨ Fifo (queue ++ [c]) p)

/-- What a call leaves. -/
def AtReturn (queue : List (BufferCall A)) (c : BufferCall A) (tr : List (PdcOp A × Pdc A))
    (result : Nat) (p : Pdc A) : Prop :=
  (result = 1 ∧ Resting (queue ++ [c]) p) ∨ (result = 0 ∧ Refused tr ∧ Resting queue p)

theorem Fifo.current_of_next {queue : List (BufferCall A)} {p : Pdc A} (h : Fifo queue p)
    (hn : p.rncr ≠ 0) : p.rcr ≠ 0 :=
  fun hr => hn (h.idle_iff hr).1

theorem Fifo.nonempty_of_armed {queue : List (BufferCall A)} {p : Pdc A} (h : Fifo queue p)
    (hr : p.rcr ≠ 0) : queue ≠ [] := by
  obtain ⟨filled, pending, hqueue, hp⟩ := h
  match pending, hp.banks with
  | [], hb => exact absurd hb.1 hr
  | [b], hb => simp [hqueue]
  | [b, b'], hb => simp [hqueue]

section Call

variable {queue : List (BufferCall A)} {c : BufferCall A}

theorem AtAccess.of_resting {tr : List (PdcOp A × Pdc A)} {o : PdcOp A} {p : Pdc A}
    (h : Resting queue p) (ho : o.Spares p) : AtAccess queue c tr o p :=
  ⟨ho, .inl h.fifo⟩

/-- The test of the first bank only reads; what it found still holds when it ends. -/
theorem firstBankFree_sat {p : Pdc A} (h : Resting queue p) :
    pdcDevice.Sat (AtAccess queue c)
      (fun tr free q => (∀ a ∈ tr, (Pdc.exec a.1 a.2).2 = a.2) ∧ Resting queue q ∧
        if free then q.rcr = 0 ∧ q.rncr = 0 else queue ≠ [] ∧ ¬(p.rcr = 0 ∧ p.rncr = 0))
      firstBankFree [] p := by
  have hempty : (pdcDevice (A := A)).Stable fun t =>
      p.rcr = 0 ∧ p.rncr = 0 → t.rcr = 0 ∧ t.rncr = 0 :=
    fun word t ht hp => Pdc.stable_empty word t (ht hp)
  refine Device.Sat.access ((Resting.stable queue).and hempty) ⟨h, id⟩ fun t ht =>
    ⟨.of_resting ht.1 trivial, ?_⟩
  show pdcDevice.Sat _ _ (if t.rcr = 0 then Prog.step .readRncr fun (rncr : Nat) =>
    Prog.ret (decide (rncr = 0)) else Prog.ret false) _ t
  have hread : ∀ a ∈ [(PdcOp.readRcr, t)], (Pdc.exec a.1 a.2).2 = a.2 :=
    List.forall_mem_singleton.mpr rfl
  by_cases hr : t.rcr = 0
  · rw [if_pos hr]
    refine Device.Sat.access ((Resting.stable queue).and Pdc.stable_empty)
      ⟨ht.1, hr, (ht.1.fifo.idle_iff hr).1⟩ fun u hu => ⟨.of_resting hu.1 trivial, ?_⟩
    refine Device.Sat.ret ((Resting.stable queue).and Pdc.stable_empty) hu fun v hv => ?_
    refine ⟨unchanged_snoc hread rfl, hv.1, ?_⟩
    show if decide (u.rncr = 0) = true then _ else _
    rw [if_pos (decide_eq_true hu.2.2)]
    exact hv.2
  · rw [if_neg hr]
    refine Device.Sat.ret (Resting.stable queue) ht.1 fun u hu => ⟨hread, hu, ?_⟩
    exact ⟨ht.1.fifo.nonempty_of_armed hr, fun hp => hr (ht.2 hp).1⟩

/-- The first branch. -/
theorem armCurrent_sat {tr : List (PdcOp A × Pdc A)} {p : Pdc A}
    (h : Resting queue p ∧ p.rcr = 0 ∧ p.rncr = 0) :
    pdcDevice.Sat (AtAccess queue c) (fun _ result q => result = 1 ∧ Resting (queue ++ [c]) q)
      (.step (.writeRpr c.ptr) fun _ => .step (.writeRcr c.size) fun _ =>
        .step (.writePtcr ptcrRxten) fun _ => .ret 1) tr p := by
  refine Device.Sat.access ((Resting.stable queue).and Pdc.stable_empty) h fun t ht =>
    ⟨.of_resting ht.1 ht.2.1, ?_⟩
  have hrpr : Resting queue { t with rpr := c.ptr } := ⟨ht.1.fifo.writeRpr ht.2.1 c.ptr, ht.1.on⟩
  refine Device.Sat.access ((Resting.stable queue).and (Pdc.stable_rpr c.ptr)) ⟨hrpr, ht.2, rfl⟩
    fun u hu => ⟨.of_resting hu.1 hu.2.1.1, ?_⟩
  -- from here on the buffer is in the queue, but the receiver may still be off
  have hrcr : Fifo (queue ++ [c]) (Pdc.exec (.writeRcr c.size) u).2 :=
    hu.1.fifo.writeRcr hu.2.1.1 c hu.2.2
  refine Device.Sat.access (P := Fifo (queue ++ [c])) (fun word _ hv => hv.convert word) hrcr
    fun v hv => ⟨⟨trivial, .inr hv⟩, ?_⟩
  have hptcr : Resting (queue ++ [c]) (Pdc.exec (.writePtcr ptcrRxten) v).2 :=
    ⟨hv.enable, fun _ => rfl⟩
  exact Device.Sat.ret (Resting.stable _) hptcr fun w hw => ⟨rfl, hw⟩

/-- The second branch. -/
theorem armNext_sat {tr : List (PdcOp A × Pdc A)} {p : Pdc A} (h : Resting queue p)
    (hne : queue ≠ []) (hreads : ∀ a ∈ tr, (Pdc.exec a.1 a.2).2 = a.2) :
    pdcDevice.Sat (AtAccess queue c) (AtReturn queue c)
      (.step .readRncr fun (rncr : Nat) =>
        if rncr = 0 then
          .step (.writeRnpr c.ptr) fun _ => .step (.writeRncr c.size) fun _ => .ret 1
        else .ret 0) tr p := by
  refine Device.Sat.access (Resting.stable queue) h fun t ht => ⟨.of_resting ht trivial, ?_⟩
  show pdcDevice.Sat _ _ (if t.rncr = 0 then _ else _) _ t
  by_cases hn : t.rncr = 0
  · rw [if_pos hn]
    refine Device.Sat.access ((Resting.stable queue).and Pdc.stable_rncr) ⟨ht, hn⟩ fun u hu =>
      ⟨.of_resting hu.1 hu.2, ?_⟩
    have hrnpr : Resting queue { u with rnpr := c.ptr } :=
      ⟨hu.1.fifo.writeRnpr hu.2 c.ptr, hu.1.on⟩
    refine Device.Sat.access
      ((Resting.stable queue).and (Pdc.stable_rncr.and (Pdc.stable_rnpr c.ptr)))
      ⟨hrnpr, hu.2, rfl⟩ fun v hv => ⟨.of_resting hv.1 hv.2.1, ?_⟩
    have hrncr : Resting (queue ++ [c]) (Pdc.exec (.writeRncr c.size) v).2 := by
      refine ⟨hv.1.fifo.writeRncr hv.2.1 c hv.2.2, fun _ => ?_⟩
      have hon := hv.1.on hne
      show (Pdc.promote { v with rncr := c.size % 65536 }).rxten = true
      unfold Pdc.promote
      split_ifs <;> exact hon
    exact Device.Sat.ret (Resting.stable _) hrncr fun w hw => .inl ⟨rfl, hw⟩
  · rw [if_neg hn]
    refine Device.Sat.ret (Resting.stable queue) ht fun u hu => .inr ⟨rfl, ⟨?_, ?_⟩, hu⟩
    · exact unchanged_snoc hreads rfl
    · exact ⟨tr, t, rfl, ht.fifo.current_of_next hn, hn⟩

/-- **One call**: whatever is converted while it runs, it adds its buffer to the queue and returns
1, or finds both banks armed, changes nothing and returns 0; and it does the former if it starts
with both banks empty. -/
theorem readAdcBuffer_sat {p : Pdc A} (h : Resting queue p) :
    pdcDevice.Sat (AtAccess queue c)
      (fun tr result q => AtReturn queue c tr result q ∧ (p.rcr = 0 ∧ p.rncr = 0 → result = 1))
      (readAdcBuffer c.ptr c.size) [] p := by
  refine Device.Sat.bind _ ?_
  refine Device.Sat.mono (fun _ _ _ ho => ho) ?_ _ (firstBankFree_sat h)
  intro tr free t ⟨hreads, ht, hfree⟩
  cases free with
  | true =>
      refine Device.Sat.mono (fun _ _ _ ho => ho) ?_ _ (armCurrent_sat ⟨ht, hfree⟩)
      exact fun _ _ _ hq => ⟨.inl hq, fun _ => hq.1⟩
  | false =>
      refine Device.Sat.mono (fun _ _ _ ho => ho) ?_ _ (armNext_sat ht hfree.1 hreads)
      exact fun _ _ _ hq => ⟨hq, fun hp => absurd hp hfree.2⟩

end Call

/-! ### Runs of calls -/

omit [HalfwordPtr A] in
theorem accepted_append (fs : List (BufferReturn A)) (f : BufferReturn A) :
    accepted (fs ++ [f]) = if f.result = 1 then accepted fs ++ [f.call] else accepted fs := by
  unfold accepted
  rw [List.filter_append, List.map_append]
  split_ifs with h <;> simp [h]

/-- The result of a call is 1, or 0 for a reason. -/
def BufferReturn.Sound (f : BufferReturn A) : Prop :=
  f.result = 1 ∨ (f.result = 0 ∧ Refused f.accesses)

/-- Between calls. -/
structure Between (fs : List (BufferReturn A)) (p : Pdc A) : Prop where
  resting : Resting (accepted fs) p
  sound : ∀ f ∈ fs, BufferReturn.Sound f

theorem Between.snoc {fs : List (BufferReturn A)} (h : ∀ f ∈ fs, BufferReturn.Sound f)
    {c : BufferCall A} {tr : List (PdcOp A × Pdc A)} {result : Nat} {p : Pdc A}
    (hc : AtReturn (accepted fs) c tr result p) : Between (fs ++ [⟨c, tr, result, p⟩]) p := by
  have hcall : BufferReturn.Sound ⟨c, tr, result, p⟩ :=
    hc.imp And.left fun hr => ⟨hr.1, hr.2.1⟩
  have hall : ∀ f ∈ fs ++ [⟨c, tr, result, p⟩], BufferReturn.Sound f :=
    List.forall_mem_append.mpr ⟨h, List.forall_mem_singleton.mpr hcall⟩
  refine ⟨?_, hall⟩
  rw [accepted_append]
  rcases hc with ⟨rfl, hr⟩ | ⟨rfl, -, hr⟩
  · exact hr
  · exact hr

theorem Resting.initialized (rpr rnpr : A) : Resting [] (Pdc.initialized rpr rnpr) := by
  refine ⟨⟨[], [], rfl, .nil, ⟨rfl, rfl, rfl⟩, ?_, .nil⟩, fun h => absurd rfl h⟩
  intro s hs
  exact absurd hs List.not_mem_nil

theorem run_between (rpr rnpr : A) (as : List (Action UInt16 (BufferCall A))) :
    Host.Ok bufferHost Between
      (fun fs c tr o p => AtAccess (accepted fs) c tr o p ∧ ∀ f ∈ fs, BufferReturn.Sound f)
      (bufferHost.run (Host.start (Pdc.initialized rpr rnpr)) as) := by
  refine Host.run_ok ?_ ?_ as ?_
  · intro fs word p h
    exact ⟨Resting.stable _ word p h.resting, h.sound⟩
  · intro fs c p h
    exact Device.Sat.mono (fun _ _ _ ho => ⟨ho, h.sound⟩)
      (fun _ _ _ hc => Between.snoc h.sound hc.1) _ (readAdcBuffer_sat h.resting)
  · exact ⟨Resting.initialized rpr rnpr, fun f hf => absurd hf List.not_mem_nil⟩

/-! ### Draining -/

/-- A conversion takes one word of what is pending. -/
theorem Resting.left_convert {queue : List (BufferCall A)} {p : Pdc A} (h : Resting queue p)
    (word : UInt16) :
    (p.convert word).rcr + (p.convert word).rncr = p.rcr + p.rncr - 1 := by
  rcases Pdc.convert_cases p with hd | ⟨hx, hr, hn⟩ | ⟨hx, hr, hn⟩ | ⟨hx, hr⟩
  · have hr : p.rcr = 0 := by
      by_contra hr
      exact hd ⟨h.on (h.fifo.nonempty_of_armed hr), hr⟩
    rw [Pdc.convert_dropped hd]
    have := (h.fifo.idle_iff hr).1
    simp only [hr, this]
  · rw [Pdc.convert_last hx hr hn]
    simp only [hr, hn]
  · rw [Pdc.convert_swap hx hr hn]
    simp only [hr]
    omega
  · rw [Pdc.convert_more hx hr]
    simp only []
    omega

/-- After as many conversions as the banks have words left, every accepted buffer is full. -/
theorem Resting.drained {queue : List (BufferCall A)} :
    ∀ (words : List UInt16) {p : Pdc A}, Resting queue p → p.rcr + p.rncr ≤ words.length →
      (pdcDevice.envs words p).full.length = queue.length := by
  intro words
  induction words with
  | nil =>
      intro p h hle
      simp only [List.length_nil] at hle
      exact h.fifo.length_full (by omega)
  | cons word words ih =>
      intro p h hle
      refine ih (Resting.stable queue word p h) ?_
      have hstep := h.left_convert word
      simp only [List.length_cons] at hle
      show (p.convert word).rcr + (p.convert word).rncr ≤ words.length
      omega

/-- **`read_adc_buffer` is a queue of buffers with two places**, over every sequence of calls and
every placement of conversions before, between and inside them. -/
theorem readAdcBuffer_fifo (rpr rnpr : A) (as : List (Action UInt16 (BufferCall A))) :
    let n := bufferHost.run (Host.start (Pdc.initialized rpr rnpr)) as
    (n.active = none → Fifo (accepted n.finished) n.state ∧
      ∀ words : List UInt16, n.state.rcr + n.state.rncr ≤ words.length →
        (pdcDevice.envs words n.state).full.length = (accepted n.finished).length) ∧
    (∀ c tr rest, n.active = some ⟨c, tr, rest⟩ →
      Fifo (accepted n.finished) n.state ∨ Fifo (accepted n.finished ++ [c]) n.state) ∧
    (∀ c tr o k, n.active = some ⟨c, tr, .step o k⟩ → o.Spares n.state) ∧
    ∀ f ∈ n.finished, BufferReturn.Sound f := by
  intro n
  have hn := run_between rpr rnpr as
  refine ⟨?_, ?_, ?_, ?_⟩
  · intro ha
    have hrest := (hn.idle ha).resting
    exact ⟨hrest.fifo, fun words hle => hrest.drained words hle⟩
  · intro c tr rest ha
    cases rest with
    | ret a =>
        have hret := (hn.returning ha).resting.fifo
        rw [accepted_append] at hret
        split_ifs at hret with h1
        · exact .inr hret
        · exact .inl hret
    | step o k => exact (hn.allowed ha).1.2
  · intro c tr o k ha
    exact (hn.allowed ha).1.1
  · intro f hf
    rcases hn.moments with ⟨-, hidle⟩ | ⟨c, tr, a, -, hret⟩ | ⟨c, tr, o, k, -, hstep⟩
    · exact hidle.sound f hf
    · exact hret.sound f (List.mem_append_left _ hf)
    · exact hstep.2 f hf

end Anc
