/-
Which frame the handler leaves in `ch_val`.

Buffer 0 of the receive channel is `ch_val` itself, and every later one the array
`temp` of an invocation.  The invocation that sees buffer `n` complete does not read
it: it gives the channel its own `temp`, as buffer `n + 1`, and reads that at once.  Two
things can be there, the conversions of buffer `n + 1` that have come by then, and what the
array held before.  So `ch_val` holds frame `n` after it exactly if the last words that
lay there for the loop, now or in an earlier invocation, happen to carry the data of
frame `n`; an entry that none has been for still holds the raw word of frame 0, which is
no sample.

What the array held before is a matter of the stack.  `Proofs.Reuse` is about the case
that it is the array of the invocation before.
-/
import AncPrototype.Proofs.Arrivals
import AncPrototype.Proofs.ExactFilter

namespace Anc

open DeviceProgram

/-! ### Frames -/

/-- The buffer has one word for each entry of `ch_val`, and these are their data. -/
def IsFrame (stores : List (Stored Addr)) (data : Fin numChannels → UInt16) : Prop :=
  ∀ j, (stores.filter fun s => wordTag s.word = sampleTag j).map (fun s => wordData s.word)
    = [data j]

theorem length_of_filled {frames : List Nat} {convs : List UInt16} {b : BufferCall Addr}
    {stores : List (Stored Addr)} (hb : b ∈ buffers frames) (h : Filled convs b stores) :
    stores.length = 2 := by
  obtain ⟨start, -, rfl⟩ := h
  rw [length_burst, size_of_mem_buffers hb]
  rfl

/-- Two words whose channels take turns. -/
theorem isFrame_pair {s t : Stored Addr} {c : AdcChannel} (hs : wordTag s.word = c.number)
    (ht : wordTag t.word = c.next.number) : ∃ data, IsFrame [s, t] data := by
  have hne : (4 : UInt16) ≠ 5 := by decide
  cases c with
  | channel4 =>
      refine ⟨![wordData s.word, wordData t.word], fun j => ?_⟩
      simp only [AdcChannel.number, AdcChannel.next] at hs ht
      match j with
      | 0 => simp [hs, ht, sampleTag, hne.symm]
      | 1 => simp [hs, ht, sampleTag, hne]
  | channel5 =>
      refine ⟨![wordData t.word, wordData s.word], fun j => ?_⟩
      simp only [AdcChannel.number, AdcChannel.next] at hs ht
      match j with
      | 0 => simp [hs, ht, sampleTag, hne.symm]
      | 1 => simp [hs, ht, sampleTag, hne]

/-- Conversions that take turns fill a frame. -/
theorem isFrame_of_filled {frames : List Nat} {convs : List UInt16} {first : AdcChannel}
    (hturns : ∀ i w, convs[i]? = some w → wordTag w = (AdcChannel.next^[i] first).number)
    {b : BufferCall Addr} {stores : List (Stored Addr)} (hb : b ∈ buffers frames)
    (h : Filled convs b stores) : ∃ data, IsFrame stores data := by
  obtain ⟨start, hle, rfl⟩ := h
  rw [size_of_mem_buffers hb] at hle ⊢
  have htag : ∀ i < convs.length,
      wordTag (convs.getD i 0) = (AdcChannel.next^[i] first).number := by
    intro i hi
    refine hturns i _ ?_
    rw [List.getElem?_eq_getElem hi, List.getD_eq_getElem _ _ hi]
  have hlast : start + 1 < convs.length := hle
  have hnext := htag (start + 1) hlast
  rw [Function.iterate_succ_apply'] at hnext
  exact isFrame_pair (htag start (Nat.lt_of_succ_lt hlast)) hnext

/-- Their data have twelve bits. -/
theorem IsFrame.data_le {stores : List (Stored Addr)} {data : Fin numChannels → UInt16}
    (h : IsFrame stores data) (j : Fin numChannels) : (data j).toNat ≤ 4095 := by
  have hmem : data j ∈ (stores.filter fun s => wordTag s.word = sampleTag j).map
      (fun s => wordData s.word) := by
    rw [h j]
    exact List.mem_singleton_self _
  obtain ⟨s, -, heq⟩ := List.mem_map.mp hmem
  rw [← heq, toNat_wordData]
  omega

/-! ### What has lain in the arrays -/

section Offers

variable {α : Type}

/-- The pairs of all invocations. -/
def offers (fs : List (HandlerReturn α)) : List (UInt16 × UInt16) :=
  fs.flatMap fun f => offered f.call f.accesses

/-- The data of the last one for an entry.  The first word of a pair says what it is for, and the
second one has the data. -/
def lastOffer (j : Fin numChannels) (pairs : List (UInt16 × UInt16)) : Option UInt16 :=
  ((pairs.filter fun p => wordTag p.1 = sampleTag j).getLast?).map fun p => wordData p.2

theorem lastOffer_snoc (j : Fin numChannels) (pairs : List (UInt16 × UInt16))
    (p : UInt16 × UInt16) : lastOffer j (pairs ++ [p])
      = if wordTag p.1 = sampleTag j then some (wordData p.2) else lastOffer j pairs := by
  unfold lastOffer
  rw [List.filter_append]
  split_ifs with h <;> simp [h]

theorem lastFor_pick (j : Fin numChannels) (pairs : List (UInt16 × UInt16)) :
    lastFor j (pairs.filterMap pick) = lastOffer j pairs := by
  induction pairs using List.reverseRecOn with
  | nil => rfl
  | append_singleton pairs p ih =>
      rw [List.filterMap_append, lastOffer_snoc, ← ih]
      cases hentry : entryOf p.1 with
      | none =>
          have hne : wordTag p.1 ≠ sampleTag j := by
            intro htag
            rw [(entryOf_eq_some_iff p.1 j).mpr htag] at hentry
            exact absurd hentry (by simp)
          rw [if_neg hne, pick_none hentry, List.append_nil]
      | some i =>
          rw [pick_some hentry, lastFor_snoc]
          have hiff : i = j ↔ wordTag p.1 = sampleTag j := by
            rw [← entryOf_eq_some_iff, hentry, Option.some_inj]
          simp only [hiff]

theorem wordsTaken_past : ∀ {fs : List (HandlerReturn α)}, (∀ f ∈ fs, Met f.call f.accesses) →
    wordsTaken (past fs) = (offers fs).filterMap pick := by
  intro fs
  induction fs with
  | nil => intro _; rfl
  | cons f fs ih =>
      intro h
      have hf : wordsTaken f.accesses = _ := h f List.mem_cons_self
      have hrest := ih fun g hg => h g (List.mem_cons_of_mem f hg)
      rw [past, List.flatMap_cons, wordsTaken_append, offers, List.flatMap_cons,
        List.filterMap_append, hf, ← offers, ← hrest]
      rfl

end Offers

/-! ### After an invocation -/

section Delivery

variable {α : Type} {frames : List Nat} {taken : List Taken} {old : UInt16} {m : Machine α}

/-- The buffers that the invocations have seen complete are frames. -/
theorem Running.frame (h : Running frames taken old m) {n : Nat} (hn : n < frames.length) :
    ∃ stores data, m.pdc.full[n]? = some stores ∧ IsFrame stores data := by
  have hfull : n < m.pdc.full.length := Nat.lt_of_lt_of_le hn h.samples.ahead
  obtain ⟨b, hb, hfilled⟩ := h.resting.fifo.full_getElem hfull
  obtain ⟨first, -, hturns⟩ := h.samples.turns
  obtain ⟨data, hframe⟩ := isFrame_of_filled hturns (List.mem_of_getElem? hb) hfilled
  exact ⟨m.pdc.full[n], data, List.getElem?_eq_getElem hfull, hframe⟩

/-- By the time one is complete, `ch_val` has its raw words. -/
theorem Running.raw (h : Running frames taken old m) (hne : frames ≠ []) (j : Fin numChannels) :
    4096 ≤ (rawWord m.pdc.log j).toNat := by
  have hfull : 0 < m.pdc.full.length :=
    Nat.lt_of_lt_of_le (List.length_pos_iff.mpr hne) h.samples.ahead
  obtain ⟨b, hb, hfilled⟩ := h.resting.fifo.full_getElem hfull
  have hlen := length_of_filled (List.mem_of_getElem? hb) hfilled
  have hlog : 2 ≤ m.pdc.log.length := by
    have hflat := List.Sublist.length_le (List.sublist_flatten_of_mem (List.getElem_mem hfull))
    rw [hlen] at hflat
    exact Nat.le_trans hflat (by rw [Pdc.log, List.length_append]; exact Nat.le_add_right ..)
  have hj : j.val < m.pdc.log.length := Nat.lt_of_lt_of_le j.isLt hlog
  unfold rawWord
  rw [List.getElem?_eq_getElem hj]
  exact h.samples.tagged _ (List.getElem_mem hj)

end Delivery

variable {α : Type} [FloatArith α]

/-- **What `ch_val` holds after an invocation**: the data of the last word that lay there for the
loop, and the raw word as long as there is none. -/
theorem chVal_handlerRun (u : PowerUp) (as : List (Action Event (Fin numChannels → UInt16)))
    {before later : List (HandlerReturn α)} {f : HandlerReturn α}
    (hf : (handlerRun u as).finished = before ++ f :: later) :
    ∃ frames old, frames.length = captures (before ++ [f]) ∧
      Running frames ((offers (before ++ [f])).filterMap pick) old f.after ∧
      ∀ j, f.after.mem (.chVal j)
        = (lastOffer j (offers (before ++ [f]))).getD (rawWord f.after.pdc.log j) := by
  obtain ⟨frames, old, hlen, hm, -⟩ := settled_handlerRun u as hf
  have hmet : ∀ g ∈ before ++ [f], Met g.call g.accesses := by
    intro g hg
    refine met_handlerRun u as g ?_
    rw [hf, List.append_cons]
    exact List.mem_append_left later hg
  rw [wordsTaken_past hmet] at hm
  refine ⟨frames, old, hlen, hm, fun j => ?_⟩
  rw [hm.samples.chVal j, lastFor_pick]

/-- **When a frame reaches `ch_val`**: the invocation that sees buffer `n` complete leaves its data
there exactly if these are the data of the last words that lay in `temp` for the loop, as the
contents of the arrays and the conversions in front of each load make them. -/
theorem frame_delivered_iff (u : PowerUp) (as : List (Action Event (Fin numChannels → UInt16)))
    {before later : List (HandlerReturn α)} {f : HandlerReturn α}
    (hf : (handlerRun u as).finished = before ++ f :: later)
    (hfull : sawRxbuff f.accesses = true) :
    ∃ stores data, f.after.pdc.full[captures before]? = some stores ∧ IsFrame stores data ∧
      ((∀ j, f.after.mem (.chVal j) = data j) ↔
        ∀ j, lastOffer j (offers (before ++ [f])) = some (data j)) := by
  obtain ⟨frames, old, hlen, hm, hchVal⟩ := chVal_handlerRun u as hf
  rw [captures_snoc, if_pos hfull] at hlen
  obtain ⟨stores, data, hstores, hframe⟩ := hm.frame (n := captures before) (by omega)
  refine ⟨stores, data, hstores, hframe, forall_congr' fun j => ?_⟩
  rw [hchVal j]
  cases lastOffer j (offers (before ++ [f])) with
  | some word => exact Option.some_inj.symm
  | none =>
      refine ⟨fun heq => ?_, fun heq => absurd heq (by simp)⟩
      have hraw := hm.raw (List.ne_nil_of_length_pos (by omega)) j
      have hle := hframe.data_le j
      rw [show rawWord f.after.pdc.log j = data j from heq] at hraw
      omega

/-- A `temp` that happens to hold the frame. -/
theorem frame_delivered_iff_preloaded :
    ∃ (f : HandlerReturn ℚ) (stores : List (Stored Addr)) (data : Fin numChannels → UInt16),
      (handlerRun clearedMemory (oneFrameRun ![0x4064, 0x50c8])).finished = [] ++ f :: [] ∧
      f.after.pdc.full[0]? = some stores ∧ IsFrame stores data ∧
      ((∀ j, f.after.mem (.chVal j) = data j) ↔
        ∀ j, lastOffer j (offers ([] ++ [f])) = some (data j)) := by
  have hlen : (handlerRun clearedMemory (oneFrameRun ![0x4064, 0x50c8]) :
      Node _ _ (Machine ℚ) _ _).finished.length = 1 := by decide
  have hsaw : (handlerRun clearedMemory (oneFrameRun ![0x4064, 0x50c8]) :
      Node _ _ (Machine ℚ) _ _).finished.map (fun f => sawRxbuff f.accesses) = [true] := by decide
  obtain ⟨f, hf⟩ := List.length_eq_one_iff.mp hlen
  rw [hf] at hsaw
  have hfinished : (handlerRun clearedMemory (oneFrameRun ![0x4064, 0x50c8])).finished
      = [] ++ f :: [] := hf
  obtain ⟨stores, data, hframe⟩ := frame_delivered_iff clearedMemory
    (oneFrameRun ![0x4064, 0x50c8]) hfinished (List.cons.inj hsaw).1
  exact ⟨f, stores, data, hf, hframe⟩

/-- With `temp` cleared, the first frame stays as it was stored. -/
theorem first_frame_not_delivered :
    ¬ ∀ (u : PowerUp) (as : List (Action Event (Fin numChannels → UInt16)))
      (before later : List (HandlerReturn ℚ)) (f : HandlerReturn ℚ),
      (handlerRun u as).finished = before ++ f :: later → sawRxbuff f.accesses = true →
        ∃ stores data, f.after.pdc.full[captures before]? = some stores ∧ IsFrame stores data ∧
          ∀ j, f.after.mem (.chVal j) = data j := by
  intro h
  have hlen : (handlerRun clearedMemory (oneFrameRun fun _ => 0) :
      Node _ _ (Machine ℚ) _ _).finished.length = 1 := by decide
  have hsaw : (handlerRun clearedMemory (oneFrameRun fun _ => 0) :
      Node _ _ (Machine ℚ) _ _).finished.map (fun f => sawRxbuff f.accesses) = [true] := by decide
  have hmem : (handlerRun clearedMemory (oneFrameRun fun _ => 0) :
      Node _ _ (Machine ℚ) _ _).finished.map (fun f => f.after.mem (.chVal 0)) = [0x4064] := by
    decide
  obtain ⟨f, hf⟩ := List.length_eq_one_iff.mp hlen
  rw [hf] at hsaw hmem
  obtain ⟨stores, data, -, hframe, hdelivered⟩ :=
    h clearedMemory (oneFrameRun fun _ => 0) [] [] f hf (List.cons.inj hsaw).1
  have hraw : f.after.mem (.chVal 0) = 0x4064 := (List.cons.inj hmem).1
  have hle := hframe.data_le 0
  rw [← hdelivered 0, hraw] at hle
  exact absurd hle (by decide)

end Anc
