/-
A stack that is used again.

`main` waits at one depth of the stack, so the arrays `temp` of successive invocations
lie in the same place.  If nothing else has been put there (`Reuses`), the array of
invocation `k + 1` holds, when it is declared, what the channel has stored in the array of
invocation `k`: buffer `k + 1`, the very frame the invocation is called for.  So the handler
does pass on the frame, the first one apart, which went to `ch_val` itself; but it reads it
in an array that it has just given away, so a conversion that comes before the loads takes
its place.

`Stays` is what makes this a fact about memory: what the channel has stored in an array is
still there.
-/
import AncPrototype.Proofs.Invocations

namespace Anc

open DeviceProgram

variable {α : Type}

/-! ### What is stored in the arrays -/

/-- The last word that the channel has stored at an address. -/
def lastAt (log : List (Stored Addr)) (a : Addr) : Option (Stored Addr) :=
  (log.filter fun s => s.addr = a).getLast?

theorem lastAt_snoc (log : List (Stored Addr)) (s : Stored Addr) (a : Addr) :
    lastAt (log ++ [s]) a = if s.addr = a then some s else lastAt log a := by
  unfold lastAt
  rw [List.filter_append]
  by_cases h : s.addr = a
  · rw [if_pos h]
    simp [h]
  · rw [if_neg h]
    simp [h]

theorem mem_of_lastAt {log : List (Stored Addr)} {a : Addr} {s : Stored Addr}
    (h : lastAt log a = some s) : s ∈ log ∧ s.addr = a := by
  obtain ⟨hmem, haddr⟩ := List.mem_filter.mp (List.mem_of_getLast? h)
  exact ⟨hmem, of_decide_eq_true haddr⟩

/-- In the arrays, memory has what the channel has stored last. -/
def Stays (m : Machine α) : Prop :=
  ∀ temp i s, lastAt m.pdc.log ⟨.temp temp, i⟩ = some s → m.mem ⟨.temp temp, i⟩ = s.word

/-- The accesses that neither declare an array nor store to one. -/
def HandlerOp.SparesArrays : HandlerOp → Prop
  | declare _ => False
  | save a _ => a.object = .adcSample
  | _ => True

section

variable [FloatArith α]

theorem Stays.stable : Machine.Stable fun m : Machine α => Stays m := by
  intro e m h
  cases e with
  | flags adc dacc => exact h
  | conversion data =>
      intro temp i s hs
      let word := taggedWord m.channel data
      show (if m.pdc.rxten ∧ m.pdc.rcr ≠ 0 then Function.update m.mem m.pdc.rpr word else m.mem)
        ⟨.temp temp, i⟩ = s.word
      have hlog : (m.convert data).pdc.log = _ := Pdc.log_convert m.pdc word
      rw [show (machineDevice.env (.conversion data) m).pdc.log = (m.convert data).pdc.log from rfl,
        hlog] at hs
      by_cases hstore : m.pdc.rxten = true ∧ m.pdc.rcr ≠ 0
      · rw [if_pos hstore, lastAt_snoc] at hs
        rw [if_pos hstore, Function.update_apply]
        by_cases haddr : m.pdc.rpr = ⟨.temp temp, i⟩
        · rw [if_pos (show (m.pdc.taken word).addr = _ from haddr)] at hs
          rw [if_pos haddr.symm, ← Option.some.inj hs]
          rfl
        · rw [if_neg (show ¬ (m.pdc.taken word).addr = _ from haddr)] at hs
          rw [if_neg (Ne.symm haddr)]
          exact h temp i s hs
      · rw [if_neg hstore] at hs ⊢
        exact h temp i s hs

theorem Stays.exec {m : Machine α} (h : Stays m) {o : HandlerOp} (ho : o.SparesArrays) :
    Stays (Machine.exec o m).2 := by
  intro temp i s hs
  rw [log_exec] at hs
  cases o with
  | declare contents => exact ho.elim
  | save a v =>
      have hne : (⟨.temp temp, i⟩ : Addr) ≠ a := by
        rintro rfl
        exact absurd (show MemObject.temp temp = .adcSample from ho) (by simp)
      show Function.update m.mem a v ⟨.temp temp, i⟩ = s.word
      rw [Function.update_of_ne hne]
      exact h temp i s hs
  | _ => exact h temp i s hs

omit [FloatArith α] in
/-- A new array is one that the channel has stored nothing in. -/
theorem Stays.declare {k : Nat} {taken : List Taken} {old : UInt16} {m : Machine α} (h : Stays m)
    (hrunning : Running (List.range k) taken old m) (hempty : m.pdc.rcr = 0)
    (hframes : m.frames = k) (contents : Fin numChannels → UInt16) :
    Stays (m.declare contents) := by
  have hfifo := hrunning.resting.fifo
  have hlog : m.pdc.log = m.pdc.full.flatten := by
    rw [Pdc.log, (hfifo.idle_iff hempty).2, List.append_nil]
  have hapart : ∀ s ∈ m.pdc.log, s.addr.object ≠ .temp k := by
    intro s hs
    rw [hlog] at hs
    obtain ⟨stores, hstores, hmem⟩ := List.mem_flatten.mp hs
    obtain ⟨j, hj, rfl⟩ := List.getElem_of_mem hstores
    obtain ⟨b, hb, start, -, hburst⟩ := hfifo.full_getElem hj
    rw [hburst] at hmem
    obtain ⟨i, -, rfl⟩ := List.mem_map.mp hmem
    show (HalfwordPtr.next^[i] b.ptr).object ≠ _
    have hjk : j < k + 1 := by
      have hlt := (List.getElem?_eq_some_iff.mp hb).1
      simpa [buffers] using hlt
    rw [iterate_next, getElem?_buffers_range hb]
    cases j with
    | zero => simp [landing]
    | succ j =>
        have hne : j ≠ k := by omega
        simpa [landing] using hne
  intro temp i s hs
  obtain ⟨hmem, haddr⟩ := mem_of_lastAt hs
  have hne : temp ≠ m.frames := by
    rintro rfl
    rw [hframes] at haddr
    exact hapart s hmem (by rw [haddr])
  show (if hnew : temp = m.frames ∧ i < numChannels then contents ⟨i, hnew.2⟩
    else m.mem ⟨.temp temp, i⟩) = s.word
  rw [dif_neg fun hnew => hne hnew.1]
  exact h temp i s hs

end

/-! ### When an array is declared -/

/-- Two words in a row, stored in an array, are what the array holds last. -/
theorem lastAt_pair (log : List (Stored Addr)) (k : Nat) (s₀ s₁ : Stored Addr)
    (h₀ : s₀.addr = .temp k 0) (h₁ : s₁.addr = .temp k 1) :
    lastAt (log ++ [s₀, s₁]) (.temp k 0) = some s₀ ∧
      lastAt (log ++ [s₀, s₁]) (.temp k 1) = some s₁ := by
  have hother : s₁.addr ≠ .temp k 0 := by
    rw [h₁]
    simp
  rw [List.append_cons, lastAt_snoc, lastAt_snoc, lastAt_snoc, if_neg hother, if_pos h₀, if_pos h₁]
  exact ⟨rfl, rfl⟩

/-- The array of invocation `k` is that of buffer `k + 1`, and holds its words, `s₀` and `s₁`. -/
structure HoldsFrame (k : Nat) (full : List (List (Stored Addr))) (mem : Addr → UInt16)
    (s₀ s₁ : Stored Addr) (data : Fin numChannels → UInt16) : Prop where
  stored : full[k + 1]? = some [s₀, s₁]
  frame : IsFrame [s₀, s₁] data
  first : mem (.temp k 0) = s₀.word
  second : mem (.temp k 1) = s₁.word

/-- **When buffer `k + 1` is complete, it lies in the array of invocation `k`.** -/
theorem Stays.holdsFrame {k : Nat} {taken : List Taken} {old : UInt16} {m : Machine α}
    (h : Stays m) (hrunning : Running (List.range (k + 1)) taken old m)
    (hempty : m.pdc.rcr = 0) : ∃ s₀ s₁ data, HoldsFrame k m.pdc.full m.mem s₀ s₁ data := by
  have hfifo := hrunning.resting.fifo
  have hlength : m.pdc.full.length = k + 2 := by
    rw [hfifo.length_full hempty]
    simp [buffers]
  have hlast : k + 1 < m.pdc.full.length := by omega
  obtain ⟨b, hb, hfilled⟩ := hfifo.full_getElem hlast
  obtain ⟨first, -, hturns⟩ := hrunning.samples.turns
  obtain ⟨data, hframe⟩ := isFrame_of_filled hturns (List.mem_of_getElem? hb) hfilled
  obtain ⟨start, -, hburst⟩ := hfilled
  rw [getElem?_buffers_range hb, size_of_mem_buffers (List.mem_of_getElem? hb)] at hburst
  let s (i : Nat) : Stored Addr := ⟨start + i, ⟨.temp k, i⟩, m.pdc.convs.getD (start + i) 0⟩
  have hpair : m.pdc.full[k + 1] = [s 0, s 1] := hburst
  have hfull : m.pdc.full = m.pdc.full.take (k + 1) ++ [m.pdc.full[k + 1]] := by
    rw [List.take_concat_get' _ _ hlast, List.take_of_length_le (by omega)]
  have hlog : m.pdc.log = (m.pdc.full.take (k + 1)).flatten ++ [s 0, s 1] := by
    rw [Pdc.log, (hfifo.idle_iff hempty).2, List.append_nil]
    conv_lhs => rw [hfull]
    rw [List.flatten_append, List.flatten_singleton, hpair]
  obtain ⟨hfirst, hsecond⟩ :=
    lastAt_pair (m.pdc.full.take (k + 1)).flatten k (s 0) (s 1) rfl rfl
  rw [← hlog] at hfirst hsecond
  refine ⟨s 0, s 1, data, ?_, hpair ▸ hframe, h k 0 _ hfirst, h k 1 _ hsecond⟩
  rw [List.getElem?_eq_getElem hlast, hpair]

/-- Words that lie in the arrays as a frame leave its data. -/
theorem IsFrame.lastOffer_eq {s₀ s₁ : Stored Addr} {data : Fin numChannels → UInt16}
    (h : IsFrame [s₀, s₁] data) (pairs : List (UInt16 × UInt16)) (j : Fin numChannels) :
    lastOffer j (pairs ++ [(s₀.word, s₀.word), (s₁.word, s₁.word)]) = some (data j) := by
  have hj := h j
  rw [List.append_cons, lastOffer_snoc, lastOffer_snoc]
  by_cases h₀ : wordTag s₀.word = sampleTag j <;> by_cases h₁ : wordTag s₁.word = sampleTag j
  · simp [h₀, h₁] at hj
  · rw [if_neg h₁, if_pos h₀]
    simpa [h₀, h₁] using hj
  · rw [if_pos h₁]
    simpa [h₀, h₁] using hj
  · simp [h₀, h₁] at hj

/-- What invocation `k + 1` finds when it begins, and that it captures. -/
def Found (k : Nat) (g : HandlerReturn α) : Prop :=
  sawRxbuff g.accesses = true ∧ ∃ t s₀ s₁ data, g.accesses.head? = some (.declare g.call, t) ∧
    HoldsFrame k g.after.pdc.full t.mem s₀ s₁ data

variable [FloatArith α]

/-- The machine between invocations. -/
structure Staying (fs : List (HandlerReturn α)) (m : Machine α) : Prop where
  asked : Asked fs m
  stays : Stays m
  found : ∀ k g, fs[k + 1]? = some g → Found k g

theorem adcHandler_spares (k : Nat) :
    (captureIfFull k >>= fun _ => driveIfReady).Only HandlerOp.SparesArrays := by
  refine Prog.Only.bind (fun _ => ?_) (captureIfFull_only trivial (fun _ => trivial)
    (fun _ => trivial) (fun _ _ => trivial) fun _ _ => rfl)
  exact driveIfReady_only trivial (fun _ => trivial) (fun _ => rfl) (fun _ _ => trivial)
    (fun _ => trivial) (fun _ => trivial) fun _ => trivial

theorem full_exec (o : HandlerOp) (m : Machine α) :
    (Machine.exec o m).2.pdc.full = m.pdc.full := by
  cases o with
  | pdc o => exact (Pdc.exec_history o m.pdc).2.2
  | _ => rfl

theorem stable_full (full : List (List (Stored Addr))) :
    Machine.Stable fun m : Machine α => full <+: m.pdc.full :=
  Machine.stable_pdc (P := fun p => full <+: p.full)
    fun p word h => h.trans (Pdc.full_prefix_convert p word)

/-- From the declaration on, memory has what the channel stores, and what lay in the array of the
invocation before is known. -/
theorem adcHandler_holds {n : Nat} {taken : List Taken} {old : UInt16} {m : Machine α}
    (hframes : m.frames = n) (hempty : m.pdc.rcr = 0 ∧ m.pdc.rncr = 0)
    (hrunning : Running (List.range n) taken old m) (hstays : Stays m)
    (contents : Fin numChannels → UInt16) :
    machineDevice.Sat (fun _ _ _ => True)
      (fun tr (_ : Unit) s => Stays s ∧ ∀ k, n = k + 1 → ∃ t s₀ s₁ data,
        tr.head? = some (.declare contents, t) ∧ HoldsFrame k s.pdc.full t.mem s₀ s₁ data)
      (adcHandler contents) [] m := by
  have hstable : Machine.Stable fun m : Machine α => ((m.frames = n ∧
      (m.pdc.rcr = 0 ∧ m.pdc.rncr = 0)) ∧ Running (List.range n) taken old m) ∧ Stays m :=
    (((stable_frames _).and Machine.stable_empty).and (Running.stable _ _ _)).and Stays.stable
  refine Device.Sat.access hstable ⟨⟨⟨hframes, hempty⟩, hrunning⟩, hstays⟩
    fun t ⟨⟨⟨htemp, hempty⟩, ht⟩, hstays⟩ => ⟨trivial, ?_⟩
  let J (tr : List (Access α)) (s : Machine α) : Prop := Stays s ∧ t.pdc.full <+: s.pdc.full ∧
    tr.head? = some (.declare contents, t)
  have hstart : J [(.declare contents, t)] (t.declare contents) :=
    ⟨hstays.declare ht hempty.1 htemp contents, List.prefix_rfl, rfl⟩
  refine Device.Sat.mono (fun _ _ _ _ => trivial) ?_ _
    (Device.Sat.of_only (J := J) ?_ ?_ (adcHandler_spares t.frames) hstart)
  · rintro tr a s ⟨hs, ⟨later, hlater⟩, hhead⟩
    refine ⟨hs, fun k hk => ?_⟩
    rw [hk] at ht
    obtain ⟨s₀, s₁, data, hholds⟩ := hstays.holdsFrame ht hempty.1
    have hlt := (List.getElem?_eq_some_iff.mp hholds.stored).1
    refine ⟨t, s₀, s₁, data, hhead, ?_, hholds.frame, hholds.first, hholds.second⟩
    rw [← hlater, List.getElem?_append_left hlt]
    exact hholds.stored
  · exact fun tr e s hs => ⟨Stays.stable e s hs.1, stable_full _ e s hs.2.1, hs.2.2⟩
  · rintro tr o s ho ⟨hs, hfull, hhead⟩
    refine ⟨hs.exec ho, (full_exec o s).symm ▸ hfull, ?_⟩
    rw [List.head?_append, hhead]
    rfl

/-- An invocation that is called for, and how it begins. -/
theorem Staying.invocation {fs : List (HandlerReturn α)} {m : Machine α} (h : Staying fs m)
    (hpending : m.pdc.rxbuff = true) (contents : Fin numChannels → UInt16) :
    machineDevice.Sat (fun _ _ _ => True)
      (fun tr a s => Staying (fs ++ [⟨contents, tr, a, s⟩]) s) (adcHandler contents) [] m := by
  obtain ⟨hframes, ⟨taken, old, hrunning⟩, -⟩ := h.asked
  have hholds := adcHandler_holds hframes (of_decide_eq_true hpending) hrunning h.stays contents
  refine Device.Sat.mono (fun _ _ _ _ => trivial) ?_ _
    ((h.asked.invocation hpending contents).and hholds)
  rintro tr a s ⟨hasked, hs, hfound⟩
  refine ⟨hasked, hs, fun k g hg => ?_⟩
  rw [List.getElem?_append] at hg
  split_ifs at hg with hlt
  · exact h.found k g hg
  · obtain ⟨hk, rfl⟩ := List.getElem?_eq_some_iff.mp hg
    rw [List.length_singleton] at hk
    rw [List.getElem_singleton]
    exact ⟨hasked.saw _ (List.mem_append_right fs (List.mem_singleton_self _)),
      hfound k (by omega)⟩

theorem found_machineIrqRun (u : PowerUp)
    (as : List (Action Event (Fin numChannels → UInt16))) :
    ∀ k g, (machineIrqRun u as : Node _ _ (Machine α) _ _).finished[k + 1]? = some g →
      Found k g := by
  have hstart : Staying [] (Machine.initialized u : Machine α) := by
    refine ⟨Asked.initialized u, fun temp i s hs => ?_, fun k g hg => absurd hg (by simp)⟩
    obtain ⟨hmem, -⟩ := mem_of_lastAt hs
    exact absurd hmem List.not_mem_nil
  have hok : Host.Ok (machineHost (α := α)) Staying
      (fun fs _ _ _ _ => ∀ k g, fs[k + 1]? = some g → Found k g) (machineIrqRun u as) := by
    refine IrqHost.run_ok (h := machineIrq) (fun fs e m h =>
      ⟨Asked.stable fs e m h.asked, Stays.stable e m h.stays, h.found⟩) ?_ as hstart
    exact fun fs contents m h hpending => Device.Sat.mono (fun _ _ _ _ => h.found)
      (fun _ _ _ hQ => hQ) _ (h.invocation hpending contents)
  rcases hok.moments with ⟨-, hidle⟩ | ⟨contents, tr, a, -, hret⟩ | ⟨contents, tr, o, k, -, hstep⟩
  · exact hidle.found
  · intro k g hg
    refine hret.found k g ?_
    rw [List.getElem?_append_left (List.getElem?_eq_some_iff.mp hg).1]
    exact hg
  · exact hstep

/-! ### Delivery -/

omit [FloatArith α] in
/-- With no conversion in front of a load, the array is as it was. -/
theorem inTemp_of_le {contents : Fin numChannels → UInt16} {armed : Nat} {convs : List UInt16}
    (h : convs.length ≤ armed) (i : Fin numChannels) :
    inTemp contents armed convs i = contents i := by
  unfold inTemp
  rw [List.getElem?_eq_none (Nat.le_add_right_of_le h)]
  rfl

/-- The array of an invocation is declared where that of invocation `k` was, and holds what that one
holds. -/
def Reuses (k : Nat) (g : HandlerReturn α) : Prop :=
  ∀ a ∈ g.accesses.head?, ∀ i : Fin numChannels, g.call i = a.2.mem (.temp k i)

instance instDecidableReuses (k : Nat) (g : HandlerReturn α) : Decidable (Reuses k g) :=
  inferInstanceAs (Decidable (∀ _ ∈ _, ∀ _, _ = _))

/-- No conversion comes between the write of `ADC_RCR` and a load of the array. -/
def Prompt (g : HandlerReturn α) : Prop :=
  ∀ i, (cameBy (looks i) g.accesses).length ≤ armedAfter g.accesses ∧
    (cameBy (takes i) g.accesses).length ≤ armedAfter g.accesses

instance instDecidablePrompt (g : HandlerReturn α) : Decidable (Prompt g) :=
  inferInstanceAs (Decidable (∀ _, _ ∧ _))

/-- **On a stack that is used again, an invocation passes on the frame it is called for**: from the
second one on, the array holds this frame when it is declared, and if no conversion comes before the
loads, `ch_val` holds its data afterwards. -/
theorem own_frame_delivered (u : PowerUp) (as : List (Action Event (Fin numChannels → UInt16)))
    {k : Nat} {g : HandlerReturn α} (hg : (machineIrqRun u as).finished[k + 1]? = some g)
    (hreuse : Reuses k g) :
    ∃ s₀ s₁ data, g.after.pdc.full[k + 1]? = some [s₀, s₁] ∧ IsFrame [s₀, s₁] data ∧
      g.call 0 = s₀.word ∧ g.call 1 = s₁.word ∧
      (Prompt g → ∀ j, g.after.mem (.chVal j) = data j) := by
  obtain ⟨hsaw, t, s₀, s₁, data, hhead, hholds⟩ := found_machineIrqRun u as k g hg
  have hcall : ∀ i, g.call i = t.mem (.temp k i) := hreuse _ hhead
  have hfirst : g.call 0 = s₀.word := (hcall 0).trans hholds.first
  have hsecond : g.call 1 = s₁.word := (hcall 1).trans hholds.second
  refine ⟨s₀, s₁, data, hholds.stored, hholds.frame, hfirst, hsecond, fun hprompt j => ?_⟩
  obtain ⟨as', hrun⟩ := machineIrqRun_eq (α := α) u as
  obtain ⟨hlt, hget⟩ := List.getElem?_eq_some_iff.mp hg
  let fs := (machineIrqRun u as : Node _ _ (Machine α) _ _).finished
  have hsplit : fs = fs.take (k + 1) ++ g :: fs.drop (k + 2) := by
    rw [← hget, List.cons_getElem_drop_succ, List.take_append_drop]
  have hf : (handlerRun u as' : Node _ _ (Machine α) _ _).finished
      = fs.take (k + 1) ++ g :: fs.drop (k + 2) := by
    rw [hrun]
    exact hsplit
  obtain ⟨-, -, -, -, hchVal⟩ := chVal_handlerRun u as' hf
  have hoffered : offered g.call g.accesses = [(s₀.word, s₀.word), (s₁.word, s₁.word)] := by
    have hoffer : ∀ i, offer g.call g.accesses i = (g.call i, g.call i) := fun i => by
      rw [offer, inTemp_of_le (hprompt i).1, inTemp_of_le (hprompt i).2]
    unfold offered
    rw [if_pos hsaw, hoffer, hoffer, hfirst, hsecond]
  have hoffers : offers (fs.take (k + 1) ++ [g])
      = offers (fs.take (k + 1)) ++ [(s₀.word, s₀.word), (s₁.word, s₁.word)] := by
    rw [offers, List.flatMap_append, List.flatMap_singleton, hoffered]
    rfl
  rw [hchVal j, hoffers, hholds.frame.lastOffer_eq]
  rfl

/-- Two frames, the second of which lies in the next array when that is declared. -/
def secondFrameRun : List (Action Event (Fin numChannels → UInt16)) :=
  [.event (.conversion 100), .event (.conversion 200), .call fun _ => 0] ++
    List.replicate 16 .cpu ++
    [.event (.conversion 300), .event (.conversion 400), .call ![0x412c, 0x5190]] ++
    List.replicate 16 .cpu

/-- The second invocation of that run. -/
theorem own_frame_delivered_second_frame :
    ∃ (g : HandlerReturn ℚ) (s₀ s₁ : Stored Addr) (data : Fin numChannels → UInt16),
      (machineIrqRun clearedMemory secondFrameRun).finished[0 + 1]? = some g ∧
      g.after.pdc.full[0 + 1]? = some [s₀, s₁] ∧ IsFrame [s₀, s₁] data ∧
      g.call 0 = s₀.word ∧ g.call 1 = s₁.word ∧ ∀ j, g.after.mem (.chVal j) = data j := by
  have hsecond : ((machineIrqRun clearedMemory secondFrameRun :
      Node _ _ (Machine ℚ) _ _).finished[1]?).map
        (fun g => (decide (Reuses 0 g), decide (Prompt g))) = some (true, true) := by
    decide
  obtain ⟨g, hg, hboth⟩ := Option.map_eq_some_iff.mp hsecond
  obtain ⟨hreuse, hprompt⟩ := Prod.mk.inj hboth
  obtain ⟨s₀, s₁, data, hstored, hframe, h₀, h₁, hdelivered⟩ :=
    own_frame_delivered clearedMemory secondFrameRun hg (of_decide_eq_true hreuse)
  exact ⟨g, s₀, s₁, data, hg, hstored, hframe, h₀, h₁, hdelivered (of_decide_eq_true hprompt)⟩

end Anc
