/-
One invocation for one buffer.

On the machine alone a call of the handler may come at any time.  On the processor it
comes when `RXBUFF` asks for it, and since nothing but the handler arms the channel,
`RXBUFF` is still set when the handler reads it.  So every invocation captures, and the
queue of buffers is known without looking at the run: after `adc_sample.ch_val` the
arrays `temp` of invocations 0, 1, 2 and so on.

Buffer `k` is the one that invocation `k` is called for, and it lies in the array of
invocation `k - 1`.
-/
import AncPrototype.Proofs.Refinement
import AncPrototype.Proofs.Frames
import AncPrototype.Proofs.Storage

namespace Anc

open DeviceProgram

variable {α : Type}

/-! ### One invocation -/

/-- The accesses that neither declare an array nor ask for the status of the ADC. -/
def HandlerOp.KeepsFrames : HandlerOp → Prop
  | declare _ => False
  | _ => True

section

variable [FloatArith α]

theorem frames_exec {o : HandlerOp} (ho : o.KeepsFrames) (m : Machine α) :
    (Machine.exec o m).2.frames = m.frames := by
  cases o with
  | declare contents => exact ho.elim
  | _ => rfl

/-- The machine between invocations, each of which has captured. -/
structure Asked (fs : List (HandlerReturn α)) (m : Machine α) : Prop where
  frames : m.frames = fs.length
  running : ∃ taken old, Running (List.range fs.length) taken old m
  saw : ∀ f ∈ fs, sawRxbuff f.accesses = true

theorem Asked.stable (fs : List (HandlerReturn α)) :
    Machine.Stable fun m : Machine α => Asked fs m := by
  rintro e m ⟨hframes, ⟨taken, old, hrunning⟩, hsaw⟩
  exact ⟨stable_frames _ e m hframes, ⟨taken, old, Running.stable _ _ _ e m hrunning⟩, hsaw⟩

/-- The first half of the handler, called for: it sees `RXBUFF`. -/
theorem captureIfFull_saw (tr : List (Access α)) {m : Machine α} {k : Nat}
    (hempty : m.pdc.rcr = 0 ∧ m.pdc.rncr = 0) (hframes : m.frames = k) (temp : Nat) :
    machineDevice.Sat (fun _ _ _ => True)
      (fun tr' (_ : Unit) s => sawRxbuff tr' = true ∧ s.frames = k) (captureIfFull temp) tr m := by
  have honly : (captureIfFull temp).Only HandlerOp.KeepsFrames :=
    captureIfFull_only trivial (fun _ => trivial) (fun _ => trivial) (fun _ _ => trivial)
      fun _ _ => trivial
  refine Device.Sat.access (Machine.stable_empty.and (stable_frames k)) ⟨hempty, hframes⟩
    fun t ht => ⟨trivial, ?_⟩
  have hsaw : sawRxbuff (tr ++ [(HandlerOp.adcStatus, t)]) = true := by
    rw [sawRxbuff_append, show sawRxbuff [(HandlerOp.adcStatus, t)] = t.pdc.rxbuff from
      Bool.or_false _, show t.pdc.rxbuff = true from decide_eq_true ht.1, Bool.or_true]
  refine Device.Sat.mono (fun _ _ _ _ => trivial) (fun _ _ _ hQ => hQ) _
    (Device.Sat.of_only (J := fun tr' s => sawRxbuff tr' = true ∧ s.frames = k)
      (fun tr' e s hs => ⟨hs.1, stable_frames k e s hs.2⟩) ?_ (honly.2 _) ⟨hsaw, ht.2⟩)
  rintro tr' o s ho ⟨hsaw', hframes'⟩
  refine ⟨?_, (frames_exec ho s).trans hframes'⟩
  rw [sawRxbuff_append, hsaw', Bool.true_or]

/-- The second half leaves the buffers alone. -/
theorem driveIfReady_running {frames : List Nat} {taken : List Taken} {k : Nat}
    {tr : List (Access α)} {m : Machine α} (hm : ∃ old, Running frames taken old m)
    (hframes : m.frames = k) (hsaw : sawRxbuff tr = true) :
    machineDevice.Sat (fun _ _ _ => True)
      (fun tr' (_ : Unit) s => sawRxbuff tr' = true ∧ s.frames = k ∧
        ∃ old, Running frames taken old s) driveIfReady tr m := by
  let P (o : HandlerOp) : Prop := ∀ s : Machine α, (Machine.exec o s).2.frames = s.frames ∧
    ∀ old, Running frames taken old s → ∃ old', Running frames taken old' (Machine.exec o s).2
  have honly : driveIfReady.Only P := by
    refine driveIfReady_only ?_ ?_ ?_ ?_ ?_ ?_ ?_
    · exact fun s => ⟨rfl, fun old hs => ⟨old, hs⟩⟩
    · exact fun a s => ⟨rfl, fun old hs => ⟨old, hs⟩⟩
    · exact fun v s => ⟨rfl, fun old hs => ⟨_, hs.save (a := .old) (by decide) v⟩⟩
    · exact fun c _ s => ⟨rfl, fun old hs => ⟨old, hs.congr rfl rfl fun _ => rfl⟩⟩
    · exact fun d s => ⟨rfl, fun old hs => ⟨old, hs.congr rfl rfl fun _ => rfl⟩⟩
    · exact fun n s => ⟨rfl, fun old hs => ⟨old, hs.congr rfl rfl fun _ => rfl⟩⟩
    · exact fun r s => ⟨rfl, fun old hs => ⟨old, hs.congr rfl rfl fun _ => rfl⟩⟩
  refine Device.Sat.mono (fun _ _ _ _ => trivial) (fun _ _ _ hQ => hQ) _
    (Device.Sat.of_only (J := fun tr' s => sawRxbuff tr' = true ∧ s.frames = k ∧
      ∃ old, Running frames taken old s) ?_ ?_ honly ⟨hsaw, hframes, hm⟩)
  · rintro tr' e s ⟨hsaw', hframes', old, hs⟩
    exact ⟨hsaw', stable_frames k e s hframes', old, Running.stable _ _ _ e s hs⟩
  · rintro tr' o s ho ⟨hsaw', hframes', old, hs⟩
    obtain ⟨hkept, hrunning⟩ := ho s
    refine ⟨?_, hkept.trans hframes', hrunning old hs⟩
    rw [sawRxbuff_append, hsaw', Bool.true_or]

omit [FloatArith α] in
theorem log_prefix_event (m : Machine α) (e : Event) : m.pdc.log <+: (m.event e).pdc.log := by
  cases e with
  | flags adc dacc => exact List.prefix_rfl
  | conversion data =>
      show m.pdc.log <+: (m.pdc.convert (taggedWord m.channel data)).log
      rw [Pdc.log_convert]
      split_ifs
      · exact List.prefix_append ..
      · exact List.prefix_rfl

theorem log_exec (o : HandlerOp) (m : Machine α) : (Machine.exec o m).2.pdc.log = m.pdc.log := by
  cases o with
  | pdc o =>
      obtain ⟨-, hcur, hfull⟩ := Pdc.exec_history o m.pdc
      show (Pdc.exec o m.pdc).2.log = _
      unfold Pdc.log
      rw [hcur, hfull]
  | _ => rfl

/-- What the first half leaves to the second: the filter, what the converter has been given, and all
that has been stored. -/
structure Unheard (m s : Machine α) : Prop where
  cdr : s.cdr = m.cdr
  fxlms : s.fxlms = m.fxlms
  log : m.pdc.log <+: s.pdc.log

omit [FloatArith α] in
theorem Unheard.trans {m s t : Machine α} (h : Unheard m s) (h' : Unheard s t) : Unheard m t :=
  ⟨h'.cdr.trans h.cdr, h'.fxlms.trans h.fxlms, h.log.trans h'.log⟩

theorem Unheard.stable (m : Machine α) : Machine.Stable fun s : Machine α => Unheard m s := by
  intro e s h
  refine h.trans ⟨?_, ?_, log_prefix_event s e⟩
  · cases e <;> rfl
  · cases e <;> rfl

theorem captureIfFull_unheard (tr : List (Access α)) (m : Machine α) (temp : Nat) :
    machineDevice.Sat (fun _ _ s => Unheard m s) (fun _ (_ : Unit) s => Unheard m s)
      (captureIfFull temp) tr m := by
  let P (o : HandlerOp) : Prop := ∀ s : Machine α,
    (Machine.exec o s).2.cdr = s.cdr ∧ (Machine.exec o s).2.fxlms = s.fxlms
  have honly : (captureIfFull temp).Only P :=
    captureIfFull_only (fun _ => ⟨rfl, rfl⟩) (fun _ _ => ⟨rfl, rfl⟩) (fun _ _ => ⟨rfl, rfl⟩)
      (fun _ _ _ => ⟨rfl, rfl⟩) fun _ _ _ => ⟨rfl, rfl⟩
  refine Device.Sat.of_only (J := fun _ s => Unheard m s) (fun _ => Unheard.stable m) ?_ honly
    ⟨rfl, rfl, List.prefix_rfl⟩
  intro _ o s ho hs
  exact hs.trans ⟨(ho s).1, (ho s).2, (log_exec o s).symm ▸ List.prefix_rfl⟩

/-- What the first half of an invocation leaves, when it has been called for on `m` as number `k`
with the words `taken` taken before. -/
structure Captured (k : Nat) (taken : List Taken) (old : UInt16) (m : Machine α)
    (tr : List (Access α)) (s : Machine α) : Prop where
  silent : ∀ a ∈ tr, a.1.Silent
  saw : sawRxbuff tr = true
  loops : Loops 2 tr
  frames : s.frames = k + 1
  running : Running (List.range (k + 1)) (taken ++ wordsTaken tr) old s
  unheard : Unheard m s

/-- **An invocation that is called for captures**: its first half puts its array into the queue and
takes words from it, and nothing of it can be heard outside. -/
theorem Asked.captured {fs : List (HandlerReturn α)} {m : Machine α} (h : Asked fs m)
    {taken : List Taken} {old : UInt16} (hrunning : Running (List.range fs.length) taken old m)
    (hpending : m.pdc.rxbuff = true) (contents : Fin numChannels → UInt16) :
    machineDevice.Sat (fun tr _ s => (∀ a ∈ tr, a.1.Silent) ∧ Unheard m s)
      (fun tr (_ : Unit) s => Captured fs.length taken old m tr s)
      (HandlerProg.declare contents >>= captureIfFull) [] m := by
  have hstable : Machine.Stable fun t : Machine α => ((t.frames = fs.length ∧
      (t.pdc.rcr = 0 ∧ t.pdc.rncr = 0)) ∧ Running (List.range fs.length) taken old t) ∧
      Unheard m t :=
    (((stable_frames _).and Machine.stable_empty).and (Running.stable _ _ _)).and (Unheard.stable m)
  refine Device.Sat.access hstable
    ⟨⟨⟨h.frames, of_decide_eq_true hpending⟩, hrunning⟩, rfl, rfl, List.prefix_rfl⟩
    fun t ⟨⟨⟨htemp, hempty⟩, ht⟩, hkept⟩ => ⟨⟨fun _ ha => absurd ha List.not_mem_nil, hkept⟩, ?_⟩
  have hdeclared : Running (List.range fs.length) taken old (t.declare contents) :=
    ht.declare contents
  have hcapture := ((captureIfFull_silently hdeclared t.frames).and
    (captureIfFull_saw [(HandlerOp.declare contents, t)] (m := t.declare contents)
      (k := fs.length + 1) hempty (by show t.frames + 1 = _; rw [htemp]) t.frames)).and
    (captureIfFull_unheard _ (t.declare contents) t.frames)
  have hsilent : ∀ tr' : List (Access α), (∀ a ∈ tr', a.1.Silent) →
      ∀ a ∈ [(HandlerOp.declare contents, t)] ++ tr', a.1.Silent := fun tr' htr' =>
    List.forall_mem_append.mpr ⟨List.forall_mem_singleton.mpr trivial, htr'⟩
  have hall : Unheard m (t.declare contents) := ⟨hkept.cdr, hkept.fxlms, hkept.log⟩
  refine Device.Sat.mono ?_ ?_ _ hcapture
  · rintro _ o s ⟨⟨⟨tr', rfl, htr'⟩, -⟩, hs⟩
    exact ⟨hsilent tr' htr', hall.trans hs⟩
  · rintro _ _ s ⟨⟨⟨tr', rfl, htr', hloops, hs⟩, hsaw, hframes⟩, hkept'⟩
    have hsaw' : sawRxbuff tr' = true := hsaw
    rw [hsaw', if_pos rfl] at hloops
    rw [hsaw', if_pos rfl, htemp, ← List.range_succ] at hs
    have hplain : Plain [(HandlerOp.declare contents, t)] := ⟨rfl, rfl, rfl⟩
    exact ⟨hsilent tr' htr', hsaw, hplain.loops.append hloops, hframes, hs, hall.trans hkept'⟩

theorem Asked.invocation {fs : List (HandlerReturn α)} {m : Machine α} (h : Asked fs m)
    (hpending : m.pdc.rxbuff = true) (contents : Fin numChannels → UInt16) :
    machineDevice.Sat (fun _ _ _ => True)
      (fun tr a s => Asked (fs ++ [⟨contents, tr, a, s⟩]) s) (adcHandler contents) [] m := by
  obtain ⟨taken, old, hrunning⟩ := h.running
  have hcapture := h.captured hrunning hpending contents
  show machineDevice.Sat _ _
    ((HandlerProg.declare contents >>= captureIfFull) >>= fun _ => driveIfReady) [] m
  refine Device.Sat.bind _ (Device.Sat.mono (fun _ _ _ _ => trivial) ?_ _ hcapture)
  intro tr _ s hs
  refine Device.Sat.mono (fun _ _ _ hG => hG) ?_ _
    (driveIfReady_running ⟨old, hs.running⟩ hs.frames hs.saw)
  rintro tr' _ s' ⟨hsaw', hframes', old', hs'⟩
  have hlength : (fs ++ [(⟨contents, tr', (), s'⟩ : HandlerReturn α)]).length = fs.length + 1 :=
    List.length_append
  refine ⟨hframes'.trans hlength.symm, ⟨taken ++ wordsTaken tr, old', ?_⟩, ?_⟩
  · rw [hlength]
    exact hs'
  · exact List.forall_mem_append.mpr ⟨h.saw, List.forall_mem_singleton.mpr hsaw'⟩

/-! ### Runs -/

theorem Asked.initialized (u : PowerUp) : Asked [] (Machine.initialized u : Machine α) :=
  ⟨rfl, ⟨[], 2048, Running.initialized u⟩, fun _ hf => absurd hf List.not_mem_nil⟩

/-- A run of the machine in which the handler is called when `RXBUFF` asks for it. -/
abbrev machineIrqRun (u : PowerUp) (as : List (Action Event (Fin numChannels → UInt16))) :
    Node HandlerOp HandlerOp.Resp (Machine α) (Fin numChannels → UInt16) Unit :=
  machineIrq.run (Host.start (Machine.initialized u)) as

theorem asked_machineIrqRun (u : PowerUp)
    (as : List (Action Event (Fin numChannels → UInt16))) :
    Host.Ok (machineHost (α := α)) Asked (fun _ _ _ _ _ => True) (machineIrqRun u as) :=
  IrqHost.run_ok (h := machineIrq) Asked.stable
    (fun _ contents _ h hpending => h.invocation hpending contents) as (Asked.initialized u)

/-- It is one of the runs in which the handler is called at any time. -/
theorem machineIrqRun_eq (u : PowerUp) (as : List (Action Event (Fin numChannels → UInt16))) :
    ∃ as', (handlerRun u as' : Node _ _ (Machine α) _ _) = machineIrqRun u as :=
  IrqHost.run_eq_host machineIrq as _

end

/-- Where buffer `k` lies. -/
def landing : Nat → Addr
  | 0 => .chVal 0
  | k + 1 => .temp k 0

theorem getElem?_buffers_range {k i : Nat} {b : BufferCall Addr}
    (h : (buffers (List.range k))[i]? = some b) : b.ptr = landing i := by
  cases i with
  | zero =>
      obtain rfl : bootBuffer = b := Option.some.inj h
      rfl
  | succ i =>
      rw [buffers, List.getElem?_cons_succ, List.getElem?_map] at h
      obtain ⟨frame, hframe, rfl⟩ := Option.map_eq_some_iff.mp h
      obtain ⟨hlt, rfl⟩ := List.getElem?_eq_some_iff.mp hframe
      rw [List.getElem_range]
      rfl

/-- With only the first bank armed, all buffers but the last are full. -/
theorem Fifo.length_full_of_single {A : Type} [HalfwordPtr A] {queue : List (BufferCall A)}
    {p : Pdc A} (h : Fifo queue p) (hr : p.rcr ≠ 0) (hn : p.rncr = 0) :
    p.full.length + 1 = queue.length := by
  obtain ⟨filled, pending, hqueue, hp⟩ := h
  match pending, hp.banks with
  | [], hb => exact absurd hb.1 hr
  | [b], hb => rw [hqueue, List.length_append, hp.full.length_eq, List.length_singleton]
  | [b, b'], hb =>
      have hpos := b'.pos
      rw [← hb.2.2, hn] at hpos
      exact absurd hpos (Nat.lt_irrefl 0)

/-- The channel after `k` invocations. -/
structure InStep (k : Nat) (p : Pdc Addr) : Prop where
  /-- The next bank is never armed. -/
  single : p.rncr = 0
  /-- An invocation has been made or is asked for, for every complete buffer. -/
  count : p.full.length = k + if p.rxbuff then 1 else 0
  /-- Each of them holds two conversions in a row, one of each channel. -/
  stored : ∀ i stores, p.full[i]? = some stores → (∃ data, IsFrame stores data) ∧
    ∃ start, start + bufferSize ≤ p.convs.length ∧
      stores = burst p.convs start (landing i) bufferSize
  /-- The next one is on its way. -/
  receiving : p.rcr ≠ 0 → p.rpr = HalfwordPtr.next^[p.cur.length] (landing k)

theorem Asked.inStep {fs : List (HandlerReturn α)} {m : Machine α} (h : Asked fs m)
    (hsingle : m.pdc.rncr = 0) : InStep fs.length m.pdc := by
  obtain ⟨taken, old, hrunning⟩ := h.running
  have hfifo := hrunning.resting.fifo
  have hlength : (buffers (List.range fs.length)).length = fs.length + 1 := by simp [buffers]
  have hcount : m.pdc.full.length = fs.length + if m.pdc.rxbuff then 1 else 0 := by
    by_cases hr : m.pdc.rcr = 0
    · have hrxbuff : m.pdc.rxbuff = true := decide_eq_true ⟨hr, hsingle⟩
      rw [if_pos hrxbuff, hfifo.length_full hr, hlength]
    · have hrest := hfifo.length_full_of_single hr hsingle
      rw [if_neg fun hrxbuff => hr (of_decide_eq_true hrxbuff).1]
      omega
  refine ⟨hsingle, hcount, fun i stores hi => ?_, fun hr => ?_⟩
  · obtain ⟨hlt, rfl⟩ := List.getElem?_eq_some_iff.mp hi
    obtain ⟨b, hb, hfilled⟩ := hfifo.full_getElem hlt
    obtain ⟨first, -, hturns⟩ := hrunning.samples.turns
    refine ⟨isFrame_of_filled hturns (List.mem_of_getElem? hb) hfilled, ?_⟩
    obtain ⟨start, hle, hstores⟩ := hfilled
    rw [size_of_mem_buffers (List.mem_of_getElem? hb)] at hle hstores
    rw [getElem?_buffers_range hb] at hstores
    exact ⟨start, hle, hstores⟩
  · obtain ⟨b, hb, -, hrpr⟩ := hfifo.current hr
    rw [if_neg fun hrxbuff => hr (of_decide_eq_true hrxbuff).1, Nat.add_zero] at hcount
    rw [hcount] at hb
    rw [hrpr, getElem?_buffers_range hb]

variable [FloatArith α]

theorem inStep_machineIrqRun (u : PowerUp) (as : List (Action Event (Fin numChannels → UInt16)))
    (hidle : (machineIrqRun u as : Node _ _ (Machine α) _ _).active = none) :
    InStep (machineIrqRun u as : Node _ _ (Machine α) _ _).finished.length
      (machineIrqRun u as : Node _ _ (Machine α) _ _).state.pdc := by
  obtain ⟨as', heq⟩ := machineIrqRun_eq (α := α) u as
  have hleft := leftBehind_handlerRun (α := α) u as'
  rw [heq] at hleft
  obtain ⟨k, hk⟩ := (hleft.idle hidle).countdown
  exact ((asked_machineIrqRun u as).idle hidle).inStep hk.single

/-- **One invocation for one buffer**, in every run of the firmware: between invocations, as many
buffers are complete as invocations have returned, and one more if the interrupt is pending.  Each
has been stored in the array of the invocation before, the first one in `adc_sample`. -/
theorem one_invocation_per_buffer (capacity : Nat) (u : ChipPowerUp α)
    (as : List (Action ChipEvent (Fin numChannels → UInt16))) :
    let c := firmwareRun capacity u as
    (∃ o k, c.main = .step o k) ∨
      (c.node.active = none → InStep c.node.finished.length c.node.state.pdc ∧
        c.node.state.pending = c.node.state.pdc.rxbuff ∧
        c.node.state.frames = c.node.finished.length) := by
  intro c
  cases hmain : c.main with
  | step o k => exact .inl ⟨o, k, rfl⟩
  | ret b =>
      refine .inr fun hidle => ?_
      obtain ⟨v, as', -, -, hshows⟩ := firmware_shows_machine capacity u as hmain
      have hinStep := inStep_machineIrqRun v as' (hshows.idle_iff.mp hidle)
      have hframes := ((asked_machineIrqRun v as').idle (hshows.idle_iff.mp hidle)).frames
      rw [← hshows.length_finished, ← hshows.state] at hinStep hframes
      exact ⟨hinStep, (configured_firmwareRun capacity hmain).pending, hframes⟩

end Anc
