/-
What the demultiplexing loop finds in its array.

An invocation that sees `RXBUFF` gives the channel its `temp` and reads it right away.
From the write of `ADC_RCR` on, word `i` of the array is conversion `i` since, if that
has come, and what the array held when it was declared otherwise.  So what the `switch`
sees and what its case takes is settled from outside: by the contents of the array, and
by how many conversions fall in front of the two loads.  `offered` computes the pairs
from these alone, and `Met` says that they are what the loop has taken.
-/
import AncPrototype.Proofs.Storage

namespace Anc

open DeviceProgram

variable {α : Type}

/-! ### The pairs of an invocation -/

/-- The load of `temp[i]` by the `switch`. -/
def looks (i : Fin numChannels) : HandlerOp → Bool
  | .load ⟨.temp _, k⟩ => k = i
  | _ => false

/-- The load of `temp[i]` by a case. -/
def takes (i : Fin numChannels) : HandlerOp → Bool
  | .reload _ ⟨.temp _, k⟩ => k = i
  | _ => false

/-- The conversions that have come by the first access of a kind. -/
def cameBy (kind : HandlerOp → Bool) (tr : List (Access α)) : List UInt16 :=
  ((tr.find? fun a => kind a.1).map fun a => a.2.pdc.convs).getD []

/-- How many have come by the write of the counter. -/
def armedAfter (tr : List (Access α)) : Nat := (((rearms tr).head?).map (·.pdc.convs.length)).getD 0

/-- What lies in `temp[i]` for the `switch`, and for a case. -/
def offer (contents : Fin numChannels → UInt16) (tr : List (Access α)) (i : Fin numChannels) :
    UInt16 × UInt16 :=
  (inTemp contents (armedAfter tr) (cameBy (looks i) tr) i,
    inTemp contents (armedAfter tr) (cameBy (takes i) tr) i)

/-- What lies there for the loop, if it runs. -/
def offered (contents : Fin numChannels → UInt16) (tr : List (Access α)) : List (UInt16 × UInt16) :=
  if sawRxbuff tr then [offer contents tr 0, offer contents tr 1] else []

/-- The word that is taken, for the entry that the word seen is for. -/
def pick (pair : UInt16 × UInt16) : Option Taken := (entryOf pair.1).map fun j => (j, pair.2)

theorem pick_none {seen taken : UInt16} (h : entryOf seen = none) :
    [(seen, taken)].filterMap pick = [] := by
  simp [pick, h]

theorem pick_some {seen taken : UInt16} {j : Fin numChannels} (h : entryOf seen = some j) :
    [(seen, taken)].filterMap pick = [(j, taken)] := by
  simp [pick, h]

/-- The loop has taken what lay there. -/
def Met (contents : Fin numChannels → UInt16) (tr : List (Access α)) : Prop :=
  wordsTaken tr = (offered contents tr).filterMap pick

/-! ### The parts of its accesses -/

/-- None of the accesses is a load of `temp[i]`. -/
def Avoids (i : Fin numChannels) (tr : List (Access α)) : Prop :=
  ∀ a ∈ tr, looks i a.1 = false ∧ takes i a.1 = false

theorem cameBy_append_left {kind : HandlerOp → Bool} {tr tr' : List (Access α)}
    (h : ∀ a ∈ tr', kind a.1 = false) : cameBy kind (tr ++ tr') = cameBy kind tr := by
  have hnone : tr'.find? (fun a => kind a.1) = none :=
    List.find?_eq_none.mpr fun a ha => by simp [h a ha]
  unfold cameBy
  rw [List.find?_append, hnone, Option.or_none]

theorem cameBy_append_right {kind : HandlerOp → Bool} {tr tr' : List (Access α)}
    (h : ∀ a ∈ tr, kind a.1 = false) : cameBy kind (tr ++ tr') = cameBy kind tr' := by
  have hnone : tr.find? (fun a => kind a.1) = none :=
    List.find?_eq_none.mpr fun a ha => by simp [h a ha]
  unfold cameBy
  rw [List.find?_append, hnone, Option.none_or]

/-- Accesses beside the loop. -/
structure Beside (tr : List (Access α)) : Prop where
  avoids : ∀ i, Avoids i tr
  taken : wordsTaken tr = []

theorem Beside.append {tr tr' : List (Access α)} (h : Beside tr) (h' : Beside tr') :
    Beside (tr ++ tr') := by
  refine ⟨fun i => List.forall_mem_append.mpr ⟨h.avoids i, h'.avoids i⟩, ?_⟩
  rw [wordsTaken_append, h.taken, h'.taken]
  rfl

/-- No access of the kind loads from an array. -/
def HandlerOp.Beside : HandlerOp → Prop
  | load ⟨.temp _, _⟩ => False
  | reload _ _ => False
  | _ => True

theorem HandlerOp.Beside.avoids {o : HandlerOp} (ho : o.Beside) (i : Fin numChannels) :
    looks i o = false ∧ takes i o = false := by
  match o, ho with
  | .load ⟨.adcSample, _⟩, _ => exact ⟨rfl, rfl⟩
  | .declare _, _ => exact ⟨rfl, rfl⟩
  | .pdc _, _ => exact ⟨rfl, rfl⟩
  | .adcStatus, _ => exact ⟨rfl, rfl⟩
  | .save _ _, _ => exact ⟨rfl, rfl⟩
  | .daccStatus, _ => exact ⟨rfl, rfl⟩
  | .select _, _ => exact ⟨rfl, rfl⟩
  | .write _, _ => exact ⟨rfl, rfl⟩
  | .predict _, _ => exact ⟨rfl, rfl⟩
  | .update _, _ => exact ⟨rfl, rfl⟩

theorem Beside.of_forall {tr : List (Access α)} (h : ∀ a ∈ tr, a.1.Beside) : Beside tr := by
  refine ⟨fun i a ha => (h a ha).avoids i, List.filterMap_eq_nil_iff.mpr ?_⟩
  rintro ⟨o, m⟩ ha
  cases o with
  | reload j a => exact (h _ ha).elim
  | _ => rfl

/-- What one iteration of the loop adds: it takes what lies there for it. -/
structure Sorts (contents : Fin numChannels → UInt16) (armed : Nat) (i : Fin numChannels)
    (tr : List (Access α)) : Prop where
  others : ∀ k, k ≠ i → Avoids k tr
  rearms : rearms tr = []
  unasked : sawRxbuff tr = false
  taken : wordsTaken tr = [(inTemp contents armed (cameBy (looks i) tr) i,
    inTemp contents armed (cameBy (takes i) tr) i)].filterMap pick

/-- **An invocation takes what is offered.** -/
theorem met_of_parts {contents : Fin numChannels → UInt16} {t : Machine α}
    {first loop₀ loop₁ second : List (Access α)} (hfirst : Beside first)
    (hsaw : sawRxbuff first = true) (hrearms : rearms first = [t])
    (hloop₀ : Sorts contents t.pdc.convs.length 0 loop₀)
    (hloop₁ : Sorts contents t.pdc.convs.length 1 loop₁)
    (hsecond : Beside second) (hquiet : rearms second = []) :
    Met contents (first ++ loop₀ ++ loop₁ ++ second) := by
  have harmed : armedAfter (first ++ loop₀ ++ loop₁ ++ second) = t.pdc.convs.length := by
    unfold armedAfter
    rw [rearms_append, rearms_append, rearms_append, hrearms, hloop₀.rearms, hloop₁.rearms, hquiet]
    rfl
  have hzero : ∀ kind : Fin numChannels → HandlerOp → Bool,
      (∀ i (tr : List (Access α)), Avoids i tr → ∀ a ∈ tr, kind i a.1 = false) →
      cameBy (kind 0) (first ++ loop₀ ++ loop₁ ++ second) = cameBy (kind 0) loop₀ ∧
        cameBy (kind 1) (first ++ loop₀ ++ loop₁ ++ second) = cameBy (kind 1) loop₁ := by
    intro kind hkind
    refine ⟨?_, ?_⟩
    · rw [cameBy_append_left (hkind 0 second (hsecond.avoids 0)),
        cameBy_append_left (hkind 0 loop₁ (hloop₁.others 0 (by decide))),
        cameBy_append_right (hkind 0 first (hfirst.avoids 0))]
    · rw [cameBy_append_left (hkind 1 second (hsecond.avoids 1)),
        cameBy_append_right (hkind 1 (first ++ loop₀) (List.forall_mem_append.mpr
          ⟨hfirst.avoids 1, hloop₀.others 1 (by decide)⟩))]
  obtain ⟨hlooks₀, hlooks₁⟩ := hzero looks fun i tr h a ha => (h a ha).1
  obtain ⟨htakes₀, htakes₁⟩ := hzero takes fun i tr h a ha => (h a ha).2
  have hasked : sawRxbuff (first ++ loop₀ ++ loop₁ ++ second) = true := by
    rw [sawRxbuff_append, sawRxbuff_append, sawRxbuff_append, hsaw]
    rfl
  have hoffered : offered contents (first ++ loop₀ ++ loop₁ ++ second)
      = [(inTemp contents t.pdc.convs.length (cameBy (looks 0) loop₀) 0,
          inTemp contents t.pdc.convs.length (cameBy (takes 0) loop₀) 0)]
        ++ [(inTemp contents t.pdc.convs.length (cameBy (looks 1) loop₁) 1,
          inTemp contents t.pdc.convs.length (cameBy (takes 1) loop₁) 1)] := by
    unfold offered
    rw [if_pos hasked, offer, offer, harmed, hlooks₀, hlooks₁, htakes₀, htakes₁]
    rfl
  unfold Met
  rw [hoffered, List.filterMap_append, ← hloop₀.taken, ← hloop₁.taken, wordsTaken_append,
    wordsTaken_append, wordsTaken_append, hfirst.taken, hsecond.taken, List.nil_append,
    List.append_nil]

theorem met_of_unasked {contents : Fin numChannels → UInt16} {tr : List (Access α)}
    (h : Beside tr) (hsaw : sawRxbuff tr = false) : Met contents tr := by
  have hoffered : offered contents tr = [] := by
    unfold offered
    rw [hsaw]
    rfl
  unfold Met
  rw [hoffered, h.taken]
  rfl

/-! ### An invocation, access by access -/

variable [FloatArith α]

section Invocation

variable {temp : Nat} {contents : Fin numChannels → UInt16} {armed : Nat} {tr : List (Access α)}
  {m : Machine α}

theorem stable_frames (k : Nat) : Machine.Stable fun m : Machine α => m.frames = k := by
  intro e m h
  cases e <;> exact h

/-- The channel has been given the newest array. -/
structure InLoop (temp : Nat) (contents : Fin numChannels → UInt16) (armed : Nat)
    (m : Machine α) : Prop where
  rearmed : Rearmed temp contents armed m
  frames : m.frames = temp + 1

theorem InLoop.stable (temp : Nat) (contents : Fin numChannels → UInt16) (armed : Nat) :
    Machine.Stable fun m : Machine α => InLoop temp contents armed m := fun e m h =>
  ⟨Rearmed.stable temp contents armed e m h.rearmed, stable_frames _ e m h.frames⟩

theorem InLoop.exec (h : InLoop temp contents armed m) {o : HandlerOp} (ho : o.LeavesPdc) :
    InLoop temp contents armed (Machine.exec o m).2 := by
  refine ⟨h.rearmed.exec ho, ?_⟩
  have hframes := h.frames
  cases o with
  | declare contents' => exact ho.elim
  | _ => exact hframes

omit [FloatArith α] in
/-- The load by the `switch`, and nothing more. -/
theorem sorts_of_none {t : Machine α} (ht : Rearmed temp contents armed t) {i : Fin numChannels}
    (hnone : entryOf (t.mem (.temp temp i)) = none) :
    Sorts contents armed i [(.load (.temp temp i), t)] := by
  have hlooks : cameBy (looks i) [(HandlerOp.load (.temp temp i), t)] = t.pdc.convs := by
    simp [cameBy, looks]
  refine ⟨fun k hk => ?_, rfl, rfl, ?_⟩
  · refine List.forall_mem_singleton.mpr ⟨?_, rfl⟩
    exact decide_eq_false fun h => hk (Fin.ext h.symm)
  · rw [hlooks, ← ht.mem i, pick_none hnone]
    rfl

omit [FloatArith α] in
/-- The two loads of an iteration, and the store. -/
theorem sorts_of_some {t t' : Machine α} (ht : Rearmed temp contents armed t)
    (ht' : Rearmed temp contents armed t') {i j : Fin numChannels}
    (hsome : entryOf (t.mem (.temp temp i)) = some j) (v : UInt16) (t'' : Machine α) :
    Sorts contents armed i [(.load (.temp temp i), t), (.reload j (.temp temp i), t'),
      (.save (.chVal j) v, t'')] := by
  let loop : List (Access α) := [(.load (.temp temp i), t), (.reload j (.temp temp i), t'),
    (.save (.chVal j) v, t'')]
  have hlooks : cameBy (looks i) loop = t.pdc.convs := by
    simp [loop, cameBy, looks]
  have htakes : cameBy (takes i) loop = t'.pdc.convs := by
    simp [loop, cameBy, takes]
  refine ⟨fun k hk => ?_, rfl, rfl, ?_⟩
  · have hne : decide (i.val = k.val) = false := decide_eq_false fun h => hk (Fin.ext h.symm)
    intro a ha
    rcases List.mem_cons.mp ha with rfl | ha
    · exact ⟨hne, rfl⟩
    rcases List.mem_cons.mp ha with rfl | ha
    · exact ⟨rfl, hne⟩
    · obtain rfl := List.mem_singleton.mp ha
      exact ⟨rfl, rfl⟩
  · show wordsTaken loop = _
    rw [hlooks, htakes, ← ht.mem i, ← ht'.mem i, pick_some hsome]
    rfl

theorem demultiplex_sorts (h : InLoop temp contents armed m) (i : Fin numChannels) :
    EndsIn (fun tr' _ s => InLoop temp contents armed s ∧
      ∃ loop, tr' = tr ++ loop ∧ Sorts contents armed i loop) (demultiplex temp i) tr m := by
  have hstable := InLoop.stable (α := α) temp contents armed
  refine Device.Sat.access hstable h fun t ht => ⟨trivial, ?_⟩
  have hcase : ∀ j, entryOf (t.mem (.temp temp i)) = some j →
      EndsIn (fun tr' _ s => InLoop temp contents armed s ∧
        ∃ loop, tr' = tr ++ loop ∧ Sorts contents armed i loop) (take j (.temp temp i))
        (tr ++ [(.load (.temp temp i), t)]) t := by
    intro j hj
    refine Device.Sat.access hstable ht fun t' ht' => ⟨trivial, ?_⟩
    refine Device.Sat.access hstable ht' fun t'' ht'' => ⟨trivial, ?_⟩
    let v : UInt16 := wordData (t'.mem (.temp temp i))
    refine Device.Sat.ret hstable (ht''.exec (o := .save (.chVal j) v) rfl) fun s hs => ⟨hs, _, ?_,
      sorts_of_some ht.rearmed ht'.rearmed hj v t''⟩
    rw [List.append_assoc, List.append_assoc]
    rfl
  show EndsIn _ (if wordTag (t.mem (.temp temp i)) = 4 then take 0 (.temp temp i)
    else if wordTag (t.mem (.temp temp i)) = 5 then take 1 (.temp temp i) else pure ()) _ t
  unfold entryOf at hcase
  split_ifs at hcase ⊢ with h4 h5
  · exact hcase 0 rfl
  · exact hcase 1 rfl
  · refine Device.Sat.ret hstable ht fun s hs => ⟨hs, _, rfl, sorts_of_none ht.rearmed ?_⟩
    unfold entryOf
    rw [if_neg h4, if_neg h5]

/-- What has been done by the time the loop starts. -/
structure Primed (armed : Nat) (tr : List (Access α)) : Prop where
  beside : Beside tr
  saw : sawRxbuff tr = true
  rearms : ∃ t, rearms tr = [t] ∧ t.pdc.convs.length = armed

/-- The first half up to the loop, `RXBUFF` having been seen. -/
theorem arm_primed (h : Spare temp contents m) (hframes : m.frames = temp + 1)
    (htr : Beside tr) (hsaw : sawRxbuff tr = true) (hrearms : rearms tr = []) :
    EndsIn (fun tr' _ s => ∃ armed, InLoop temp contents armed s ∧ Primed armed tr')
      (HandlerProg.pdc (readAdcBuffer (.temp temp 0) bufferSize)) tr m := by
  have honly : (HandlerProg.pdc (readAdcBuffer (.temp temp 0) bufferSize)).Only
      fun o => ∃ p, o = .pdc p := Prog.Only.embed (fun p => ⟨p, rfl⟩) _
  have htrace : EndsIn (fun tr' _ s => s.frames = temp + 1 ∧
      ∃ more : List (Access α), tr' = tr ++ more ∧ ∀ a ∈ more, ∃ p, a.1 = .pdc p)
      (HandlerProg.pdc (readAdcBuffer (.temp temp 0) bufferSize)) tr m := by
    refine Device.Sat.of_only_trace (stable_frames _) ?_ honly hframes
    rintro _ s ⟨p, rfl⟩ hs
    exact hs
  refine Device.Sat.mono (fun _ _ _ _ => trivial) ?_ _
    ((readAdcBuffer_endsIn h hrearms).and htrace)
  rintro _ _ s ⟨⟨t, ht, hs⟩, hframes', more, rfl, hmore⟩
  have hmore' : Beside more := by
    refine Beside.of_forall fun a ha => ?_
    obtain ⟨p, hp⟩ := hmore a ha
    rw [hp]
    trivial
  refine ⟨t.pdc.convs.length, ⟨hs, hframes'⟩, htr.append hmore', ?_, t, ht, rfl⟩
  rw [sawRxbuff_append, hsaw]
  rfl

/-- The first half, `RXBUFF` having been seen. -/
theorem capture_met (h : Spare temp contents m) (hframes : m.frames = temp + 1)
    (htr : Beside tr) (hsaw : sawRxbuff tr = true) (hrearms : rearms tr = []) :
    EndsIn (fun tr' _ s => (∃ armed, InLoop temp contents armed s) ∧
      ∀ second, Beside second → rearms second = [] → Met contents (tr' ++ second)) (capture temp)
      tr m := by
  refine Device.Sat.access ((Spare.stable temp contents).and (stable_frames _)) ⟨h, hframes⟩
    fun t ht => ⟨trivial, ?_⟩
  have hsaved : Spare temp contents (Machine.exec (.save .done adcDoneMask) t).2 := by
    obtain ⟨-, hpdc, hmem⟩ := exec_of_leavesPdc (o := .save .done adcDoneMask) rfl t
    exact ⟨hpdc ▸ ht.1.disarmed, fun i => (hmem temp i).trans (ht.1.mem i)⟩
  have hbeside : Beside (tr ++ [(.save .done adcDoneMask, t)]) :=
    htr.append (Beside.of_forall (List.forall_mem_singleton.mpr trivial))
  refine Device.Sat.bind (HandlerProg.pdc (readAdcBuffer (.temp temp 0) bufferSize))
    (Device.Sat.mono (fun _ _ _ hG => hG) ?_ _ (arm_primed hsaved ht.2 hbeside ?_ ?_))
  · rintro first _ s₁ ⟨armed, hs₁, hprimed⟩
    refine Device.Sat.bind (demultiplex temp 0) (Device.Sat.mono (fun _ _ _ hG => hG) ?_ _
      (demultiplex_sorts hs₁ 0))
    rintro _ _ s₂ ⟨hs₂, loop₀, rfl, hloop₀⟩
    refine Device.Sat.mono (fun _ _ _ hG => hG) ?_ _ (demultiplex_sorts hs₂ 1)
    rintro _ _ s₃ ⟨hs₃, loop₁, rfl, hloop₁⟩
    obtain ⟨u, hu, rfl⟩ := hprimed.rearms
    exact ⟨⟨_, hs₃⟩, fun second hsecond hquiet =>
      met_of_parts hprimed.beside hprimed.saw hu hloop₀ hloop₁ hsecond hquiet⟩
  · rw [sawRxbuff_append, hsaw]
    rfl
  · rw [rearms_snoc_of_none tr rfl]
    exact hrearms

end Invocation

/-! ### Runs -/

/-- While it is armed, the channel points to `adc_sample` or to one of the first `k` arrays. -/
structure Older (k : Nat) (p : Pdc Addr) : Prop where
  countdown : ∃ armed, Countdown armed p
  target : p.rcr ≠ 0 → ∀ temp, p.rpr.object = .temp temp → temp < k

omit [FloatArith α] in
theorem Older.convert {k : Nat} {p : Pdc Addr} (h : Older k p) (word : UInt16) :
    Older k (p.convert word) := by
  obtain ⟨⟨armed, hcountdown⟩, htarget⟩ := h
  refine ⟨⟨armed, hcountdown.convert word⟩, fun hr temp htemp => ?_⟩
  rw [object_convert hcountdown.single] at htemp
  refine htarget (fun hzero => hr ?_) temp htemp
  rw [Pdc.convert_of_empty hzero]
  exact hzero

theorem Older.stable : Machine.Stable fun m : Machine α => Older m.frames m.pdc := by
  intro e m h
  cases e with
  | conversion data => exact h.convert _
  | flags adc dacc => exact h

/-- The newest array, before the status is read. -/
structure Declared (temp : Nat) (contents : Fin numChannels → UInt16) (m : Machine α) : Prop where
  older : Older temp m.pdc
  frames : m.frames = temp + 1
  mem : ∀ i : Fin numChannels, m.mem (.temp temp i) = contents i

theorem Declared.stable (temp : Nat) (contents : Fin numChannels → UInt16) :
    Machine.Stable fun m : Machine α => Declared temp contents m := by
  intro e m h
  cases e with
  | flags adc dacc => exact ⟨h.older, h.frames, h.mem⟩
  | conversion data =>
      refine ⟨h.older.convert _, h.frames, fun i => ?_⟩
      show (if m.pdc.rxten ∧ m.pdc.rcr ≠ 0 then Function.update m.mem m.pdc.rpr _ else m.mem)
        (.temp temp i) = contents i
      by_cases hs : m.pdc.rxten = true ∧ m.pdc.rcr ≠ 0
      · have hne : Addr.temp temp i ≠ m.pdc.rpr := by
          intro heq
          exact absurd (h.older.target hs.2 temp (by rw [← heq])) (Nat.lt_irrefl temp)
        rw [if_pos hs, Function.update_of_ne hne]
        exact h.mem i
      · rw [if_neg hs]
        exact h.mem i

/-- The first half, with what it leaves to be said once the second one is over. -/
theorem captureIfFull_met {temp : Nat} {contents : Fin numChannels → UInt16}
    {tr : List (Access α)} {m : Machine α} (h : Declared temp contents m) (htr : Beside tr)
    (hsaw : sawRxbuff tr = false) (hrearms : rearms tr = []) :
    EndsIn (fun tr' _ s => Older s.frames s.pdc ∧
      ∀ second, Beside second → sawRxbuff second = false → rearms second = [] →
        Met contents (tr' ++ second)) (captureIfFull temp) tr m := by
  refine Device.Sat.access (Declared.stable temp contents) h fun t ht => ⟨trivial, ?_⟩
  have hbeside : Beside (tr ++ [(.adcStatus, t)]) :=
    htr.append (Beside.of_forall (List.forall_mem_singleton.mpr trivial))
  have hasked : sawRxbuff (tr ++ [(.adcStatus, t)]) = t.pdc.rxbuff := by
    rw [sawRxbuff_append, hsaw]
    exact Bool.or_false _
  show EndsIn _ (if t.adcIsr &&& adcIsrRxbuff = adcIsrRxbuff then capture temp else pure ()) _ t
  simp only [adcIsr_and_rxbuff]
  by_cases hfull : t.pdc.rxbuff = true
  · rw [if_pos hfull]
    obtain ⟨armed, hcountdown⟩ := ht.older.countdown
    have hspare : Spare temp contents t :=
      ⟨⟨hcountdown.on, of_decide_eq_true hfull⟩, ht.mem⟩
    have hrearms' : rearms (tr ++ [(.adcStatus, t)]) = [] :=
      (rearms_snoc_of_none tr rfl).trans hrearms
    refine Device.Sat.mono (fun _ _ _ hG => hG) ?_ _
      (capture_met hspare ht.frames hbeside (hasked.trans hfull) hrearms')
    rintro tr' _ s ⟨⟨armed', hloop⟩, hmet⟩
    refine ⟨⟨⟨armed', hloop.rearmed.countdown⟩, fun hr k hk => ?_⟩,
      fun second hsecond _ hquiet => hmet second hsecond hquiet⟩
    rw [hloop.rearmed.target hr] at hk
    rw [hloop.frames, ← MemObject.temp.inj hk]
    exact Nat.lt_succ_self temp
  · rw [if_neg hfull]
    refine Device.Sat.ret (Declared.stable temp contents) ht fun s hs =>
      ⟨⟨hs.older.countdown, ?_⟩, ?_⟩
    · intro hr k hk
      rw [hs.frames]
      exact Nat.lt_succ_of_lt (hs.older.target hr k hk)
    · intro second hsecond hunasked _
      refine met_of_unasked (hbeside.append hsecond) ?_
      rw [sawRxbuff_append, hasked, hunasked, Bool.or_false]
      exact Bool.eq_false_iff.mpr hfull

/-- The accesses of the second half. -/
def HandlerOp.Second (o : HandlerOp) : Prop := o.LeavesPdc ∧ o.Beside ∧ o ≠ .adcStatus

omit [FloatArith α] in
theorem driveIfReady_second : driveIfReady.Only HandlerOp.Second :=
  driveIfReady_only ⟨trivial, trivial, by simp⟩ (fun _ => ⟨trivial, trivial, by simp⟩)
    (fun _ => ⟨rfl, trivial, by simp⟩) (fun _ _ => ⟨trivial, trivial, by simp⟩)
    (fun _ => ⟨trivial, trivial, by simp⟩) (fun _ => ⟨trivial, trivial, by simp⟩)
    fun _ => ⟨trivial, trivial, by simp⟩

/-- **One invocation takes what is offered to it.** -/
theorem adcHandler_met {m : Machine α} (h : Older m.frames m.pdc)
    (contents : Fin numChannels → UInt16) :
    EndsIn (fun tr _ s => Met contents tr ∧ Older s.frames s.pdc) (adcHandler contents) [] m := by
  refine Device.Sat.access Older.stable h fun t ht => ⟨trivial, ?_⟩
  have hdeclared : Declared t.frames contents (t.declare contents) :=
    ⟨ht, rfl, fun i => dif_pos ⟨rfl, i.isLt⟩⟩
  have hbeside : Beside [(HandlerOp.declare contents, t)] :=
    Beside.of_forall (List.forall_mem_singleton.mpr trivial)
  refine Device.Sat.bind (captureIfFull t.frames) (Device.Sat.mono (fun _ _ _ hG => hG) ?_ _
    (captureIfFull_met hdeclared hbeside rfl rfl))
  rintro first _ s ⟨hs, hmet⟩
  have hkeeps : ∀ (o : HandlerOp) (s : Machine α), o.Second → Older s.frames s.pdc →
      Older (Machine.exec o s).2.frames (Machine.exec o s).2.pdc := by
    rintro o s ⟨ho, -⟩ hs
    cases o with
    | declare contents => exact ho.elim
    | pdc p => exact ho.elim
    | _ => exact hs
  refine Device.Sat.mono (fun _ _ _ hG => hG) ?_ _
    (Device.Sat.of_only_trace Older.stable hkeeps driveIfReady_second hs)
  rintro _ _ s' ⟨hs', second, rfl, hsecond⟩
  refine ⟨hmet second (Beside.of_forall fun a ha => (hsecond a ha).2.1) ?_ ?_, hs'⟩
  · refine List.any_eq_false.mpr ?_
    rintro ⟨o, u⟩ ha
    cases o with
    | adcStatus => exact absurd rfl (hsecond _ ha).2.2
    | _ => simp
  · refine List.filterMap_eq_nil_iff.mpr fun a ha => ?_
    exact (exec_of_leavesPdc (hsecond a ha).1 a.2).1

/-- **In every run, each invocation has taken what was offered to it.** -/
theorem met_handlerRun (u : PowerUp) (as : List (Action Event (Fin numChannels → UInt16))) :
    ∀ f ∈ (handlerRun u as : Node _ _ (Machine α) _ _).finished, Met f.call f.accesses := by
  let I (fs : List (HandlerReturn α)) (m : Machine α) : Prop :=
    (∀ g ∈ fs, Met g.call g.accesses) ∧ Older m.frames m.pdc
  have hstart : I [] (Machine.initialized u) := by
    refine ⟨fun g hg => absurd hg List.not_mem_nil, ⟨0, ?_⟩, fun _ temp htemp => ?_⟩
    · rw [pdc_initialized]
      exact ⟨rfl, rfl, Nat.le_refl _, rfl⟩
    · rw [pdc_initialized] at htemp
      exact absurd htemp (by simp)
  have hok : Host.Ok (machineHost (α := α)) I (fun fs _ _ _ _ => ∀ g ∈ fs, Met g.call g.accesses)
      (handlerRun u as) := by
    refine Host.run_ok (fun fs e m h => ⟨h.1, Older.stable e m h.2⟩) ?_ as hstart
    intro fs contents m ⟨hall, holder⟩
    refine Device.Sat.mono (fun _ _ _ _ => hall) ?_ _ (adcHandler_met holder contents)
    rintro tr a s ⟨hmet, hs⟩
    exact ⟨List.forall_mem_append.mpr ⟨hall, List.forall_mem_singleton.mpr hmet⟩, hs⟩
  rcases hok.moments with ⟨-, hidle⟩ | ⟨c, tr, a, -, hret⟩ | ⟨c, tr, o, k, -, hstep⟩
  · exact hidle.1
  · exact fun g hg => hret.1 g (List.mem_append_left _ hg)
  · exact hstep

end Anc
