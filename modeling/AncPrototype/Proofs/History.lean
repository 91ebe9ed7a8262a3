/-
What the handler reads and what it puts out, over a run.

The accesses of a run, in order, are its history.  The loads of `ch_val` in the
second half of the handler are where samples enter, and the arguments of the filter
and the words for channel 0 of the converter are where they come out.  `Tracks` says
of a history that nothing else comes out, and when a load of `ch_val` gives a sample:
when the `switch` of the loop has seen a word with its tag, or nothing was stored there
yet.

`Invariant` is what holds between invocations, of the machine and of all that is past.
-/
import AncPrototype.Proofs.Interrupts

namespace Anc

open DeviceProgram

variable {α : Type}

/-! ### Reads and outputs -/

/-- The value of a load of `ch_val`. -/
def Access.chValRead (a : Access α) : Option UInt16 :=
  match a.1 with
  | .load ⟨.adcSample, i⟩ => if i < numChannels then some (a.2.mem ⟨.adcSample, i⟩) else none
  | _ => none

/-- The argument of a filter call, or a word for channel 0 of the converter. -/
def Access.output (a : Access α) : Option Nat :=
  match a.1 with
  | .predict noise => some noise.toNat
  | .update residual => some residual.toNat
  | .write data => if a.2.userSel = 0 then some data.toNat else none
  | _ => none

def chValReads (h : List (Access α)) : List UInt16 := h.filterMap Access.chValRead

def outputs (h : List (Access α)) : List Nat := h.filterMap Access.output

theorem chValReads_append (h h' : List (Access α)) :
    chValReads (h ++ h') = chValReads h ++ chValReads h' := List.filterMap_append

theorem outputs_append (h h' : List (Access α)) : outputs (h ++ h') = outputs h ++ outputs h' :=
  List.filterMap_append

theorem chValRead_load (j : Fin numChannels) (m : Machine α) :
    Access.chValRead (.load (.chVal j), m) = some (m.mem (.chVal j)) := if_pos j.isLt

/-- A silent access shows neither. -/
theorem of_silent {a : Access α} (ha : a.1.Silent) : a.chValRead = none ∧ a.output = none := by
  obtain ⟨o, m⟩ := a
  match o, ha with
  | .load ⟨.temp _, _⟩, _ => exact ⟨rfl, rfl⟩
  | .reload _ _, _ => exact ⟨rfl, rfl⟩
  | .declare _, _ => exact ⟨rfl, rfl⟩
  | .pdc _, _ => exact ⟨rfl, rfl⟩
  | .adcStatus, _ => exact ⟨rfl, rfl⟩
  | .save _ _, _ => exact ⟨rfl, rfl⟩
  | .daccStatus, _ => exact ⟨rfl, rfl⟩
  | .select _, _ => exact ⟨rfl, rfl⟩

theorem chValReads_of_silent {tr : List (Access α)} (h : ∀ a ∈ tr, a.1.Silent) :
    chValReads tr = [] :=
  List.filterMap_eq_nil_iff.mpr fun a ha => (of_silent (h a ha)).1

/-- A load of `ch_val[j]` finds a sample: nothing is stored there yet, or the `switch` has seen a
word with its tag. -/
def FindsSample (h : List (Access α)) (j : Fin numChannels) (m : Machine α) : Prop :=
  m.pdc.log.length ≤ j ∨ ∃ w ∈ wordsRead h, wordTag w = sampleTag j

/-- **A sample is a word of twelve bits**, and a raw word is not. -/
theorem chVal_le_iff {frames : List Nat} {taken : List Taken} {h : List (Access α)} {old : UInt16}
    {m : Machine α} (hm : Running frames taken old m) (htaken : wordsTaken h = taken)
    (hmatched : Matched h) (j : Fin numChannels) :
    (m.mem (.chVal j)).toNat ≤ 4095 ↔ FindsSample h j m := by
  unfold FindsSample
  rw [hm.samples.chVal j, hmatched.iff, htaken]
  cases hlast : lastFor j taken with
  | some data =>
      refine ⟨fun _ => .inr ?_, fun _ => lastFor_le hlast⟩
      by_contra hnone
      have hnone' : lastFor j taken = none :=
        (lastFor_eq_none_iff j taken).mpr fun t ht htj => hnone ⟨t, ht, htj⟩
      rw [hlast] at hnone'
      exact absurd hnone' (by simp)
  | none =>
      have hnone := (lastFor_eq_none_iff j taken).mp hlast
      show (rawWord m.pdc.log j).toNat ≤ 4095 ↔ _
      unfold rawWord
      constructor
      · intro hle
        refine .inl (Nat.le_of_not_lt fun hlt => ?_)
        have htagged := hm.samples.tagged _ (List.getElem_mem hlt)
        rw [List.getElem?_eq_getElem hlt] at hle
        exact absurd htagged (Nat.not_le.mpr (Nat.lt_succ_of_le hle))
      · rintro (hle | ⟨t, ht, htj⟩)
        · rw [List.getElem?_eq_none hle]
          exact Nat.zero_le _
        · exact absurd htj (hnone t ht)

/-! ### What a history shows -/

/-- An entry of a list with one more at its end is that one or was there before. -/
theorem split_last {β : Type} {l before after : List β} {a b : β}
    (h : l ++ [a] = before ++ b :: after) :
    (l = before ∧ a = b) ∨ ∃ after', l = before ++ b :: after' := by
  rcases List.append_eq_append_iff.mp h with ⟨rest, rfl, hlast⟩ | ⟨rest, rfl, hlast⟩
  · cases rest with
    | nil => exact .inl ⟨(List.append_nil l).symm, (List.cons.inj hlast).1⟩
    | cons c rest => exact absurd hlast (by simp)
  · cases rest with
    | nil => exact .inl ⟨List.append_nil before, (List.cons.inj hlast).1.symm⟩
    | cons c rest =>
        obtain ⟨rfl, -⟩ := List.cons.inj hlast
        exact .inr ⟨rest, rfl⟩

/-- The value is one that has been loaded from `ch_val`, or the first one of `old`. -/
def Sampled (h : List (Access α)) (v : Nat) : Prop :=
  v = 2048 ∨ ∃ x ∈ chValReads h, x.toNat = v

/-- Loads of `ch_val` give samples when they find one, and only what is loaded is put out. -/
structure Tracks (h : List (Access α)) : Prop where
  reads : ∀ before j m after, h = before ++ (.load (.chVal j), m) :: after →
    ((m.mem (.chVal j)).toNat ≤ 4095 ↔ FindsSample before j m)
  outputs : ∀ v ∈ outputs h, Sampled h v

theorem Sampled.append {h : List (Access α)} {v : Nat} (hv : Sampled h v) (h' : List (Access α)) :
    Sampled (h ++ h') v := by
  refine hv.imp_right ?_
  rintro ⟨x, hx, hxv⟩
  rw [chValReads_append]
  exact ⟨x, List.mem_append_left _ hx, hxv⟩

namespace Tracks

theorem nil : Tracks ([] : List (Access α)) := by
  refine ⟨?_, fun v hv => absurd hv List.not_mem_nil⟩
  intro before j m after heq
  exact absurd heq.symm (List.append_ne_nil_of_right_ne_nil _ (List.cons_ne_nil _ _))

/-- One more access. -/
theorem snoc {h : List (Access α)} (ht : Tracks h) (a : Access α)
    (hread : ∀ j, a.1 = .load (.chVal j) →
      ((a.2.mem (.chVal j)).toNat ≤ 4095 ↔ FindsSample h j a.2))
    (hout : ∀ v, a.output = some v → Sampled h v) : Tracks (h ++ [a]) := by
  refine ⟨?_, ?_⟩
  · intro before j m after heq
    rcases split_last heq with ⟨rfl, rfl⟩ | ⟨after', rfl⟩
    · exact hread j rfl
    · exact ht.reads before j m after' rfl
  · intro v hv
    rw [outputs_append] at hv
    rcases List.mem_append.mp hv with hv | hv
    · exact (ht.outputs v hv).append [a]
    · refine (hout v ?_).append [a]
      rcases hoption : a.output with _ | u
      · simp [Anc.outputs, hoption] at hv
      · simp only [Anc.outputs, List.filterMap_cons, hoption, List.filterMap_nil,
          List.mem_singleton] at hv
        rw [hv]

/-- Silent accesses show nothing. -/
theorem silent : ∀ (tr : List (Access α)) {h : List (Access α)}, Tracks h →
    (∀ a ∈ tr, a.1.Silent) → Tracks (h ++ tr) := by
  intro tr
  induction tr with
  | nil =>
      intro h ht _
      rw [List.append_nil]
      exact ht
  | cons a tr ih =>
      intro h ht hsilent
      have ha : a.1.Silent := hsilent a List.mem_cons_self
      rw [List.append_cons]
      refine ih (ht.snoc a ?_ ?_) fun b hb => hsilent b (List.mem_cons_of_mem a hb)
      · intro j hj
        rw [hj] at ha
        exact absurd ha id
      · intro v hv
        rw [(of_silent ha).2] at hv
        exact absurd hv (by simp)

end Tracks

/-! ### The second half of the handler -/

/-- What the second half of the handler adds to a history. -/
structure Drove (frames : List Nat) (taken : List Taken) (h tr : List (Access α))
    (m : Machine α) : Prop where
  plain : Plain tr
  /-- Every sample that is loaded is put out. -/
  shown : ∀ x ∈ chValReads tr, x.toNat ∈ outputs tr
  tracks : Tracks (h ++ tr)
  running : ∃ old, Running frames taken old m ∧ Sampled (h ++ tr) old.toNat

section Drive

variable [FloatArith α] {frames : List Nat} {taken : List Taken} {old : UInt16}
  {h : List (Access α)} {m : Machine α}

/-- What a step through the second half starts from. -/
structure Trail (taken : List Taken) (h : List (Access α)) : Prop where
  tracks : Tracks h
  taken : wordsTaken h = taken
  matched : Matched h

omit [FloatArith α] in
theorem Trail.snoc (ht : Trail taken h) (a : Access α) (hplain : Plain [a])
    (hread : ∀ j, a.1 = .load (.chVal j) →
      ((a.2.mem (.chVal j)).toNat ≤ 4095 ↔ FindsSample h j a.2))
    (hout : ∀ v, a.output = some v → Sampled h v) : Trail taken (h ++ [a]) := by
  refine ⟨ht.tracks.snoc a hread hout, ?_, ht.matched.append hplain.matched⟩
  rw [wordsTaken_append, ht.taken, hplain.taken, List.append_nil]

/-- The goal of such a step. -/
abbrev DriveSat {B : Type} (Q : List (Access α) → B → Machine α → Prop) (p : HandlerProg B)
    (h : List (Access α)) (m : Machine α) : Prop :=
  machineDevice.Sat (fun h _ _ => Tracks h) Q p h m

section Steps

variable {B : Type} {o : HandlerOp} {k : o.Resp → HandlerProg B}
  {Q : List (Access α) → B → Machine α → Prop} {P : Machine α → Prop}

/-- An access that may put something out, but reads nothing. -/
theorem DriveSat.output (ht : Trail taken h) (hP : Machine.Stable P) (hm : P m)
    (ho : ∀ t : Machine α, Plain [(o, t)] ∧ Access.chValRead (o, t) = none)
    (hout : ∀ t v, P t → Access.output (o, t) = some v → Sampled h v)
    (hk : ∀ t, P t → Trail taken (h ++ [(o, t)]) →
      DriveSat Q (k (Machine.exec o t).1) (h ++ [(o, t)]) (Machine.exec o t).2) :
    DriveSat Q (Prog.step o k) h m := by
  refine Device.Sat.access hP hm fun t htt => ⟨ht.tracks, hk t htt (ht.snoc (o, t) (ho t).1 ?_ ?_)⟩
  · intro j hj
    have hnone := (ho t).2
    rw [show o = .load (.chVal j) from hj, chValRead_load] at hnone
    exact absurd hnone (by simp)
  · intro v hv
    exact hout t v htt hv

/-- An access that does neither. -/
theorem DriveSat.aside (ht : Trail taken h) (hP : Machine.Stable P) (hm : P m)
    (ho : ∀ t : Machine α, Plain [(o, t)] ∧ Access.chValRead (o, t) = none ∧
      Access.output (o, t) = none)
    (hk : ∀ t, P t → Trail taken (h ++ [(o, t)]) →
      DriveSat Q (k (Machine.exec o t).1) (h ++ [(o, t)]) (Machine.exec o t).2) :
    DriveSat Q (Prog.step o k) h m :=
  DriveSat.output ht hP hm (fun t => ⟨(ho t).1, (ho t).2.1⟩)
    (fun t v _ hv => absurd (((ho t).2.2).symm.trans hv) (by simp)) hk

/-- A load of a sample. -/
theorem DriveSat.read {j : Fin numChannels} {k : (HandlerOp.load (.chVal j)).Resp → HandlerProg B}
    (ht : Trail taken h) (hm : Running frames taken old m)
    (hk : ∀ t, Running frames taken old t → Trail taken (h ++ [(.load (.chVal j), t)]) →
      DriveSat Q (k (t.mem (.chVal j))) (h ++ [(.load (.chVal j), t)]) t) :
    DriveSat Q (Prog.step (.load (.chVal j)) k) h m := by
  refine Device.Sat.access (Running.stable frames taken old) hm fun t htt =>
    ⟨ht.tracks, hk t htt (ht.snoc _ ⟨rfl, rfl, rfl⟩
      (fun i _ => chVal_le_iff htt ht.taken ht.matched i) ?_)⟩
  intro v hv
  exact absurd hv (by simp [Access.output])

end Steps

theorem Machine.stable_userSel (c : UInt32) :
    Machine.Stable fun m : Machine α => m.userSel = c := by
  intro e m h
  cases e <;> exact h

omit [FloatArith α] in
/-- A sample that has been loaded may be put out. -/
theorem Sampled.read {j : Fin numChannels} {t : Machine α} (h : List (Access α))
    (later : List (Access α)) :
    Sampled (h ++ (.load (.chVal j), t) :: later) (t.mem (.chVal j)).toNat := by
  refine .inr ⟨t.mem (.chVal j), ?_, rfl⟩
  rw [chValReads_append]
  exact List.mem_append_right _
    (List.mem_filterMap.mpr ⟨_, List.mem_cons_self, chValRead_load j t⟩)

theorem drive_sat (hm : Running frames taken old m) (ht : Trail taken h)
    (hold : Sampled h old.toNat) :
    DriveSat (fun h' (_ : Unit) s => ∃ tr, h' = h ++ tr ∧ Drove frames taken h tr s) drive h m := by
  have hstable (v : UInt16) : Machine.Stable fun m : Machine α => Running frames taken v m :=
    Running.stable frames taken v
  -- int16_t predict = anc_predict( adc_sample.old )
  refine DriveSat.aside ht (hstable old) hm (fun _ => ⟨⟨rfl, rfl, rfl⟩, rfl, rfl⟩) fun t₁ h₁ ht₁ => ?_
  refine DriveSat.output ht₁ (hstable old) h₁ (fun _ => ⟨⟨rfl, rfl, rfl⟩, rfl⟩) ?_ fun t₂ h₂ ht₂ => ?_
  · intro t v _ hv
    obtain rfl := Option.some.inj hv
    show Sampled _ (t₁.mem .old).toNat
    rw [h₁.samples.old]
    exact hold.append _
  -- adc_sample.old = adc_sample.ch_val[0]
  refine DriveSat.read ht₂ (h₂.congr rfl rfl fun _ => rfl) fun t₃ h₃ ht₃ => ?_
  refine DriveSat.aside ht₃ (hstable old) h₃ (fun _ => ⟨⟨rfl, rfl, rfl⟩, rfl, rfl⟩) fun t₄ h₄ ht₄ => ?_
  have h₄' : Running frames taken (t₃.mem (.chVal 0))
      (Machine.exec (.save .old (t₃.mem (.chVal 0))) t₄).2 := h₄.save (a := .old) (by decide) _
  -- channel 0
  refine DriveSat.aside ht₄ (hstable _) h₄' (fun _ => ⟨⟨rfl, rfl, rfl⟩, rfl, rfl⟩) fun t₅ h₅ ht₅ => ?_
  refine DriveSat.aside ht₅ ((hstable _).and (Machine.stable_userSel 0))
    ⟨h₅.congr rfl rfl fun _ => rfl, rfl⟩ (fun _ => ⟨⟨rfl, rfl, rfl⟩, rfl, rfl⟩) fun t₆ h₆ ht₆ => ?_
  refine DriveSat.output ht₆ ((hstable _).and (Machine.stable_userSel 0)) h₆
    (fun _ => ⟨⟨rfl, rfl, rfl⟩, rfl⟩) ?_ fun t₇ h₇ ht₇ => ?_
  · intro t v ht hv
    have hsel : t.userSel = 0 := ht.2
    have hval : (t₆.mem .old).toUInt32.toNat = v :=
      Option.some.inj ((if_pos hsel).symm.trans hv)
    rw [← hval, UInt16.toNat_toUInt32, h₆.1.samples.old]
    exact (((Sampled.read _ []).append _).append _).append _
  -- channel 1
  refine DriveSat.aside ht₇ (hstable _) (h₇.1.congr rfl rfl fun _ => rfl)
    (fun _ => ⟨⟨rfl, rfl, rfl⟩, rfl, rfl⟩) fun t₈ h₈ ht₈ => ?_
  refine DriveSat.output ht₈ ((hstable _).and (Machine.stable_userSel 1))
    ⟨h₈.congr rfl rfl fun _ => rfl, rfl⟩ (fun _ => ⟨⟨rfl, rfl, rfl⟩, rfl⟩) ?_ fun t₉ h₉ ht₉ => ?_
  · intro t v ht hv
    have hsel : t.userSel = 1 := ht.2
    simp [Access.output, hsel] at hv
  -- anc_update(adc_sample.ch_val[1])
  refine DriveSat.read ht₉ (h₉.1.congr rfl rfl fun _ => rfl) fun t₁₀ h₁₀ ht₁₀ => ?_
  refine DriveSat.output ht₁₀ (hstable _) h₁₀ (fun _ => ⟨⟨rfl, rfl, rfl⟩, rfl⟩) ?_
    fun t₁₁ h₁₁ ht₁₁ => ?_
  · intro t v _ hv
    obtain rfl := Option.some.inj hv
    exact Sampled.read _ []
  refine Device.Sat.ret (hstable _) (h₁₁.congr rfl rfl fun _ => rfl) fun t htt => ?_
  have hsel₇ : t₇.userSel = 0 := h₇.2
  have hold₆ : t₆.mem .old = t₃.mem (.chVal 0) := h₆.1.samples.old
  have hhistory := ht₁₁.tracks
  simp only [List.append_assoc, List.cons_append, List.nil_append, Machine.exec] at hhistory ⊢
  refine ⟨_, rfl, ⟨rfl, rfl, rfl⟩, ?_, hhistory, t₃.mem (.chVal 0), htt, ?_⟩
  · intro x hx
    have hx' : x ∈ [t₃.mem (.chVal 0), t₁₀.mem (.chVal 1)] := hx
    rcases List.mem_pair.mp hx' with rfl | rfl
    · refine List.mem_filterMap.mpr ⟨(.write (t₆.mem .old).toUInt32, t₇), by simp, ?_⟩
      refine (if_pos hsel₇).trans (congrArg some ?_)
      rw [UInt16.toNat_toUInt32, hold₆]
    · exact List.mem_filterMap.mpr ⟨(.update (t₁₀.mem (.chVal 1)), t₁₁), by simp, rfl⟩
  · refine .inr ⟨t₃.mem (.chVal 0), ?_, rfl⟩
    rw [chValReads_append]
    exact List.mem_append_right _ (List.mem_pair.mpr (.inl rfl))

theorem driveIfReady_sat (hm : Running frames taken old m) (ht : Trail taken h)
    (hold : Sampled h old.toNat) :
    DriveSat (fun h' (_ : Unit) s => ∃ tr, h' = h ++ tr ∧ Drove frames taken h tr s)
      driveIfReady h m := by
  have hstable (v : UInt16) : Machine.Stable fun m : Machine α => Running frames taken v m :=
    Running.stable frames taken v
  refine DriveSat.aside ht (hstable old) hm (fun _ => ⟨⟨rfl, rfl, rfl⟩, rfl, rfl⟩) fun t htt ht' => ?_
  show DriveSat _ (if t.daccIsr.toUInt16 &&& daccIsrTxrdy = daccIsrTxrdy then drive
    else pure ()) _ t
  split_ifs
  · refine Device.Sat.mono (fun _ _ _ hG => hG) ?_ drive (drive_sat htt ht' (hold.append _))
    rintro _ _ s ⟨tr, rfl, hdrove⟩
    refine ⟨(.daccStatus, t) :: tr, List.append_assoc .., ?_⟩
    have hstatus : Plain [(HandlerOp.daccStatus, t)] := ⟨rfl, rfl, rfl⟩
    refine ⟨hstatus.append hdrove.plain, hdrove.shown, ?_, ?_⟩
    · rw [List.append_cons]
      exact hdrove.tracks
    · rw [List.append_cons]
      exact hdrove.running
  · refine Device.Sat.ret (hstable old) htt fun s hs => ⟨[(.daccStatus, t)], rfl, ?_⟩
    exact ⟨⟨rfl, rfl, rfl⟩, fun x hx => absurd hx List.not_mem_nil, ht'.tracks, old, hs,
      hold.append _⟩

/-! ### One invocation -/

/-- Silent accesses first. -/
theorem Silently.before {B C : Type} {p : HandlerProg B} {f : B → HandlerProg C}
    {post : List (Access α) → B → Machine α → Prop} {Q : List (Access α) → C → Machine α → Prop}
    (hp : Silently p h m post) (ht : Tracks h)
    (hf : ∀ tr b s, (∀ a ∈ tr, a.1.Silent) → post tr b s → DriveSat Q (f b) (h ++ tr) s) :
    DriveSat Q (p >>= f) h m := by
  refine Device.Sat.bind p (Device.Sat.mono ?_ ?_ p hp)
  · rintro _ _ _ ⟨tr, rfl, hsilent⟩
    exact ht.silent tr hsilent
  · rintro _ b s ⟨tr, rfl, hsilent, hpost⟩
    exact hf tr b s hsilent hpost

/-- What an invocation adds to a history. -/
structure Handled (frames : List Nat) (taken : List Taken) (h tr : List (Access α))
    (m : Machine α) : Prop where
  shown : ∀ x ∈ chValReads tr, x.toNat ∈ outputs tr
  tracks : Tracks (h ++ tr)
  running : ∃ frames' old, frames'.length = frames.length + (if sawRxbuff tr then 1 else 0) ∧
    Running frames' (taken ++ wordsTaken tr) old m ∧ Sampled (h ++ tr) old.toNat
  matched : Matched (h ++ tr)

/-- **The handler under any conversions.** -/
theorem adcHandler_sat (contents : Fin numChannels → UInt16) (hm : Running frames taken old m)
    (ht : Trail taken h) (hold : Sampled h old.toNat) :
    DriveSat (fun h' (_ : Unit) s => ∃ tr, h' = h ++ tr ∧ Handled frames taken h tr s)
      (adcHandler contents) h m := by
  have hdeclare : Silently (HandlerProg.declare contents) h m fun tr _ s =>
      Plain tr ∧ Running frames taken old s :=
    Silently.access (o := .declare contents) trivial (Running.stable frames taken old) hm
      fun t htt es => ⟨⟨rfl, rfl, rfl⟩,
        (Running.stable frames taken old).envs es (htt.declare contents)⟩
  refine hdeclare.before ht.tracks fun tr₁ temp s₁ hsilent₁ ⟨hplain₁, hs₁⟩ => ?_
  have ht₁ : Tracks (h ++ tr₁) := ht.tracks.silent tr₁ hsilent₁
  refine (captureIfFull_silently hs₁ temp).before ht₁
    fun tr₂ _ s₂ hsilent₂ ⟨hloops₂, hs₂⟩ => ?_
  have ht₂ : Trail (taken ++ wordsTaken tr₂) (h ++ tr₁ ++ tr₂) := by
    refine ⟨ht₁.silent tr₂ hsilent₂, ?_, (ht.matched.append hplain₁.matched).append hloops₂.matched⟩
    rw [wordsTaken_append, wordsTaken_append, ht.taken, hplain₁.taken, List.append_nil]
  refine Device.Sat.mono (fun _ _ _ hG => hG) ?_ driveIfReady
    (driveIfReady_sat hs₂ ht₂ ((hold.append tr₁).append tr₂))
  rintro _ _ s ⟨tr₃, rfl, hdrove⟩
  have hplain₃ : Plain tr₃ := hdrove.plain
  obtain ⟨old', hrunning, hold'⟩ := hdrove.running
  have happend : h ++ tr₁ ++ tr₂ ++ tr₃ = h ++ (tr₁ ++ tr₂ ++ tr₃) := by
    simp only [List.append_assoc]
  refine ⟨tr₁ ++ tr₂ ++ tr₃, happend, ?_, ?_, ?_, ?_⟩
  · intro x hx
    rw [chValReads_append, chValReads_append, chValReads_of_silent hsilent₁,
      chValReads_of_silent hsilent₂] at hx
    rw [outputs_append]
    exact List.mem_append_right _ (hdrove.shown x hx)
  · rw [← happend]
    exact hdrove.tracks
  · refine ⟨if sawRxbuff tr₂ then frames ++ [temp] else frames, old', ?_, ?_, ?_⟩
    · rw [sawRxbuff_append, sawRxbuff_append, hplain₁.unasked, hplain₃.unasked, Bool.false_or,
        Bool.or_false]
      split_ifs with hsaw
      · exact List.length_append
      · rfl
    · rw [wordsTaken_append, wordsTaken_append, hplain₁.taken, hplain₃.taken, List.nil_append,
        List.append_nil]
      exact hrunning
    · rw [← happend]
      exact hold'
  · rw [← happend]
    exact ht₂.matched.append hplain₃.matched

end Drive

/-! ### Runs -/

/-- An invocation that has returned. -/
abbrev HandlerReturn (α : Type) := Finished HandlerOp (Machine α) (Fin numChannels → UInt16) Unit

/-- The accesses of invocations, in order. -/
def past (fs : List (HandlerReturn α)) : List (Access α) := fs.flatMap Finished.accesses

/-- How many of them have seen RXBUFF. -/
def captures (fs : List (HandlerReturn α)) : Nat := fs.countP fun f => sawRxbuff f.accesses

theorem past_snoc (fs : List (HandlerReturn α)) (f : HandlerReturn α) :
    past (fs ++ [f]) = past fs ++ f.accesses := by
  simp [past]

theorem captures_snoc (fs : List (HandlerReturn α)) (f : HandlerReturn α) :
    captures (fs ++ [f]) = captures fs + if sawRxbuff f.accesses then 1 else 0 := by
  rw [captures, List.countP_append, List.countP_singleton]
  rfl

/-- The machine after the invocations `fs`. -/
def Settled (fs : List (HandlerReturn α)) (m : Machine α) : Prop :=
  ∃ frames old, frames.length = captures fs ∧ Running frames (wordsTaken (past fs)) old m ∧
    Sampled (past fs) old.toNat

/-- What the invocations leave behind them. -/
structure Recorded (fs : List (HandlerReturn α)) : Prop where
  settled : ∀ before f later, fs = before ++ f :: later → Settled (before ++ [f]) f.after
  shown : ∀ x ∈ chValReads (past fs), x.toNat ∈ outputs (past fs)

namespace Recorded

theorem nil : Recorded ([] : List (HandlerReturn α)) := by
  refine ⟨?_, fun x hx => absurd hx List.not_mem_nil⟩
  intro before f later heq
  exact absurd heq.symm (List.append_ne_nil_of_right_ne_nil _ (List.cons_ne_nil _ _))

theorem snoc {fs : List (HandlerReturn α)} (h : Recorded fs) {f : HandlerReturn α}
    (hf : Settled (fs ++ [f]) f.after) (hshown : ∀ x ∈ chValReads f.accesses,
      x.toNat ∈ outputs f.accesses) : Recorded (fs ++ [f]) := by
  refine ⟨?_, ?_⟩
  · intro before g later heq
    rcases split_last heq with ⟨rfl, rfl⟩ | ⟨later', rfl⟩
    · exact hf
    · exact h.settled before g later' rfl
  · intro x hx
    rw [past_snoc, chValReads_append] at hx
    rw [past_snoc, outputs_append]
    rcases List.mem_append.mp hx with hx | hx
    · exact List.mem_append_left _ (h.shown x hx)
    · exact List.mem_append_right _ (hshown x hx)

theorem of_snoc {fs : List (HandlerReturn α)} {f : HandlerReturn α} (h : Recorded (fs ++ [f])) :
    ∀ before g later, fs = before ++ g :: later → Settled (before ++ [g]) g.after := by
  rintro before g later rfl
  exact h.settled before g (later ++ [f]) (List.append_assoc ..)

end Recorded

/-- The invariant of the handler: what holds of the machine between invocations, and of everything
before. -/
structure Invariant (fs : List (HandlerReturn α)) (m : Machine α) : Prop where
  settled : Settled fs m
  recorded : Recorded fs
  tracks : Tracks (past fs)
  matched : Matched (past fs)

variable [FloatArith α]

theorem Invariant.stable (fs : List (HandlerReturn α)) :
    Machine.Stable fun m : Machine α => Invariant fs m := by
  rintro e m ⟨⟨frames, old, hlen, hm, hold⟩, hrecorded, htracks, hmatched⟩
  exact ⟨⟨frames, old, hlen, Running.stable _ _ _ e m hm, hold⟩, hrecorded, htracks, hmatched⟩

theorem Invariant.initialized (u : PowerUp) :
    Invariant [] (Machine.initialized u : Machine α) :=
  ⟨⟨[], 2048, rfl, Running.initialized u, .inl rfl⟩, .nil, .nil, rfl⟩

/-- What holds during an invocation. -/
abbrev During (fs : List (HandlerReturn α)) (tr : List (Access α)) : Prop :=
  Recorded fs ∧ Tracks (past fs ++ tr)

/-- One invocation keeps the invariant. -/
theorem Invariant.invocation (fs : List (HandlerReturn α)) (contents : Fin numChannels → UInt16)
    (m : Machine α) (h : Invariant fs m) :
    machineDevice.Sat (fun tr _ _ => During fs tr)
      (fun tr a s => Invariant (fs ++ [⟨contents, tr, a, s⟩]) s) (adcHandler contents) [] m := by
  obtain ⟨⟨frames, old, hlen, hm, hold⟩, hrecorded, htracks, hmatched⟩ := h
  have hsat : DriveSat
      (fun h' (_ : Unit) s => ∃ tr, h' = past fs ++ tr ∧
        Handled frames (wordsTaken (past fs)) (past fs) tr s)
      (adcHandler contents) (past fs ++ []) m := by
    rw [List.append_nil]
    exact adcHandler_sat contents hm ⟨htracks, rfl, hmatched⟩ hold
  refine Device.Sat.mono (fun _ _ _ hG => ⟨hrecorded, hG⟩) ?_ _ (Device.Sat.drop_before _ hsat)
  rintro tr a s ⟨tr', heq, hhandled⟩
  obtain rfl : tr = tr' := List.append_cancel_left heq
  obtain ⟨frames', old', hlen', hrunning, hold'⟩ := hhandled.running
  have hsettled : Settled (fs ++ [⟨contents, tr, a, s⟩]) s := by
    refine ⟨frames', old', ?_, ?_, ?_⟩
    · rw [captures_snoc, hlen', hlen]
    · rw [past_snoc, wordsTaken_append]
      exact hrunning
    · rw [past_snoc]
      exact hold'
  refine ⟨hsettled, hrecorded.snoc hsettled hhandled.shown, ?_, ?_⟩
  · rw [past_snoc]
    exact hhandled.tracks
  · rw [past_snoc]
    exact hhandled.matched

/-- A machine after `initialize_anc`, its conversions and its invocations. -/
abbrev handlerRun (u : PowerUp) (as : List (Action Event (Fin numChannels → UInt16))) :
    Node HandlerOp HandlerOp.Resp (Machine α) (Fin numChannels → UInt16) Unit :=
  machineHost.run (Host.start (Machine.initialized u)) as

/-- **The invariant holds over every run.** -/
theorem handlerRun_ok (u : PowerUp) (as : List (Action Event (Fin numChannels → UInt16))) :
    Host.Ok (machineHost (α := α)) Invariant (fun fs _ tr _ _ => During fs tr) (handlerRun u as) :=
  Host.run_ok Invariant.stable Invariant.invocation as (Invariant.initialized u)

/-- What a history shows, it shows at every moment of a run. -/
theorem tracks_handlerRun (u : PowerUp) (as : List (Action Event (Fin numChannels → UInt16))) :
    Tracks (handlerRun u as : Node _ _ (Machine α) _ _).history := by
  rcases (handlerRun_ok (α := α) u as).moments with
    ⟨ha, hidle⟩ | ⟨c, tr, a, ha, hret⟩ | ⟨c, tr, o, k, ha, hstep⟩
  · rw [Node.history_idle ha]
    exact hidle.tracks
  · rw [Node.history_active ha]
    have htracks := hret.tracks
    rwa [past_snoc] at htracks
  · rw [Node.history_active ha]
    exact hstep.2

/-- What an invocation of a run leaves. -/
theorem settled_handlerRun (u : PowerUp) (as : List (Action Event (Fin numChannels → UInt16)))
    {before later : List (HandlerReturn α)} {f : HandlerReturn α}
    (hf : (handlerRun u as).finished = before ++ f :: later) : Settled (before ++ [f]) f.after := by
  rcases (handlerRun_ok (α := α) u as).moments with
    ⟨-, hidle⟩ | ⟨c, tr, a, -, hret⟩ | ⟨c, tr, o, k, -, hstep⟩
  · exact hidle.recorded.settled before f later hf
  · exact hret.recorded.of_snoc before f later hf
  · exact hstep.1.settled before f later hf

/-- The conversions of one frame, and an invocation that finds the converter ready and `contents` in
its `temp`. -/
def oneFrameRun (contents : Fin numChannels → UInt16) :
    List (Action Event (Fin numChannels → UInt16)) :=
  [.event (.conversion 100), .event (.conversion 200), .event (.flags 0 1), .call contents] ++
    List.replicate 27 .cpu

end Anc
