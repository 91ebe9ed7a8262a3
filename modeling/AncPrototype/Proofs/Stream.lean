/-
The firmware as a stream transducer.

`Transducer` runs the handler with nothing in between.  Here anything may come in
between, down to the single access, and the arguments of the recursion are what the
accesses show: the words that the handler loads from `ch_val[0]` and `ch_val[1]`.  At
any moment the converter has been given an initial part of what the recursion writes on
them, and between invocations all of it.

The words loaded are again a function of what the cases of the demultiplexing loop have
taken, with the first two words of the channel where they have taken none; and a case
is entered for each word that the `switch` sees with its tag.  So the whole firmware,
from reset on, is one function of the words that lie in `temp` for the loop.
-/
import AncPrototype.Proofs.Invocations
import AncPrototype.Proofs.Transducer

namespace Anc

open DeviceProgram FloatArith

/-! ### What a history shows -/

/-- An access of the handler with its answer. -/
abbrev Answered := (o : HandlerOp) × o.Resp

namespace Answered

/-- The word of a load of `ch_val[j]`. -/
def chVal (j : Fin numChannels) : Answered → Option UInt16
  | ⟨.load a, word⟩ => if a = .chVal j then some word else none
  | _ => none

/-- The word that a `switch` loads from an array `temp`. -/
def tempWord : Answered → Option UInt16
  | ⟨.load ⟨.temp _, _⟩, word⟩ => some word
  | _ => none

/-- The word that a case takes. -/
def taken : Answered → Option Taken
  | ⟨.reload entry _, word⟩ => some (entry, word)
  | _ => none

end Answered

/-- What has been loaded from `ch_val[j]`. -/
def loaded (j : Fin numChannels) (h : List Answered) : List UInt16 :=
  h.filterMap (Answered.chVal j)

/-- What the `switch` of the demultiplexing loop has seen. -/
def loopWords (h : List Answered) : List UInt16 := h.filterMap Answered.tempWord

/-- What its cases have taken. -/
def takenWords (h : List Answered) : List Taken := h.filterMap Answered.taken

/-- The cases entered are those that the words seen are for. -/
def Selected (h : List Answered) : Prop :=
  (loopWords h).filterMap entryOf = (takenWords h).map Prod.fst

/-- A load of `ch_val[j]` finds the data of the last word that the case for it has taken, or the raw
word, and the cases entered are those that the words seen are for. -/
structure FindsWord (h : List Answered) (log : List (Stored Addr)) (j : Fin numChannels)
    (word : UInt16) : Prop where
  stored : j.val < log.length
  word : word = (lastFor j (takenWords h)).getD (rawWord log j)
  selected : Selected h

/-- Each load of `ch_val` finds one. -/
def ReadsSamples (h : List Answered) (log : List (Stored Addr)) : Prop :=
  ∀ before j word after, h = before ++ ⟨.load (.chVal j), word⟩ :: after →
    FindsWord before log j word

theorem ReadsSamples.later {h : List Answered} {log : List (Stored Addr)} (hh : ReadsSamples h log)
    (later : List (Stored Addr)) : ReadsSamples h (log ++ later) := by
  intro before j word after heq
  obtain ⟨hlt, hword, hselected⟩ := hh before j word after heq
  refine ⟨by rw [List.length_append]; omega, ?_, hselected⟩
  rw [rawWord_append hlt]
  exact hword

theorem ReadsSamples.snoc {h : List Answered} {log : List (Stored Addr)} (hh : ReadsSamples h log)
    {a : Answered} (ha : ∀ j word, a = ⟨.load (.chVal j), word⟩ → FindsWord h log j word) :
    ReadsSamples (h ++ [a]) log := by
  intro before j word after heq
  rcases split_last heq with ⟨rfl, hlast⟩ | ⟨after', hbefore⟩
  · exact ha j word hlast
  · exact hh before j word after' hbefore

theorem ReadsSamples.append {log : List (Stored Addr)} : ∀ {l h : List Answered},
    ReadsSamples h log → (∀ a ∈ l, ∀ j, a.chVal j = none) → ReadsSamples (h ++ l) log := by
  intro l
  induction l with
  | nil => intro h hh _; rwa [List.append_nil]
  | cons a l ih =>
      intro h hh hl
      have hsnoc : ReadsSamples (h ++ [a]) log := by
        refine hh.snoc fun j word ha => ?_
        have hnone := hl a List.mem_cons_self j
        rw [ha] at hnone
        exact absurd hnone (by simp [Answered.chVal])
      rw [List.append_cons]
      exact ih hsnoc fun b hb => hl b (List.mem_cons_of_mem _ hb)

/-- What has been loaded from the two entries. -/
structure Loaded (h : List Answered) (noises residuals : List UInt16) : Prop where
  noises : loaded 0 h = noises
  residuals : loaded 1 h = residuals

namespace Loaded

variable {h : List Answered} {noises residuals : List UInt16}

theorem snoc (hh : Loaded h noises residuals) (a : Answered) :
    Loaded (h ++ [a]) (noises ++ (a.chVal 0).toList) (residuals ++ (a.chVal 1).toList) := by
  obtain ⟨rfl, rfl⟩ := hh
  have happend : ∀ j, loaded j (h ++ [a]) = loaded j h ++ (a.chVal j).toList := by
    intro j
    unfold loaded
    rw [List.filterMap_append]
    cases hj : a.chVal j <;> simp [hj]
  exact ⟨happend 0, happend 1⟩

theorem quiet (hh : Loaded h noises residuals) {a : Answered} (ha : ∀ j, a.chVal j = none) :
    Loaded (h ++ [a]) noises residuals := by
  have hsnoc := hh.snoc a
  rw [ha 0, ha 1] at hsnoc
  simpa using hsnoc

theorem append : ∀ {l h : List Answered}, Loaded h noises residuals →
    (∀ a ∈ l, ∀ j, a.chVal j = none) → Loaded (h ++ l) noises residuals := by
  intro l
  induction l with
  | nil => intro h hh _; rwa [List.append_nil]
  | cons a l ih =>
      intro h hh hl
      rw [List.append_cons]
      exact ih (hh.quiet (hl a List.mem_cons_self)) fun b hb => hl b (List.mem_cons_of_mem _ hb)

theorem noise (hh : Loaded h noises residuals) (word : UInt16) :
    Loaded (h ++ [⟨.load (.chVal 0), word⟩]) (noises ++ [word]) residuals := by
  simpa [Answered.chVal] using hh.snoc ⟨.load (.chVal 0), word⟩

theorem residual (hh : Loaded h noises residuals) (word : UInt16) :
    Loaded (h ++ [⟨.load (.chVal 1), word⟩]) noises (residuals ++ [word]) := by
  simpa [Answered.chVal] using hh.snoc ⟨.load (.chVal 1), word⟩

end Loaded

/-! ### The recursion, extended at its end -/

variable {α : Type} [FloatArith α]

/-- The register and the last sample after the pairs. -/
def lmsAfter : ShiftRegister α → UInt16 → List (UInt16 × UInt16) → ShiftRegister α × UInt16
  | r, old, [] => (r, old)
  | r, old, (c, e) :: samples => lmsAfter ((r.shift old).update e) c samples

theorem lmsAfter_snoc (c e : UInt16) : ∀ (samples : List (UInt16 × UInt16)) (r : ShiftRegister α)
    (old : UInt16), lmsAfter r old (samples ++ [(c, e)])
      = (((lmsAfter r old samples).1.shift (lmsAfter r old samples).2).update e, c) := by
  intro samples
  induction samples with
  | nil => intro r old; rfl
  | cons ce samples ih => intro r old; exact ih _ _

/-- The words of a pair do not depend on its residual. -/
theorem lmsWrites_snoc (word : UInt16 → UInt32) (c e : UInt16) :
    ∀ (samples : List (UInt16 × UInt16)) (r : ShiftRegister α) (old : UInt16),
      lmsWrites word r old (samples ++ [(c, e)])
        = lmsWrites word r old samples ++ [(0, c.toUInt32),
            (1, word ((lmsAfter r old samples).1.shift (lmsAfter r old samples).2).output)] := by
  intro samples
  induction samples with
  | nil => intro r old; rfl
  | cons ce samples ih =>
      intro r old
      show _ :: _ :: lmsWrites word _ _ (samples ++ [(c, e)]) = _ :: _ :: (_ ++ _)
      rw [ih]
      rfl

/-- The register that `initialize_anc` sets up. -/
def startRegister (α : Type) [FloatArith α] : ShiftRegister α :=
  ShiftRegister.cleared (ofDecimal fxlmsStep) fxlmsBufLen.len
    (initialWeights.map ofDecimal).toList

/-- What the recursion writes on what has been loaded; a last residual may be yet to come, and the
words do not depend on it. -/
def expected (α : Type) [FloatArith α] (h : List Answered) : List (UInt32 × UInt32) :=
  lmsWrites signExtended (startRegister α) 2048 ((loaded 0 h).zip (loaded 1 h ++ [0]))

namespace Loaded

variable {h : List Answered} {noises residuals : List UInt16}

/-- Between invocations. -/
theorem expected_even (hh : Loaded h noises residuals) (heven : noises.length = residuals.length) :
    expected α h = lmsWrites signExtended (startRegister α) 2048 (noises.zip residuals) := by
  have hzip : (noises ++ []).zip (residuals ++ [(0 : UInt16)])
      = noises.zip residuals ++ [].zip [0] := List.zip_append heven
  rw [List.append_nil, List.zip_nil_left, List.append_nil] at hzip
  unfold expected
  rw [hh.noises, hh.residuals, hzip]

/-- When a noise sample has been loaded, and perhaps its residual. -/
theorem expected_snoc {n : UInt16} {rest : List UInt16}
    (hh : Loaded h (noises ++ [n]) (residuals ++ rest)) (heven : noises.length = residuals.length) :
    let after := lmsAfter (startRegister α) 2048 (noises.zip residuals)
    expected α h = lmsWrites signExtended (startRegister α) 2048 (noises.zip residuals)
      ++ [(0, n.toUInt32), (1, signExtended (after.1.shift after.2).output)] := by
  intro after
  have hzip : (noises ++ [n]).zip ((residuals ++ rest) ++ [0])
      = noises.zip residuals ++ [(n, (rest ++ [0]).headD 0)] := by
    rw [List.append_assoc, List.zip_append heven]
    cases rest <;> rfl
  unfold expected
  rw [hh.noises, hh.residuals, hzip, lmsWrites_snoc]

end Loaded

/-! ### The machine follows -/

/-- The accesses with their answers. -/
def transcript (tr : List (Access α)) : List Answered := tr.map machineDevice.answered

theorem transcript_snoc (tr tr' : List (Access α)) (o : HandlerOp) (m : Machine α) :
    transcript (tr ++ (tr' ++ [(o, m)]))
      = transcript (tr ++ tr') ++ [⟨o, (Machine.exec o m).1⟩] := by
  unfold transcript
  rw [← List.append_assoc, List.map_append]
  rfl

namespace Loaded

variable {before tr : List (Access α)} {m : Machine α} {noises residuals : List UInt16}

theorem quiet_access (hh : Loaded (transcript (before ++ tr)) noises residuals) {o : HandlerOp}
    (ho : ∀ j, o ≠ .load (.chVal j)) :
    Loaded (transcript (before ++ (tr ++ [(o, m)]))) noises residuals := by
  rw [transcript_snoc]
  refine hh.quiet fun j => ?_
  cases o with
  | load a => exact if_neg fun ha => ho j (congrArg _ ha)
  | _ => rfl

theorem noise_access (hh : Loaded (transcript (before ++ tr)) noises residuals) :
    Loaded (transcript (before ++ (tr ++ [(.load (.chVal 0), m)])))
      (noises ++ [m.mem (.chVal 0)]) residuals := by
  rw [transcript_snoc]
  exact hh.noise _

theorem residual_access (hh : Loaded (transcript (before ++ tr)) noises residuals) :
    Loaded (transcript (before ++ (tr ++ [(.load (.chVal 1), m)])))
      noises (residuals ++ [m.mem (.chVal 1)]) := by
  rw [transcript_snoc]
  exact hh.residual _

end Loaded

theorem loopWords_transcript (tr : List (Access α)) : loopWords (transcript tr) = wordsRead tr := by
  unfold loopWords transcript wordsRead
  rw [List.filterMap_map]
  refine congrFun (congrArg List.filterMap (funext fun a => ?_)) tr
  obtain ⟨o, m⟩ := a
  cases o with
  | load a =>
      obtain ⟨object, i⟩ := a
      cases object <;> rfl
  | _ => rfl

theorem takenWords_transcript (tr : List (Access α)) :
    takenWords (transcript tr) = wordsTaken tr := by
  unfold takenWords transcript wordsTaken
  rw [List.filterMap_map]
  refine congrFun (congrArg List.filterMap (funext fun a => ?_)) tr
  obtain ⟨o, m⟩ := a
  cases o <;> rfl

theorem selected_transcript {tr : List (Access α)} : Selected (transcript tr) ↔ Matched tr := by
  unfold Selected Matched
  rw [loopWords_transcript, takenWords_transcript]

/-- The machine, while the handler drives the converter. -/
structure Writing (frames : List Nat) (taken : List Taken) (old : UInt16)
    (fxlms : Fxlms α fxlmsBufLen) (userSel : UInt32) (cdr : List (UInt32 × UInt32))
    (m : Machine α) : Prop where
  running : Running frames taken old m
  fxlms : m.fxlms = fxlms
  userSel : m.userSel = userSel
  cdr : m.cdr = cdr

namespace Writing

variable {frames : List Nat} {taken : List Taken} {old : UInt16} {fxlms : Fxlms α fxlmsBufLen}
  {userSel : UInt32} {cdr : List (UInt32 × UInt32)} {m : Machine α}

theorem stable : Machine.Stable fun m => Writing frames taken old fxlms userSel cdr m := by
  intro e m h
  have hrunning := Running.stable _ _ _ e m h.running
  cases e <;> exact ⟨hrunning, h.fxlms, h.userSel, h.cdr⟩

omit [FloatArith α] in
theorem loadOld (h : Writing frames taken old fxlms userSel cdr m) : m.mem .old = old :=
  h.running.samples.old

theorem save (h : Writing frames taken old fxlms userSel cdr m) (v : UInt16) :
    Writing frames taken v fxlms userSel cdr (Machine.exec (.save .old v) m).2 := by
  have hrunning := h.running.save (a := .old) (by decide) v
  rw [if_pos rfl] at hrunning
  exact ⟨hrunning, h.fxlms, h.userSel, h.cdr⟩

theorem select (h : Writing frames taken old fxlms userSel cdr m) (c : UInt32) :
    Writing frames taken old fxlms c cdr (Machine.exec (.select c) m).2 :=
  ⟨h.running.congr rfl rfl fun _ => rfl, h.fxlms, rfl, h.cdr⟩

theorem write (h : Writing frames taken old fxlms userSel cdr m) (d : UInt32) :
    Writing frames taken old fxlms userSel (cdr ++ [(userSel, d)])
      (Machine.exec (.write d) m).2 := by
  refine ⟨h.running.congr rfl rfl fun _ => rfl, h.fxlms, h.userSel, ?_⟩
  rw [← h.userSel, ← h.cdr]
  rfl

theorem predict (h : Writing frames taken old fxlms userSel cdr m) (n : UInt16) :
    Writing frames taken old (fxlms.store n) userSel cdr (Machine.exec (.predict n) m).2 := by
  refine ⟨h.running.congr rfl rfl fun _ => rfl, ?_, h.userSel, h.cdr⟩
  rw [← h.fxlms]
  rfl

theorem update (h : Writing frames taken old fxlms userSel cdr m) (e : UInt16) :
    Writing frames taken old (ancUpdate fxlms e) userSel cdr (Machine.exec (.update e) m).2 := by
  refine ⟨h.running.congr rfl rfl fun _ => rfl, ?_, h.userSel, h.cdr⟩
  rw [← h.fxlms]
  rfl

end Writing

/-- Between invocations: the filter holds the register of the recursion, and the converter has been
given what it writes. -/
structure InTune (h : List Answered) (frames : List Nat) (taken : List Taken) (m : Machine α) :
    Prop where
  even : (loaded 0 h).length = (loaded 1 h).length
  running : Running frames taken
    (lmsAfter (startRegister α) 2048 ((loaded 0 h).zip (loaded 1 h))).2 m
  cdr : m.cdr = expected α h
  filter : HoldsFrom m.fxlms m.fxlms.xIdx.back
    (lmsAfter (startRegister α) 2048 ((loaded 0 h).zip (loaded 1 h))).1

theorem InTune.of_loaded {h : List Answered} {frames : List Nat} {taken : List Taken}
    {noises residuals : List UInt16}
    {m : Machine α} {r : ShiftRegister α} {old : UInt16} (hh : Loaded h noises residuals)
    (heven : noises.length = residuals.length)
    (hafter : lmsAfter (startRegister α) 2048 (noises.zip residuals) = (r, old))
    (hrunning : Running frames taken old m) (hcdr : m.cdr = expected α h)
    (hfilter : HoldsFrom m.fxlms m.fxlms.xIdx.back r) : InTune h frames taken m := by
  obtain ⟨rfl, rfl⟩ := hh
  refine ⟨heven, ?_, hcdr, ?_⟩
  · rw [hafter]
    exact hrunning
  · rw [hafter]
    exact hfilter

/-- **What the handler does with a converter that is ready**, as far as the converter and the filter
are concerned. -/
theorem drive_stream {frames : List Nat} {taken : List Taken} {before tr : List (Access α)}
    {m : Machine α} (h : InTune (transcript (before ++ tr)) frames taken m) :
    machineDevice.Sat (fun tr _ s => s.cdr <+: expected α (transcript (before ++ tr)))
      (fun tr (_ : Unit) s => InTune (transcript (before ++ tr)) frames taken s) drive tr m := by
  obtain ⟨heven, hrunning, hcdr, hfilter⟩ := h
  have hloaded : Loaded (transcript (before ++ tr)) (loaded 0 (transcript (before ++ tr)))
    (loaded 1 (transcript (before ++ tr))) := ⟨rfl, rfl⟩
  generalize loaded 0 (transcript (before ++ tr)) = noises at *
  generalize loaded 1 (transcript (before ++ tr)) = residuals at *
  let after := lmsAfter (startRegister α) 2048 (noises.zip residuals)
  let W := lmsWrites signExtended (startRegister α) 2048 (noises.zip residuals)
  have hshift := hfilter.shift after.2
  -- what has been written, before and after the noise sample has been loaded
  have hfirst : ∀ {h : List Answered} {t : Machine α}, Loaded h noises residuals → t.cdr = W →
      t.cdr <+: expected α h := by
    intro h t hh ht
    rw [ht, hh.expected_even heven]
  let pair (n : UInt16) : List (UInt32 × UInt32) :=
    [(0, n.toUInt32), (1, signExtended (after.1.shift after.2).output)]
  have hthen : ∀ {h : List Answered} {n : UInt16} {t : Machine α},
      Loaded h (noises ++ [n]) residuals → ∀ k, t.cdr = W ++ (pair n).take k →
      t.cdr <+: expected α h := by
    intro h n t hh k ht
    have hh' : Loaded h (noises ++ [n]) (residuals ++ []) := by rwa [List.append_nil]
    rw [ht, hh'.expected_snoc heven]
    exact (List.prefix_append_right_inj W).mpr (List.take_prefix ..)
  have hstart : Writing frames taken after.2 m.fxlms m.userSel W m :=
    ⟨hrunning, rfl, rfl, hcdr.trans (hloaded.expected_even heven)⟩
  have hnot : ∀ {o : HandlerOp}, (∀ a, o ≠ .load a) → ∀ j, o ≠ .load (.chVal j) :=
    fun ho j => ho _
  have hdistinct : ∀ j : Fin numChannels, Addr.old ≠ .chVal j := by decide
  have hold : ∀ j, HandlerOp.load .old ≠ .load (.chVal j) := fun j hj =>
    hdistinct j (HandlerOp.load.inj hj)
  -- the last sample, and the prediction from it
  refine Device.Sat.access Writing.stable hstart fun t₁ h₁ => ⟨hfirst hloaded h₁.cdr, ?_⟩
  have hL₁ := hloaded.quiet_access (m := t₁) hold
  refine Device.Sat.access Writing.stable h₁ fun t₂ h₂ => ⟨hfirst hL₁ h₂.cdr, ?_⟩
  have hL₂ := hL₁.quiet_access (m := t₂) (o := .predict (t₁.mem .old)) (hnot (by simp))
  have hpredict : (Machine.exec (.predict (t₁.mem .old)) t₂).1
      = (after.1.shift after.2).output := by
    rw [h₁.loadOld, ← hshift.output, ← h₂.fxlms]
    rfl
  -- the next sample
  refine Device.Sat.access Writing.stable (h₂.predict _) fun t₃ h₃ => ⟨hfirst hL₂ h₃.cdr, ?_⟩
  have hL₃ := hL₂.noise_access (m := t₃)
  refine Device.Sat.access Writing.stable h₃ fun t₄ h₄ => ⟨hthen hL₃ 0 ?_, ?_⟩
  · rw [h₄.cdr]
    exact (List.append_nil W).symm
  have hL₄ := hL₃.quiet_access (m := t₄) (o := .save .old (t₃.mem (.chVal 0))) (hnot (by simp))
  -- both go to the converter
  refine Device.Sat.access Writing.stable (h₄.save _) fun t₅ h₅ => ⟨hthen hL₄ 0 ?_, ?_⟩
  · rw [h₅.cdr]
    exact (List.append_nil W).symm
  have hL₅ := hL₄.quiet_access (m := t₅) (o := .select 0) (hnot (by simp))
  refine Device.Sat.access Writing.stable (h₅.select _) fun t₆ h₆ => ⟨hthen hL₅ 0 ?_, ?_⟩
  · rw [h₆.cdr]
    exact (List.append_nil W).symm
  have hL₆ := hL₅.quiet_access (m := t₆) hold
  refine Device.Sat.access Writing.stable h₆ fun t₇ h₇ => ⟨hthen hL₆ 0 ?_, ?_⟩
  · rw [h₇.cdr]
    exact (List.append_nil W).symm
  have hL₇ := hL₆.quiet_access (m := t₇) (o := .write (t₆.mem .old).toUInt32) (hnot (by simp))
  have hnoiseWord : W ++ [(0, (t₆.mem .old).toUInt32)] = W ++ (pair (t₃.mem (.chVal 0))).take 1 := by
    rw [h₆.loadOld]
    rfl
  refine Device.Sat.access Writing.stable (hnoiseWord ▸ h₇.write _) fun t₈ h₈ =>
    ⟨hthen hL₇ 1 h₈.cdr, ?_⟩
  have hL₈ := hL₇.quiet_access (m := t₈) (o := .select 1) (hnot (by simp))
  refine Device.Sat.access Writing.stable (h₈.select _) fun t₉ h₉ => ⟨hthen hL₈ 1 h₉.cdr, ?_⟩
  have hL₉ := hL₈.quiet_access (m := t₉)
    (o := .write (signExtended (Machine.exec (.predict (t₁.mem .old)) t₂).1)) (hnot (by simp))
  have hpredictWord : W ++ (pair (t₃.mem (.chVal 0))).take 1
      ++ [(1, signExtended (Machine.exec (.predict (t₁.mem .old)) t₂).1)]
        = W ++ pair (t₃.mem (.chVal 0)) := by
    rw [hpredict, List.append_assoc]
    rfl
  -- the residual, and what the filter learns from it
  refine Device.Sat.access Writing.stable (hpredictWord ▸ h₉.write _) fun u₁ k₁ =>
    ⟨hthen hL₉ 2 k₁.cdr, ?_⟩
  have hM₁ := hL₉.residual_access (m := u₁)
  have hwritten : ∀ {h : List Answered} {t : Machine α},
      Loaded h (noises ++ [t₃.mem (.chVal 0)]) (residuals ++ [u₁.mem (.chVal 1)]) →
      t.cdr = W ++ pair (t₃.mem (.chVal 0)) → t.cdr = expected α h := by
    intro h t hh ht
    rw [ht, hh.expected_snoc heven]
  refine Device.Sat.access Writing.stable k₁ fun u₂ k₂ => ⟨?_, ?_⟩
  · rw [hwritten hM₁ k₂.cdr]
    exact List.prefix_rfl
  have hM₂ := hM₁.quiet_access (m := u₂) (o := .update (u₁.mem (.chVal 1))) (hnot (by simp))
  have hafter : lmsAfter (startRegister α) 2048
      ((noises ++ [t₃.mem (.chVal 0)]).zip (residuals ++ [u₁.mem (.chVal 1)]))
        = ((after.1.shift after.2).update (u₁.mem (.chVal 1)), t₃.mem (.chVal 0)) := by
    rw [List.zip_append heven]
    exact lmsAfter_snoc _ _ _ _ _
  refine Device.Sat.ret Writing.stable (k₂.update _) fun u₃ k₃ => ?_
  refine InTune.of_loaded hM₂ ?_ hafter k₃.running (hwritten hM₂ k₃.cdr) ?_
  · rw [List.length_append, List.length_append, heven]
    rfl
  · rw [k₃.fxlms, show (machineDevice.exec (.load .old) t₁).1 = after.2 from h₁.loadOld]
    exact hshift.update _

/-- The second half of the handler. -/
theorem driveIfReady_stream {frames : List Nat} {taken : List Taken} {before tr : List (Access α)}
    {m : Machine α} (h : InTune (transcript (before ++ tr)) frames taken m) :
    machineDevice.Sat (fun tr _ s => s.cdr <+: expected α (transcript (before ++ tr)))
      (fun tr (_ : Unit) s => InTune (transcript (before ++ tr)) frames taken s) driveIfReady tr
      m := by
  have hstable : ∀ h, Machine.Stable fun s : Machine α => InTune h frames taken s := by
    intro h e s hs
    have hrunning := Running.stable _ _ _ e s hs.running
    cases e <;> exact ⟨hs.even, hrunning, hs.cdr, hs.filter⟩
  refine Device.Sat.access (hstable _) h fun t ht => ⟨ht.cdr ▸ List.prefix_rfl, ?_⟩
  have hloaded : Loaded (transcript (before ++ tr)) _ _ := ⟨rfl, rfl⟩
  have hstatus := hloaded.quiet_access (m := t) (o := .daccStatus) (by simp)
  have hnext : InTune (transcript (before ++ (tr ++ [(.daccStatus, t)]))) frames taken t := by
    refine InTune.of_loaded hstatus ht.even rfl ht.running ?_ ht.filter
    rw [ht.cdr, hloaded.expected_even ht.even, hstatus.expected_even ht.even]
  show machineDevice.Sat _ _ (if t.daccIsr.toUInt16 &&& daccIsrTxrdy = daccIsrTxrdy then drive
    else pure ()) _ t
  split_ifs
  · exact drive_stream hnext
  · exact Device.Sat.ret (hstable _) hnext fun u hu => hu

/-! ### What the loads of ch_val find -/

omit [FloatArith α] in
/-- An access beside the loop shows no word of it. -/
theorem HandlerOp.Beside.silentWords {o : HandlerOp} (ho : o.Beside) {r : o.Resp} :
    Answered.tempWord ⟨o, r⟩ = none ∧ Answered.taken ⟨o, r⟩ = none := by
  match o, ho with
  | .load ⟨.adcSample, _⟩, _ => exact ⟨rfl, rfl⟩
  | .declare _, _ => exact ⟨rfl, rfl⟩
  | .pdc _, _ => exact ⟨rfl, rfl⟩
  | .adcStatus, _ => exact ⟨rfl, rfl⟩
  | .save _ _, _ => exact ⟨rfl, rfl⟩
  | .daccStatus, _ => exact ⟨rfl, rfl⟩
  | .select _, _ => exact ⟨rfl, rfl⟩
  | .write _, _ => exact ⟨rfl, rfl⟩
  | .predict _, _ => exact ⟨rfl, rfl⟩
  | .update _, _ => exact ⟨rfl, rfl⟩

/-- The second half reads `adc_sample` only, and its loads of `ch_val` find what the loop has left
there. -/
theorem driveIfReady_finds {frames : List Nat} {taken : List Taken} {before tr : List (Access α)}
    {m : Machine α} {words : List UInt16} (hm : ∃ old, Running frames taken old m)
    (hlog : 2 ≤ m.pdc.log.length) (hwords : loopWords (transcript (before ++ tr)) = words)
    (htaken : takenWords (transcript (before ++ tr)) = taken)
    (hselected : words.filterMap entryOf = taken.map Prod.fst)
    (hfinds : ReadsSamples (transcript (before ++ tr)) m.pdc.log) :
    machineDevice.Sat (fun tr _ s => ReadsSamples (transcript (before ++ tr)) s.pdc.log)
      (fun tr (_ : Unit) s => loopWords (transcript (before ++ tr)) = words ∧
        takenWords (transcript (before ++ tr)) = taken ∧
        ReadsSamples (transcript (before ++ tr)) s.pdc.log) driveIfReady tr m := by
  let P (o : HandlerOp) : Prop := (∀ s : Machine α, ∀ old, Running frames taken old s →
    ∃ old', Running frames taken old' (Machine.exec o s).2) ∧ o.Beside
  let J (tr : List (Access α)) (s : Machine α) : Prop := (∃ old, Running frames taken old s) ∧
    2 ≤ s.pdc.log.length ∧ loopWords (transcript (before ++ tr)) = words ∧
    takenWords (transcript (before ++ tr)) = taken ∧
    ReadsSamples (transcript (before ++ tr)) s.pdc.log
  have honly : driveIfReady.Only P := by
    refine driveIfReady_only ?_ ?_ ?_ ?_ ?_ ?_ ?_
    · exact ⟨fun s old hs => ⟨old, hs⟩, trivial⟩
    · exact fun i => ⟨fun s old hs => ⟨old, hs⟩, trivial⟩
    · exact fun v => ⟨fun s old hs => ⟨_, hs.save (a := .old) (by decide) v⟩, trivial⟩
    · exact fun c _ => ⟨fun s old hs => ⟨old, hs.congr rfl rfl fun _ => rfl⟩, trivial⟩
    · exact fun d => ⟨fun s old hs => ⟨old, hs.congr rfl rfl fun _ => rfl⟩, trivial⟩
    · exact fun n => ⟨fun s old hs => ⟨old, hs.congr rfl rfl fun _ => rfl⟩, trivial⟩
    · exact fun r => ⟨fun s old hs => ⟨old, hs.congr rfl rfl fun _ => rfl⟩, trivial⟩
  refine Device.Sat.mono (fun _ _ _ hG => hG.2.2.2.2) (fun _ _ _ hQ => hQ.2.2) _
    (Device.Sat.of_only (J := J) ?_ ?_ honly ⟨hm, hlog, hwords, htaken, hfinds⟩)
  · rintro tr e s ⟨⟨old, hs⟩, hlen, hread, hcases, hfound⟩
    have hprefix : s.pdc.log <+: (s.event e).pdc.log := log_prefix_event s e
    obtain ⟨later, hlater⟩ := hprefix
    refine ⟨⟨old, Running.stable _ _ _ e s hs⟩, ?_, hread, hcases, ?_⟩
    · show 2 ≤ (s.event e).pdc.log.length
      rw [← hlater, List.length_append]
      omega
    · show ReadsSamples _ (s.event e).pdc.log
      rw [← hlater]
      exact hfound.later later
  · rintro tr o s ⟨hkeeps, hbeside⟩ ⟨⟨old, hs⟩, hlen, hread, hcases, hfound⟩
    have hlog' := log_exec o s
    obtain ⟨hword, htakes⟩ := hbeside.silentWords (r := (Machine.exec o s).1)
    refine ⟨hkeeps s old hs, hlog' ▸ hlen, ?_, ?_, ?_⟩
    · rw [transcript_snoc, loopWords, List.filterMap_append, List.filterMap_cons_none hword,
        List.filterMap_nil, List.append_nil]
      exact hread
    · rw [transcript_snoc, takenWords, List.filterMap_append, List.filterMap_cons_none htakes,
        List.filterMap_nil, List.append_nil]
      exact hcases
    · show ReadsSamples _ (Machine.exec o s).2.pdc.log
      rw [transcript_snoc, hlog']
      refine hfound.snoc fun j word ha => ?_
      obtain ⟨rfl, hword⟩ := Sigma.mk.inj ha
      obtain rfl : s.mem (.chVal j) = word := eq_of_heq hword
      refine ⟨Nat.lt_of_lt_of_le j.isLt hlen, ?_, ?_⟩
      · rw [hcases]
        exact hs.samples.chVal j
      · unfold Selected
        rw [hread, hcases]
        exact hselected

/-! ### Runs -/

/-- A silent access is no load of `ch_val`. -/
theorem chVal_of_silent {a : Access α} (ha : a.1.Silent) (j : Fin numChannels) :
    Answered.chVal j (machineDevice.answered a) = none := by
  obtain ⟨o, m⟩ := a
  match o, ha with
  | .load ⟨.temp frame, i⟩, _ =>
      have hne : (⟨.temp frame, i⟩ : Addr) ≠ .chVal j := fun h => by
        exact absurd (Addr.mk.inj h).1 (by simp)
      show (if (⟨.temp frame, i⟩ : Addr) = .chVal j then some (m.mem ⟨.temp frame, i⟩) else none)
        = none
      exact if_neg hne
  | .reload _ _, _ => rfl
  | .declare _, _ => rfl
  | .pdc _, _ => rfl
  | .adcStatus, _ => rfl
  | .save _ _, _ => rfl
  | .daccStatus, _ => rfl
  | .select _, _ => rfl

omit [FloatArith α] in
/-- A complete buffer is two words. -/
theorem two_le_length_log {frames : List Nat} {p : Pdc Addr} (h : Fifo (buffers frames) p)
    (hfull : p.full ≠ []) : 2 ≤ p.log.length := by
  obtain ⟨stores, rest, hcons⟩ := List.exists_cons_of_ne_nil hfull
  obtain ⟨b, hb, start, -, hstores⟩ := h.full_getElem (i := 0) (by simp [hcons])
  have hlength : stores.length = bufferSize := by
    rw [← size_of_mem_buffers (List.mem_of_getElem? hb), ← length_burst p.convs start b.ptr b.size,
      ← hstores]
    simp [hcons]
  have hsize : bufferSize = 2 := rfl
  simp only [Pdc.log, hcons, List.flatten_cons, List.length_append]
  omega

theorem transcript_silent {tr : List (Access α)} (h : ∀ a ∈ tr, a.1.Silent) :
    ∀ a ∈ transcript tr, ∀ j, a.chVal j = none := by
  intro a ha j
  obtain ⟨b, hb, rfl⟩ := List.mem_map.mp ha
  exact chVal_of_silent (h b hb) j

theorem transcript_append (tr tr' : List (Access α)) :
    transcript (tr ++ tr') = transcript tr ++ transcript tr' := List.map_append

/-- The machine between invocations, and all that is past. -/
structure Streaming (fs : List (HandlerReturn α)) (m : Machine α) : Prop where
  asked : Asked fs m
  inTune : InTune (transcript (past fs)) (List.range fs.length) (takenWords (transcript (past fs))) m
  reads : ReadsSamples (transcript (past fs)) m.pdc.log
  loops : Loops (2 * fs.length) (past fs)

namespace Streaming

variable {fs : List (HandlerReturn α)} {m : Machine α}

theorem stable (fs : List (HandlerReturn α)) :
    Machine.Stable fun m : Machine α => Streaming fs m := by
  intro e m h
  have hrunning := Running.stable _ _ _ e m h.inTune.running
  refine ⟨Asked.stable fs e m h.asked, ?_, ?_, h.loops⟩
  · cases e <;> exact ⟨h.inTune.even, hrunning, h.inTune.cdr, h.inTune.filter⟩
  · obtain ⟨later, hlater⟩ := log_prefix_event m e
    show ReadsSamples _ (m.event e).pdc.log
    rw [← hlater]
    exact h.reads.later later

theorem initialized (u : PowerUp) : Streaming [] (Machine.initialized u : Machine α) := by
  refine ⟨Asked.initialized u, ⟨rfl, Running.initialized u, rfl, HoldsFrom.cleared _ _ _⟩, ?_,
    rfl, rfl⟩
  intro before j word after h
  exact absurd h (by simp [transcript, past])

/-- What the first half of an invocation does is not heard. -/
theorem unheard (h : Streaming fs m) {tr : List (Access α)} {s : Machine α}
    (hsilent : ∀ a ∈ tr, a.1.Silent) (hs : Unheard m s) :
    s.cdr = expected α (transcript (past fs ++ tr)) ∧
      ReadsSamples (transcript (past fs ++ tr)) s.pdc.log := by
  have hloaded : Loaded (transcript (past fs)) _ _ := ⟨rfl, rfl⟩
  have heven := h.inTune.even
  have hcdr := h.inTune.cdr.trans (hloaded.expected_even heven)
  obtain ⟨later, hlater⟩ := hs.log
  rw [transcript_append]
  refine ⟨?_, ?_⟩
  · rw [(hloaded.append (transcript_silent hsilent)).expected_even heven, hs.cdr, hcdr]
  · rw [← hlater]
    exact (h.reads.later later).append (transcript_silent hsilent)

/-- It leaves the recursion where it was. -/
theorem inTune_captured (h : Streaming fs m) {tr : List (Access α)} {s : Machine α}
    {frames : List Nat} (hsilent : ∀ a ∈ tr, a.1.Silent) (hs : Unheard m s)
    (hrunning : Running frames (takenWords (transcript (past fs)) ++ wordsTaken tr)
      (lmsAfter (startRegister α) 2048 ((loaded 0 (transcript (past fs))).zip
        (loaded 1 (transcript (past fs))))).2 s) :
    InTune (transcript (past fs ++ tr)) frames (takenWords (transcript (past fs ++ tr))) s := by
  have hloaded : Loaded (transcript (past fs)) _ _ := ⟨rfl, rfl⟩
  have hloaded' := hloaded.append (transcript_silent hsilent)
  have htaken : takenWords (transcript (past fs ++ tr))
      = takenWords (transcript (past fs)) ++ wordsTaken tr := by
    rw [takenWords_transcript, takenWords_transcript, wordsTaken_append]
  have hfilter := h.inTune.filter
  rw [← htaken] at hrunning
  rw [← transcript_append] at hloaded'
  rw [← hs.fxlms] at hfilter
  exact InTune.of_loaded hloaded' h.inTune.even rfl hrunning (h.unheard hsilent hs).1 hfilter

/-- **An invocation goes on with the recursion.** -/
theorem invocation (h : Streaming fs m) (hpending : m.pdc.rxbuff = true)
    (contents : Fin numChannels → UInt16) :
    machineDevice.Sat
      (fun tr _ s => s.cdr <+: expected α (transcript (past fs ++ tr)) ∧
        ReadsSamples (transcript (past fs ++ tr)) s.pdc.log)
      (fun tr a s => Streaming (fs ++ [⟨contents, tr, a, s⟩]) s) (adcHandler contents) [] m := by
  have hcapture := h.asked.captured h.inTune.running hpending contents
  show machineDevice.Sat _ _
    ((HandlerProg.declare contents >>= captureIfFull) >>= fun _ => driveIfReady) [] m
  refine Device.Sat.bind _ (Device.Sat.mono ?_ ?_ _ hcapture)
  · rintro tr _ s ⟨hsilent, hs⟩
    obtain ⟨hwritten, hreads⟩ := h.unheard hsilent hs
    exact ⟨hwritten ▸ List.prefix_rfl, hreads⟩
  · rintro tr _ s ⟨hsilent, hsaw, hloops, hframes, hrunning, hs⟩
    have hreads := (h.unheard hsilent hs).2
    have hinTune := h.inTune_captured hsilent hs hrunning
    have hloops' : Loops (2 * fs.length + 2) (past fs ++ tr) := h.loops.append hloops
    have hselected : Selected (transcript (past fs ++ tr)) :=
      selected_transcript.mpr hloops'.matched
    have hlog : 2 ≤ s.pdc.log.length := by
      refine two_le_length_log hrunning.resting.fifo fun hempty => ?_
      have hahead := hrunning.samples.ahead
      rw [hempty, List.length_range] at hahead
      exact absurd hahead (by simp)
    have hsecond := ((driveIfReady_stream hinTune).and
      (driveIfReady_finds ⟨_, hinTune.running⟩ hlog rfl rfl hselected hreads)).and
      (driveIfReady_running ⟨_, hinTune.running⟩ hframes hsaw)
    refine Device.Sat.mono (fun _ _ _ hG => hG.1) ?_ _ hsecond
    rintro tr' _ s' ⟨⟨hinTune', hwords', htaken', hreads'⟩, hsaw', hframes', hrunning'⟩
    have hpast : past (fs ++ [(⟨contents, tr', (), s'⟩ : HandlerReturn α)]) = past fs ++ tr' := by
      simp [past]
    have hlength : (fs ++ [(⟨contents, tr', (), s'⟩ : HandlerReturn α)]).length = fs.length + 1 :=
      List.length_append
    refine ⟨⟨hframes'.trans hlength.symm, ?_, ?_⟩, ?_, ?_, ?_⟩
    · rw [hlength]
      exact ⟨_, hrunning'⟩
    · exact List.forall_mem_append.mpr ⟨h.asked.saw, List.forall_mem_singleton.mpr hsaw'⟩
    · rw [hpast, hlength, htaken']
      exact hinTune'
    · rw [hpast]
      exact hreads'
    · rw [loopWords_transcript, loopWords_transcript] at hwords'
      rw [takenWords_transcript, takenWords_transcript] at htaken'
      rw [hpast, hlength]
      refine ⟨?_, ?_⟩
      · unfold Matched
        rw [hwords', htaken']
        exact hloops'.matched
      · rw [hwords']
        exact hloops'.length

end Streaming

theorem streaming_machineIrqRun (u : PowerUp)
    (as : List (Action Event (Fin numChannels → UInt16))) :
    Host.Ok (machineHost (α := α)) Streaming
      (fun fs _ tr _ s => s.cdr <+: expected α (transcript (past fs ++ tr)) ∧
        ReadsSamples (transcript (past fs ++ tr)) s.pdc.log) (machineIrqRun u as) :=
  IrqHost.run_ok (h := machineIrq) Streaming.stable
    (fun _ contents _ h hpending => h.invocation hpending contents) as (Streaming.initialized u)

/-- At any moment, and between invocations. -/
theorem machineIrqRun_stream (u : PowerUp)
    (as : List (Action Event (Fin numChannels → UInt16))) :
    let n : Node _ _ (Machine α) _ _ := machineIrqRun u as
    (n.active = none → InTune (transcript n.history) (List.range n.finished.length)
      (takenWords (transcript n.history)) n.state ∧ Loops (2 * n.finished.length) n.history) ∧
    n.state.cdr <+: expected α (transcript n.history) ∧
    ReadsSamples (transcript n.history) n.state.pdc.log := by
  intro n
  have hok := streaming_machineIrqRun (α := α) u as
  rcases hok.moments with ⟨hidle, h⟩ | ⟨contents, tr, a, hactive, h⟩ |
    ⟨contents, tr, o, k, hactive, hwritten, hreads⟩
  · rw [Node.history_idle (n := n) hidle]
    exact ⟨fun _ => ⟨h.inTune, h.loops⟩, h.inTune.cdr ▸ List.prefix_rfl, h.reads⟩
  · have hpast : past (n.finished ++ [⟨contents, tr, a, n.state⟩]) = n.history := by
      rw [Node.history_active (n := n) hactive]
      simp [past]
    rw [← hpast]
    refine ⟨fun hidle => absurd (hidle.symm.trans hactive) (by simp), ?_, h.reads⟩
    exact h.inTune.cdr ▸ List.prefix_rfl
  · rw [Node.history_active (n := n) hactive]
    exact ⟨fun hidle => absurd (hidle.symm.trans hactive) (by simp), hwritten, hreads⟩

end Anc
