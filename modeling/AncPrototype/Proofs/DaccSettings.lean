/-
The driver of the DAC keeps a table of settings.

Behind `dacc.c` are a handful of registers, and one of them, `DACC_MR`, holds ten
settings.  Each call reads it, changes some bits and writes it back.  What the driver is
for is simpler: every call sets the settings it is about, to what it is given as far as
that fits, and leaves all others alone; a channel the converter does not have is an error
and changes nothing; and a word that is written is one data, or two in word transfer mode,
each of which goes to the channel that is selected or, in flexible mode, in its own tag.

`DaccCall.apply` says that of a table, `Chip.daccTable` is the table that the registers
hold, and `dacc_settings_of_calls` keeps the two together over every run of calls, whatever
happens between the accesses.
-/
import AncPrototype.Proofs.Drivers

namespace Anc

open DeviceProgram Register Driver

/-! ### The table -/

/-- The fields of `DACC_MR`. -/
inductive DaccSetting where
  | trgen | trgsel | word | sleep | fastwkup | refresh | userSel | tag | maxs | startup
  deriving DecidableEq

def DaccSetting.field : DaccSetting → Field 32
  | trgen => DaccMr.trgen
  | trgsel => DaccMr.trgsel
  | word => DaccMr.word
  | sleep => DaccMr.sleep
  | fastwkup => DaccMr.fastwkup
  | refresh => DaccMr.refresh
  | userSel => DaccMr.userSel
  | tag => DaccMr.tag
  | maxs => DaccMr.maxs
  | startup => DaccMr.startup

/-- `DACC_MR`. -/
def daccMrLayout : Layout 32 DaccSetting where
  field := DaccSetting.field
  apart m n hne := by cases m <;> cases n <;> first | exact absurd rfl hne | decide

/-- What the converter is set to, and what it has been given. -/
structure DaccTable where
  mode : daccMrLayout.Values
  enabled : Nat → Bool
  analog : BitVec 32
  sent : List (UInt32 × UInt32)

/-- The channel that a data goes to: the one in its tag, or the selected one. -/
def DaccTable.channel (t : DaccTable) (data : BitVec 32) : UInt32 :=
  if t.mode .tag = 1 then ⟨data >>> 12 &&& 3⟩ else ⟨(t.mode .userSel).setWidth 32⟩

/-- What a word is for the converter: its halves in word transfer mode, or itself. -/
def DaccTable.split (t : DaccTable) (word : BitVec 32) : List (UInt32 × UInt32) :=
  let data := if t.mode .word = 1 then [word &&& 0xffff, word >>> 16] else [word]
  data.map fun data => (t.channel data, ⟨data⟩)

/-- The table in the registers. -/
def Chip.daccTable {α : Type} (c : Chip α) : DaccTable where
  mode := daccMrLayout.read c.dacc.mr
  enabled i := c.dacc.chsr.getLsbD i
  analog := c.dacc.acr
  sent := c.cdr

/-! ### Calls -/

inductive DaccCall where
  | reset
  | setTrigger (trigger : BitVec 32)
  | disableTrigger
  | setTransferMode (mode : BitVec 32)
  | setPowerSave (sleepMode fastWakeupMode : BitVec 32)
  | setTiming (refresh maxs startup : BitVec 32)
  | setChannelSelection (channel : BitVec 32)
  | enableFlexibleSelection
  | enableChannel (channel : BitVec 32)
  | disableChannel (channel : BitVec 32)
  | setAnalogControl (analogControl : BitVec 32)
  | getAnalogControl
  | writeConversionData (data : BitVec 32)

namespace DaccCall

def prog : DaccCall → ChipProg (Option (BitVec 32))
  | reset => daccReset.void
  | setTrigger trigger => (daccSetTrigger trigger).returning
  | disableTrigger => daccDisableTrigger.void
  | setTransferMode mode => (daccSetTransferMode mode).returning
  | setPowerSave sleepMode fastWakeupMode =>
      (daccSetPowerSave sleepMode fastWakeupMode).returning
  | setTiming refresh maxs startup => (daccSetTiming refresh maxs startup).returning
  | setChannelSelection channel => (daccSetChannelSelection channel).returning
  | enableFlexibleSelection => daccEnableFlexibleSelection.void
  | enableChannel channel => (daccEnableChannel channel).returning
  | disableChannel channel => (daccDisableChannel channel).returning
  | setAnalogControl analogControl => (daccSetAnalogControl analogControl).returning
  | getAnalogControl => daccGetAnalogControl.returning
  | writeConversionData data => (daccWriteConversionData data).void

/-- What a call sets in the mode register, in order. -/
def settings : DaccCall → List (DaccSetting × BitVec 32)
  | setTrigger trigger => [(.trgen, 1), (.trgsel, trigger)]
  | disableTrigger => [(.trgen, 0)]
  | setTransferMode mode => [(.word, if mode ≠ 0 then 1 else 0)]
  | setPowerSave sleepMode fastWakeupMode =>
      [(.sleep, if sleepMode ≠ 0 then 1 else 0), (.fastwkup, if fastWakeupMode ≠ 0 then 1 else 0)]
  | setTiming refresh maxs startup =>
      [(.refresh, refresh), (.maxs, if maxs ≠ 0 then 1 else 0), (.startup, startup)]
  | setChannelSelection channel => if maxChNb < channel then [] else [(.tag, 0), (.userSel, channel)]
  | enableFlexibleSelection => [(.tag, 1)]
  | _ => []

/-- The table after a call. -/
def apply (call : DaccCall) (t : DaccTable) : DaccTable :=
  match call with
  | reset => { t with mode := fun _ => 0, enabled := fun _ => false, analog := 0 }
  | enableChannel channel =>
      if maxChNb < channel then t
      else { t with enabled := Function.update t.enabled channel.toNat true }
  | disableChannel channel =>
      if maxChNb < channel then t
      else { t with enabled := Function.update t.enabled channel.toNat false }
  | setAnalogControl analogControl => { t with analog := analogControl }
  | writeConversionData data => { t with sent := t.sent ++ t.split data }
  | call => { t with mode := call.settings.foldl (fun vs s => daccMrLayout.set vs s.1 s.2) t.mode }

/-- What a call answers. -/
def answer (call : DaccCall) (t : DaccTable) : Option (BitVec 32) :=
  match call with
  | setChannelSelection channel | enableChannel channel | disableChannel channel =>
      some (if maxChNb < channel then daccRcInvalidParam else daccRcOk)
  | getAnalogControl => some t.analog
  | reset | disableTrigger | enableFlexibleSelection | writeConversionData _ => none
  | _ => some daccRcOk

end DaccCall

/-- What the driver is for. -/
def daccSpec : SeqSpec DaccCall (Option (BitVec 32)) DaccTable where
  answer := DaccCall.answer
  after := DaccCall.apply

/-! ### What the calls write -/

/-- The channels that there are. -/
theorem eq_of_not_maxChNb_lt {channel : BitVec 32} (h : ¬ maxChNb < channel) :
    channel = 0 ∨ channel = 1 := by
  unfold maxChNb at h
  bv_omega

theorem getLsbD_enable_channel (r : BitVec 32) {channel : BitVec 32} (h : ¬ maxChNb < channel)
    (i : Nat) :
    (r ||| 1#32 <<< channel.toNat &&& 3).getLsbD i
      = Function.update (fun i => r.getLsbD i) channel.toNat true i := by
  have hbit : 1#32 <<< channel.toNat &&& 3 = BitVec.twoPow 32 channel.toNat := by
    obtain rfl | rfl := eq_of_not_maxChNb_lt h
    · decide
    · decide
  have hlt : channel.toNat < 32 := by
    obtain rfl | rfl := eq_of_not_maxChNb_lt h
    · decide
    · decide
  rw [hbit, BitVec.getLsbD_or, BitVec.getLsbD_twoPow, Function.update_apply]
  by_cases hi : i = channel.toNat
  · simp [hi, hlt]
  · simp [hi, Ne.symm hi]

theorem getLsbD_disable_channel (r channel : BitVec 32) (i : Nat) :
    (r &&& ~~~(1#32 <<< channel.toNat)).getLsbD i
      = Function.update (fun i => r.getLsbD i) channel.toNat false i := by
  rw [← BitVec.twoPow_eq, BitVec.getLsbD_and, BitVec.getLsbD_not, BitVec.getLsbD_twoPow,
    Function.update_apply]
  by_cases hi : i = channel.toNat
  · by_cases hlt : channel.toNat < 32
    · simp [hi, hlt]
    · simp [hi, hlt, BitVec.getLsbD_of_ge r channel.toNat (Nat.not_lt.mp hlt)]
  · by_cases hlt : i < 32
    · simp [hi, Ne.symm hi, hlt]
    · simp [hi, hlt, BitVec.getLsbD_of_ge r i (Nat.not_lt.mp hlt)]

namespace DaccMr

theorem read_setTrigger (r trigger : BitVec 32) :
    daccMrLayout.read (r &&& ~~~trgsel.mask ||| trgen.mask ||| trgsel.value trigger)
      = daccMrLayout.set (daccMrLayout.set (daccMrLayout.read r) .trgen 1) .trgsel trigger := by
  have hinsert : r &&& ~~~trgsel.mask ||| trgen.mask ||| trgsel.value trigger
      = trgsel.insert (r ||| trgen.mask) trigger := by
    unfold Field.insert
    rw [Field.clear_or, trgen.mask_eq_value, Field.clear_value_of_apart _ (by decide)]
    rfl
  have hset : daccMrLayout.read (r ||| trgen.mask)
      = daccMrLayout.set (daccMrLayout.read r) .trgen 1 :=
    daccMrLayout.read_or_mask (n := .trgen) rfl r
  rw [hinsert, ← hset]
  exact daccMrLayout.read_insert _ _ .trgsel

theorem read_setTiming (r refresh' startup' : BitVec 32) (P : Prop) [Decidable P] :
    daccMrLayout.read
        (let mr := r &&& ~~~(refresh.mask ||| startup.mask)
          let mr := mr ||| refresh.value refresh'
          let mr := if P then mr ||| maxs.mask else mr &&& ~~~maxs.mask
          mr ||| startup.mask &&& startup' <<< 24)
      = daccMrLayout.set (daccMrLayout.set (daccMrLayout.set (daccMrLayout.read r)
          .refresh refresh') .maxs (if P then 1 else 0)) .startup startup' := by
  have hboth : r &&& ~~~(refresh.mask ||| startup.mask) ||| refresh.value refresh'
      = startup.clear (refresh.insert r refresh') := by
    unfold Field.insert
    rw [Field.clear_or, Field.clear_value_of_apart _ (by decide), BitVec.not_or, ← BitVec.and_assoc]
    rfl
  have hinsert : (if P then startup.clear (refresh.insert r refresh') ||| maxs.mask
        else startup.clear (refresh.insert r refresh') &&& ~~~maxs.mask) |||
          startup.mask &&& startup' <<< 24
      = startup.insert (if P then refresh.insert r refresh' ||| maxs.mask
          else refresh.insert r refresh' &&& ~~~maxs.mask) startup' := by
    unfold Field.insert
    split_ifs
    · rw [Field.clear_or _ _ maxs.mask, maxs.mask_eq_value,
        Field.clear_value_of_apart _ (by decide)]
      rfl
    · unfold Field.clear
      rw [BitVec.and_assoc _ (~~~startup.mask), BitVec.and_comm (~~~startup.mask),
        ← BitVec.and_assoc]
      rfl
  have hrefresh : daccMrLayout.read (refresh.insert r refresh')
      = daccMrLayout.set (daccMrLayout.read r) .refresh refresh' :=
    daccMrLayout.read_insert _ _ .refresh
  simp only [hboth, hinsert]
  rw [← hrefresh, ← daccMrLayout.read_switch (n := .maxs) rfl]
  exact daccMrLayout.read_insert _ _ .startup

/-- A channel that there is fits into its field. -/
theorem read_setChannelSelection (r : BitVec 32) {channel : BitVec 32} (h : ¬ maxChNb < channel) :
    daccMrLayout.read (r &&& ~~~userSel.mask &&& ~~~tag.mask ||| channel <<< 16)
      = daccMrLayout.set (daccMrLayout.set (daccMrLayout.read r) .tag 0) .userSel channel := by
  have hfits : channel <<< 16 = userSel.value channel := by
    obtain rfl | rfl := eq_of_not_maxChNb_lt h
    · decide
    · decide
  have hinsert : r &&& ~~~userSel.mask &&& ~~~tag.mask ||| channel <<< 16
      = userSel.insert (r &&& ~~~tag.mask) channel := by
    unfold Field.insert Field.clear
    rw [hfits, BitVec.and_assoc, BitVec.and_comm (~~~userSel.mask), ← BitVec.and_assoc]
  have hset : daccMrLayout.read (r &&& ~~~tag.mask)
      = daccMrLayout.set (daccMrLayout.read r) .tag 0 := daccMrLayout.read_and_not_mask r .tag
  rw [hinsert, ← hset]
  exact daccMrLayout.read_insert _ _ .userSel

end DaccMr

/-! ### One call -/

section

variable {α : Type}

/-- The mode register is behind the modes and nothing else. -/
theorem daccTable_of_mr {c c' : Chip α} {mr : BitVec 32} {mode : daccMrLayout.Values}
    (hc : c' = { c with dacc.mr := mr }) (hmode : daccMrLayout.read mr = mode) :
    c'.daccTable = { c.daccTable with mode := mode } := by
  rw [hc, ← hmode]
  rfl

/-- And the channel status behind the channels. -/
theorem daccTable_of_chsr {c c' : Chip α} {chsr : BitVec 32} {enabled : Nat → Bool}
    (hc : c' = { c with dacc.chsr := chsr }) (henabled : ∀ i, chsr.getLsbD i = enabled i) :
    c'.daccTable = { c.daccTable with enabled := enabled } := by
  rw [hc, ← funext henabled]
  rfl

variable [FloatArith α] (capacity : Nat)

variable {capacity} in
/-- The table after a function with a result. -/
theorem daccTable_returning {p : ChipProg (BitVec 32)} {c c' : Chip α} {r : BitVec 32}
    {t : DaccTable} (halone : (chipDevice capacity).alone p c = (r, c')) (ht : c'.daccTable = t) :
    ((chipDevice capacity).alone p.returning c).1 = some r ∧
      ((chipDevice capacity).alone p.returning c).2.daccTable = t := by
  rw [ChipProg.alone_returning, halone]
  exact ⟨rfl, ht⟩

/-- **By itself, a call is one on the table.** -/
theorem DaccCall.alone_prog (call : DaccCall) (c : Chip α) :
    ((chipDevice capacity).alone call.prog c).1 = call.answer c.daccTable ∧
      ((chipDevice capacity).alone call.prog c).2.daccTable = call.apply c.daccTable := by
  cases call with
  | reset =>
      refine ⟨rfl, ?_⟩
      have hmode : daccMrLayout.read 0 = fun _ => 0 := by
        funext n
        exact BitVec.extractLsb'_zero
      have henabled : (fun i => (0#32).getLsbD i) = fun _ => false := by
        funext i
        exact BitVec.getLsbD_zero
      show DaccTable.mk (daccMrLayout.read 0) (fun i => (0#32).getLsbD i) 0 c.cdr = _
      rw [hmode, henabled]
      rfl
  | setTrigger trigger => exact ⟨rfl, daccTable_of_mr rfl (DaccMr.read_setTrigger _ trigger)⟩
  | disableTrigger => exact ⟨rfl, daccTable_of_mr rfl (daccMrLayout.read_and_not_mask _ .trgen)⟩
  | setTransferMode mode =>
      refine daccTable_returning (Device.alone_bind ..) ?_
      rw [alone_daccSwitch]
      exact daccTable_of_mr rfl (daccMrLayout.read_switch (n := .word) rfl _ _)
  | setPowerSave sleepMode fastWakeupMode =>
      refine daccTable_returning (alone_daccSetPowerSave capacity c _ _) ?_
      refine daccTable_of_mr rfl ((daccMrLayout.read_switch (n := .fastwkup) rfl _ _).trans ?_)
      exact congrArg (daccMrLayout.set · .fastwkup _)
        (daccMrLayout.read_switch (n := .sleep) rfl _ _)
  | setTiming refresh maxs startup =>
      exact ⟨rfl, daccTable_of_mr rfl (DaccMr.read_setTiming _ refresh startup (maxs ≠ 0))⟩
  | setChannelSelection channel =>
      refine daccTable_returning (alone_daccSetChannelSelection capacity c channel)
        (daccTable_of_mr rfl ?_)
      by_cases h : maxChNb < channel
      · simp only [settings, if_pos h, List.foldl_nil]
        rfl
      · simp only [settings, if_neg h, List.foldl_cons, List.foldl_nil]
        exact DaccMr.read_setChannelSelection _ h
  | enableFlexibleSelection =>
      exact ⟨rfl, daccTable_of_mr rfl (daccMrLayout.read_or_mask (n := .tag) rfl _)⟩
  | enableChannel channel =>
      refine daccTable_returning (alone_daccEnableChannel capacity c channel) ?_
      by_cases h : maxChNb < channel
      · simp only [apply, if_pos h]
      · simp only [apply, if_neg h]
        exact daccTable_of_chsr rfl (getLsbD_enable_channel _ h)
  | disableChannel channel =>
      refine daccTable_returning (alone_daccDisableChannel capacity c channel) ?_
      by_cases h : maxChNb < channel
      · simp only [apply, if_pos h]
      · simp only [apply, if_neg h]
        exact daccTable_of_chsr rfl (getLsbD_disable_channel _ _)
  | setAnalogControl analogControl => exact ⟨rfl, rfl⟩
  | getAnalogControl => exact ⟨rfl, rfl⟩
  | writeConversionData data => exact ⟨rfl, rfl⟩

/-! ### Events -/

/-- The accesses of the calls. -/
def DaccCall.Accesses : ChipOp → Prop
  | .read r => r = .daccMr ∨ r = .daccAcr
  | .write .. => True
  | _ => False

/-- The same settings, and the same words sent. -/
def SameSettings (c c' : Chip α) : Prop := c'.dacc = c.dacc ∧ c'.cdr = c.cdr

omit [FloatArith α] in
theorem SameSettings.daccTable {c c' : Chip α} (h : SameSettings c c') :
    c'.daccTable = c.daccTable := by
  unfold Chip.daccTable
  rw [h.1, h.2]

omit [FloatArith α] in
/-- Only accesses send words. -/
theorem cdr_event (c : Chip α) (e : ChipEvent) : (c.event e).cdr = c.cdr := by
  cases e with
  | conversion data =>
      show (c.convert data).cdr = c.cdr
      obtain ⟨heq, -⟩ | ⟨number, word, -, -, -, heq⟩ := c.convert_cases data <;> rw [heq]
  | flags adc dacc => rfl
  | dacConversion =>
      show c.dacConvert.cdr = c.cdr
      obtain ⟨-, heq⟩ | ⟨word, fifo, -, heq⟩ := c.dacConvert_cases <;> rw [heq]

theorem stable_sameSettings (c : Chip α) : (chipDevice capacity).Stable (SameSettings c) := by
  intro e c' h
  exact ⟨(congrArg Setup.dacc (c'.setup_event e)).trans h.1, (cdr_event c' e).trans h.2⟩

theorem sameSettings_exec {o : ChipOp} (ho : DaccCall.Accesses o) {c c' : Chip α}
    (h : SameSettings c c') :
    ((chipDevice capacity).exec o c').1 = ((chipDevice capacity).exec o c).1 ∧
      SameSettings ((chipDevice capacity).exec o c).2 ((chipDevice capacity).exec o c').2 := by
  obtain ⟨hdacc, hcdr⟩ := h
  cases o with
  | read r =>
      refine ⟨?_, hdacc, hcdr⟩
      show c'.read capacity r = c.read capacity r
      rcases ho with rfl | rfl
      · exact congrArg DaccRegs.mr hdacc
      · exact congrArg DaccRegs.acr hdacc
  | write r value =>
      refine ⟨rfl, ?_⟩
      show (c'.write capacity value r).dacc = (c.write capacity value r).dacc ∧
        (c'.write capacity value r).cdr = (c.write capacity value r).cdr
      cases r <;> simp only [Chip.write, Chip.push, Chip.daccWords, Chip.daccChannel, hdacc,
        hcdr, and_self]
      all_goals split_ifs <;> simp only [hdacc, hcdr, and_self]
  | _ => exact absurd ho (by simp [DaccCall.Accesses])

theorem only_orInto (value : BitVec 32) :
    (ChipProg.orInto .daccMr value).Only DaccCall.Accesses :=
  ⟨.inl rfl, fun _ => ⟨trivial, fun _ => trivial⟩⟩

theorem only_andInto (value : BitVec 32) :
    (ChipProg.andInto .daccMr value).Only DaccCall.Accesses :=
  ⟨.inl rfl, fun _ => ⟨trivial, fun _ => trivial⟩⟩

theorem only_daccSwitch (f : Field 32) (on : BitVec 32) :
    (daccSwitch f on).Only DaccCall.Accesses := by
  unfold daccSwitch
  split_ifs
  · exact only_orInto _
  · exact only_andInto _

theorem only_write (r : Reg) (value : BitVec 32) {P : Prop} [Decidable P] (a b : BitVec 32) :
    (if P then pure a else ChipProg.write r value >>= fun _ => pure b : ChipProg (BitVec 32)).Only
      DaccCall.Accesses := by
  split_ifs
  · trivial
  · exact ⟨trivial, fun _ => trivial⟩

/-- Every access of a call is one of these. -/
theorem DaccCall.only_prog (call : DaccCall) : call.prog.Only DaccCall.Accesses := by
  cases call with
  | reset => exact ⟨trivial, fun _ => trivial⟩
  | setTrigger trigger => exact ⟨.inl rfl, fun _ => ⟨trivial, fun _ => trivial⟩⟩
  | disableTrigger => exact ChipProg.only_void (only_andInto _)
  | setTransferMode mode =>
      exact ChipProg.only_returning (Prog.Only.bind (f := fun _ => pure daccRcOk) (fun _ => trivial)
        (only_daccSwitch _ mode))
  | setPowerSave sleepMode fastWakeupMode =>
      refine ChipProg.only_returning (Prog.Only.bind (fun _ => ?_) (only_daccSwitch _ sleepMode))
      exact Prog.Only.bind (f := fun _ => pure daccRcOk) (fun _ => trivial)
        (only_daccSwitch _ fastWakeupMode)
  | setTiming refresh maxs startup => exact ⟨.inl rfl, fun _ => ⟨trivial, fun _ => trivial⟩⟩
  | setChannelSelection channel => exact ChipProg.only_returning ⟨.inl rfl, fun _ => only_write ..⟩
  | enableFlexibleSelection => exact ChipProg.only_void (only_orInto _)
  | enableChannel channel => exact ChipProg.only_returning (only_write ..)
  | disableChannel channel => exact ChipProg.only_returning (only_write ..)
  | setAnalogControl analogControl => exact ⟨trivial, fun _ => trivial⟩
  | getAnalogControl => exact ⟨.inr rfl, fun _ => trivial⟩
  | writeConversionData data => exact ⟨trivial, fun _ => trivial⟩

/-! ### Calls one after the other -/

/-- The chip and calls of the driver of the DAC. -/
def daccHost : Host ChipOp ChipOp.Resp (Chip α) ChipEvent DaccCall (Option (BitVec 32)) where
  toDevice := chipDevice capacity
  prog := DaccCall.prog

theorem daccSpec_met :
    daccSpec.Met (daccHost (α := α) capacity) (fun t c => c.daccTable = t) fun _ _ _ => True where
  stable t e c hc := (stable_sameSettings capacity c e c ⟨rfl, rfl⟩).daccTable.trans hc
  call call t c hc := by
    obtain rfl := hc
    obtain ⟨hanswer, htable⟩ := call.alone_prog capacity c
    refine Device.Sat.mono (fun _ _ _ _ => trivial) (fun _ a u hQ => ?_) _
      (Device.Sat.of_alone (stable_sameSettings capacity)
        (fun o c c' ho h => sameSettings_exec capacity ho h) (Device.Along.of_only call.only_prog)
        (⟨rfl, rfl⟩ : SameSettings c c))
    exact ⟨hQ.1.trans hanswer, hQ.2.daccTable.trans htable⟩
  returning _ _ _ _ := trivial

/-- **The driver keeps a table of settings**: over every run of calls and events, each call answers
as it does on the table, and between calls the registers hold what the calls have made of it. -/
theorem dacc_settings_of_calls (c : Chip α) (as : List (Action ChipEvent DaccCall)) :
    let n := (daccHost capacity).run (Host.start c) as
    let all := daccSpec.all c.daccTable (n.finished.map Finished.call)
    n.finished.map Finished.result = all.1 ∧ (n.active = none → n.state.daccTable = all.2) := by
  intro n all
  obtain ⟨hidle, hactive⟩ := (daccSpec_met capacity).run (s := c) rfl as
  refine ⟨?_, fun hn => (hidle hn).state⟩
  cases hn : n.active with
  | none => exact (hidle hn).answers
  | some p => exact (hactive p hn).answers

end

end Anc
