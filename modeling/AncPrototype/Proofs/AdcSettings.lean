/-
The driver of the ADC adds to what is set.

Where `dacc.c` replaces a setting, `adc.c` mostly ors the new value into the old one:
what has been set stays set until the converter is reset.  For the trigger, the timing,
the sequence and the gain that means that a second call adds to the first; for the
channel inputs it means that disabling an offset or a differential input does nothing at
all, since the bits that are cleared are or-ed back in; and `adc_set_resolution` shifts
its argument out of the mask and never sets anything.

`AdcCall.apply` says all that of a table, and `adc_settings_of_calls` connects it with
the registers, over every run of calls and whatever is converted meanwhile.
-/
import AncPrototype.Library.SeqSpec
import AncPrototype.Proofs.Drivers

namespace Anc

open DeviceProgram Register Driver

/-! ### The table -/

/-- The fields of `ADC_MR`. -/
inductive AdcSetting where
  | trgen | trgsel | lowres | sleep | fwup | freerun | prescal | startup | settling | anach
  | tracktim | transfer | useq
  deriving DecidableEq

def AdcSetting.field : AdcSetting → Field 32
  | trgen => AdcMr.trgen
  | trgsel => AdcMr.trgsel
  | lowres => AdcMr.lowres
  | sleep => AdcMr.sleep
  | fwup => AdcMr.fwup
  | freerun => AdcMr.freerun
  | prescal => AdcMr.prescal
  | startup => AdcMr.startup
  | settling => AdcMr.settling
  | anach => AdcMr.anach
  | tracktim => AdcMr.tracktim
  | transfer => AdcMr.transfer
  | useq => AdcMr.useq

/-- `ADC_MR`. -/
def adcMrLayout : Layout 32 AdcSetting where
  field := AdcSetting.field
  apart m n hne := by cases m <;> cases n <;> first | exact absurd rfl hne | decide

/-- `USCHx` of a sequence register. -/
def adcSeqrLayout : Layout 32 (Fin 8) where
  field := usch
  apart m n hne := by simp only [Field.Apart, usch]; omega

/-- `GAINx` of `ADC_CGR`. -/
def adcCgrLayout : Layout 32 (Fin 16) where
  field i := ⟨2 * i, 2, by omega⟩
  apart m n hne := by simp only [Field.Apart]; omega

/-- What the converter is set to. -/
structure AdcTable where
  mode : adcMrLayout.Values
  /-- The channels behind the numbers from 0 on, and from 8 on. -/
  sequence1 : adcSeqrLayout.Values
  sequence2 : adcSeqrLayout.Values
  numbers : Fin 16 → Bool
  tag : BitVec 1
  gain : adcCgrLayout.Values
  offset : Fin 16 → Bool
  differential : Fin 16 → Bool
  sources : BitVec 32

/-- The table in the registers. -/
def AdcRegs.table (r : AdcRegs) : AdcTable where
  mode := adcMrLayout.read r.mr
  sequence1 := adcSeqrLayout.read r.seqr1
  sequence2 := adcSeqrLayout.read r.seqr2
  numbers i := r.chsr.getLsbD i
  tag := adcEmrTag.get r.emr
  gain := adcCgrLayout.read r.cgr
  offset i := r.cor.getLsbD i
  differential i := r.cor.getLsbD (16 + i)
  sources := r.imr

/-- Bits added to the mode register. -/
def AdcTable.add (t : AdcTable) (values : List (AdcSetting × BitVec 32)) : AdcTable :=
  { t with mode := values.foldl (fun vs s => adcMrLayout.add vs s.1 s.2) t.mode }

/-- The converter out of reset. -/
def AdcTable.reset : AdcTable :=
  { mode := fun _ => 0, sequence1 := fun _ => 0, sequence2 := fun _ => 0,
    numbers := fun _ => false, tag := 0, gain := fun _ => 0, offset := fun _ => false,
    differential := fun _ => false, sources := 0 }

/-! ### Calls -/

inductive AdcCall where
  | init (mck adcClock : BitVec 32) (startup : Fin 16)
  | setResolution (resolution : AdcResolution)
  | configureTrigger (trigger : AdcTrigger) (freerun : BitVec 8)
  | configurePowerSave (sleep fwup : BitVec 8)
  | configureSequence (chList : Nat → AdcChannelNum) (num : Fin 17)
  | configureTiming (tracking : BitVec 8) (settling : Fin 4) (transfer : BitVec 8)
  | enableAnch
  | disableAnch
  | start
  | stop
  | enableChannel (ch : AdcChannelNum)
  | enableAllChannel
  | disableChannel (ch : AdcChannelNum)
  | disableAllChannel
  | enableTag
  | disableTag
  | startSequencer
  | stopSequencer
  | enableChannelDifferentialInput (channel : AdcChannelNum)
  | disableChannelDifferentialInput (channel : AdcChannelNum)
  | enableChannelInputOffset (channel : AdcChannelNum)
  | disableChannelInputOffset (channel : AdcChannelNum)
  | setChannelInputGain (channel : AdcChannelNum) (gain : Fin 4)
  | getActualAdcClock (mck : BitVec 32)
  | enableInterrupt (source : BitVec 32)
  | disableInterrupt (source : BitVec 32)

namespace AdcCall

/-- A call and its result, if it has one. -/
def prog : AdcCall → ChipProg (Option (BitVec 32))
  | init mck adcClock startup => (Driver.adcInit mck adcClock startup).returning
  | setResolution resolution => (adcSetResolution resolution).void
  | configureTrigger trigger freerun => (adcConfigureTrigger trigger freerun).void
  | configurePowerSave sleep fwup => (adcConfigurePowerSave sleep fwup).void
  | configureSequence chList num =>
      (adcConfigureSequence chList (BitVec.ofNat 8 num)).void
  | configureTiming tracking settling transfer =>
      (adcConfigureTiming tracking settling transfer).void
  | enableAnch => adcEnableAnch.void
  | disableAnch => adcDisableAnch.void
  | start => adcStart.void
  | stop => adcStop.void
  | enableChannel ch => (adcEnableChannel ch).void
  | enableAllChannel => adcEnableAllChannel.void
  | disableChannel ch => (adcDisableChannel ch).void
  | disableAllChannel => adcDisableAllChannel.void
  | enableTag => adcEnableTag.void
  | disableTag => adcDisableTag.void
  | startSequencer => adcStartSequencer.void
  | stopSequencer => adcStopSequencer.void
  | enableChannelDifferentialInput channel =>
      (adcEnableChannelDifferentialInput channel).void
  | disableChannelDifferentialInput channel =>
      (adcDisableChannelDifferentialInput channel).void
  | enableChannelInputOffset channel => (adcEnableChannelInputOffset channel).void
  | disableChannelInputOffset channel => (adcDisableChannelInputOffset channel).void
  | setChannelInputGain channel gain => (adcSetChannelInputGain channel gain).void
  | getActualAdcClock mck => (adcGetActualAdcClock mck).returning
  | enableInterrupt source => (adcEnableInterrupt source).void
  | disableInterrupt source => (adcDisableInterrupt source).void

end AdcCall

/-- The trigger is enabled, and which one it is. -/
def Driver.AdcTrigger.fields : AdcTrigger → BitVec 32 × BitVec 32
  | .sw => (0, 0)
  | .ext => (1, 0)
  | .tioCh channel => (1, BitVec.ofNat 32 (1 + channel))
  | .pwmEventLine line => (1, BitVec.ofNat 32 (4 + line))

namespace AdcCall

/-- The first `num` channels of a list, added to a sequence register. -/
def addSequence (vs : adcSeqrLayout.Values) (chList : Nat → AdcChannelNum) (num : Nat) :
    adcSeqrLayout.Values :=
  fun i => vs i ||| (if i.val < num then BitVec.ofNat 32 (chList i) else 0).setWidth _

/-- The table after a call. -/
def apply (call : AdcCall) (t : AdcTable) : AdcTable :=
  match call with
  | init mck adcClock startup =>
      AdcTable.reset.add
        [(.prescal, adcPrescal mck adcClock), (.startup, BitVec.ofNat 32 startup)]
  | setResolution _ => t
  | configureTrigger trigger freerun =>
      t.add [(.trgen, trigger.fields.1), (.trgsel, trigger.fields.2),
        (.freerun, freerun.setWidth 32)]
  | configurePowerSave sleep fwup =>
      t.add [(.sleep, sleep.setWidth 32), (.fwup, fwup.setWidth 32)]
  | configureSequence chList num =>
      { t with
        sequence1 := addSequence t.sequence1 chList num
        sequence2 := addSequence t.sequence2 chList (num - 8) }
  | configureTiming tracking settling transfer =>
      t.add [(.transfer, transfer.setWidth 32), (.settling, BitVec.ofNat 32 settling),
        (.tracktim, tracking.setWidth 32)]
  | enableAnch => t.add [(.anach, 1)]
  | disableAnch => { t with mode := adcMrLayout.set t.mode .anach 0 }
  | start => t
  | stop => AdcTable.reset
  | enableChannel ch => { t with numbers := Function.update t.numbers ch true }
  | enableAllChannel => { t with numbers := fun _ => true }
  | disableChannel ch => { t with numbers := Function.update t.numbers ch false }
  | disableAllChannel => { t with numbers := fun _ => false }
  | enableTag => { t with tag := 1 }
  | disableTag => { t with tag := 0 }
  | startSequencer => t.add [(.useq, 1)]
  | stopSequencer => { t with mode := adcMrLayout.set t.mode .useq 0 }
  | enableChannelDifferentialInput channel =>
      { t with differential := Function.update t.differential channel true }
  | disableChannelDifferentialInput _ => t
  | enableChannelInputOffset channel =>
      { t with offset := Function.update t.offset channel true }
  | disableChannelInputOffset _ => t
  | setChannelInputGain channel gain =>
      { t with gain := adcCgrLayout.add t.gain channel (BitVec.ofNat 32 gain) }
  | getActualAdcClock _ => t
  | enableInterrupt source => { t with sources := t.sources ||| source }
  | disableInterrupt source => { t with sources := t.sources &&& ~~~source }

/-- What a call answers. -/
def answer (call : AdcCall) (t : AdcTable) : Option (BitVec 32) :=
  match call with
  | init _ _ _ => some 0
  | getActualAdcClock mck => some (mck / (((t.mode .prescal).setWidth 32 + 1) * 2))
  | _ => none

end AdcCall

/-- What the driver does to the settings. -/
def adcSpec : SeqSpec AdcCall (Option (BitVec 32)) AdcTable where
  answer := AdcCall.answer
  after := AdcCall.apply

/-! ### What the calls write -/

theorem table_reset : AdcRegs.reset.table = AdcTable.reset := by
  have hzero : ∀ {N : Type} (l : Layout 32 N), l.read 0 = fun _ => 0 :=
    fun l => funext fun n => (l.field n).get_zero
  have hbit : ∀ i, (0 : BitVec 32).getLsbD i = false := fun i => BitVec.getLsbD_zero
  unfold AdcRegs.table AdcTable.reset AdcRegs.reset
  simp only [hzero, hbit, adcEmrTag.get_zero]
  rfl

/-- The mode register is behind the modes and nothing else. -/
theorem table_of_mr {r r' : AdcRegs} {mr : BitVec 32} {mode : adcMrLayout.Values}
    (hr : r' = { r with mr := mr }) (hmode : adcMrLayout.read mr = mode) :
    r'.table = { r.table with mode := mode } := by
  rw [hr, ← hmode]
  rfl

/-- One bit of sixteen. -/
theorem getLsbD_or_bit_at {k : Fin 16 → Nat} (hk : Function.Injective k) {ch : Fin 16}
    (hlt : k ch < 32) (r : BitVec 32) (i : Fin 16) :
    (r ||| 1#32 <<< k ch).getLsbD (k i)
      = Function.update (fun i => r.getLsbD (k i)) ch true i := by
  rw [getLsbD_or_bit hlt, Function.update_apply]
  by_cases hi : i = ch
  · simp [hi]
  · simp [hi, hk.ne hi]

/-- And the channel status behind the numbers. -/
theorem table_of_chsr {r r' : AdcRegs} {chsr : BitVec 32} {numbers : Fin 16 → Bool}
    (hr : r' = { r with chsr := chsr }) (hnumbers : ∀ i : Fin 16, chsr.getLsbD i = numbers i) :
    r'.table = { r.table with numbers := numbers } := by
  rw [hr, ← funext hnumbers]
  rfl

theorem table_of_seqr {r r' : AdcRegs} {seqr1 seqr2 : BitVec 32}
    {sequence1 sequence2 : adcSeqrLayout.Values}
    (hr : r' = { r with seqr1 := seqr1, seqr2 := seqr2 })
    (h1 : adcSeqrLayout.read seqr1 = sequence1) (h2 : adcSeqrLayout.read seqr2 = sequence2) :
    r'.table = { r.table with sequence1 := sequence1, sequence2 := sequence2 } := by
  rw [hr, ← h1, ← h2]
  rfl

theorem table_of_emr {r r' : AdcRegs} {emr : BitVec 32} {tag : BitVec 1}
    (hr : r' = { r with emr := emr }) (htag : adcEmrTag.get emr = tag) :
    r'.table = { r.table with tag := tag } := by
  rw [hr, ← htag]
  rfl

theorem table_of_cgr {r r' : AdcRegs} {cgr : BitVec 32} {gain : adcCgrLayout.Values}
    (hr : r' = { r with cgr := cgr }) (hgain : adcCgrLayout.read cgr = gain) :
    r'.table = { r.table with gain := gain } := by
  rw [hr, ← hgain]
  rfl

theorem table_of_cor {r r' : AdcRegs} {cor : BitVec 32} {offset differential : Fin 16 → Bool}
    (hr : r' = { r with cor := cor }) (hoffset : ∀ i : Fin 16, cor.getLsbD i = offset i)
    (hdifferential : ∀ i : Fin 16, cor.getLsbD (16 + i) = differential i) :
    r'.table = { r.table with offset := offset, differential := differential } := by
  rw [hr, ← funext hoffset, ← funext hdifferential]
  rfl

theorem Driver.AdcTrigger.value_eq (trigger : AdcTrigger) :
    trigger.value
      = AdcMr.trgen.value trigger.fields.1 ||| AdcMr.trgsel.value trigger.fields.2 := by
  cases trigger with
  | sw => decide
  | ext => decide
  | tioCh channel => revert channel; decide
  | pwmEventLine line => revert line; decide

theorem adcStartupTime_eq (n : Fin 16) :
    adcStartupTime n = AdcMr.startup.value (BitVec.ofNat 32 n) := by
  revert n
  decide

theorem adcSettlingTime_eq (n : Fin 4) :
    adcSettlingTime n = AdcMr.settling.value (BitVec.ofNat 32 n) := by
  revert n
  decide

/-- The shift takes the resolution out of the mask. -/
theorem resolution_masked (resolution : AdcResolution) :
    resolution.value <<< 4 &&& 1#32 <<< 4 = 0 := by
  cases resolution with
  | bits10 => decide
  | bits12 => decide

/-- An entry of the sequence is in its place and nowhere else. -/
theorem get_sequenceEntry (chList : Nat → AdcChannelNum) (i : Fin 8) (k : Nat) :
    (usch i).get (sequenceEntry chList k)
      = (if i.val = k then BitVec.ofNat 32 (chList k) else 0).setWidth (usch i).width := by
  refine BitVec.eq_of_getLsbD_eq fun j hj => ?_
  have hj3 : j < 3 := hj
  have hi := i.isLt
  unfold sequenceEntry
  rw [Field.getLsbD_get, BitVec.getLsbD_shiftLeft, BitVec.getLsbD_setWidth]
  show (decide (j < 3) && (decide (4 * i.val + j < 32) && !decide (4 * i.val + j < 4 * k) &&
    (BitVec.ofNat 32 (chList k)).getLsbD (4 * i.val + j - 4 * k))) = _
  by_cases heq : i.val = k
  · subst heq
    simp [hj, hj3, show 4 * i.val + j < 32 by omega]
  · rw [if_neg heq]
    by_cases hlt : i.val < k
    · simp [show 4 * i.val + j < 4 * k by omega]
    · -- above the entry, and a channel has four bits
      have habove : 4 ≤ 4 * i.val + j - 4 * k := by omega
      have hsmall : (chList k).val < 2 ^ (4 * i.val + j - 4 * k) :=
        (chList k).isLt.trans_le (Nat.pow_le_pow_right (n := 2) (by decide) habove)
      simp [BitVec.getLsbD_ofNat, Nat.testBit_lt_two_pow hsmall]

theorem read_sequence (chList : Nat → AdcChannelNum) (r : BitVec 32) (num : Nat) :
    adcSeqrLayout.read ((List.range num).foldl (fun x k => x ||| sequenceEntry chList k) r)
      = AdcCall.addSequence (adcSeqrLayout.read r) chList num := by
  induction num with
  | zero =>
      funext i
      simp [AdcCall.addSequence]
  | succ num ih =>
      rw [List.range_succ, List.foldl_append, List.foldl_cons, List.foldl_nil]
      funext i
      have hi := congrFun ih i
      show (usch i).get (_ ||| sequenceEntry chList num) = (usch i).get r |||
        (if i.val < num + 1 then BitVec.ofNat 32 (chList i) else 0).setWidth (usch i).width
      rw [Field.get_or, get_sequenceEntry, show (usch i).get _ = _ from hi]
      show (usch i).get r |||
        (if i.val < num then BitVec.ofNat 32 (chList i) else 0).setWidth (usch i).width ||| _ = _
      by_cases heq : i.val = num
      · subst heq
        simp
      · by_cases hlt : i.val < num
        · simp [heq, hlt, show i.val < num + 1 by omega]
        · simp [heq, hlt, show ¬ i.val < num + 1 by omega]

/-! ### One call -/

section

variable {α : Type} [FloatArith α] (capacity : Nat)

/-- A call of a function without a result, which makes `r` of the registers. -/
theorem adcTable_void {p : ChipProg Unit} {c : Chip α} {r : AdcRegs} {t : AdcTable}
    (halone : ((chipDevice capacity).alone p c).2.adc = r) (ht : r.table = t) :
    ((chipDevice capacity).alone p.void c).1 = none ∧
      ((chipDevice capacity).alone p.void c).2.adc.table = t := by
  rw [ChipProg.alone_void, halone]
  exact ⟨rfl, ht⟩

/-- Bits or-ed into the mode register. -/
theorem table_orMode {r : AdcRegs} {v : BitVec 32} (values : List (AdcSetting × BitVec 32))
    (h : r.mr ||| v = values.foldl (fun x s => x ||| (adcMrLayout.field s.1).value s.2) r.mr) :
    { r with mr := r.mr ||| v }.table = r.table.add values := by
  rw [h]
  exact table_of_mr rfl (adcMrLayout.read_or_values values r.mr)

/-- **By itself, a call is one on the table.** -/
theorem AdcCall.alone_prog (call : AdcCall) (c : Chip α) :
    ((chipDevice capacity).alone call.prog c).1 = call.answer c.adc.table ∧
      ((chipDevice capacity).alone call.prog c).2.adc.table = call.apply c.adc.table := by
  cases call with
  | init mck adcClock startup =>
      refine ⟨rfl, ?_⟩
      have hmode := table_orMode (r := AdcRegs.reset)
        (v := AdcMr.prescal.value (adcPrescal mck adcClock) ||| adcStartupTime startup)
        [(.prescal, adcPrescal mck adcClock), (.startup, BitVec.ofNat 32 startup)]
        (by rw [adcStartupTime_eq, ← BitVec.or_assoc]; rfl)
      rw [table_reset] at hmode
      exact hmode
  | setResolution resolution =>
      refine adcTable_void capacity (r := { c.adc with mr := c.adc.mr ||| _ }) rfl ?_
      rw [resolution_masked]
      exact table_orMode [] (by simp)
  | configureTrigger trigger freerun =>
      refine adcTable_void capacity (r := { c.adc with mr := c.adc.mr ||| _ }) rfl
        (table_orMode [_, _, _] ?_)
      rw [trigger.value_eq, BitVec.and_comm]
      simp only [← BitVec.or_assoc]
      rfl
  | configurePowerSave sleep fwup =>
      refine adcTable_void capacity (r := { c.adc with mr := c.adc.mr ||| _ }) rfl
        (table_orMode [_, _] ?_)
      rw [BitVec.and_comm (sleep.setWidth 32 <<< 5), BitVec.and_comm (fwup.setWidth 32 <<< 6),
        ← BitVec.or_assoc]
      rfl
  | configureSequence chList num =>
      refine adcTable_void capacity
        (congrArg (fun out => out.2.adc) (alone_adcConfigureSequence capacity c chList _)) ?_
      have hnum : (BitVec.ofNat 8 num).toNat = num := Nat.mod_eq_of_lt (by omega)
      rw [hnum]
      refine table_of_seqr rfl ?_ (read_sequence chList _ _)
      rw [read_sequence]
      funext i
      have hmin : i.val < min num.val 8 ↔ i.val < num.val := by omega
      simp only [addSequence, hmin]
      rfl
  | configureTiming tracking settling transfer =>
      refine adcTable_void capacity (r := { c.adc with mr := c.adc.mr ||| _ }) rfl
        (table_orMode [_, _, _] ?_)
      rw [adcSettlingTime_eq]
      simp only [← BitVec.or_assoc]
      rfl
  | enableAnch =>
      refine adcTable_void capacity (r := { c.adc with mr := c.adc.mr ||| _ }) rfl
        (table_orMode [_] ?_)
      rw [show AdcMr.anach.mask = AdcMr.anach.value 1 by decide]
      rfl
  | disableAnch =>
      exact adcTable_void capacity rfl (table_of_mr rfl (adcMrLayout.read_and_not_mask _ .anach))
  | start => exact ⟨rfl, rfl⟩
  | stop => exact adcTable_void capacity rfl table_reset
  | enableChannel ch =>
      refine adcTable_void capacity rfl (table_of_chsr rfl fun i => ?_)
      have hmask : 1#32 <<< ch.val &&& 0xffff = 1#32 <<< ch.val := by
        revert ch
        decide
      show (c.adc.chsr ||| 1#32 <<< ch.val &&& 0xffff).getLsbD i
        = Function.update (fun i : Fin 16 => c.adc.chsr.getLsbD i) ch true i
      rw [hmask]
      exact getLsbD_or_bit_at (fun _ _ h => Fin.ext h) (by omega) c.adc.chsr i
  | enableAllChannel =>
      refine adcTable_void capacity rfl (table_of_chsr rfl fun i => ?_)
      have hbit : (0xffff &&& 0xffff : BitVec 32).getLsbD i = true := by
        revert i
        decide
      rw [BitVec.getLsbD_or, hbit, Bool.or_true]
  | disableChannel ch =>
      refine adcTable_void capacity rfl (table_of_chsr rfl fun i => ?_)
      show (c.adc.chsr &&& ~~~(1#32 <<< ch.val)).getLsbD i
        = Function.update (fun i : Fin 16 => c.adc.chsr.getLsbD i) ch false i
      rw [getLsbD_and_not_bit, Function.update_apply]
      by_cases hi : i = ch
      · simp [hi]
      · simp [hi, Fin.val_ne_of_ne hi]
  | disableAllChannel =>
      refine adcTable_void capacity rfl (table_of_chsr rfl fun i => ?_)
      have hbit : (~~~0xffff : BitVec 32).getLsbD i = false := by
        revert i
        decide
      rw [BitVec.getLsbD_and, hbit, Bool.and_false]
  | enableTag =>
      refine adcTable_void capacity rfl (table_of_emr rfl ?_)
      show adcEmrTag.get (c.adc.emr ||| adcEmrTag.mask) = 1
      rw [Field.get_or, Field.get_mask_self, BitVec.or_allOnes]
      rfl
  | disableTag =>
      exact adcTable_void capacity rfl (table_of_emr rfl (adcEmrTag.get_clear_self c.adc.emr))
  | startSequencer =>
      refine adcTable_void capacity (r := { c.adc with mr := c.adc.mr ||| _ }) rfl
        (table_orMode [_] ?_)
      rw [show AdcMr.useq.mask = AdcMr.useq.value 1 by decide]
      rfl
  | stopSequencer =>
      exact adcTable_void capacity rfl (table_of_mr rfl (adcMrLayout.read_and_not_mask _ .useq))
  | enableChannelDifferentialInput channel =>
      refine adcTable_void capacity rfl (table_of_cor rfl (fun i => ?_) fun i => ?_)
      · show (c.adc.cor ||| 1#32 <<< (16 + channel.val)).getLsbD i = c.adc.cor.getLsbD i
        rw [getLsbD_or_bit (by omega)]
        simp [show ¬ i.val = 16 + channel.val by omega]
      · have hk : Function.Injective fun i : Fin 16 => 16 + i.val :=
          fun i j hij => Fin.ext (Nat.add_left_cancel hij)
        exact getLsbD_or_bit_at hk (by omega) c.adc.cor i
  | disableChannelDifferentialInput channel =>
      refine adcTable_void capacity (r := { c.adc with cor := c.adc.cor &&& _ ||| c.adc.cor }) rfl ?_
      rw [and_or_self]
      rfl
  | enableChannelInputOffset channel =>
      refine adcTable_void capacity rfl (table_of_cor rfl (fun i => ?_) fun i => ?_)
      · exact getLsbD_or_bit_at (fun _ _ h => Fin.ext h) (by omega) c.adc.cor i
      · show (c.adc.cor ||| 1#32 <<< channel.val).getLsbD (16 + i) = c.adc.cor.getLsbD (16 + i)
        rw [getLsbD_or_bit (by omega)]
        simp [show ¬ 16 + i.val = channel.val by omega]
  | disableChannelInputOffset channel =>
      refine adcTable_void capacity (r := { c.adc with cor := c.adc.cor &&& _ ||| c.adc.cor }) rfl ?_
      rw [and_or_self]
      rfl
  | setChannelInputGain channel gain =>
      exact adcTable_void capacity rfl (table_of_cgr rfl (adcCgrLayout.read_or_value _ _ channel))
  | getActualAdcClock mck =>
      refine ⟨?_, rfl⟩
      show some (mck / (((c.adc.mr &&& AdcMr.prescal.mask) >>> AdcMr.prescal.pos + 1) * 2)) = _
      rw [Field.and_mask_shift]
      rfl
  | enableInterrupt source => exact ⟨rfl, rfl⟩
  | disableInterrupt source => exact ⟨rfl, rfl⟩

/-! ### Events -/

/-- The accesses of the calls. -/
def AdcCall.Accesses : ChipOp → Prop
  | .read r => r ∈ [Reg.adcMr, .adcSeqr1, .adcSeqr2, .adcEmr, .adcCgr, .adcCor]
  | .write .. => True
  | .pdc (.writePtcr _) | .pdc (.writeRcr _) | .pdc (.writeRncr _) => True
  | _ => False

/-- The same settings, and no sequence under way that would not be there. -/
structure SameAdc (c c' : Chip α) : Prop where
  adc : c'.adc = c.adc
  oneShot : c'.oneShot = true → c.oneShot = true

omit [FloatArith α] in
/-- Only an access starts a sequence. -/
theorem oneShot_event (c : Chip α) (e : ChipEvent) (h : (c.event e).oneShot = true) :
    c.oneShot = true := by
  cases e with
  | conversion data =>
      have hconvert : (c.convert data).oneShot = true := h
      obtain ⟨heq, -⟩ | ⟨number, word, -, -, -, heq⟩ := c.convert_cases data
      · rwa [heq] at hconvert
      · rw [heq] at hconvert
        exact (Bool.and_eq_true_iff.mp hconvert).1
  | flags adc dacc => exact h
  | dacConversion =>
      have hconvert : c.dacConvert.oneShot = true := h
      obtain ⟨-, heq⟩ | ⟨word, fifo, -, heq⟩ := c.dacConvert_cases <;> rwa [heq] at hconvert

theorem stable_sameAdc (c : Chip α) : (chipDevice capacity).Stable (SameAdc c) :=
  fun e c' h => ⟨(congrArg Setup.adc (c'.setup_event e)).trans h.adc,
    fun honeShot => h.oneShot (oneShot_event c' e honeShot)⟩

theorem sameAdc_exec {o : ChipOp} (ho : AdcCall.Accesses o) {c c' : Chip α} (h : SameAdc c c') :
    ((chipDevice capacity).exec o c').1 = ((chipDevice capacity).exec o c).1 ∧
      SameAdc ((chipDevice capacity).exec o c).2 ((chipDevice capacity).exec o c').2 := by
  obtain ⟨hadc, honeShot⟩ := h
  cases o with
  | read r =>
      refine ⟨?_, hadc, honeShot⟩
      show c'.read capacity r = c.read capacity r
      simp only [AdcCall.Accesses, List.mem_cons, List.not_mem_nil, or_false] at ho
      rcases ho with rfl | rfl | rfl | rfl | rfl | rfl <;> simp only [Chip.read, hadc]
  | write r value =>
      refine ⟨rfl, ?_⟩
      show SameAdc (c.write capacity value r) (c'.write capacity value r)
      cases r with
      | adcCr =>
          show SameAdc (if value.getLsbD 0 then _ else if value.getLsbD 1 then _ else _)
            (if value.getLsbD 0 then _ else if value.getLsbD 1 then _ else _)
          by_cases hreset : value.getLsbD 0 = true
          · rw [if_pos hreset, if_pos hreset]
            exact ⟨rfl, id⟩
          rw [if_neg hreset, if_neg hreset]
          by_cases hstart : value.getLsbD 1 = true
          · rw [if_pos hstart, if_pos hstart]
            exact ⟨hadc, id⟩
          · rw [if_neg hstart, if_neg hstart]
            exact ⟨hadc, honeShot⟩
      | daccCr =>
          show SameAdc (if value.getLsbD 0 then _ else _) (if value.getLsbD 0 then _ else _)
          split_ifs <;> exact ⟨hadc, honeShot⟩
      | _ => exact ⟨by simp only [Chip.write, Chip.push, hadc], honeShot⟩
  | pdc o => cases o <;> first | exact ⟨rfl, hadc, honeShot⟩ | exact absurd ho id
  | _ => exact absurd ho id

theorem only_orIntoAdc {r : Reg} (hr : AdcCall.Accesses (.read r)) (value : BitVec 32) :
    (ChipProg.orInto r value).Only AdcCall.Accesses :=
  ⟨hr, fun _ => ⟨trivial, fun _ => trivial⟩⟩

theorem only_andIntoAdc {r : Reg} (hr : AdcCall.Accesses (.read r)) (value : BitVec 32) :
    (ChipProg.andInto r value).Only AdcCall.Accesses :=
  ⟨hr, fun _ => ⟨trivial, fun _ => trivial⟩⟩

theorem only_orAll {r : Reg} (hr : AdcCall.Accesses (.read r)) (entry : Nat → BitVec 32)
    (counters : List Nat) :
    (counters.forM fun counter => ChipProg.orInto r (entry counter)).Only AdcCall.Accesses := by
  induction counters with
  | nil => trivial
  | cons counter counters ih => exact Prog.Only.bind (fun _ => ih) (only_orIntoAdc hr _)

/-- Every access of a call is one of these. -/
theorem AdcCall.only_prog (call : AdcCall) : call.prog.Only AdcCall.Accesses := by
  cases call with
  | init mck adcClock startup =>
      refine ChipProg.only_returning ⟨trivial, fun _ => ⟨trivial, fun _ => ⟨trivial, fun _ =>
        ⟨trivial, fun _ => ⟨trivial, fun _ => ?_⟩⟩⟩⟩⟩
      exact Prog.Only.bind (f := fun _ => pure 0) (fun _ => trivial)
        (only_orIntoAdc (by simp [Accesses]) _)
  | configureSequence chList num =>
      refine ChipProg.only_void ?_
      unfold adcConfigureSequence
      split_ifs
      · exact only_orAll (by simp [Accesses]) _ _
      · exact Prog.Only.bind (fun _ => only_orAll (by simp [Accesses]) _ _)
          (only_orAll (by simp [Accesses]) _ _)
  | disableChannelDifferentialInput channel =>
      refine ChipProg.only_void ⟨by simp [Accesses], fun _ => ?_⟩
      exact Prog.Only.bind (fun _ => only_orIntoAdc (by simp [Accesses]) _)
        (only_andIntoAdc (by simp [Accesses]) _)
  | disableChannelInputOffset channel =>
      refine ChipProg.only_void ⟨by simp [Accesses], fun _ => ?_⟩
      exact Prog.Only.bind (fun _ => only_orIntoAdc (by simp [Accesses]) _)
        (only_andIntoAdc (by simp [Accesses]) _)
  | getActualAdcClock mck =>
      exact ChipProg.only_returning ⟨by simp [Accesses], fun _ => trivial⟩
  | disableAnch => exact ChipProg.only_void (only_andIntoAdc (by simp [Accesses]) _)
  | stopSequencer => exact ChipProg.only_void (only_andIntoAdc (by simp [Accesses]) _)
  | disableTag => exact ChipProg.only_void (only_andIntoAdc (by simp [Accesses]) _)
  | start => exact ⟨trivial, fun _ => trivial⟩
  | stop => exact ⟨trivial, fun _ => trivial⟩
  | enableChannel ch => exact ⟨trivial, fun _ => trivial⟩
  | enableAllChannel => exact ⟨trivial, fun _ => trivial⟩
  | disableChannel ch => exact ⟨trivial, fun _ => trivial⟩
  | disableAllChannel => exact ⟨trivial, fun _ => trivial⟩
  | enableInterrupt source => exact ⟨trivial, fun _ => trivial⟩
  | disableInterrupt source => exact ⟨trivial, fun _ => trivial⟩
  | _ => exact ChipProg.only_void (only_orIntoAdc (by simp [Accesses]) _)

/-! ### Calls one after the other -/

/-- The chip and calls of the driver of the ADC. -/
def adcHost : Host ChipOp ChipOp.Resp (Chip α) ChipEvent AdcCall (Option (BitVec 32)) where
  toDevice := chipDevice capacity
  prog := AdcCall.prog

/-- A call does what it does by itself, and of a sequence that it starts some may be over. -/
theorem AdcCall.sat_prog (call : AdcCall) (c : Chip α) :
    (chipDevice capacity).Sat (fun _ _ _ => True)
      (fun _ a u => a = ((chipDevice capacity).alone call.prog c).1 ∧
        SameAdc ((chipDevice capacity).alone call.prog c).2 u) call.prog [] c :=
  Device.Sat.mono (fun _ _ _ _ => trivial) (fun _ _ _ hQ => hQ) _
    (Device.Sat.of_alone (R := fun o _ => AdcCall.Accesses o) (stable_sameAdc capacity)
      (fun _ _ _ ho h => sameAdc_exec capacity ho h) (Device.Along.of_only call.only_prog)
      ⟨rfl, id⟩)

theorem adcSpec_met :
    adcSpec.Met (adcHost (α := α) capacity) (fun t c => c.adc.table = t) fun _ _ _ => True where
  stable t := stable_setup capacity fun s => s.adc.table = t
  call call t c hc := by
    obtain rfl := hc
    obtain ⟨hanswer, htable⟩ := call.alone_prog capacity c
    refine Device.Sat.mono (fun _ _ _ _ => trivial) (fun _ a u hQ => ?_) _ (call.sat_prog capacity c)
    refine ⟨hQ.1.trans hanswer, ?_⟩
    rw [hQ.2.adc]
    exact htable
  returning _ _ _ _ := trivial

/-- **The driver adds to a table of settings**: over every run of calls and events, each call
answers as it does on the table, and between calls the registers hold what the calls have made of
it. -/
theorem adc_settings_of_calls (c : Chip α) (as : List (Action ChipEvent AdcCall)) :
    let n := (adcHost capacity).run (Host.start c) as
    let all := adcSpec.all c.adc.table (n.finished.map Finished.call)
    n.finished.map Finished.result = all.1 ∧ (n.active = none → n.state.adc.table = all.2) := by
  intro n all
  obtain ⟨hidle, hactive⟩ := (adcSpec_met capacity).run (s := c) rfl as
  refine ⟨?_, fun hn => (hidle hn).state⟩
  cases hn : n.active with
  | none => exact (hidle hn).answers
  | some p => exact (hactive p hn).answers

end

end Anc
