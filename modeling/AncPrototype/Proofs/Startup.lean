/-
The start-up code, and why nothing can disturb it.

`initialize_adc` arms the receive channel, enables the interrupt and then, with its last
access, starts the conversions.  Until that access no conversion is taken and the
interrupt stays quiet, because the buffer is not full, so the code runs as it would by
itself.  What it leaves is `Chip.started`: the two converters configured, their clocks
running, and the board that the handler finds.

`Silent` is the state of the chip on the way.  The code keeps it access by access, and
turns on the clock of each converter before the first access to one of its registers.
-/
import AncPrototype.Proofs.Drivers

namespace Anc

open DeviceProgram Register

variable {α : Type}

/-! ### Clocks -/

/-- The peripheral whose clock an access to the register needs. -/
def Reg.peripheral : Reg → Option (BitVec 32)
  | pmcPcer0 | pmcPcdr0 | pmcPcsr0 | pmcPcer1 | pmcPcdr1 | pmcPcsr1 | nvicIser _ => none
  | adcCr | adcMr | adcSeqr1 | adcSeqr2 | adcCher | adcChdr | adcChsr | adcIer | adcIdr | adcImr
  | adcIsr | adcEmr | adcCgr | adcCor => some Driver.idAdc
  | daccCr | daccMr | daccCher | daccChdr | daccChsr | daccCdr | daccIsr | daccAcr =>
      some Driver.idDacc

def ChipOp.peripheral : ChipOp → Option (BitVec 32)
  | read r => r.peripheral
  | write r _ => r.peripheral
  | pdc _ => some Driver.idAdc
  | _ => none

/-- The clock of a peripheral with an identifier below 32 is enabled. -/
def Chip.clocked (c : Chip α) (id : BitVec 32) : Prop := c.pmc.pcsr0.getLsbD id.toNat = true

/-- The access reaches a peripheral that runs. -/
def Clocked (o : ChipOp) (c : Chip α) : Prop := ∀ id, o.peripheral = some id → c.clocked id

/-! ### Before the first conversion -/

/-- The mode register begins no sequence. -/
def AdcMr.Waits (mr : BitVec 32) : Prop := freerun.get mr = 0 ∧ trgen.get mr = 0

instance AdcMr.instDecidableWaits (mr : BitVec 32) : Decidable (Waits mr) :=
  inferInstanceAs (Decidable (_ ∧ _))

/-- No conversion is taken. -/
def Waiting (c : Chip α) : Prop := AdcMr.Waits c.adc.mr ∧ c.oneShot = false

/-- Besides, none waits in the DAC, and no interrupt is raised. -/
structure Silent (c : Chip α) : Prop where
  waiting : Waiting c
  fifo : c.fifo = []
  masked : (c.iser 0).getLsbD Chip.adcIrqn = false ∨
    (c.adc.imr = Firmware.adcIerRxbuff ∧ c.pdc.rxbuff = false)

/-- The access does not read the status of a converter. -/
def ChipOp.FlagFree : ChipOp → Prop
  | read .adcIsr => False
  | read .daccIsr => False
  | _ => True

/-- What the start-up code does, and when. -/
structure Admitted (o : ChipOp) (c : Chip α) : Prop where
  silent : Silent c
  clocked : Clocked o c
  flagFree : o.FlagFree

/-- The same but for the flags. -/
def UpToFlags (s t : Chip α) : Prop := t = { s with adcFlags := t.adcFlags, daccFlags := t.daccFlags }

namespace Silent

variable {c : Chip α}

/-- The interrupt is enabled for `RXBUFF` alone, and the buffer is not full. -/
theorem pending (h : Silent c) : c.pending = false := by
  unfold Chip.pending
  rcases h.masked with hiser | ⟨himr, hrxbuff⟩
  · rw [hiser]
    rfl
  · have hisr : c.adcIsr = (c.adcFlags &&& ~~~adcIsrRxbuff).toBitVec := by
      unfold Chip.adcIsr Machine.adcIsr
      rw [if_neg (by rw [show c.board.machine.pdc = c.pdc from rfl, hrxbuff]; simp)]
      rfl
    have hzero : c.adc.imr &&& c.adcIsr = 0 := by
      rw [himr, hisr, UInt32.toBitVec_and, UInt32.toBitVec_not,
        show Firmware.adcIerRxbuff = adcIsrRxbuff.toBitVec from rfl, BitVec.and_comm,
        BitVec.and_assoc, BitVec.and_comm (~~~_), BitVec.and_not_self]
      exact BitVec.and_zero
    rw [hzero]
    simp

theorem convert (h : Silent c) (data : BitVec 12) : c.convert data = c := by
  obtain ⟨⟨hfreerun, htrgen⟩, honeShot⟩ := h.waiting
  have hself : ¬ c.adc.selfStarting := by
    unfold AdcRegs.selfStarting
    rw [hfreerun, htrgen]
    decide
  have hidle : ¬ c.Converts := by
    rintro (h | ⟨h, -⟩)
    · exact hself h
    · exact absurd (honeShot.symm.trans h) (by decide)
  exact if_neg hidle

theorem dacConvert (h : Silent c) : c.dacConvert = c := by
  unfold Chip.dacConvert
  rw [h.fifo]

end Silent

section

variable [FloatArith α]

/-- **Until the conversions are started, nothing disturbs the code.** -/
theorem firmware_undisturbed (capacity : Nat) :
    (firmware (α := α) capacity).Undisturbed Admitted UpToFlags := by
  refine ⟨fun o e s t ho hE => ?_, fun o s t ho hE => ?_, fun o s t ho hE => ?_⟩
  · have hsilent : Silent t := by rw [hE]; exact ⟨ho.silent.waiting, ho.silent.fifo, ho.silent.masked⟩
    cases e with
    | conversion data =>
        show UpToFlags s (t.convert data)
        rw [hsilent.convert]
        exact hE
    | flags adc dacc =>
        show UpToFlags s { t with adcFlags := adc, daccFlags := dacc }
        rw [hE]
        rfl
    | dacConversion =>
        show UpToFlags s t.dacConvert
        rw [hsilent.dacConvert]
        exact hE
  · have hsilent : Silent t := by rw [hE]; exact ⟨ho.silent.waiting, ho.silent.fifo, ho.silent.masked⟩
    exact hsilent.pending
  · rw [hE]
    have hfree := ho.flagFree
    cases o with
    | read r => cases r <;> first | exact hfree.elim | exact ⟨rfl, rfl⟩
    | write r v =>
        refine ⟨rfl, ?_⟩
        cases r with
        | adcCr =>
            show UpToFlags (if v.getLsbD 0 then _ else _) (if v.getLsbD 0 then _ else _)
            split_ifs <;> rfl
        | daccCr =>
            show UpToFlags (if v.getLsbD 0 then _ else _) (if v.getLsbD 0 then _ else _)
            split_ifs <;> rfl
        | _ => rfl
    | _ => exact ⟨rfl, rfl⟩

/-! ### The code, access by access -/

omit [FloatArith α] in
/-- Setting bits other than `FREERUN` and `TRGEN` does not start the conversions. -/
theorem AdcMr.Waits.or {mr v : BitVec 32} (h : Waits mr) (hv : Waits v) : Waits (mr ||| v) := by
  unfold Waits
  rw [Field.get_or, Field.get_or, h.1, h.2, hv.1, hv.2]
  exact ⟨rfl, rfl⟩

/-- The chip before the receive channel is armed and the interrupt enabled. -/
structure Unarmed (c : Chip α) : Prop where
  waiting : Waiting c
  fifo : c.fifo = []
  disabled : (c.iser 0).getLsbD Chip.adcIrqn = false
  imr : c.adc.imr = 0
  empty : c.pdc.rcr = 0 ∧ c.pdc.rncr = 0

/-- The same with the clock of one peripheral enabled. -/
structure Preparing (id : BitVec 32) (c : Chip α) : Prop extends Unarmed c where
  clocked : c.clocked id

omit [FloatArith α] in
theorem Unarmed.silent {c : Chip α} (h : Unarmed c) : Silent c :=
  ⟨h.waiting, h.fifo, .inl h.disabled⟩

/-- By itself, a part of the code makes admitted accesses only and leaves the chip on the way. -/
def Prepares (α : Type) [FloatArith α] {B : Type} (capacity : Nat) (id : BitVec 32)
    (p : ChipProg B) : Prop :=
  ∀ c : Chip α, Preparing id c →
    (chipDevice capacity).Runs Admitted p c fun _ c' => Preparing id c'

namespace Prepares

variable {B D : Type} {capacity : Nat} {id : BitVec 32}

theorem pure (b : B) : Prepares α capacity id (pure b) := fun _ hc => .ret hc

theorem bind {p : ChipProg D} {f : D → ChipProg B} (hp : Prepares α capacity id p)
    (hf : ∀ d, Prepares α capacity id (f d)) : Prepares α capacity id (p >>= f) := by
  intro c hc
  refine .bind ?_
  obtain ⟨halong, hends⟩ := hp c hc
  exact ⟨halong, hf _ _ hends⟩

theorem read {r : Reg} (hr : r.peripheral = some id) (hfree : (ChipOp.read r).FlagFree) :
    Prepares α capacity id (ChipProg.read r) := by
  intro c hc
  refine .step ⟨hc.silent, ?_, hfree⟩ (.ret hc)
  intro id' hid'
  rw [← Option.some.inj (hr.symm.trans hid')]
  exact hc.clocked

/-- Only `ADC_MR` and `ADC_CR` could start the conversions, and only `DACC_CDR` fills the FIFO. -/
theorem write {r : Reg} (hr : r.peripheral = some id) (hr' : r ∉ [.adcCr, .adcMr, .adcIer, .daccCdr])
    (v : BitVec 32) : Prepares α capacity id (ChipProg.write r v) := by
  intro c hc
  refine .step ⟨hc.silent, ?_, trivial⟩ (.ret ?_)
  · intro id' hid'
    rw [← Option.some.inj (hr.symm.trans hid')]
    exact hc.clocked
  · obtain ⟨⟨hwaiting, hfifo, hdisabled, himr, hempty⟩, hclocked⟩ := hc
    show Preparing id (c.write capacity v r)
    cases r with
    | adcCr | adcMr | adcIer | daccCdr => exact absurd hr' (by decide)
    | adcIdr =>
        have hzero : c.adc.imr &&& ~~~v = 0 := by
          rw [himr]
          exact BitVec.zero_and
        exact ⟨⟨hwaiting, hfifo, hdisabled, hzero, hempty⟩, hclocked⟩
    | daccCr =>
        show Preparing id (if v.getLsbD 0 then _ else _)
        split_ifs
        · exact ⟨⟨hwaiting, rfl, hdisabled, himr, hempty⟩, hclocked⟩
        · exact ⟨⟨hwaiting, hfifo, hdisabled, himr, hempty⟩, hclocked⟩
    | pmcPcer0 | pmcPcdr0 | pmcPcsr0 | pmcPcer1 | pmcPcdr1 | pmcPcsr1 | nvicIser word =>
        exact absurd hr (by simp [Reg.peripheral])
    | _ => exact ⟨⟨hwaiting, hfifo, hdisabled, himr, hempty⟩, hclocked⟩

theorem resetAdc :
    Prepares α capacity Driver.idAdc (ChipProg.write .adcCr Driver.adcCrSwrst) := by
  intro c hc
  refine .step ⟨hc.silent, fun id' hid' => ?_, trivial⟩ (.ret ?_)
  · rw [← Option.some.inj hid']
    exact hc.clocked
  · have hreset : AdcMr.Waits AdcRegs.reset.mr := by decide
    exact ⟨⟨⟨hreset, rfl⟩, hc.fifo, hc.disabled, rfl, hc.empty⟩, hc.clocked⟩

theorem orInto {r : Reg} (hr : r.peripheral = some id) (hfree : (ChipOp.read r).FlagFree)
    (hr' : r ∉ [.adcCr, .adcMr, .adcIer, .daccCdr]) (v : BitVec 32) :
    Prepares α capacity id (ChipProg.orInto r v) :=
  (read hr hfree).bind fun _ => write hr hr' _

theorem andInto {r : Reg} (hr : r.peripheral = some id) (hfree : (ChipOp.read r).FlagFree)
    (hr' : r ∉ [.adcCr, .adcMr, .adcIer, .daccCdr]) (v : BitVec 32) :
    Prepares α capacity id (ChipProg.andInto r v) :=
  (read hr hfree).bind fun _ => write hr hr' _

/-- A write to `ADC_MR` that leaves `FREERUN` and `TRGEN` clear, after a read of it. -/
theorem modifyMr {f : BitVec 32 → BitVec 32}
    (hf : ∀ mr, AdcMr.Waits mr → AdcMr.Waits (f mr)) :
    Prepares α capacity Driver.idAdc
      (ChipProg.read .adcMr >>= fun mr => ChipProg.write .adcMr (f mr)) := by
  intro c hc
  have hclocked : ∀ id', some Driver.idAdc = some id' → c.clocked id' := by
    intro id' hid'
    rw [← Option.some.inj hid']
    exact hc.clocked
  refine .step ⟨hc.silent, hclocked, trivial⟩ (.step ⟨hc.silent, hclocked, trivial⟩ (.ret ?_))
  exact ⟨⟨⟨hf _ hc.waiting.1, hc.waiting.2⟩, hc.fifo, hc.disabled, hc.imr, hc.empty⟩, hc.clocked⟩

theorem orMr {v : BitVec 32} (hv : AdcMr.Waits v) :
    Prepares α capacity Driver.idAdc (ChipProg.orInto .adcMr v) :=
  modifyMr fun _ hmr => hmr.or hv

theorem andMr (v : BitVec 32) : Prepares α capacity Driver.idAdc (ChipProg.andInto .adcMr v) :=
  modifyMr fun mr hmr => by
    unfold AdcMr.Waits
    rw [Field.get_and, Field.get_and, hmr.1, hmr.2]
    exact ⟨BitVec.zero_and, BitVec.zero_and⟩

theorem save (a : Addr) (value : UInt16) : Prepares α capacity id (ChipProg.save a value) := by
  intro c hc
  refine .step ⟨hc.silent, fun _ hid' => absurd hid' (by simp [ChipOp.peripheral]), trivial⟩ ?_
  exact .ret ⟨⟨hc.waiting, hc.fifo, hc.disabled, hc.imr, hc.empty⟩, hc.clocked⟩

end Prepares

/-- Accesses to the receive channel leave the rest of the chip alone. -/
theorem pdc_runs {B : Type} (capacity : Nat) (p : PdcProg Addr B) {c : Chip α}
    (hc : Preparing Driver.idAdc c) :
    (chipDevice capacity).Runs Admitted (ChipProg.pdc p) c fun b c' =>
      (b, c') = ((pdcDevice.alone p c.pdc).1, { c with pdc := (pdcDevice.alone p c.pdc).2 }) := by
  have honly : (ChipProg.pdc p).Only fun o => ∃ o', o = .pdc o' :=
    Prog.Only.embed (fun o => ⟨o, rfl⟩) p
  refine .of_only (J := fun c' => ∃ q, c' = { c with pdc := q }) ?_ ?_ honly ⟨c.pdc, rfl⟩
    fun _ => ChipProg.alone_pdc capacity p c
  · rintro _ _ ⟨o, rfl⟩ ⟨q, rfl⟩
    refine ⟨⟨hc.waiting, hc.fifo, .inl hc.disabled⟩, fun id' hid' => ?_, trivial⟩
    rw [← Option.some.inj hid']
    exact hc.clocked
  · rintro _ _ ⟨o, rfl⟩ ⟨q, rfl⟩
    exact ⟨_, rfl⟩

/-- **Enabling a clock** is what the rest of the code rests on. -/
theorem pmcEnablePeriphClk_runs (capacity : Nat) {id : BitVec 32} (hmin : ¬ id < 2) (hid : id < 32)
    {c : Chip α} (hc : Unarmed c) :
    (chipDevice capacity).Runs Admitted (Driver.pmcEnablePeriphClk id) c
      fun _ c' => Preparing id c' := by
  have hmax : ¬ Driver.maxPeriphId < id := by unfold Driver.maxPeriphId; bv_omega
  have hclock : ∀ r : Reg, r.peripheral = none → ∀ id', r.peripheral = some id' → c.clocked id' :=
    fun r hr id' hid' => absurd (hr.symm.trans hid') (by simp)
  have hclocks : ∀ pmc : PmcRegs, Unarmed { c with pmc := pmc } := fun _ =>
    ⟨hc.waiting, hc.fifo, hc.disabled, hc.imr, hc.empty⟩
  unfold Driver.pmcEnablePeriphClk
  rw [if_neg hmax, if_pos hid]
  refine .step ⟨hc.silent, hclock .pmcPcsr0 rfl, trivial⟩ ?_
  show (chipDevice capacity).Runs Admitted
    (if c.pmc.pcsr0 &&& Driver.periphBit id ≠ Driver.periphBit id then _ else _) c _
  by_cases hset : c.pmc.pcsr0 &&& Driver.periphBit id = Driver.periphBit id
  · rw [if_neg (not_not_intro hset)]
    exact .ret ⟨hc, (and_periphBit_eq_iff hid _).mp hset⟩
  · rw [if_pos hset]
    refine .step ⟨hc.silent, hclock .pmcPcer0 rfl, trivial⟩ (.ret ⟨hclocks _, ?_⟩)
    show (c.write capacity (Driver.periphBit id) .pmcPcer0).pmc.pcsr0.getLsbD id.toNat = true
    rw [write_pmcPcer0 hid, PmcRegs.switch, if_neg (not_not.mpr (hasClock_of_low hmin hid)),
      if_pos hid]
    show (c.pmc.pcsr0 ||| Driver.periphBit id).getLsbD id.toNat = true
    rw [getLsbD_or_periphBit hid]
    simp

/-! ### initialize_dacc -/

namespace Prepares

variable {capacity : Nat}

/-- A driver function on a register of the DAC that holds what is written to it. -/
theorem daccSwitch (f : Field 32) (on : BitVec 32) :
    Prepares α capacity Driver.idDacc (Driver.daccSwitch f on) := by
  unfold Driver.daccSwitch
  split_ifs
  · exact orInto (r := .daccMr) rfl trivial (by decide) _
  · exact andInto (r := .daccMr) rfl trivial (by decide) _

theorem daccSetTransferMode (mode : BitVec 32) :
    Prepares α capacity Driver.idDacc (Driver.daccSetTransferMode mode) :=
  (daccSwitch _ _).bind fun _ => pure _

theorem daccSetPowerSave (sleep fastWakeup : BitVec 32) :
    Prepares α capacity Driver.idDacc (Driver.daccSetPowerSave sleep fastWakeup) :=
  (daccSwitch _ _).bind fun _ => (daccSwitch _ _).bind fun _ => pure _

theorem daccSetTiming (refresh maxs startup : BitVec 32) :
    Prepares α capacity Driver.idDacc (Driver.daccSetTiming refresh maxs startup) :=
  (read (r := .daccMr) rfl trivial).bind fun _ => (write rfl (by decide) _).bind fun _ => pure _

theorem daccSetChannelSelection (channel : BitVec 32) :
    Prepares α capacity Driver.idDacc (Driver.daccSetChannelSelection channel) := by
  refine (read (r := .daccMr) rfl trivial).bind fun _ => ?_
  split_ifs
  · exact pure _
  · exact (write rfl (by decide) _).bind fun _ => pure _

theorem daccEnableChannel (channel : BitVec 32) :
    Prepares α capacity Driver.idDacc (Driver.daccEnableChannel channel) := by
  unfold Driver.daccEnableChannel
  split_ifs
  · exact pure _
  · exact (write rfl (by decide) _).bind fun _ => pure _

theorem daccSetAnalogControl (v : BitVec 32) :
    Prepares α capacity Driver.idDacc (Driver.daccSetAnalogControl v) :=
  (write rfl (by decide) _).bind fun _ => pure _

end Prepares

theorem initializeDacc_runs (capacity : Nat) {c : Chip α} (hc : Unarmed c) :
    (chipDevice capacity).Runs Admitted Firmware.initializeDacc c
      fun _ c' => Preparing Driver.idDacc c' := by
  have hrest : Prepares α capacity Driver.idDacc (do
      Driver.daccReset
      let _ ← Driver.daccSetTransferMode 0x00
      let _ ← Driver.daccSetPowerSave 0x00 0x00
      let _ ← Driver.daccSetTiming 0x08 0x00 0x10
      let _ ← Driver.daccSetChannelSelection 0x00
      let _ ← Driver.daccEnableChannel 0x00
      let _ ← Driver.daccEnableChannel 0x01
      let _ ← Driver.daccSetAnalogControl Firmware.daccAnalogControl) := by
    refine .bind (.write rfl (by decide) _) fun _ => ?_
    refine .bind (.daccSetTransferMode _) fun _ => ?_
    refine .bind (.daccSetPowerSave _ _) fun _ => ?_
    refine .bind (.daccSetTiming _ _ _) fun _ => ?_
    refine .bind (.daccSetChannelSelection _) fun _ => ?_
    refine .bind (.daccEnableChannel _) fun _ => ?_
    refine .bind (.daccEnableChannel _) fun _ => ?_
    exact .bind (.daccSetAnalogControl _) fun _ => .pure _
  refine .bind ?_
  obtain ⟨halong, hends⟩ := pmcEnablePeriphClk_runs capacity
    (show ¬ Driver.idDacc < 2 by decide) (by decide) hc
  exact ⟨halong, hrest _ hends⟩

/-! ### initialize_adc -/

namespace Prepares

variable {capacity : Nat}

/-- A write to `ADC_MR` that leaves `FREERUN` and `TRGEN` clear. -/
theorem writeMr {v : BitVec 32} (hv : AdcMr.Waits v) :
    Prepares α capacity Driver.idAdc (ChipProg.write .adcMr v) := by
  intro c hc
  refine .step ⟨hc.silent, fun id' hid' => ?_, trivial⟩ (.ret ?_)
  · rw [← Option.some.inj hid']
    exact hc.clocked
  · exact ⟨⟨⟨hv, hc.waiting.2⟩, hc.fifo, hc.disabled, hc.imr, hc.empty⟩, hc.clocked⟩

/-- `adc_init` leaves both banks of the receive channel empty. -/
theorem pdcInit : Prepares α capacity Driver.idAdc (ChipProg.pdc Anc.adcInit) := by
  intro c hc
  obtain ⟨halong, hends⟩ := pdc_runs capacity Anc.adcInit hc
  refine ⟨halong, ?_⟩
  rw [(Prod.mk.inj hends).2]
  have hempty : (pdcDevice.alone Anc.adcInit c.pdc).2.rcr = 0 ∧
      (pdcDevice.alone Anc.adcInit c.pdc).2.rncr = 0 := by
    rw [alone_adcInit hc.empty.2]
    exact ⟨rfl, rfl⟩
  exact ⟨⟨hc.waiting, hc.fifo, hc.disabled, hc.imr, hempty⟩, hc.clocked⟩

theorem adcInit (mck adcClock : BitVec 32) (startup : Fin 16) :
    Prepares α capacity Driver.idAdc (Driver.adcInit mck adcClock startup) := by
  have hprescal : AdcMr.Waits (AdcMr.prescal.value (Driver.adcPrescal mck adcClock)) :=
    ⟨Field.get_value_of_apart _ (by decide) _, Field.get_value_of_apart _ (by decide) _⟩
  have hstartup : AdcMr.Waits (Driver.adcStartupTime startup) := by
    revert startup
    decide
  refine .bind resetAdc fun _ => ?_
  refine .bind (writeMr (by decide)) fun _ => ?_
  refine .bind pdcInit fun _ => ?_
  exact .bind (orMr (hprescal.or hstartup)) fun _ => .pure _

theorem enableChannel (i : Driver.AdcChannelNum) :
    Prepares α capacity Driver.idAdc (Firmware.enableChannel i) := by
  refine .bind (write rfl (by decide) _) fun _ => ?_
  refine .bind (orInto (r := .adcCgr) rfl trivial (by decide) _) fun _ => ?_
  refine .bind (read (r := .adcCor) rfl trivial) fun _ => ?_
  refine .bind (andInto (r := .adcCor) rfl trivial (by decide) _) fun _ => ?_
  exact orInto (r := .adcCor) rfl trivial (by decide) _

theorem adcConfigureSequence (chList : Nat → Driver.AdcChannelNum) (num : BitVec 8) :
    Prepares α capacity Driver.idAdc (Driver.adcConfigureSequence chList num) := by
  have hloop : ∀ {r : Reg} (entry : Nat → BitVec 32) (counters : List Nat),
      r.peripheral = some Driver.idAdc → (ChipOp.read r).FlagFree →
      r ∉ [.adcCr, .adcMr, .adcIer, .daccCdr] →
      Prepares α capacity Driver.idAdc
        (counters.forM fun counter => ChipProg.orInto r (entry counter)) := by
    intro r entry counters hr hfree hr'
    induction counters with
    | nil => exact pure _
    | cons counter counters ih => exact (orInto hr hfree hr' _).bind fun _ => ih
  unfold Driver.adcConfigureSequence
  split_ifs
  · exact hloop (r := .adcSeqr1) _ _ rfl trivial (by decide)
  · exact (hloop (r := .adcSeqr1) _ _ rfl trivial (by decide)).bind fun _ =>
      hloop (r := .adcSeqr2) _ _ rfl trivial (by decide)

/-- Such a part first. -/
theorem before {B D : Type} {id : BitVec 32} {p : ChipProg D} {f : D → ChipProg B} {c : Chip α}
    {Q : B → Chip α → Prop} (hp : Prepares α capacity id p) (hc : Preparing id c)
    (hf : ∀ d c', Preparing id c' → (chipDevice capacity).Runs Admitted (f d) c' Q) :
    (chipDevice capacity).Runs Admitted (p >>= f) c Q := by
  obtain ⟨halong, hends⟩ := hp c hc
  exact .bind ⟨halong, hf _ _ hends⟩

end Prepares

/-- The last three calls: the interrupt is enabled in the ADC and in its controller while the buffer
is not full, and the conversions are started. -/
theorem start_runs (capacity : Nat) {c : Chip α} (hc : Preparing Driver.idAdc c) {q : Pdc Addr}
    (hq : q.rxbuff = false) :
    (chipDevice capacity).Runs Admitted (do
      Driver.adcEnableInterrupt Firmware.adcIerRxbuff
      Driver.nvicEnableIrq Chip.adcIrqn
      Driver.adcConfigureTrigger .sw 0x01) { c with pdc := q } fun _ _ => True := by
  have hclock : ∀ id', some Driver.idAdc = some id' → c.clocked id' := by
    intro id' hid'
    rw [← Option.some.inj hid']
    exact hc.clocked
  have hmasked : (c.adc.imr ||| Firmware.adcIerRxbuff) = Firmware.adcIerRxbuff ∧
      q.rxbuff = false := by
    rw [hc.imr]
    exact ⟨BitVec.zero_or, hq⟩
  refine .step ⟨⟨hc.waiting, hc.fifo, .inl hc.disabled⟩, hclock, trivial⟩ ?_
  refine .step ⟨⟨hc.waiting, hc.fifo, .inl hc.disabled⟩, fun _ hid' => ?_, trivial⟩ ?_
  · exact absurd hid' (by simp [ChipOp.peripheral, Reg.peripheral])
  refine .step ⟨⟨hc.waiting, hc.fifo, .inr hmasked⟩, hclock, trivial⟩ ?_
  exact .step ⟨⟨hc.waiting, hc.fifo, .inr hmasked⟩, hclock, trivial⟩ (.ret trivial)

theorem initializeAdc_runs (capacity : Nat) {c : Chip α} (hc : Unarmed c) :
    (chipDevice capacity).Runs Admitted Firmware.initializeAdc c fun _ _ => True := by
  have hmr : ∀ {v : BitVec 32}, AdcMr.Waits v →
    Prepares α capacity Driver.idAdc (ChipProg.orInto .adcMr v) := .orMr
  refine .bind ?_
  obtain ⟨halong, hends⟩ := pmcEnablePeriphClk_runs capacity
    (show ¬ Driver.idAdc < 2 by decide) (by decide) hc
  refine ⟨halong, ?_⟩
  refine Prepares.before (.save _ _) hends fun _ c₁ h₁ => ?_
  refine Prepares.before (.save _ _) h₁ fun _ c₂ h₂ => ?_
  refine Prepares.before (.save _ _) h₂ fun _ c₃ h₃ => ?_
  refine Prepares.before (.save _ _) h₃ fun _ c₄ h₄ => ?_
  refine Prepares.before (.save _ _) h₄ fun _ c₅ h₅ => ?_
  refine Prepares.before (.adcInit _ _ _) h₅ fun _ c₆ h₆ => ?_
  refine Prepares.before (hmr (by decide)) h₆ fun _ c₇ h₇ => ?_
  refine Prepares.before (.orInto (r := .adcEmr) rfl trivial (by decide) _) h₇ fun _ c₈ h₈ => ?_
  refine Prepares.before (.adcConfigureSequence _ _) h₈ fun _ c₉ h₉ => ?_
  refine Prepares.before (hmr (by decide)) h₉ fun _ c₁₀ h₁₀ => ?_
  refine Prepares.before (.enableChannel 0) h₁₀ fun _ c₁₁ h₁₁ => ?_
  refine Prepares.before (.enableChannel 1) h₁₁ fun _ c₁₂ h₁₂ => ?_
  refine Prepares.before (.andMr _) h₁₂ fun _ c₁₃ h₁₃ => ?_
  refine Prepares.before (hmr (by decide)) h₁₃ fun _ c₁₄ h₁₄ => ?_
  refine .bind ?_
  obtain ⟨halong', hends'⟩ := pdc_runs capacity (readAdcBuffer (.chVal 0) bufferSize) h₁₄
  obtain ⟨-, hstate⟩ := Prod.mk.inj hends'
  rw [alone_readAdcBuffer h₁₄.empty.1 h₁₄.empty.2] at hstate
  refine ⟨halong', ?_⟩
  rw [hstate]
  exact start_runs capacity h₁₄ rfl

theorem initializeAnc_runs (capacity : Nat) (u : ChipPowerUp α) :
    (chipDevice capacity).Runs Admitted Firmware.initializeAnc (Chip.reset u) fun _ _ => True := by
  have hwaiting : AdcMr.Waits AdcRegs.reset.mr := by decide
  have hdisabled : (0 : BitVec 32).getLsbD Chip.adcIrqn = false := by decide
  have hreset : Unarmed (Chip.reset u) := ⟨⟨hwaiting, rfl⟩, rfl, hdisabled, rfl, rfl, rfl⟩
  have hfxlms : Unarmed ({ Chip.reset u with fxlms := Anc.initializeAnc } : Chip α) :=
    ⟨hreset.waiting, rfl, hreset.disabled, rfl, hreset.empty⟩
  refine .bind (.step ⟨hreset.silent, fun _ hid' => absurd hid' (by simp [ChipOp.peripheral]),
    trivial⟩ (.ret ?_))
  refine .bind ?_
  obtain ⟨halong, hends⟩ := initializeDacc_runs capacity hfxlms
  exact ⟨halong, initializeAdc_runs capacity hends.toUnarmed⟩

end

end Anc
