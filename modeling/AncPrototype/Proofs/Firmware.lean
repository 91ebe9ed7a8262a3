/-
The firmware is the board.

What `initialize_anc` leaves is `Chip.started`, with every register given.  From there
on `Configured` holds: no access of the handler and no event changes a register that has
been set up, but for `USER_SEL`.  In a chip that is configured, the sequencer takes
channels 4 and 5 in turn and tags their words, the interrupt asks for the handler when
`RXBUFF` does, and a word written to `DACC_CDR` goes to the selected channel.

So every driver call of the handler does on the chip what the board's access does, and a
run of the firmware is, once the start-up code has ended, a run of the board
(`firmware_refines_board`).  The board is one that starts with channel 4.
-/
import AncPrototype.Proofs.Handler
import AncPrototype.Proofs.Startup

namespace Anc

open DeviceProgram Register

variable {α : Type}

/-! ### What the start-up code leaves -/

def DaccRegs.configured : DaccRegs := { mr := 0x10000800, chsr := 3, acr := 0x10a }

def AdcRegs.configured : AdcRegs :=
  { mr := 0x91340880, seqr1 := 0x54, seqr2 := 0, chsr := 3, imr := 0x10000000, emr := 0x01000000,
    cgr := 0, cor := 0 }

/-- What the board finds at its start. -/
def ChipPowerUp.powerUp (u : ChipPowerUp α) : PowerUp :=
  { rpr := u.rpr, rnpr := u.rnpr, channel := .channel4, adcFlags := u.adcFlags,
    daccIsr := u.daccFlags, mem := u.mem }

section

variable [FloatArith α] (capacity : Nat)

/-- The chip after `initialize_anc`. -/
def Chip.started (u : ChipPowerUp α) : Chip α :=
  { pmc := (u.pmc.switch Driver.idDacc true).switch Driver.idAdc true
    iser := Function.update (fun _ => 0) 0 (1#32 <<< 29)
    adc := .configured
    position := 0
    oneShot := false
    adcFlags := u.adcFlags
    pdc := { Pdc.reset u.rpr u.rnpr with rpr := .chVal 0, rcr := bufferSize, rxten := true }
    dacc := .configured
    daccFlags := u.daccFlags
    cdr := []
    fifo := []
    converted := []
    mem := Function.update (Function.update (Function.update (Function.update
      (Function.update u.mem (.chVal 0) 0) (.chVal 1) 0) .done 0) .old 0) .old 2048
    frames := 0
    fxlms := initializeAnc }

theorem alone_initializeDacc (c : Chip α) :
    (chipDevice capacity).alone Firmware.initializeDacc c
      = ((), { c with pmc := c.pmc.switch Driver.idDacc true, dacc := .configured, fifo := [] }) := by
  simp only [Firmware.initializeDacc, Device.alone_bind, Driver.alone_daccReset,
    Driver.daccSetTransferMode, Driver.alone_daccSwitch, Driver.daccSetPowerSave,
    Driver.alone_daccSetTiming, Driver.alone_daccSetChannelSelection,
    Driver.alone_daccEnableChannel, Driver.daccSetAnalogControl, ChipProg.alone_write,
    Driver.alone_pmcEnablePeriphClk capacity (show Driver.idDacc < 32 by decide),
    ChipProg.alone_pure, Chip.write, DaccRegs.reset]
  rfl

theorem alone_initializeAdc (c : Chip α) (hrncr : c.pdc.rncr = 0) :
    (chipDevice capacity).alone Firmware.initializeAdc c
      = ((), { c with
          pmc := c.pmc.switch Driver.idAdc true
          iser := Function.update c.iser 0 (c.iser 0 ||| 1#32 <<< 29)
          adc := .configured
          position := 0
          oneShot := false
          pdc := { c.pdc with rpr := .chVal 0, rcr := bufferSize, rncr := 0, rxten := true }
          mem := Function.update (Function.update (Function.update (Function.update
            (Function.update c.mem (.chVal 0) 0) (.chVal 1) 0) .done 0) .old 0) .old 2048 }) := by
  simp only [Firmware.initializeAdc, Device.alone_bind, ChipProg.alone_save, Driver.alone_adcInit,
    Driver.alone_pmcEnablePeriphClk capacity (show Driver.idAdc < 32 by decide), hrncr,
    Driver.adcConfigureTiming, Driver.adcEnableTag, Driver.alone_adcConfigureSequence,
    Driver.adcStartSequencer, Driver.alone_enableChannel, Driver.adcDisableAnch,
    Driver.adcConfigurePowerSave, ChipProg.alone_orInto, ChipProg.alone_andInto,
    ChipProg.alone_pdc, alone_readAdcBuffer, Driver.adcEnableInterrupt, Driver.nvicEnableIrq,
    Driver.adcConfigureTrigger, ChipProg.alone_write, Chip.read, Chip.write, AdcRegs.reset]
  simp only [Prod.mk.injEq, Chip.mk.injEq, true_and, and_true]
  refine ⟨rfl, ?_, rfl⟩
  decide

/-- **What the start-up code does by itself.** -/
theorem alone_initializeAnc (u : ChipPowerUp α) :
    (chipDevice capacity).alone Firmware.initializeAnc (Chip.reset u) = ((), Chip.started u) := by
  have hiser : (0 : BitVec 32) ||| 1#32 <<< 29 = 1#32 <<< 29 := BitVec.zero_or
  simp only [Firmware.initializeAnc, Device.alone_bind, ChipProg.alone_initFxlms,
    alone_initializeDacc]
  rw [alone_initializeAdc capacity _ rfl]
  simp only [Chip.reset, Chip.started, Pdc.reset, hiser]

theorem board_started (u : ChipPowerUp α) :
    (Chip.started u).board = Board.initialized u.powerUp := by
  have hchannel : (Chip.started u).channel = .channel4 := by
    show (if (AdcRegs.configured.nextNumber 0).map AdcRegs.configured.channelAt = some 5 then _
      else _) = _
    decide
  have huserSel : (DaccMr.userSel.get DaccRegs.configured.mr).setWidth 32 = 0 := by decide
  have hmachine : (Chip.started u).board.machine = Machine.initialized u.powerUp := by
    unfold Chip.board
    rw [hchannel, show (Chip.started u).dacc = DaccRegs.configured from rfl, huserSel]
    rfl
  show (⟨(Chip.started u).board.machine, [], []⟩ : Board α) = _
  rw [hmachine]
  rfl

/-- Flags that change on the way are those of another start. -/
theorem started_of_upToFlags {u : ChipPowerUp α} {t : Chip α} (h : UpToFlags (Chip.started u) t) :
    ∃ v : ChipPowerUp α, v = { u with adcFlags := v.adcFlags, daccFlags := v.daccFlags } ∧
      t = Chip.started v :=
  ⟨{ u with adcFlags := t.adcFlags, daccFlags := t.daccFlags }, rfl, h⟩

end

/-! ### The conversion sequence, as configured -/

namespace AdcRegs

/-- The channel of the next conversion. -/
def channelFrom (position : Fin 16) : AdcChannel :=
  if (configured.nextNumber position).map configured.channelAt = some 5 then .channel5
  else .channel4

/-- The sequencer is at number 0 or 1, and these stand for channels 4 and 5. -/
theorem sequence_configured : ∀ position : Fin 16, position.val ≤ 1 →
    ∃ number position' : Fin 16, configured.nextNumber position = some number ∧
      (if configured.isLast number then 0 else number + 1) = position' ∧ position'.val ≤ 1 ∧
      configured.channelAt number = (channelFrom position).number.toBitVec.setWidth 4 ∧
      channelFrom position' = (channelFrom position).next := by
  decide

/-- The word has the channel in its tag. -/
theorem word_configured (channel : AdcChannel) (data : BitVec 12) :
    configured.word (channel.number.toBitVec.setWidth 4) data = taggedWord channel data := by
  have htag : adcEmrTag.get configured.emr = 1 := by decide
  unfold word taggedWord
  rw [if_pos htag, ← UInt16.toBitVec_inj, UInt16.toBitVec_or]
  have hdata : data.toNat % 65536 = data.toNat := Nat.mod_eq_of_lt (by omega)
  cases channel with
  | channel4 =>
      show (4#4 ++ data : BitVec 16) = 0x4000#16 ||| data.setWidth 16
      refine BitVec.eq_of_toNat_eq ?_
      rw [BitVec.toNat_append, BitVec.toNat_or, BitVec.toNat_setWidth, hdata]
      rfl
  | channel5 =>
      show (5#4 ++ data : BitVec 16) = 0x5000#16 ||| data.setWidth 16
      refine BitVec.eq_of_toNat_eq ?_
      rw [BitVec.toNat_append, BitVec.toNat_or, BitVec.toNat_setWidth, hdata]
      rfl

end AdcRegs

/-! ### A configured chip -/

/-- What has been set up and stays so. -/
structure Configured (c : Chip α) : Prop where
  adc : c.adc = .configured
  /-- Numbers 0 and 1 are enabled. -/
  position : c.position.val ≤ 1
  enabled : (c.iser 0).getLsbD Chip.adcIrqn = true
  mr : DaccMr.userSel.clear c.dacc.mr = DaccRegs.configured.mr
  chsr : c.dacc.chsr = DaccRegs.configured.chsr
  acr : c.dacc.acr = DaccRegs.configured.acr
  adcClock : c.clocked Driver.idAdc
  daccClock : c.clocked Driver.idDacc

namespace Configured

variable {c : Chip α}

/-- Every access reaches a peripheral that runs. -/
theorem clocked (h : Configured c) (o : ChipOp) : Clocked o c := by
  have hreg : ∀ r : Reg, ∀ id, r.peripheral = some id → c.clocked id := by
    intro r id hid
    have hids : id = Driver.idAdc ∨ id = Driver.idDacc := by
      cases r <;> simp [Reg.peripheral] at hid <;> simp [hid]
    rcases hids with rfl | rfl
    · exact h.adcClock
    · exact h.daccClock
  intro id hid
  cases o with
  | read r => exact hreg r id hid
  | write r v => exact hreg r id hid
  | pdc o =>
      rw [← Option.some.inj hid]
      exact h.adcClock
  | _ => cases hid

/-- The interrupt asks for the handler when `RXBUFF` does. -/
theorem pending (h : Configured c) : c.pending = c.pdc.rxbuff := by
  have himr : c.adc.imr = adcIsrRxbuff.toBitVec := by
    rw [h.adc]
    rfl
  have hisr : c.adc.imr &&& c.adcIsr = (c.board.machine.adcIsr &&& adcIsrRxbuff).toBitVec := by
    rw [himr, BitVec.and_comm, UInt32.toBitVec_and]
    rfl
  unfold Chip.pending
  rw [h.enabled, hisr]
  unfold Machine.adcIsr
  by_cases hrxbuff : c.pdc.rxbuff = true
  · rw [if_pos (show c.board.machine.pdc.rxbuff = true from hrxbuff), or_and_self, hrxbuff]
    rfl
  · rw [if_neg (show ¬ c.board.machine.pdc.rxbuff = true from hrxbuff), and_not_and,
      Bool.eq_false_iff.mpr hrxbuff]
    rfl

theorem channel (h : Configured c) : c.channel = AdcRegs.channelFrom c.position := by
  unfold Chip.channel
  rw [h.adc]
  rfl

/-- **A conversion is one of the board**, and the chip stays configured. -/
theorem convert (h : Configured c) (data : BitVec 12) :
    ∃ (position : Fin 16) (oneShot : Bool), position.val ≤ 1 ∧ c.convert data = { c with
      position := position
      oneShot := oneShot
      pdc := c.pdc.convert (taggedWord c.channel data)
      mem := if c.pdc.rxten ∧ c.pdc.rcr ≠ 0 then
        Function.update c.mem c.pdc.rpr (taggedWord c.channel data) else c.mem } ∧
      AdcRegs.channelFrom position = c.channel.next := by
  obtain ⟨number, position, hnext, hposition, hle, hchannel, hafter⟩ :=
    AdcRegs.sequence_configured _ h.position
  have hself : AdcRegs.configured.selfStarting := .inl (by decide)
  have hconverts : c.Converts := .inl (by rw [h.adc]; exact hself)
  refine ⟨position, c.oneShot && !AdcRegs.configured.isLast number, hle, ?_,
    by rw [h.channel]; exact hafter⟩
  unfold Chip.convert
  rw [if_pos hconverts, h.adc, hnext, h.channel, ← AdcRegs.word_configured, ← hchannel,
    ← hposition, ← h.adc]

end Configured

/-! ### The simulation -/

theorem Configured.of_setup {c c' : Chip α} (h : Configured c) (hsetup : c'.setup = c.setup)
    (hposition : c'.position.val ≤ 1) : Configured c' := by
  obtain ⟨hpmc, hiser, hadc, hdacc⟩ := Setup.mk.inj hsetup
  exact ⟨by rw [hadc]; exact h.adc, hposition, by rw [hiser]; exact h.enabled,
    by rw [hdacc]; exact h.mr, by rw [hdacc]; exact h.chsr, by rw [hdacc]; exact h.acr,
    by unfold Chip.clocked; rw [hpmc]; exact h.adcClock,
    by unfold Chip.clocked; rw [hpmc]; exact h.daccClock⟩

/-- Every event of the chip is one of the board. -/
theorem Configured.event {c : Chip α} (h : Configured c) (e : ChipEvent) :
    Configured (c.event e) ∧ ∃ e', (c.event e).board = c.board.event e' := by
  cases e with
  | conversion data =>
      obtain ⟨position, oneShot, hle, heq, hafter⟩ := h.convert data
      have hconfigured : Configured (c.convert data) := by
        refine h.of_setup (c.setup_event (.conversion data)) ?_
        rw [heq]
        exact hle
      refine ⟨hconfigured, .machine (.conversion data), ?_⟩
      show (c.convert data).board = _
      unfold Chip.board
      rw [hconfigured.channel, heq, hafter]
      rfl
  | flags adc dacc => exact ⟨h.of_setup rfl h.position, .machine (.flags adc dacc), rfl⟩
  | dacConversion =>
      obtain ⟨hfifo, heq⟩ | ⟨word, fifo, hfifo, heq⟩ := c.dacConvert_cases
      · refine ⟨?_, .dacConversion, ?_⟩
        · show Configured c.dacConvert
          rw [heq]
          exact h
        · show c.dacConvert.board = c.board.convert
          unfold Board.convert
          rw [heq, show c.board.fifo = [] from hfifo]
      · refine ⟨?_, .dacConversion, ?_⟩
        · show Configured c.dacConvert
          rw [heq]
          exact h.of_setup rfl h.position
        · show c.dacConvert.board = c.board.convert
          unfold Board.convert
          rw [heq, show c.board.fifo = word :: fifo from hfifo]
          rfl

section

variable [FloatArith α] (capacity : Nat)

/-- What an access of the handler is on the board; the read of `DACC_MR` before it is written is
none. -/
def Chip.seen : ChipOp × Chip α → Option ((o : HandlerOp) × o.Resp)
  | (.declare contents, c) => some ⟨.declare contents, c.frames⟩
  | (.pdc o, c) => some ⟨.pdc o, (Pdc.exec o c.pdc).1⟩
  | (.read .adcIsr, c) => some ⟨.adcStatus, (⟨c.adcIsr⟩ : UInt32)⟩
  | (.load a, c) => some ⟨.load a, c.mem a⟩
  | (.reload entry a, c) => some ⟨.reload entry a, c.mem a⟩
  | (.save a value, _) => some ⟨.save a value, ()⟩
  | (.read .daccIsr, c) => some ⟨.daccStatus, (⟨c.read capacity .daccIsr⟩ : UInt32)⟩
  | (.write .daccMr w, _) => some ⟨.select ⟨(DaccMr.userSel.get w).setWidth 32⟩, ()⟩
  | (.write .daccCdr w, _) => some ⟨.write ⟨w⟩, ()⟩
  | (.predict noise, c) => some ⟨.predict noise, (ancPredict c.fxlms noise).1⟩
  | (.update residual, _) => some ⟨.update residual, ()⟩
  | _ => none

/-- The board in the chip. -/
def boardView (α : Type) [FloatArith α] (capacity : Nat) :
    View HandlerOp HandlerOp.Resp (Board α) ChipOp (Chip α) :=
  ⟨Chip.board, Configured, Chip.seen capacity⟩

theorem Configured.stable : (chipDevice (α := α) capacity).Stable Configured :=
  fun e _ h => (h.event e).1

omit [FloatArith α] in
/-- A word that is written is one data, and goes to the selected channel. -/
theorem Configured.daccWords {c : Chip α} (h : Configured c) (data : BitVec 32) :
    c.daccWords data = [(c.board.machine.userSel, ⟨data⟩)] := by
  have htag : DaccMr.tag.get c.dacc.mr = 0 := by
    rw [← Field.get_clear_of_apart DaccMr.userSel (by decide), h.mr]
    decide
  have hword : DaccMr.word.get c.dacc.mr = 0 := by
    rw [← Field.get_clear_of_apart DaccMr.userSel (by decide), h.mr]
    decide
  unfold Chip.daccWords Chip.daccChannel
  rw [if_neg (by rw [hword]; decide), htag]
  rfl

/-- The FIFO is the board's. -/
theorem Configured.board_push {c : Chip α} (h : Configured c) (data : UInt32) :
    (c.push capacity (c.daccWords data.toBitVec)).board
      = (Board.exec capacity (.write data) c.board).2 := by
  rw [h.daccWords]
  show (c.push capacity [(c.board.machine.userSel, data)]).board = Board.push _ _ _
  unfold Chip.push Board.push
  rw [List.foldl_cons, List.foldl_nil]
  by_cases hfree : c.fifo.length < capacity
  · rw [if_pos hfree, if_pos (show c.board.fifo.length < capacity from hfree)]
    rfl
  · rw [if_neg hfree, if_neg (show ¬ c.board.fifo.length < capacity from hfree)]
    rfl

/-- An access that is one of the board's. -/
theorem implements_one (o : HandlerOp) (o' : ChipOp) (answer : o'.Resp → o.Resp) {c : Chip α}
    (hc : Configured c)
    (hseen : ∀ t : Chip α, Chip.seen capacity (o', t) = some ⟨o, answer (Chip.exec capacity o' t).1⟩)
    (h : ∀ t : Chip α, Configured t → Configured (Chip.exec capacity o' t).2 ∧
      answer (Chip.exec capacity o' t).1 = (Board.exec capacity o t.board).1 ∧
      (Chip.exec capacity o' t).2.board = (Board.exec capacity o t.board).2) :
    Implements (boardIrq capacity).toDevice (firmware capacity).toDevice (boardView α capacity) o
      (.step o' fun r => .ret (answer r)) c := by
  refine Implements.access answer (fun es => (Configured.stable capacity).envs es hc) hseen
    fun t ht => ?_
  obtain ⟨hconfigured, hanswer, hboard⟩ := h t ht
  exact ⟨hconfigured, hanswer, [], hboard⟩

/-- What `dacc_set_channel_selection` writes, if the register is configured. -/
theorem select_configured {channel : UInt32} (hchannel : channel ≤ 1) :
    DaccMr.userSel.clear
        (DaccRegs.configured.mr &&& ~~~DaccMr.tag.mask ||| channel.toBitVec <<< 16)
      = DaccRegs.configured.mr ∧
    (DaccMr.userSel.get
        (DaccRegs.configured.mr &&& ~~~DaccMr.tag.mask ||| channel.toBitVec <<< 16)).setWidth 32
      = channel.toBitVec := by
  have hcases : channel = 0 ∨ channel = 1 := by
    rw [← UInt32.toNat_inj, ← UInt32.toNat_inj]
    have hle : channel.toNat ≤ 1 := hchannel
    show channel.toNat = 0 ∨ channel.toNat = 1
    omega
  rcases hcases with rfl | rfl <;> decide

/-- A word that changes `USER_SEL` only selects the channel, and nothing else. -/
theorem Configured.select {c : Chip α} (h : Configured c) {w : BitVec 32} {channel : UInt32}
    (hclear : DaccMr.userSel.clear w = DaccRegs.configured.mr)
    (hget : (DaccMr.userSel.get w).setWidth 32 = channel.toBitVec) (capacity : Nat) :
    Configured { c with dacc.mr := w } ∧
      ({ c with dacc.mr := w } : Chip α).board
        = (Board.exec capacity (.select channel) c.board).2 := by
  refine ⟨⟨h.adc, h.position, h.enabled, hclear, h.chsr, h.acr, h.adcClock, h.daccClock⟩, ?_⟩
  unfold Chip.board
  simp only [hget]
  rfl

/-- `dacc_set_channel_selection` reads `DACC_MR` and writes it back with another `USER_SEL`; nothing
else changes the register in between. -/
theorem implements_select {channel : UInt32} (hchannel : channel ≤ 1) {c : Chip α}
    (hc : Configured c) :
    Implements (boardIrq capacity).toDevice (firmware capacity).toDevice (boardView α capacity)
      (.select channel) (Firmware.handlerAccess (.select channel)) c := by
  have hvalid : ¬ Driver.maxChNb < channel.toBitVec := BitVec.not_lt.mpr hchannel
  obtain ⟨hclear, hget⟩ := select_configured hchannel
  intro es
  have ht : Configured ((firmware capacity).envs es c) := (Configured.stable capacity).envs es hc
  generalize (firmware capacity).envs es c = t at ht ⊢
  -- the read
  refine ⟨ht, .inl ⟨rfl, rfl, ?_⟩⟩
  show Implements _ _ _ _ (Prog.bind (if Driver.maxChNb < channel.toBitVec then _ else _) _) _
  rw [if_neg hvalid]
  -- the write, of a word made from what has been read
  intro es'
  have hu : Configured ((firmware capacity).envs es' t) := (Configured.stable capacity).envs es' ht
  have hword : t.dacc.mr &&& ~~~DaccMr.userSel.mask &&& ~~~DaccMr.tag.mask |||
      channel.toBitVec <<< 16
    = DaccRegs.configured.mr &&& ~~~DaccMr.tag.mask ||| channel.toBitVec <<< 16 := by
    rw [← ht.mr]
    rfl
  obtain ⟨hconfigured, hboard⟩ := hu.select hclear hget capacity
  rw [← hword] at hconfigured hboard hget
  have hseen : Chip.seen capacity (.write .daccMr (t.dacc.mr &&& ~~~DaccMr.userSel.mask &&&
      ~~~DaccMr.tag.mask ||| channel.toBitVec <<< 16), (firmware capacity).envs es' t)
    = some ⟨.select channel, ()⟩ := by
    show some (⟨.select ⟨(DaccMr.userSel.get _).setWidth 32⟩, ()⟩ : (o : HandlerOp) × o.Resp) = _
    rw [hget]
  exact ⟨hconfigured, .inr ⟨hseen, rfl, [], hboard⟩⟩

/-- **The driver function behind each access of the handler does what the access does.** -/
theorem implements_handlerAccess (o : HandlerOp) (ho : ∀ channel, o = .select channel → channel ≤ 1)
    {c : Chip α} (hc : Configured c) :
    Implements (boardIrq capacity).toDevice (firmware capacity).toDevice (boardView α capacity) o
      (Firmware.handlerAccess o) c := by
  have hkept : ∀ {t t' : Chip α}, Configured t → t'.setup = t.setup → t'.position = t.position →
      Configured t' := fun ht hsetup hposition =>
    ht.of_setup hsetup (by rw [hposition]; exact ht.position)
  cases o with
  | declare contents =>
      exact implements_one capacity (.declare contents) (.declare contents) (fun r => r) hc
        (fun _ => rfl) fun t ht => ⟨hkept ht rfl rfl, rfl, rfl⟩
  | pdc o =>
      exact implements_one capacity (.pdc o) (.pdc o) (fun r => r) hc (fun _ => rfl)
        fun t ht => ⟨hkept ht rfl rfl, rfl, rfl⟩
  | adcStatus =>
      exact implements_one capacity .adcStatus (.read .adcIsr) (fun r => (⟨r⟩ : UInt32)) hc
        (fun _ => rfl) fun t ht => ⟨ht, rfl, rfl⟩
  | load a =>
      exact implements_one capacity (.load a) (.load a) (fun r => r) hc
        (fun _ => rfl) fun t ht => ⟨ht, rfl, rfl⟩
  | reload entry a =>
      exact implements_one capacity (.reload entry a) (.reload entry a) (fun r => r) hc
        (fun _ => rfl) fun t ht => ⟨ht, rfl, rfl⟩
  | save a value =>
      exact implements_one capacity (.save a value) (.save a value) (fun r => r) hc (fun _ => rfl)
        fun t ht => ⟨hkept ht rfl rfl, rfl, rfl⟩
  | daccStatus =>
      exact implements_one capacity .daccStatus (.read .daccIsr) (fun r => (⟨r⟩ : UInt32)) hc
        (fun _ => rfl) fun t ht => ⟨ht, rfl, rfl⟩
  | select channel => exact implements_select capacity (ho channel rfl) hc
  | write data =>
      exact implements_one capacity (.write data) (.write .daccCdr data.toBitVec) (fun r => r) hc
        (fun _ => rfl) fun t ht => ⟨hkept ht rfl rfl, rfl, ht.board_push capacity data⟩
  | predict noise =>
      exact implements_one capacity (.predict noise) (.predict noise) (fun r => r) hc (fun _ => rfl)
        fun t ht => ⟨hkept ht rfl rfl, rfl, rfl⟩
  | update residual =>
      exact implements_one capacity (.update residual) (.update residual) (fun r => r) hc
        (fun _ => rfl) fun t ht => ⟨hkept ht rfl rfl, rfl, rfl⟩

/-! ### Runs -/

/-- The handler selects the two channels there are. -/
def SelectsValid (o : HandlerOp) : Prop := ∀ channel, o = .select channel → channel ≤ 1

omit [FloatArith α] in
theorem adcHandler_selects (contents : Fin numChannels → UInt16) :
    (adcHandler contents).Only SelectsValid := by
  have hother : ∀ o : HandlerOp, (∀ channel, o ≠ .select channel) → SelectsValid o :=
    fun o ho channel hchannel => absurd hchannel (ho channel)
  have hcapture : ∀ temp, (captureIfFull temp).Only SelectsValid := fun temp =>
    captureIfFull_only (hother _ (by simp)) (fun _ => hother _ (by simp))
      (fun _ => hother _ (by simp)) (fun _ _ => hother _ (by simp)) fun _ _ => hother _ (by simp)
  refine ⟨hother _ (by simp), fun temp => (hcapture temp).bind fun _ => ?_⟩
  refine driveIfReady_only (hother _ (by simp)) (fun _ => hother _ (by simp))
    (fun _ => hother _ (by simp)) ?_ (fun _ => hother _ (by simp)) (fun _ => hother _ (by simp))
    (fun _ => hother _ (by simp))
  rintro channel hle _ ⟨⟩
  exact hle

/-- **The firmware simulates the board.** -/
theorem firmware_simulates : Simulates (boardIrq (α := α) capacity) (firmware capacity)
    (boardView α capacity) SelectsValid Firmware.handlerAccess where
  env e _ hc := by
    obtain ⟨hconfigured, e', hboard⟩ := Configured.event hc e
    exact ⟨hconfigured, [e'], hboard⟩
  pending _ hc := Configured.pending hc
  prog _ := rfl
  only contents := adcHandler_selects contents
  impl o _ ho hc := implements_handlerAccess capacity o ho hc

omit [FloatArith α] in
/-- The power-up state, but for the flags. -/
def ChipPowerUp.SameBut (u v : ChipPowerUp α) : Prop :=
  v = { u with adcFlags := v.adcFlags, daccFlags := v.daccFlags }

theorem configured_started (u : ChipPowerUp α) : Configured (Chip.started u) := by
  have hclock : ∀ id, id ≤ Driver.maxPeriphId → id < 32 →
      (Chip.started u).pmc.enabled id = true → (Chip.started u).clocked id := by
    intro id hid hlow henabled
    unfold PmcRegs.enabled at henabled
    rwa [if_pos hlow] at henabled
  have henabled : (1#32 <<< 29).getLsbD Chip.adcIrqn = true := by decide
  have hmr : DaccMr.userSel.clear DaccRegs.configured.mr = DaccRegs.configured.mr := by decide
  refine ⟨rfl, Nat.zero_le _, henabled, hmr, rfl, rfl, ?_, ?_⟩
  · refine hclock _ (by decide) (by decide) ?_
    show (PmcRegs.switch _ Driver.idAdc true).enabled Driver.idAdc = true
    rw [PmcRegs.enabled_switch (by decide) (by decide), if_pos rfl]
  · refine hclock _ (by decide) (by decide) ?_
    show (PmcRegs.switch (PmcRegs.switch _ Driver.idDacc true) Driver.idAdc true).enabled
      Driver.idDacc = true
    rw [PmcRegs.enabled_switch (by decide) (by decide), if_neg (by decide),
      PmcRegs.enabled_switch (by decide) (by decide), if_pos rfl]

theorem booting_reset (u : ChipPowerUp α) :
    IrqHost.Booting (firmware capacity) Admitted UpToFlags ((), Chip.started u)
      ⟨Host.start (Chip.reset u), Firmware.initializeAnc⟩ (Chip.reset u) :=
  ⟨rfl, rfl, (initializeAnc_runs capacity u).along, rfl, alone_initializeAnc capacity u⟩

/-- A run of the firmware is still in its start-up code, or it is a run of the handler. -/
theorem firmwareRun_cases (u : ChipPowerUp α)
    (as : List (Action ChipEvent (Fin numChannels → UInt16))) :
    (∃ s o k, IrqHost.Booting (firmware capacity) Admitted UpToFlags ((), Chip.started u)
        (firmwareRun capacity u as) s ∧ (firmwareRun capacity u as).main = .step o k) ∨
      ∃ v as', u.SameBut v ∧ (firmwareRun capacity u as).main = .ret () ∧
        (firmwareRun capacity u as).node
          = (firmware capacity).run (Host.start (Chip.started v)) as' := by
  rcases IrqHost.boot_undisturbed (firmware_undisturbed capacity) as
    (booting_reset capacity u) with hboot | ⟨as', t, ht, hmain, hnode⟩
  · exact .inl hboot
  · obtain ⟨v, hv, rfl⟩ := started_of_upToFlags ht
    exact .inr ⟨v, as', hv, hmain, hnode⟩

/-- The handler's part of it, beside a run of the board. -/
theorem firmware_nodeSim (v : ChipPowerUp α)
    (as : List (Action ChipEvent (Fin numChannels → UInt16))) :
    ∃ as', (firmware_simulates capacity).Rel
      ((firmware capacity).run (Host.start (Chip.started v)) as)
      ((boardIrq capacity).run (Host.start (Board.initialized v.powerUp)) as') :=
  (firmware_simulates capacity).run as
    ⟨configured_started v, board_started v, .none, .nil⟩

/-- After the start-up code the chip is configured for good. -/
theorem configured_firmwareRun {u : ChipPowerUp α}
    {as : List (Action ChipEvent (Fin numChannels → UInt16))}
    (hmain : (firmwareRun capacity u as).main = .ret ()) :
    Configured (firmwareRun capacity u as).node.state := by
  rcases firmwareRun_cases capacity u as with ⟨s, o, k, -, hstep⟩ | ⟨v, as', -, -, hnode⟩
  · exact absurd (hmain.symm.trans hstep) (by simp)
  · obtain ⟨as'', hsim⟩ := firmware_nodeSim capacity v as'
    rw [hnode]
    exact hsim.frame

omit [FloatArith α] in
theorem Silent.upToFlags {s t : Chip α} (h : Silent s) (hst : UpToFlags s t) : Silent t := by
  rw [hst]
  exact ⟨h.waiting, h.fifo, h.masked⟩

/-- **The firmware refines the board.**  Until the start-up code has made its last access no
interrupt is taken and none is pending, and an event changes nothing but flags.  From then on the
chip is configured, and the run is one of the board, which starts with channel 4: the same
invocations have returned, and the same one is under way, with the same accesses and answers. -/
theorem firmware_refines_board (u : ChipPowerUp α)
    (as : List (Action ChipEvent (Fin numChannels → UInt16))) :
    let c := firmwareRun capacity u as
    (c.node.active = none ∧ c.node.finished = [] ∧ c.node.state.pending = false ∧
        (∀ e, UpToFlags c.node.state (c.node.state.event e)) ∧ ∃ o k, c.main = .step o k) ∨
      ∃ v as', v.channel = .channel4 ∧ v.mem = u.mem ∧ c.main = .ret () ∧
        NodeSim (boardIrq capacity).toDevice (firmware capacity).toDevice (boardView α capacity)
          SelectsValid Firmware.handlerAccess c.node
          ((boardIrq capacity).run (Host.start (Board.initialized v)) as') := by
  intro c
  rcases firmwareRun_cases capacity u as with ⟨s, o, k, hboot, hmain⟩ | ⟨v, as', hv, hmain, hnode⟩
  · have hsilent : Silent c.node.state := by
      have halong := hboot.along
      rw [hmain] at halong
      exact halong.1.silent.upToFlags hboot.state
    refine .inl ⟨hboot.idle, hboot.fresh, hsilent.pending, fun e => ?_, o, k, hmain⟩
    cases e with
    | conversion data =>
        show UpToFlags _ (c.node.state.convert data)
        rw [hsilent.convert]
        rfl
    | flags adc dacc => rfl
    | dacConversion =>
        show UpToFlags _ c.node.state.dacConvert
        rw [hsilent.dacConvert]
        rfl
  · obtain ⟨as'', hsim⟩ := firmware_nodeSim capacity v as'
    rw [← hnode] at hsim
    refine .inr ⟨v.powerUp, as'', rfl, ?_, hmain, hsim⟩
    rw [hv]
    rfl

/-! ### How long the start-up code takes -/

omit [FloatArith α] in
/-- The converters whose clock is off. -/
def ChipPowerUp.stopped (u : ChipPowerUp α) : Nat :=
  [Driver.idDacc, Driver.idAdc].countP fun id => !u.pmc.enabled id

theorem accesses_pmcEnablePeriphClk {id : BitVec 32} (hid : id < 32) (c : Chip α) :
    (chipDevice capacity).accesses (Driver.pmcEnablePeriphClk id) c
      = 1 + if c.pmc.enabled id then 0 else 1 := by
  have hmax : ¬ Driver.maxPeriphId < id := by unfold Driver.maxPeriphId; bv_omega
  unfold Driver.pmcEnablePeriphClk PmcRegs.enabled
  rw [if_neg hmax, if_pos hid, if_pos hid]
  show (chipDevice capacity).accesses
    (if c.pmc.pcsr0 &&& Driver.periphBit id ≠ Driver.periphBit id then _ else _) c + 1 = _
  by_cases hset : c.pmc.pcsr0 &&& Driver.periphBit id = Driver.periphBit id
  · rw [if_neg (not_not_intro hset), if_pos ((and_periphBit_eq_iff hid _).mp hset)]
    rfl
  · rw [if_pos hset, if_neg fun h => hset ((and_periphBit_eq_iff hid _).mpr h)]
    rfl

theorem accesses_initializeDacc (c : Chip α) :
    (chipDevice capacity).accesses Firmware.initializeDacc c
      = 15 + if c.pmc.enabled Driver.idDacc then 0 else 1 := by
  have hrest : ∀ c : Chip α, (chipDevice capacity).accesses (do
      Driver.daccReset
      let _ ← Driver.daccSetTransferMode 0x00
      let _ ← Driver.daccSetPowerSave 0x00 0x00
      let _ ← Driver.daccSetTiming 0x08 0x00 0x10
      let _ ← Driver.daccSetChannelSelection 0x00
      let _ ← Driver.daccEnableChannel 0x00
      let _ ← Driver.daccEnableChannel 0x01
      let _ ← Driver.daccSetAnalogControl Firmware.daccAnalogControl) c = 14 := fun _ => rfl
  show (chipDevice capacity).accesses (Driver.pmcEnablePeriphClk Driver.idDacc >>= _) c = _
  rw [Device.accesses_bind, accesses_pmcEnablePeriphClk capacity (by decide), hrest]
  omega

theorem accesses_initializeAdc (c : Chip α) {rpr rnpr : Addr} (hpdc : c.pdc = Pdc.reset rpr rnpr) :
    (chipDevice capacity).accesses Firmware.initializeAdc c
      = 52 + if c.pmc.enabled Driver.idAdc then 0 else 1 := by
  show (chipDevice capacity).accesses (Driver.pmcEnablePeriphClk Driver.idAdc >>= _) c = _
  rw [Device.accesses_bind, accesses_pmcEnablePeriphClk capacity (by decide),
    Driver.alone_pmcEnablePeriphClk capacity (by decide)]
  obtain ⟨pmc, iser, adc, position, oneShot, adcFlags, pdc, dacc, daccFlags, cdr, fifo, converted,
    mem, frames, fxlms⟩ := c
  obtain rfl : pdc = Pdc.reset rpr rnpr := hpdc
  -- the rest finds the receive channel in reset, and nothing else that it asks for
  have hsum : ∀ k : Nat, 1 + k + 51 = 52 + k := fun k => by omega
  rw [← hsum]
  rfl

theorem accesses_initializeAnc (u : ChipPowerUp α) :
    (chipDevice capacity).accesses Firmware.initializeAnc (Chip.reset u) = 68 + u.stopped := by
  have hother : Driver.idAdc ≠ Driver.idDacc := by decide
  have hkept : (u.pmc.switch Driver.idDacc true).enabled Driver.idAdc
      = u.pmc.enabled Driver.idAdc := by
    rw [PmcRegs.enabled_switch (by decide) (by decide), if_neg hother]
  show (chipDevice capacity).accesses
    (ChipProg.initFxlms >>= fun _ => Firmware.initializeDacc >>= fun _ => Firmware.initializeAdc)
    (Chip.reset u) = _
  rw [Device.accesses_bind, Device.accesses_bind, ChipProg.alone_initFxlms, alone_initializeDacc,
    accesses_initializeDacc, accesses_initializeAdc capacity _ rfl]
  show 1 + ((15 + if u.pmc.enabled Driver.idDacc then 0 else 1) + (52 +
    if (u.pmc.switch Driver.idDacc true).enabled Driver.idAdc then 0 else 1)) = _
  rw [hkept]
  unfold ChipPowerUp.stopped
  rw [List.countP_cons, List.countP_cons, List.countP_nil]
  cases u.pmc.enabled Driver.idDacc <;> cases u.pmc.enabled Driver.idAdc <;> rfl

/-- **The start-up code ends**, whatever happens around it: with the 68th access of the processor, or
one later for each of the two clocks that has to be enabled. -/
theorem startup_ends_iff (u : ChipPowerUp α)
    (as : List (Action ChipEvent (Fin numChannels → UInt16))) :
    (firmwareRun capacity u as).main = .ret () ↔ 68 + u.stopped ≤ as.countP Action.isCpu := by
  rw [← accesses_initializeAnc capacity u]
  exact IrqHost.boot_ends_iff (firmware_undisturbed capacity) as (booting_reset capacity u)

/-- **No access reaches a converter whose clock is off**, in the start-up code or in the handler. -/
theorem accesses_clocked (u : ChipPowerUp α)
    (as : List (Action ChipEvent (Fin numChannels → UInt16))) :
    let c := firmwareRun capacity u as
    (∀ o k, c.main = .step o k → Clocked o c.node.state) ∧
      ∀ contents tr o k, c.node.active = some ⟨contents, tr, .step o k⟩ →
        Clocked o c.node.state := by
  intro c
  rcases firmwareRun_cases capacity u as with ⟨s, o, k, hboot, hmain⟩ | ⟨v, as', hv, hmain, hnode⟩
  · have halong := hboot.along
    rw [hmain] at halong
    refine ⟨fun o' k' hmain' => ?_, fun contents tr o' k' hactive => ?_⟩
    · obtain ⟨rfl, -⟩ := Prog.step.inj (hmain.symm.trans hmain')
      intro id hid
      have hclock := halong.1.clocked id hid
      rw [show c.node.state = _ from hboot.state]
      exact hclock
    · exact absurd (hboot.idle.symm.trans hactive) (by simp)
  · obtain ⟨as'', hsim⟩ := firmware_nodeSim capacity v as'
    rw [← hnode] at hsim
    refine ⟨fun o' k' hmain' => ?_, fun contents tr o' k' _ => Configured.clocked hsim.frame o'⟩
    exact absurd (hmain.symm.trans hmain') (by simp)

end

end Anc
