/-
The conversion sequence, as it is programmed and as it is converted.

`adc_configure_sequence` takes a list of channels, and in free run mode the converter is
to go through the list again and again, with a hardware trigger as often as that comes,
and after `adc_start` once.  Both halves have a catch.  The numbers that are enabled are
what it goes through, in turn, wherever it has been before; and what the list puts behind
them is cut down to three bits, while from the ninth entry on it is the beginning of the
list once more, since the second loop of the function starts over.
-/
import AncPrototype.Library.RoundRobin
import AncPrototype.Proofs.AdcSettings

namespace Anc

open DeviceProgram Register Driver

/-! ### Conversions take turns -/

section

variable {α : Type}

/-- The numbers that are enabled. -/
def AdcRegs.enabled (r : AdcRegs) (number : Fin 16) : Bool := r.chsr.getLsbD number

/-- The numbers of the next conversions, once around. -/
def Chip.turns (c : Chip α) : List (Fin 16) := RoundRobin.upcoming c.adc.enabled c.position

/-- What the conversions of some events have measured. -/
def measured (es : List ChipEvent) : List (BitVec 12) :=
  es.filterMap fun e => match e with
    | .conversion data => some data
    | _ => none

/-- The word of the conversion after `k` others. -/
def Chip.wordAfter (c : Chip α) (k : Nat) (data : BitVec 12) : UInt16 :=
  c.adc.word (c.adc.channelAt (((c.turns.rotate k).head?).getD 0)) data

theorem event_of_not_conversion (c : Chip α) {e : ChipEvent} (he : ∀ data, e ≠ .conversion data) :
    (c.event e).adc = c.adc ∧ (c.event e).position = c.position ∧
      (c.event e).oneShot = c.oneShot ∧ (c.event e).pdc = c.pdc := by
  cases e with
  | conversion data => exact absurd rfl (he data)
  | flags adc dacc => exact ⟨rfl, rfl, rfl, rfl⟩
  | dacConversion =>
      obtain ⟨-, heq⟩ | ⟨word, fifo, -, heq⟩ := c.dacConvert_cases <;>
        rw [show c.event .dacConversion = _ from heq] <;> exact ⟨rfl, rfl, rfl, rfl⟩

/-- The conversions that are taken: all of them where sequences begin by themselves, and otherwise
those up to the end of the one that is under way. -/
def Chip.taken (c : Chip α) (data : List (BitVec 12)) : List (BitVec 12) :=
  if c.adc.selfStarting ∧ c.turns ≠ [] then data
  else data.take (if c.oneShot then (c.adc.ahead c.position).length else 0)

/-- A number that is ahead has its turn. -/
theorem turns_ne_nil_of_ahead {c : Chip α} (h : c.adc.ahead c.position ≠ []) : c.turns ≠ [] := by
  intro hnil
  rw [Chip.turns, RoundRobin.upcoming_eq] at hnil
  exact h (List.append_eq_nil_iff.mp hnil).1

theorem nextNumber_eq_head? (c : Chip α) : c.adc.nextNumber c.position = c.turns.head? :=
  RoundRobin.next_eq_head? c.adc.enabled c.position

/-- A conversion is of the first number in turn, which goes to the end. -/
theorem convert_turns (c : Chip α) (hconverts : c.Converts) (hturns : c.turns ≠ [])
    (data : BitVec 12) :
    (c.convert data).adc = c.adc ∧ (c.convert data).turns = c.turns.rotate 1 ∧
      (c.convert data).pdc.convs = c.pdc.convs ++ [c.wordAfter 0 data] := by
  obtain ⟨heq, hnone⟩ | ⟨number, word, -, hnumber, rfl, heq⟩ := c.convert_cases data
  · have hnil := hnone hconverts
    rw [nextNumber_eq_head?] at hnil
    exact absurd (List.head?_eq_none_iff.mp hnil) hturns
  · have hposition : (c.convert data).position = RoundRobin.after c.adc.enabled number := by
      rw [heq]
      exact if_congr decide_eq_true_iff rfl rfl
    have hadc : (c.convert data).adc = c.adc := by rw [heq]
    refine ⟨hadc, ?_, ?_⟩
    · unfold Chip.turns
      rw [hposition, hadc]
      exact RoundRobin.upcoming_after hnumber
    · unfold Chip.wordAfter
      rw [List.rotate_zero, ← nextNumber_eq_head?, hnumber, heq]
      rfl

/-- And outside of a sequence, or with no number enabled, there is none. -/
theorem convert_idle (c : Chip α) (h : ¬ (c.Converts ∧ c.turns ≠ [])) (data : BitVec 12) :
    c.convert data = c := by
  obtain ⟨heq, -⟩ | ⟨number, word, hconverts, hnumber, -, -⟩ := c.convert_cases data
  · exact heq
  · rw [nextNumber_eq_head?] at hnumber
    exact absurd ⟨hconverts, fun hnil => by simp [hnil] at hnumber⟩ h

theorem taken_idle (c : Chip α) (h : ¬ (c.Converts ∧ c.turns ≠ [])) (data : List (BitVec 12)) :
    c.taken data = [] := by
  unfold Chip.taken
  rw [if_neg fun hself => h ⟨.inl hself.1, hself.2⟩]
  by_cases honeShot : c.oneShot = true
  · have hnil : c.adc.ahead c.position = [] := by
      by_contra hne
      exact h ⟨.inr ⟨honeShot, hne⟩, turns_ne_nil_of_ahead hne⟩
    rw [if_pos honeShot, hnil]
    exact List.take_zero
  · rw [if_neg honeShot]
    exact List.take_zero

/-- **One more conversion**, which is the last one taken if its number ends the sequence. -/
theorem taken_cons (c : Chip α) (hconverts : c.Converts) (hturns : c.turns ≠ []) (data : BitVec 12)
    (later : List (BitVec 12)) :
    c.taken (data :: later) = data :: (c.convert data).taken later := by
  obtain ⟨hadc, hrotate, -⟩ := convert_turns c hconverts hturns data
  unfold Chip.taken
  rw [hadc, hrotate]
  simp only [ne_eq, List.rotate_eq_nil_iff]
  by_cases hself : c.adc.selfStarting
  · rw [if_pos ⟨hself, hturns⟩, if_pos ⟨hself, hturns⟩]
  -- by a start, and the end of the sequence is in sight
  have hsoftware : ¬ (c.adc.selfStarting ∧ ¬ c.turns = []) := fun h => hself h.1
  rw [if_neg hsoftware, if_neg hsoftware]
  obtain ⟨honeShot, hahead⟩ := hconverts.resolve_left hself
  obtain ⟨-, hnone⟩ | ⟨number, word, -, hnumber, -, heq⟩ := c.convert_cases data
  · have hnil := hnone hconverts
    rw [nextNumber_eq_head?] at hnil
    exact absurd (List.head?_eq_none_iff.mp hnil) hturns
  have hnext : RoundRobin.next c.adc.enabled c.position = some number := hnumber
  rw [if_pos honeShot, heq]
  by_cases hlast : c.adc.ahead number = [number]
  · have hwhole : c.adc.ahead c.position = [number] :=
      (RoundRobin.ahead_next hnext hahead).trans hlast
    have hover : c.adc.isLast number = true := decide_eq_true hlast
    rw [hwhole, hover, honeShot]
    rfl
  · have hwhole : c.adc.ahead c.position = number :: c.adc.ahead (number + 1) :=
      RoundRobin.ahead_eq_cons hnext hahead hlast
    have hgoes : c.adc.isLast number = false := decide_eq_false hlast
    rw [hwhole, hgoes, honeShot]
    rfl

/-- A conversion takes one turn of those to come. -/
theorem wordAfter_convert (c : Chip α) (hconverts : c.Converts) (hturns : c.turns ≠ [])
    (data : BitVec 12) : (c.convert data).wordAfter = fun k => c.wordAfter (k + 1) := by
  obtain ⟨hadc, hrotate, -⟩ := convert_turns c hconverts hturns data
  funext k data'
  unfold Chip.wordAfter
  rw [hadc, hrotate, List.rotate_rotate, Nat.add_comm 1 k]

/-- Any other event takes none. -/
theorem turns_of_not_conversion (c : Chip α) {e : ChipEvent} (he : ∀ data, e ≠ .conversion data) :
    (c.event e).taken = c.taken ∧ (c.event e).wordAfter = c.wordAfter := by
  obtain ⟨hadc, hposition, honeShot, -⟩ := event_of_not_conversion c he
  have hturns : (c.event e).turns = c.turns := by
    unfold Chip.turns
    rw [hadc, hposition]
  constructor
  · funext data
    unfold Chip.taken
    rw [hadc, hturns, honeShot, hposition]
  · funext k data
    unfold Chip.wordAfter
    rw [hadc, hturns]

theorem measured_of_not_conversion {e : ChipEvent} (he : ∀ data, e ≠ .conversion data)
    (es : List ChipEvent) : measured (e :: es) = measured es := by
  cases e with
  | conversion data => exact absurd rfl (he data)
  | flags adc dacc => rfl
  | dacConversion => rfl

theorem taken_nil (c : Chip α) : c.taken [] = [] := by
  unfold Chip.taken
  rw [List.take_nil, ite_self]

/-- **The enabled numbers are converted in turn**, whatever else happens. -/
theorem convs_events (es : List ChipEvent) :
    ∀ c : Chip α, (es.foldl Chip.event c).pdc.convs
      = c.pdc.convs ++ (c.taken (measured es)).mapIdx c.wordAfter := by
  induction es with
  | nil =>
      intro c
      show c.pdc.convs = c.pdc.convs ++ (c.taken []).mapIdx c.wordAfter
      rw [taken_nil]
      simp
  | cons e es ih =>
      intro c
      rw [List.foldl_cons, ih]
      by_cases he : ∃ data, e = .conversion data
      · obtain ⟨data, rfl⟩ := he
        by_cases hruns : c.Converts ∧ c.turns ≠ []
        · obtain ⟨-, -, hconvs⟩ := convert_turns c hruns.1 hruns.2 data
          show (c.convert data).pdc.convs
            ++ ((c.convert data).taken (measured es)).mapIdx (c.convert data).wordAfter
            = c.pdc.convs ++ (c.taken (data :: measured es)).mapIdx c.wordAfter
          rw [taken_cons c hruns.1 hruns.2, hconvs, wordAfter_convert c hruns.1 hruns.2,
            List.append_assoc, List.mapIdx_cons]
          rfl
        · rw [show c.event (.conversion data) = c from convert_idle c hruns data,
            taken_idle c hruns, taken_idle c hruns]
      · have hother : ∀ data, e ≠ .conversion data := fun data heq => he ⟨data, heq⟩
        obtain ⟨htaken, hword⟩ := turns_of_not_conversion c hother
        obtain ⟨-, -, -, hpdc⟩ := event_of_not_conversion c hother
        rw [htaken, hword, hpdc, measured_of_not_conversion hother]

end

/-! ### What the calls have set up -/

theorem sub_eight_lt (number : Fin 16) : number.val - 8 < 8 := by omega

namespace AdcTable

/-- The channel behind a number. -/
def channelAt (t : AdcTable) (number : Fin 16) : BitVec 4 :=
  if t.mode .useq = 1 then
    if h : number.val < 8 then (t.sequence1 ⟨number, h⟩).setWidth 4
    else (t.sequence2 ⟨number - 8, sub_eight_lt number⟩).setWidth 4
  else BitVec.ofFin number

/-- What is stored of a conversion. -/
def word (t : AdcTable) (channel : BitVec 4) (data : BitVec 12) : UInt16 :=
  if t.tag = 1 then ⟨channel ++ data⟩ else ⟨data.setWidth 16⟩

/-- The numbers that are converted. -/
def turns (t : AdcTable) : List (Fin 16) := (List.finRange 16).filter t.numbers

/-- The conversion after `k` others, counted from the first number. -/
def wordAfter (t : AdcTable) (k : Nat) (data : BitVec 12) : UInt16 :=
  t.word (t.channelAt (((t.turns.rotate k).head?).getD 0)) data

/-- Sequences begin without the software. -/
def selfStarting (t : AdcTable) : Prop := t.mode .freerun = 1 ∨ t.mode .trgen = 1

instance instDecidableSelfStarting (t : AdcTable) : Decidable t.selfStarting :=
  inferInstanceAs (Decidable (_ ∨ _))

/-- The conversions that are taken: all, or those up to the end of a sequence that has been
started. -/
def taken (t : AdcTable) (j : Nat) (oneShot : Bool) (data : List (BitVec 12)) : List (BitVec 12) :=
  if t.selfStarting ∧ t.turns ≠ [] then data
  else data.take (if oneShot then t.turns.length - j else 0)

end AdcTable

namespace AdcCall

/-- Whether a sequence has been started, after a call. -/
def starts (call : AdcCall) (oneShot : Bool) : Bool :=
  match call with
  | start => true
  | init _ _ _ | stop => false
  | _ => oneShot

theorem starts_mono {s s' : Bool} (h : s = true → s' = true) (call : AdcCall)
    (hs : call.starts s = true) : call.starts s' = true := by
  cases call with
  | start => rfl
  | init | stop => exact hs
  | _ => exact h hs

/-- There is a start among the calls, and no reset after it. -/
def startedBy (oneShot : Bool) (calls : List AdcCall) : Bool :=
  calls.foldl (fun s call => call.starts s) oneShot

end AdcCall

section

variable {α : Type}

/-- Where in its turns the converter is, the registers do not say. -/
theorem turns_of_table {c : Chip α} {t : AdcTable} (h : c.adc.table = t) :
    ∃ j ≤ t.turns.length, c.turns = t.turns.rotate j ∧
      (c.adc.ahead c.position).length = t.turns.length - j ∧
      c.wordAfter = fun k => t.wordAfter (j + k) := by
  obtain rfl := h
  have hrotate := RoundRobin.upcoming_eq_rotate c.adc.enabled c.position
  have hlength := congrArg List.length (RoundRobin.filter_finRange c.adc.enabled c.position)
  rw [List.length_append] at hlength
  have hlength' : c.adc.table.turns.length
      = (RoundRobin.behind c.adc.enabled c.position).length + (c.adc.ahead c.position).length :=
    hlength
  refine ⟨(RoundRobin.behind c.adc.enabled c.position).length, by omega, hrotate, by omega, ?_⟩
  funext k data
  unfold Chip.wordAfter AdcTable.wordAfter
  rw [show c.turns = c.adc.table.turns.rotate _ from hrotate, List.rotate_rotate]
  rfl

/-- What the table says of the conversions from here on. -/
theorem converted_of_table {c : Chip α} {t : AdcTable} (h : c.adc.table = t) :
    ∃ j ≤ t.turns.length, ∀ es : List ChipEvent, (es.foldl Chip.event c).pdc.convs
      = c.pdc.convs ++
        (t.taken j c.oneShot (measured es)).mapIdx fun k => t.wordAfter (j + k) := by
  obtain ⟨j, hle, hturns, hahead, hword⟩ := turns_of_table h
  obtain rfl := h
  refine ⟨j, hle, fun es => ?_⟩
  rw [convs_events es c, hword]
  unfold Chip.taken AdcTable.taken
  rw [hturns, hahead]
  simp only [ne_eq, List.rotate_eq_nil_iff]
  rfl

variable [FloatArith α] (capacity : Nat)

theorem AdcCall.alone_oneShot (call : AdcCall) (c : Chip α) :
    ((chipDevice capacity).alone call.prog c).2.oneShot = call.starts c.oneShot := by
  cases call with
  | configureSequence chList num =>
      show ((chipDevice capacity).alone (ChipProg.void _) c).2.oneShot = c.oneShot
      rw [ChipProg.alone_void, alone_adcConfigureSequence]
  | _ => rfl

/-- A sequence under way has been started. -/
theorem oneShot_of_calls (c : Chip α) (as : List (Action ChipEvent AdcCall))
    (hidle : ((adcHost capacity).run (Host.start c) as).active = none)
    (honeShot : ((adcHost capacity).run (Host.start c) as).state.oneShot = true) :
    AdcCall.startedBy c.oneShot
      (((adcHost capacity).run (Host.start c) as).finished.map Finished.call) = true := by
  let Explained (fs : List (Finished ChipOp (Chip α) AdcCall (Option (BitVec 32)))) (d : Chip α) :
      Prop := d.oneShot = true → AdcCall.startedBy c.oneShot (fs.map Finished.call) = true
  have hstable : ∀ fs, (adcHost capacity).Stable (Explained fs) :=
    fun fs e d h hd => h (oneShot_event d e hd)
  have hok : Host.Ok (adcHost capacity) Explained (fun _ _ _ _ _ => True)
      ((adcHost capacity).run (Host.start c) as) := by
    refine Host.run_ok hstable ?_ as id
    intro fs call d h
    refine Device.Sat.mono (fun _ _ _ _ => trivial) (fun _ _ u hQ hu => ?_) _
      (call.sat_prog capacity d)
    have hcall := hQ.2.oneShot hu
    rw [AdcCall.alone_oneShot] at hcall
    rw [List.map_append, List.map_singleton, AdcCall.startedBy, List.foldl_append]
    exact AdcCall.starts_mono h call hcall
  exact hok.idle hidle honeShot

/-- **What is converted is what the calls have set up.**  After any calls, and whatever happened
meanwhile, the converter goes through the numbers that they have left enabled, in turn, each with
the channel that they have put behind it: over and over in free run mode or with a hardware trigger,
and otherwise up to the end of a sequence that one of them has started. -/
theorem converts_as_called (c : Chip α) (as : List (Action ChipEvent AdcCall)) :
    let n := (adcHost capacity).run (Host.start c) as
    let calls := n.finished.map Finished.call
    let t := (adcSpec.all c.adc.table calls).2
    (∃ p, n.active = some p) ∨
      (n.state.oneShot = true → AdcCall.startedBy c.oneShot calls = true) ∧
      ∃ j ≤ t.turns.length, ∀ es : List ChipEvent,
        (es.foldl Chip.event n.state).pdc.convs = n.state.pdc.convs ++
          (t.taken j n.state.oneShot (measured es)).mapIdx fun k => t.wordAfter (j + k) := by
  intro n calls t
  cases hn : n.active with
  | some p => exact .inl ⟨p, rfl⟩
  | none =>
      have hkept := ((adcSpec_met capacity).run (s := c) rfl as).1 hn
      exact .inr ⟨oneShot_of_calls capacity c as hn, converted_of_table hkept.state⟩

end

/-! ### A list of channels -/

/-- Calls that set up a list of channels, after a reset and with the channel in each word. -/
def sequenceSetup (chList : Nat → AdcChannelNum) (num : Fin 17) : List AdcCall :=
  [.stop, .configureSequence chList num, .startSequencer, .enableTag] ++
    ((List.finRange 16).filter fun i => decide (i.val < num.val)).map .enableChannel ++
    [.configureTrigger .sw 1]

/-- The channel that the list puts behind a number. -/
def listedChannel (chList : Nat → AdcChannelNum) (number : Nat) : BitVec 4 :=
  ((BitVec.ofNat 32 (chList (number % 8))).setWidth 3).setWidth 4

/-- Numbers are enabled one by one. -/
theorem enableChannels_foldl (numbers : List (Fin 16)) :
    ∀ t : AdcTable, (numbers.map AdcCall.enableChannel).foldl (fun t call => call.apply t) t
      = { t with numbers := fun i => numbers.contains i || t.numbers i } := by
  induction numbers with
  | nil => intro t; simp
  | cons number numbers ih =>
      intro t
      rw [List.map_cons, List.foldl_cons, ih]
      show ({ t with numbers := _ } : AdcTable) = _
      congr 1
      funext i
      show (numbers.contains i || Function.update t.numbers number true i) = _
      rw [Function.update_apply]
      by_cases hi : i = number
      · simp [hi]
      · simp [hi]

/-- The table after the calls. -/
def listTable (chList : Nat → AdcChannelNum) (num : Fin 17) : AdcTable :=
  { AdcTable.reset.add [(.useq, 1), (.trgen, 0), (.trgsel, 0), (.freerun, 1)] with
    sequence1 := AdcCall.addSequence (fun _ => 0) chList num
    sequence2 := AdcCall.addSequence (fun _ => 0) chList (num - 8)
    numbers := fun i => decide (i.val < num.val)
    tag := 1 }

theorem table_sequenceSetup (chList : Nat → AdcChannelNum) (num : Fin 17) (t : AdcTable) :
    (sequenceSetup chList num).foldl (fun t call => call.apply t) t = listTable chList num := by
  have hnumbers : (fun i : Fin 16 => ((List.finRange 16).filter
      fun i => decide (i.val < num.val)).contains i || AdcTable.reset.numbers i)
      = fun i => decide (i.val < num.val) := by
    funext i
    simp [AdcTable.reset]
  unfold sequenceSetup
  rw [List.foldl_append, List.foldl_append, enableChannels_foldl]
  show ({ listTable chList num with
    numbers := fun i : Fin 16 => ((List.finRange 16).filter
      fun i => decide (i.val < num.val)).contains i || AdcTable.reset.numbers i } : AdcTable) = _
  rw [hnumbers]
  rfl

/-- The conversion after `k` others is of number `k % num`. -/
theorem head?_turns {num : Fin 17} (hnum : num ≠ 0) (k : Nat) :
    (((List.finRange 16).filter fun i => decide (i.val < num.val)).rotate k).head?
      = some (Fin.ofNat 16 (k % num)) := by
  have htake : ((List.finRange 16).filter fun i => decide (i.val < num.val))
      = (List.finRange 16).take num := by
    revert num
    decide
  have hpos : 0 < num.val := Nat.pos_of_ne_zero fun h => hnum (Fin.ext h)
  have hlen : ((List.finRange 16).take num).length = num := by simp; omega
  have hlt : k % num < num.val := Nat.mod_lt _ hpos
  rw [htake, ← List.rotate_mod, hlen, List.head?_rotate (by rw [hlen]; exact hlt)]
  have hlt16 : k % num < 16 := by omega
  have hval : (⟨k % num, hlt16⟩ : Fin 16) = Fin.ofNat 16 (k % num) :=
    Fin.ext (Nat.mod_eq_of_lt hlt16).symm
  rw [← hval, List.getElem?_take_of_lt hlt]
  simp [hlt16]

/-- A number of the list. -/
theorem channelAt_listTable (chList : Nat → AdcChannelNum) {num : Fin 17} {number : Fin 16}
    (h : number.val < num.val) :
    (listTable chList num).channelAt number = listedChannel chList number := by
  have huseq : (listTable chList num).mode .useq = 1 := by
    show (AdcTable.reset.add [(.useq, 1), (.trgen, 0), (.trgsel, 0), (.freerun, 1)]).mode .useq = 1
    decide
  unfold AdcTable.channelAt listedChannel
  rw [if_pos huseq]
  by_cases hlow : number.val < 8
  · rw [dif_pos hlow]
    show BitVec.setWidth 4 (0#3 |||
      (if number.val < num.val then BitVec.ofNat 32 (chList number) else 0).setWidth 3) = _
    rw [if_pos h, Nat.mod_eq_of_lt hlow, BitVec.zero_or]
  · have hmod : number.val % 8 = number.val - 8 := by omega
    rw [dif_neg hlow]
    show BitVec.setWidth 4 (0#3 ||| (if number.val - 8 < num.val - 8 then
      BitVec.ofNat 32 (chList (number - 8)) else 0).setWidth 3) = _
    rw [if_pos (by omega), hmod, BitVec.zero_or]

/-- A word of the list. -/
theorem wordAfter_listTable (chList : Nat → AdcChannelNum) {num : Fin 17} (hnum : num ≠ 0)
    (k : Nat) (data : BitVec 12) :
    (listTable chList num).wordAfter k data = ⟨listedChannel chList (k % num) ++ data⟩ := by
  have hpos : 0 < num.val := Nat.pos_of_ne_zero fun h => hnum (Fin.ext h)
  have hlt : k % num < num.val := Nat.mod_lt _ hpos
  have hval : (Fin.ofNat 16 (k % num)).val = k % num := Nat.mod_eq_of_lt (by omega)
  have hnumber : (Fin.ofNat 16 (k % num)).val < num.val := hval.trans_lt hlt
  have hchannel := channelAt_listTable chList hnumber
  rw [hval] at hchannel
  unfold AdcTable.wordAfter
  rw [show (listTable chList num).turns
    = (List.finRange 16).filter fun i => decide (i.val < num.val) from rfl, head?_turns hnum]
  show (⟨(listTable chList num).channelAt (Fin.ofNat 16 (k % num)) ++ data⟩ : UInt16) = _
  rw [hchannel]

section

variable {α : Type} [FloatArith α] (capacity : Nat)

/-- **A list of channels is converted over and over**, whatever the driver has been used for before,
but for what the function makes of the list. -/
theorem converts_list (c : Chip α) (as : List (Action ChipEvent AdcCall)) (before : List AdcCall)
    (chList : Nat → AdcChannelNum) (num : Fin 17) (hnum : num ≠ 0)
    (hidle : ((adcHost capacity).run (Host.start c) as).active = none)
    (hcalls : ((adcHost capacity).run (Host.start c) as).finished.map Finished.call
      = before ++ sequenceSetup chList num) :
    let n := (adcHost capacity).run (Host.start c) as
    ∃ j, ∀ es : List ChipEvent, (es.foldl Chip.event n.state).pdc.convs
      = n.state.pdc.convs ++ (measured es).mapIdx fun k data =>
          ⟨listedChannel chList ((j + k) % num) ++ data⟩ := by
  intro n
  have htable : n.state.adc.table = listTable chList num := by
    have hkept := (((adcSpec_met capacity).run (s := c) rfl as).1 hidle).state
    rw [hcalls, SeqSpec.all_snd, List.foldl_append] at hkept
    exact hkept.trans (table_sequenceSetup chList num _)
  obtain ⟨j, -, hj⟩ := converted_of_table htable
  have hruns : (listTable chList num).selfStarting ∧ (listTable chList num).turns ≠ [] := by
    refine ⟨.inl ?_, fun hnil => ?_⟩
    · show (AdcTable.reset.add [(.useq, 1), (.trgen, 0), (.trgsel, 0), (.freerun, 1)]).mode .freerun
        = 1
      decide
    · have hhead := head?_turns hnum 0
      rw [show ((List.finRange 16).filter fun i => decide (i.val < num.val)) = [] from hnil] at hhead
      simp at hhead
  have hword : (fun k => (listTable chList num).wordAfter (j + k)) = fun k data =>
      ⟨listedChannel chList ((j + k) % num) ++ data⟩ :=
    funext fun k => funext fun data => wordAfter_listTable chList hnum _ data
  refine ⟨j, fun es => ?_⟩
  rw [hj es, AdcTable.taken, if_pos hruns, hword]

end

/-- Ten channels from 15 down, on a chip out of reset.  The first one is taken for channel 7, and so
is the ninth, whose turn is the first entry's. -/
theorem converts_list_ten :
    ∃ as : List (Action ChipEvent AdcCall),
      let chList (k : Nat) : AdcChannelNum := Fin.ofNat 16 (15 - k)
      let c : Chip ℚ := Chip.reset
        { pmc := ⟨0, 0⟩, adcFlags := 0, daccFlags := 0, rpr := .done, rnpr := .done,
          mem := fun _ => 0, fxlms := initializeAnc }
      let n := (adcHost 4).run (Host.start c) as
      n.active = none ∧ n.finished.map Finished.call = sequenceSetup chList 10 ∧
        listedChannel chList 0 = 7 ∧ listedChannel chList 8 = 7 ∧
        ∃ j, ∀ es : List ChipEvent, (es.foldl Chip.event n.state).pdc.convs
          = n.state.pdc.convs ++ (measured es).mapIdx fun k data =>
            ⟨listedChannel chList ((j + k) % (10 : Fin 17)) ++ data⟩ := by
  obtain ⟨as, hidle, hcalls⟩ := Host.exists_run (h := adcHost (α := ℚ) 4) (Chip.reset
    { pmc := ⟨0, 0⟩, adcFlags := 0, daccFlags := 0, rpr := .done, rnpr := .done,
      mem := fun _ => 0, fxlms := initializeAnc }) (sequenceSetup (fun k => Fin.ofNat 16 (15 - k)) 10)
  exact ⟨as, hidle, hcalls, by decide, by decide,
    converts_list 4 _ as [] (fun k => Fin.ofNat 16 (15 - k)) 10 (by decide) hidle hcalls⟩

end Anc
